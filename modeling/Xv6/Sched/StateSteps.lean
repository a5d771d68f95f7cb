import Xv6.Sched.Steps

/-! The steps that change the state of a process keep the invariant. -/

namespace Xv6.Sched

open Function
open Wait (Slot ProcState Chan initproc)

variable {κ : Type} [DecidableEq κ] {s s' s₁ : State κ} {c c' : κ} {t : Thread κ} {g f : Frame}
  {frames : List Frame} {act : Act} {next : Next} {p q : Slot}

theorem Inv.run (h : Inv s) (hcur : s.cur c = ⟨t, .test q⟩)
    (hstate : (s.proc q).state = .runnable)
    (hs' : (s.upd q (Write.state .running).apply).next c (.goto (.setProc q)) = some s') :
    Inv s' := by
  have hfits := h.fits hcur
  cases t with
  | proc p => cases hfits.1
  | sched c₀ =>
    refine h.write (f := .setProc q) hcur rfl rfl (.inl rfl) (.inl rfl) rfl rfl (.goto rfl)
      (fun _ => rfl) (fun _ => .inl (.inl hstate)) (fun hu => ?_) ?_ hs'
    · rw [hstate] at hu
      cases hu
    · refine .run ?_ ?_ hstate <;> simp only [State.own, hcur] <;> rfl

theorem Inv.leave {w : Write} (h : Inv s) (hcur : s.cur c = ⟨.proc p, g⟩)
    (hg : g.plock (.proc p : Thread κ) = some p) (hleaving : g.leaving = false)
    (hw : w = .state .runnable ∨ (∃ chan, w = .sleep chan) ∨ ∃ status, w = .zombie status)
    (hf : f.plock (.proc p : Thread κ) = some p) (hfits : f.Fits (.proc p : Thread κ))
    (hleaves : f.leaving = true) (hcreates : f.creates = g.creates) (hloads : f.loads = false)
    (hlevel : g.Level f) (hsolo : f.solo = false)
    (hs' : (s.upd p w.apply).next c (.goto f) = some s') : Inv s' := by
  have hoff : Off (w.apply (s.proc p)).state := by
    rcases hw with rfl | ⟨chan, rfl⟩ | ⟨status, rfl⟩
    · exact .inl rfl
    · exact .inr (.inl rfl)
    · exact .inr (.inr rfl)
  have hruns : s.own.runs c = some (p, true) := by
    simp [State.own, hcur, Context.runs_mk, Frame.runs, hleaving, Bool.not_false]
  have hrunning : (s.proc p).state = .running := h.own.running c p hruns
  refine h.write hcur hg hf hfits hlevel hloads rfl (.goto hcreates)
    (fun hs => by rw [hsolo] at hs; cases hs) (fun _ => .inl (.inr (.inr hrunning)))
    (fun hu => ?_) ?_ hs'
  · rw [hrunning] at hu
    cases hu
  · rw [Frame.runs, hleaves]
    refine .leave ?_ hruns hoff
    simp [State.own, hcur, Context.plock_mk, hg]

theorem Inv.wake {w : Write} (h : Inv s) (hcur : s.cur c = ⟨t, g⟩) (hg : g.plock t = some q)
    (hw : (s.proc q).state = .sleeping ∧ w = .state .runnable ∨ w = .kill) (hlike : Like t g f)
    (hsolo : f.solo = false) (hs' : (s.upd q w.apply).next c (.goto f) = some s') : Inv s' := by
  have hstate : (s.proc q).state = .sleeping ∧ (w.apply (s.proc q)).state = .runnable ∨
      (w.apply (s.proc q)).state = (s.proc q).state := by
    rcases hw with ⟨hs, rfl⟩ | rfl
    · exact .inl ⟨hs, rfl⟩
    · by_cases hs : (s.proc q).state = .sleeping
      · exact .inl ⟨hs, if_pos hs⟩
      · exact .inr (if_neg hs)
  have hruns : update s.own.runs c (f.runs t) = s.own.runs := by
    rw [hlike.runs]
    simp [State.own, update_eq_self_iff, hcur, Context.runs_mk]
  have hplock : s.own.plock c = some q := by simp only [State.own, hcur, Context.plock_mk, hg]
  refine h.write hcur hg (hlike.plock.trans hg) hlike.fits hlike.level hlike.loads hlike.proc
    (.goto hlike.creates) (fun hs => by rw [hsolo] at hs; cases hs) (fun hl => ?_) (fun hu => ?_) ?_
    hs'
  · rcases hstate with ⟨hs, -⟩ | he
    · exact .inl (.inr (.inl hs))
    · exact .inl (he ▸ hl)
  · rcases hstate with ⟨hs, -⟩ | he
    · rw [hs] at hu
      cases hu
    · exact .inl (he.trans hu)
  · rw [hruns]
    rcases hstate with ⟨hs, he⟩ | he
    · refine .change hplock ?_ ?_ (.inl (.inl he))
      · rw [show s.own.state q = .sleeping from hs]
        decide
      · rw [he]
        decide
    · have hsame : update s.own.state q (w.apply (s.proc q)).state = s.own.state := by
        rw [he]
        exact update_eq_self ..
      rw [hsame]
      exact .stay

theorem Inv.free (h : Inv s) (hcur : s.cur c = ⟨t, g⟩) (hg : g.plock t = some q)
    (hruns : g.runs t = t.runs) (hstate : (s.proc q).state = .zombie) (hlike : Like t g f)
    (hsolo : f.solo = false) (hs' : (s.upd q Write.free.apply).next c (.goto f) = some s') :
    Inv s' := by
  have hsame : update s.own.runs c (f.runs t) = s.own.runs := by
    rw [hlike.runs]
    simp [State.own, update_eq_self_iff, hcur, Context.runs_mk]
  refine h.write hcur hg (hlike.plock.trans hg) hlike.fits hlike.level hlike.loads hlike.proc
    (.goto hlike.creates) (fun hs => by rw [hsolo] at hs; cases hs) (fun hl => ?_) (fun hu => ?_) ?_
    hs'
  · rcases hl with hl | hl | hl <;> cases hl
  · rw [hstate] at hu
    cases hu
  · rw [hsame]
    refine .change ?_ ?_ (show ProcState.unused ≠ .running by decide) (.inr ?_)
    · simp [State.own, hcur, Context.plock_mk, hg]
    · rw [show s.own.state q = .zombie from hstate]
      decide
    · simp only [State.own, hcur, Context.runs_mk, hruns]
      cases t <;> simp [Thread.runs]

theorem Inv.start (h : Inv s) (hcur : s.cur c = ⟨t, .forkRun q⟩)
    (hs' : (s.upd q (Write.state .runnable).apply).next c (.goto (.forkDone q)) = some s') :
    Inv s' := by
  obtain ⟨hstate, hfresh⟩ := h.creating.used t (.forkRun q) q (.inr ⟨c, hcur⟩) rfl
  have hwf := h.place.wf c
  rw [hcur] at hwf
  have hstack : s.stack t = [.body] := hwf.of_level_one rfl
  have hnone : ∀ np, ∀ r ∈ Frame.forkDone q :: s.stack t, r.creates ≠ some np := by
    intro np r hr
    rw [hstack] at hr
    rcases List.mem_cons.mp hr with rfl | hr
    · rintro ⟨⟩
    · rw [List.mem_singleton.mp hr]
      rintro ⟨⟩
  have hfits := h.fits hcur
  cases t with
  | sched c₀ => rcases hfits with h' | h' <;> cases h'
  | proc p =>
    have hsame : update s.own.runs c (some (p, true)) = s.own.runs := by
      simp only [State.own, update_eq_self_iff, hcur]
      rfl
    refine h.write (f := .forkDone q) hcur rfl rfl ⟨rfl, by rintro _ ⟨⟩⟩ (.inl rfl) rfl rfl
      (by rintro np ⟨r, hr, hnp⟩; exact absurd hnp (hnone np r hr)) (by rintro ⟨⟩)
      (fun _ => .inr hfresh) (fun _ => .inr ⟨rfl, hnone q⟩) ?_ hs'
    rw [show (Frame.forkDone q).runs (.proc p : Thread κ) = some (p, true) from rfl, hsame]
    refine .change ?_ ?_ (show ProcState.runnable ≠ .running by decide) (.inl (.inl rfl))
    · simp only [State.own, hcur]
      rfl
    · rw [show s.own.state q = .used from hstate]
      decide

/-! `allocproc`. -/

theorem Inv.allocFail (h : Inv s) (hcur : s.cur c = ⟨t, g⟩)
    (hstate : (s.proc q).state = .unused) (hlike : Like t g f) (hsolo : f.solo = false)
    (hs' : (Sched.alloc s q false).next c (.goto f) = some s') : Inv s' := by
  have hstill : Still s (Sched.alloc s q false) c := ⟨rfl, rfl, fun _ _ => rfl⟩
  have hcalm : Calm s (Sched.alloc s q false) c := by
    have hproc : (Sched.alloc s q false).proc =
        update s.proc q (Write.free.apply (s.proc q)) := rfl
    refine ⟨rfl, rfl, fun r => ?_, fun r => ?_⟩ <;> rw [hproc] <;> by_cases e : r = q
    · rw [e, update_self, hstate]
      rfl
    · rw [update_of_ne e]
    · rw [e, update_self]
      rfl
    · rw [update_of_ne e]
  obtain rfl := next_goto hstill hcur hs'
  have hm := hstill.jump hcur f (s.stack t)
  refine h.inner hcur (.of_calm h hcur hcalm hstill (h.turn hcur hlike.fits hlike.level) hlike.loads
    hlike.proc (.goto hlike.creates)) (hcalm.own hstill hcur hlike.runs hlike.plock)
    (Spin.jump ⟨h.spin.held, h.spin.sie⟩)
    (h.plocks.same hm (fun _ => rfl) (by rw [hcur]; exact hlike.plock) fun hs => ?_)
  rw [show (⟨t, f⟩ : Context κ).pc.solo = false from hsolo] at hs
  cases hs

/-- A slot that is `UNUSED` may get new registers and an empty stack. -/
def State.renew (s : State κ) (q : Slot) : State κ :=
  { s with stack := update s.stack (.proc q) [] }.upd q fun r =>
    { r with context := ⟨.proc q, .forkret⟩ }

theorem renew_proc (r : Slot) : ((s.renew q).proc r).state = (s.proc r).state := by
  by_cases e : r = q
  · rw [e, State.renew, State.upd_proc_self]
  · rw [State.renew, State.upd_proc_ne _ e]

theorem renew_context {r : Slot} (h : r ≠ q) :
    ((s.renew q).proc r).context = (s.proc r).context := by
  rw [State.renew, State.upd_proc_ne _ h]

theorem renew_stack (h : t ≠ .proc q) : (s.renew q).stack t = s.stack t := update_of_ne h ..

theorem renew_own : (s.renew q).own = s.own := by
  simp only [State.own, renew_proc]
  rfl

theorem Inv.renew (h : Inv s) (hq : (s.proc q).state = .unused) : Inv (s.renew q) := by
  have hrests : Rests s q := by
    refine h.rests ?_ ?_ <;> rw [hq]
    · decide
    · rintro (h' | h' | h') <;> cases h'
  have hmem : ∀ t, ∀ r ∈ (s.renew q).stack t, r ∈ s.stack t := by
    intro t r hr
    by_cases e : t = .proc q
    · rw [e, State.renew] at hr
      simp [State.upd] at hr
    · rwa [renew_stack e] at hr
  have hocc : ∀ t f, Occurs (s.renew q) t f → Occurs s t f := fun t f ho =>
    ho.imp (hmem t f) id
  refine ⟨by rw [renew_own]; exact h.own, ?_, ⟨h.spin.held, h.spin.sie⟩,
    ⟨h.plocks.lock, h.plocks.solo⟩, ?_, ?_⟩
  · refine ⟨h.place.fits, h.place.proc, h.place.sched,
      fun t r hr => h.place.stack t r (hmem t r hr), fun c => ?_⟩
    have hwf := h.place.wf c
    rwa [← renew_stack (hrests c)] at hwf
  · refine ⟨fun c p hp => ?_, fun c p k hp => ?_, fun p hp hl => ?_⟩
    · rw [renew_stack (t := .sched c) nofun]
      exact h.contexts.sched c p hp
    · have hpc : (s.cur c).pc = .swtchLoad p k := hp
      have hsp : (s.cur c).sp = .proc p := (h.place.fits c).of_self (by rw [hpc]; rfl)
      rw [renew_context (by rintro rfl; exact hrests c hsp)]
      exact h.contexts.saving c p k hp
    · rw [renew_proc] at hl
      have hne : p ≠ q := by
        rintro rfl
        rw [hq] at hl
        rcases hl with hl | hl | hl <;> cases hl
      rw [renew_context hne, renew_stack (by simpa using hne)]
      exact h.contexts.saved p hp hl
  · refine ⟨fun t f np ho hf => ?_, fun t t' f f' np ho ho' => ?_⟩
    · obtain ⟨hstate, hfresh⟩ := h.creating.used t f np (hocc t f ho) hf
      have hne : np ≠ q := by
        rintro rfl
        rw [hq] at hstate
        cases hstate
      exact ⟨(renew_proc np).trans hstate, (renew_context hne).trans hfresh.context,
        (renew_stack (by simpa using hne)).trans hfresh.stack⟩
    · exact h.creating.unique t t' f f' np (hocc t f ho) (hocc t' f' ho')

theorem Inv.alloc (h : Inv s) (hcur : s.cur c = ⟨t, .forkTest p q⟩)
    (hstate : (s.proc q).state = .unused)
    (hs' : (Sched.alloc s q true).next c (.goto (.forkRel p q)) = some s') : Inv s' := by
  have h₀ := h.renew hstate
  have hcur₀ : (s.renew q).cur c = ⟨t, .forkTest p q⟩ := hcur
  have hfits := h.fits hcur
  cases t with
  | sched c₀ => rcases hfits with h' | h' <;> cases h'
  | proc p₀ =>
  have hproc : (Sched.alloc s q true).proc = update s.proc q
      { s.proc q with
        state := .used, pid := s.nextpid, context := ⟨.proc q, .forkret⟩ } := rfl
  have hstill : Still (s.renew q) (Sched.alloc s q true) c := ⟨rfl, rfl, fun _ _ => rfl⟩
  obtain rfl := next_goto hstill hcur₀ hs'
  have hm := hstill.jump hcur₀ (.forkRel p q) ((s.renew q).stack (.proc p₀))
  have hst : ∀ r, (((Sched.alloc s q true).jump c (.forkRel p q)
      ((s.renew q).stack (.proc p₀))).proc r).state = update (s.renew q).own.state q .used r := by
    intro r
    show ((Sched.alloc s q true).proc r).state = _
    rw [hproc]
    by_cases e : r = q
    · rw [e, update_self, update_self]
    · rw [update_of_ne e, update_of_ne e]
      exact (renew_proc r).symm
  have htaken : Taken (s.renew q) ((Sched.alloc s q true).jump c (.forkRel p q)
      ((s.renew q).stack (.proc p₀))) q := by
    refine ⟨(renew_proc q).trans hstate, (hst q).trans (update_self ..), ?_, update_self ..⟩
    rw [State.renew, State.upd_proc_self]
  refine h₀.inner hcur₀ ⟨hm, h₀.turn hcur₀ ⟨rfl, by rintro _ ⟨⟩⟩ (.inl rfl), rfl, ?_, ?_,
    fun r => ?_, fun r hr => ?_, ?_, fun np hnp => .inl ?_⟩ ?_
    (Spin.jump ⟨h.spin.held, h.spin.sie⟩) (h₀.plocks.same hm (fun _ => rfl) (by rw [hcur₀]; rfl) ?_)
  · rw [jump_core_proc]
    exact (h.place.proc c).trans (by rw [hcur]; rfl)
  · exact jump_core_context
  · show ((Sched.alloc s q true).proc r).context = _
    rw [hproc]
    by_cases e : r = q
    · rw [e, update_self, State.renew, State.upd_proc_self]
    · rw [update_of_ne e, renew_context e]
  · rw [hst] at hr
    by_cases e : r = q
    · rw [e, update_self] at hr
      rcases hr with hr | hr | hr <;> cases hr
    · rw [update_of_ne e] at hr
      exact .inl hr
  · rintro np ⟨r, hr, hnp⟩
    rcases List.mem_cons.mp hr with rfl | hr
    · cases hnp
      exact .inr htaken
    · exact .inl ⟨r, List.mem_cons_of_mem _ hr, hnp⟩
  · rw [hst]
    by_cases e : np = q
    · rw [e, update_self]
    · rw [update_of_ne e]
      exact hnp
  · rw [hm.own_same hst (by rw [hcur₀]; rfl) (by rw [hcur₀]; rfl)]
    refine .change ?_ ?_ (show ProcState.used ≠ .running by decide) (.inr ?_)
    · simp only [State.own, hcur₀]
      rfl
    · rw [renew_own, show s.own.state q = .unused from hstate]
      decide
    · simp only [State.own, hcur₀, Context.runs_mk]
      rintro ⟨⟩
  · rintro ⟨⟩

end Xv6.Sched
