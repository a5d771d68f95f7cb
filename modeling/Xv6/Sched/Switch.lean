import Xv6.Sched.StateSteps

/-! The steps of `scheduler` and `swtch` that save and load registers keep the invariant. -/

namespace Xv6.Sched

open Function
open Wait (Slot ProcState Chan initproc)

variable {κ : Type} [DecidableEq κ] {s s' s₁ : State κ} {c c' : κ} {t : Thread κ} {g f : Frame}
  {x : Context κ} {frames : List Frame} {p q : Slot} {k : Caller}

omit [DecidableEq κ] in
theorem Inv.sched_thread (h : Inv s) (hcur : s.cur c = ⟨t, g⟩) (hg : g.isSched = true) :
    t = .sched c ∧ s.stack t = [] := by
  have hfits := h.fits hcur
  have hwf := h.place.wf c
  rw [hcur] at hwf
  cases t with
  | proc p =>
    rw [hfits.1] at hg
    cases hg
  | sched c₀ =>
    have hc := h.place.sched c c₀ (by rw [hcur])
    refine ⟨by rw [hc], hwf.of_level_zero ?_⟩
    cases g <;> first | rfl | cases hg

theorem Inv.setProc {v : Option Slot} (h : Inv s) (hcur : s.cur c = ⟨t, g⟩) (hg : g.isSched = true)
    (hf : f.isSched = true) (hloads : f.loads = false) (hgp : g.plock t = some p)
    (hfp : f.plock t = some p) (hv : f.proc t = v)
    (hown : s.own.Step c { s.own with runs := update s.own.runs c (f.runs t) })
    (hs' : (s.updCore c fun core => { core with proc := v }).next c (.goto f) = some s') :
    Inv s' := by
  obtain ⟨rfl, hstack⟩ := h.sched_thread hcur hg
  have hlevel : ∀ r : Frame, r.isSched = true →
      r.depth = .bottom ∧ r.creates = none ∧ r.solo = true := by
    intro r hr
    cases r <;> first | exact ⟨rfl, rfl, rfl⟩ | cases hr
  have hstill : Still s (s.updCore c fun core => { core with proc := v }) c :=
    .of_updCore rfl rfl rfl
  obtain rfl := next_goto hstill hcur hs'
  have hm := hstill.jump hcur f (s.stack (.sched c))
  have hplock : (⟨.sched c, f⟩ : Context κ).plock = (s.cur c).plock := by
    rw [hcur, Context.plock_mk, Context.plock_mk, hfp, hgp]
  have hturn := h.turn hcur (.inl hf) (.inl ((hlevel f hf).1.trans (hlevel g hg).1.symm))
  refine h.inner hcur ⟨hm, hturn, hloads, ?_, ?_, fun _ => rfl, fun _ => .inl, ?_,
    fun _ => .inl⟩ ?_ (Spin.jump (h.spin.updCore (fun _ => rfl) .inl))
    (h.plocks.same hm (fun _ => rfl) hplock fun _ => ?_)
  · rw [jump_core_proc, State.updCore_core_self, hv]
  · rw [jump_core_context, State.updCore_core_self]
  · rintro np ⟨r, hr, hnp⟩
    rw [hstack] at hr
    rw [List.mem_singleton.mp hr, (hlevel f hf).2.1] at hnp
    cases hnp
  · rw [hm.own_plock (fun _ => rfl) hplock]
    exact hown
  · rw [jump_core_noff, State.updCore_core_self, Context.plock_mk, hfp]
    exact h.solo_one hcur (hlevel g hg).2.2 hgp

theorem Inv.creating_same (h : Inv s) (m : Move s s' c x frames)
    (hframes : frames = s.stack (s.cur c).sp) (hx : x.pc.creates = none)
    (hstate : ∀ q, (s'.proc q).state = (s.proc q).state)
    (hsaved : ∀ q, Rests s q → (s'.proc q).context = (s.proc q).context) : Creating s' := by
  refine h.creating_move m hsaved fun t f np ho hnp => .inl ?_
  have ho' : Occurs s t f := by
    rcases m.occurs h ho with rfl | ⟨rfl, hf⟩ | ⟨-, ho'⟩
    · rw [show f.creates = none from hx] at hnp
      cases hnp
    · exact .inl (hframes ▸ hf)
    · exact ho'
  exact ⟨⟨f, ho', hnp⟩, (hstate np).trans (h.creating.used t f np ho' hnp).1⟩

theorem Inv.save (h : Inv s) (hcur : s.cur c = ⟨t, .save q⟩)
    (hp : perform s c (.save none (.back q)) = some s₁)
    (hs' : s₁.next c (.goto (.load q)) = some s') : Inv s' := by
  cases hp
  obtain ⟨rfl, hstack⟩ := h.sched_thread hcur rfl
  have hstill : Still s
    (s.updCore c fun core => { core with context := ⟨core.cur.sp, .back q⟩ }) c :=
    .of_updCore rfl rfl rfl
  obtain rfl := next_goto hstill hcur hs'
  have hm := hstill.jump hcur (.load q) (s.stack (.sched c))
  have hsp : (s.cur c).sp = .sched c := by rw [hcur]
  have hproc := h.place.proc c
  rw [hcur] at hproc
  refine ⟨?_, ?_, Spin.jump (h.spin.updCore (fun _ => rfl) .inl), ?_, ?_, ?_⟩
  · rw [hm.own_same (fun _ => rfl) (by rw [hcur]; rfl) (by rw [hcur]; rfl)]
    exact h.own
  · refine h.place_move hm (.inl rfl) ?_ (fun c' hc => (Thread.sched.inj hc).symm) ?_ ?_
    · rw [jump_core_proc, State.updCore_core_self]
      exact hproc
    · rw [hsp]
      exact h.place.stack _
    · rw [hm.stack_self hsp, hstack]
      rfl
  · refine h.plocks.same hm (fun _ => rfl) (by rw [hcur]; rfl) fun _ => ?_
    rw [jump_core_noff, State.updCore_core_self]
    exact h.solo_one hcur rfl rfl
  · refine ⟨fun c' p hc => ?_, fun c' p k hc => ?_, fun p hrests hl => ?_⟩
    · by_cases e : c' = c
      · subst e
        rw [hm.cur] at hc
        rcases hc with hc | hc
        · cases hc
        · cases hc
          rw [jump_core_context, State.updCore_core_self, hm.stack_self hsp, hstack]
          exact ⟨by rw [show (s.core c').cur = _ from hcur], rfl⟩
      · rw [hm.cur_ne e] at hc
        rw [hm.other c' e, hm.stack_ne (by rw [hsp]; simpa using e)]
        exact h.contexts.sched c' p hc
    · by_cases e : c' = c
      · rw [e, hm.cur] at hc
        cases hc
      · rw [hm.cur_ne e] at hc
        exact h.contexts.saving c' p k hc
    · rw [hm.stack_ne (by rw [hsp]; nofun)]
      refine h.contexts.saved p (fun c' => ?_) hl
      by_cases e : c' = c
      · rw [e, hsp]
        nofun
      · rw [← hm.cur_ne e]
        exact hrests c'
  · exact h.creating_same hm (by rw [hsp]) rfl (fun _ => rfl) fun _ _ => rfl

theorem Move.load (s : State κ) (c : κ) (x : Context κ) :
    Move s (s.updCore c fun core => { core with cur := x }) c x (s.stack (s.cur c).sp) :=
  ⟨by rw [State.cur, State.updCore_core_self], (update_eq_self ..).symm,
    fun _ hne => State.updCore_core_ne _ hne⟩

theorem Rests.of_load (h : Rests (s.updCore c fun core => { core with cur := x }) p)
    (hc : (s.cur c).sp ≠ .proc p) : Rests s p := by
  intro c'
  by_cases e : c' = c
  · rwa [e]
  · rw [← (Move.load s c x).cur_ne e]
    exact h c'

omit [DecidableEq κ] in
/-- When a scheduler loads the registers of a process, no CPU is in the thread of the process. -/
theorem Inv.rests_of_load (h : Inv s) (hcur : s.cur c = ⟨.sched c, .load q⟩) : Rests s q := by
  intro c' hc'
  obtain ⟨b, hb⟩ := runs_of_sp hc'
  have hruns : s.own.runs c = some (q, true) := by
    simp only [State.own, hcur]
    rfl
  have he := h.own.unique c' c q b true hb hruns
  rw [he, hcur] at hc'
  cases hc'

omit [DecidableEq κ] in
/-- The registers that a scheduler loads are those that the process saved last, or its first ones.
-/
theorem Inv.resumes_of_load (h : Inv s) (hcur : s.cur c = ⟨.sched c, .load q⟩) :
    Resumes q (s.proc q).context (s.stack (.proc q)) := by
  have hruns : s.own.runs c = some (q, true) := by
    simp only [State.own, hcur]
    rfl
  exact h.contexts.saved q (h.rests_of_load hcur) (.inr (.inr (h.own.running c q hruns)))

theorem Inv.load (h : Inv s) (hcur : s.cur c = ⟨t, .load q⟩)
    (hp : perform s c (.load (some q)) = some s') : Inv s' := by
  cases hp
  obtain ⟨rfl, hstack⟩ := h.sched_thread hcur rfl
  have hsp : (s.cur c).sp = .sched c := by rw [hcur]
  have hrests := h.rests_of_load hcur
  obtain ⟨hctx, hnil⟩ := h.contexts.sched c q (.inr (by rw [hcur]))
  have hres := h.resumes_of_load hcur
  generalize hx : (s.proc q).context = x at hres
  obtain ⟨xsp, xpc⟩ := x
  obtain ⟨rfl, hwf, hpc⟩ := hres
  have hm := Move.load s c ⟨.proc q, xpc⟩
  have hfacts : xpc.Fits (.proc q : Thread κ) ∧ xpc.runs (.proc q : Thread κ) = some (q, true) ∧
      xpc.plock (.proc q : Thread κ) = some q ∧ xpc.creates = none ∧ xpc.solo = false ∧
      (∀ p, xpc ≠ .load p) ∧ ∀ p k, xpc ≠ .swtchLoad p k := by
    rcases hpc with hpc | ⟨k, intena, hpc⟩ <;> cases hpc
    · exact ⟨⟨rfl, nofun⟩, rfl, rfl, rfl, rfl, nofun, nofun⟩
    · exact ⟨⟨rfl, fun _ h' => (Option.some.inj h').symm⟩, rfl, rfl, rfl, rfl, nofun, nofun⟩
  obtain ⟨hfits, hruns, hplock, hcreates, hsolo, hnl, hns⟩ := hfacts
  have hproc := h.place.proc c
  rw [hcur] at hproc
  refine ⟨?_, ?_, h.spin.updCore (fun _ => rfl) .inl, ?_, ?_, ?_⟩
  · rw [hm.own_same (fun _ => rfl) (by rw [hcur]; exact hruns) (by rw [hcur]; exact hplock)]
    exact h.own
  · refine h.place_move hm hfits ?_ nofun (h.place.stack _) hwf
    rw [State.updCore_core_self]
    exact hproc
  · refine h.plocks.same hm (fun _ => rfl) (by rw [hcur]; exact hplock) fun hs => ?_
    rw [show xpc.solo = true from hs] at hsolo
    cases hsolo
  · refine ⟨fun c' p hc => ?_, fun c' p k hc => ?_, fun p hp' hl => ?_⟩
    · by_cases e : c' = c
      · subst e
        rw [hm.cur] at hc
        rcases hc with hc | hc
        · cases hc
          rw [State.updCore_core_self]
          exact ⟨hctx, hnil⟩
        · exact absurd hc (hnl p)
      · rw [hm.cur_ne e] at hc
        rw [hm.other c' e]
        exact h.contexts.sched c' p hc
    · by_cases e : c' = c
      · rw [e, hm.cur] at hc
        exact absurd hc (hns p k)
      · rw [hm.cur_ne e] at hc
        exact h.contexts.saving c' p k hc
    · exact h.contexts.saved p (hp'.of_load (by rw [hsp]; nofun)) hl
  · exact h.creating_same hm rfl hcreates (fun _ => rfl) fun _ _ => rfl

theorem Inv.swtchSave {intena : Bool} (h : Inv s) (hcur : s.cur c = ⟨t, .swtchSave p k intena⟩)
    (hp : perform s c (.save (some p) (.swtchBack p k intena)) = some s₁)
    (hs' : s₁.next c (.goto (.swtchLoad p k)) = some s') : Inv s' := by
  cases hp
  obtain rfl := (h.fits hcur).of_self rfl
  have hsp : (s.cur c).sp = .proc p := by rw [hcur]
  obtain rfl := next_goto Still.upd hcur hs'
  have hm := (Still.upd (s := s) (c := c) (q := p) (r := fun q =>
    { q with context := ⟨(s.core c).cur.sp, .swtchBack p k intena⟩ })).jump hcur (.swtchLoad p k)
    (s.stack (.proc p))
  have hother : ∀ r, r ≠ p → ((s.upd p fun q => { q with
      context := ⟨(s.core c).cur.sp, .swtchBack p k intena⟩ }).proc r) = s.proc r :=
    fun r hr => State.upd_proc_ne _ hr
  have hstate : ∀ r, ((s.upd p fun q => { q with
      context := ⟨(s.core c).cur.sp, .swtchBack p k intena⟩ }).proc r).state =
      (s.proc r).state := by
    intro r
    by_cases e : r = p
    · rw [e, State.upd_proc_self]
    · rw [hother r e]
  have hwf := h.place.wf c
  have hproc := h.place.proc c
  rw [hcur] at hwf hproc
  refine ⟨?_, ?_, Spin.jump ⟨h.spin.held, h.spin.sie⟩, ?_, ?_, ?_⟩
  · rw [hm.own_same hstate (by rw [hcur]; rfl) (by rw [hcur]; rfl)]
    exact h.own
  · refine h.place_move hm ⟨rfl, fun _ h' => (Option.some.inj h').symm⟩ ?_ nofun ?_ ?_
    · rw [jump_core_proc]
      exact hproc
    · rw [hsp]
      exact h.place.stack _
    · rw [hm.stack_self hsp]
      exact hwf.goto (.inl rfl)
  · refine h.plocks.same hm (fun _ => rfl) (by rw [hcur]; rfl) fun _ => ?_
    rw [jump_core_noff]
    exact h.solo_one hcur rfl rfl
  · refine ⟨fun c' r hc => ?_, fun c' r k' hc => ?_, fun r hrests hl => ?_⟩
    · by_cases e : c' = c
      · subst e
        rw [hm.cur] at hc
        rcases hc with hc | hc
        · cases hc
          rw [jump_core_context, hm.stack_ne (by rw [hsp]; nofun)]
          exact h.contexts.sched c' p (.inl hsp)
        · cases hc
      · rw [hm.cur_ne e] at hc
        rw [hm.other c' e, hm.stack_ne (by rw [hsp]; nofun)]
        exact h.contexts.sched c' r hc
    · by_cases e : c' = c
      · rw [e, hm.cur] at hc
        cases hc
        refine ⟨intena, ?_⟩
        rw [jump_proc, State.upd_proc_self, show (s.core c).cur.sp = _ from hsp]
      · rw [hm.cur_ne e] at hc
        have hsp' : (s.cur c').sp = .proc r := (h.place.fits c').of_self (by rw [hc]; rfl)
        have hne : r ≠ p := by
          rintro rfl
          exact e (h.thread_unique (hsp'.trans hsp.symm))
        obtain ⟨i, hi⟩ := h.contexts.saving c' r k' hc
        exact ⟨i, by rw [← hi, ← hother r hne]; rfl⟩
    · have hne : r ≠ p := by
        rintro rfl
        have := hrests c
        rw [hm.cur] at this
        exact this rfl
      have hrests' : Rests s r := by
        intro c'
        by_cases e : c' = c
        · rw [e, hsp]
          simpa using hne.symm
        · rw [← hm.cur_ne e]
          exact hrests c'
      rw [hm.stack_ne (by rw [hsp]; simpa using hne)]
      rw [jump_proc, hother r hne]
      exact h.contexts.saved r hrests' (hstate r ▸ hl)
  · refine h.creating_same hm (by rw [hsp]) rfl hstate fun r hr => ?_
    have hne : r ≠ p := by
      rintro rfl
      exact hr c hsp
    rw [jump_proc, hother r hne]

theorem Inv.swtchLoad (h : Inv s) (hcur : s.cur c = ⟨t, .swtchLoad p k⟩)
    (hp : perform s c (.load none) = some s') : Inv s' := by
  cases hp
  obtain rfl := (h.fits hcur).of_self rfl
  have hsp : (s.cur c).sp = .proc p := by rw [hcur]
  obtain ⟨hctx, hnil⟩ := h.contexts.sched c p (.inl hsp)
  obtain ⟨intena, hsaved⟩ := h.contexts.saving c p k (by rw [hcur])
  have heq : (s.updCore c fun core => { core with cur := core.context }) =
      s.updCore c fun core => { core with cur := ⟨.sched c, .back p⟩ } := by
    simp [State.updCore, hctx]
  rw [heq]
  have hm := Move.load s c ⟨.sched c, .back p⟩
  have hwf := h.place.wf c
  have hproc := h.place.proc c
  rw [hcur] at hwf hproc
  refine ⟨?_, ?_, h.spin.updCore (fun _ => rfl) .inl, ?_, ?_, ?_⟩
  · rw [hm.own_same (fun _ => rfl) (by rw [hcur]; rfl) (by rw [hcur]; rfl)]
    exact h.own
  · refine h.place_move hm (.inl rfl) ?_ (fun c' hc => (Thread.sched.inj hc).symm)
      (h.place.stack _) ?_
    · rw [State.updCore_core_self]
      exact hproc
    · rw [show (s.updCore c _).stack (.sched c) = [] from hnil]
      rfl
  · refine h.plocks.same hm (fun _ => rfl) (by rw [hcur]; rfl) fun _ => ?_
    rw [State.updCore_core_self]
    exact h.solo_one hcur rfl rfl
  · refine ⟨fun c' r hc => ?_, fun c' r k' hc => ?_, fun r hrests hl => ?_⟩
    · by_cases e : c' = c
      · rw [e, hm.cur] at hc
        rcases hc with hc | hc <;> cases hc
      · rw [hm.cur_ne e] at hc
        rw [hm.other c' e]
        exact h.contexts.sched c' r hc
    · by_cases e : c' = c
      · rw [e, hm.cur] at hc
        cases hc
      · rw [hm.cur_ne e] at hc
        exact h.contexts.saving c' r k' hc
    · by_cases e : r = p
      · subst e
        show Resumes r (s.proc r).context _
        rw [hsaved]
        exact ⟨rfl, hwf.goto (.inl rfl), .inr ⟨k, intena, rfl⟩⟩
      · exact h.contexts.saved r (hrests.of_load (by rw [hsp]; simpa using Ne.symm e)) hl
  · exact h.creating_same hm rfl rfl (fun _ => rfl) fun _ _ => rfl

end Xv6.Sched
