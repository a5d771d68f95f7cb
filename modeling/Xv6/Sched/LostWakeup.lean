import Xv6.Sched.Family

/-! No wakeup is lost. A process that has released the lock of its condition in a call of `sleep`
stays in that call while another CPU holds the lock, and is not `SLEEPING` when that CPU comes to
the end of `wakeup`. -/

namespace Xv6.Sched

open Function List
open Wait (Slot ProcState Chan initproc)

/-- The lock that a call of `sleep` has released and not taken again. -/
def Frame.released : Frame → Option Cond
  | sleepSet _ _ lk | sleepTidy _ lk | sleepUnlock _ lk | sleepRelock lk => some lk
  | sched _ k | swtchSave _ k _ | swtchLoad _ k | swtchBack _ k _ => k.sleeper.map Prod.snd
  | _ => none

def Alive (st : ProcState) : Prop := st ≠ .unused ∧ st ≠ .zombie

section

variable {κ : Type} (s : State κ) (q : Slot)

/-- Where the thread of process `q` is, or where its saved registers lead. -/
def Stands (f : Frame) : Prop :=
  (∃ c, s.cur c = ⟨.proc q, f⟩) ∨ Rests s q ∧ (s.proc q).context.pc = f

/-- Process `q` is in a call of `sleep(chan, lk)` that has released `lk` and not taken it again. -/
def InSleep (lk : Cond) : Prop :=
  Alive (s.proc q).state ∧
    ∃ f : Frame, (Stands s q f ∨ f ∈ s.stack (.proc q)) ∧ f.released = some lk

end

variable {κ : Type} [DecidableEq κ] {s s' s₁ : State κ} {c c₀ : κ} {t : Thread κ} {g f : Frame}
  {frames : List Frame} {act : Act} {next : Next} {p q : Slot} {chan : Chan} {lk : Cond}
  {choice : Choice}

/-- A call of `sleep` that has released its lock goes on, takes it again or switches to another
thread. -/
theorem code_released (hpc : (s.core c).cur.pc = g) (hg : g.released = some lk)
    (h : code s c choice = some (act, next)) :
    (∃ f, next = .goto f ∧ f.released = some lk) ∨ act = .acquire (.cond lk) ∨
      act = .load none := by
  unfold code at h
  rw [hpc] at h
  cases g with
  | sleepSet p chan lk' | sleepTidy p lk' | sleepUnlock p lk' | sched p k | swtchSave p k ie =>
    cases h
    exact .inl ⟨_, rfl, hg⟩
  | sleepRelock lk' =>
    cases h
    cases hg
    exact .inr (.inl rfl)
  | swtchLoad p k =>
    cases h
    exact .inr (.inr rfl)
  | swtchBack p k ie =>
    cases h
    refine .inl ⟨_, rfl, ?_⟩
    cases k <;> exact hg
  | _ => cases hg

omit [DecidableEq κ] in
theorem upd_kept {w : Write} {i : Slot} (halive : Alive (s.proc q).state)
    (hw : q = i → Alive (w.apply (s.proc q)).state) :
    Alive ((s.upd i w.apply).proc q).state ∧
      ((s.upd i w.apply).proc q).context = (s.proc q).context := by
  by_cases e : q = i
  · subst e
    rw [State.upd_proc_self]
    exact ⟨hw rfl, w.apply_context _⟩
  · rw [State.upd_proc_ne _ e]
    exact ⟨halive, rfl⟩

/-- A process that is there and does not call `kexit` stays, with its registers as it saved them. -/
theorem Kind.kept (hk : Kind s c t g act next) (hcur : s.cur c = ⟨t, g⟩) (hfits : g.Fits t)
    (hp : perform s c act = some s₁) (hpanic : s₁.panic = none)
    (hz : ∀ status, act ≠ .write q (.zombie status)) (halive : Alive (s.proc q).state) :
    Alive (s₁.proc q).state ∧ (Rests s q → (s₁.proc q).context = (s.proc q).context) := by
  have hlive : ∀ {st : ProcState}, st = .runnable ∨ st = .sleeping ∨ st = .running → Alive st := by
    rintro st (rfl | rfl | rfl) <;> exact ⟨nofun, nofun⟩
  have hcalm : act.Calm →
      Alive (s₁.proc q).state ∧ (Rests s q → (s₁.proc q).context = (s.proc q).context) := by
    intro hact
    have hc := perform_calm hp hpanic hact
    exact ⟨by rwa [hc.state], fun _ => hc.saved q⟩
  have hwrite : ∀ {i : Slot} {w : Write}, act = .write i w →
      (q = i → Alive (w.apply (s.proc q)).state) →
      Alive (s₁.proc q).state ∧ (Rests s q → (s₁.proc q).context = (s.proc q).context) := by
    intro i w he hw
    rw [he] at hp
    cases hp
    exact (upd_kept halive hw).imp_right fun h _ => h
  cases hk with
  | unlocked hquiet | locked hquiet => exact hcalm hquiet.calm
  | acquire | release => exact hcalm trivial
  | run => exact hwrite rfl fun _ => hlive (.inr (.inr rfl))
  | setProc | save | load | back | swtchLoad =>
    cases hp
    exact ⟨halive, fun _ => rfl⟩
  | @leave i w f ht hg hleaving hw =>
    refine hwrite rfl fun e => ?_
    subst e
    rcases hw with rfl | ⟨chan, rfl⟩ | ⟨status, rfl⟩
    · exact hlive (.inl rfl)
    · exact hlive (.inr (.inl rfl))
    · exact absurd rfl (hz status)
  | @swtchSave i k ie hg =>
    subst hg
    obtain rfl := hfits.of_self rfl
    cases hp
    by_cases e : q = i
    · subst e
      rw [State.upd_proc_self]
      exact ⟨halive, fun hr => absurd (by rw [hcur]) (hr c)⟩
    · rw [State.upd_proc_ne _ e]
      exact ⟨halive, fun _ => rfl⟩
  | @wake i f w hg hw =>
    refine hwrite rfl fun e => ?_
    rcases hw with ⟨-, rfl⟩ | rfl
    · exact hlive (.inl rfl)
    · by_cases hs : (s.proc q).state = .sleeping
      · exact hlive (.inl (if_pos hs))
      · rwa [show (Write.kill.apply (s.proc q)).state = (s.proc q).state from if_neg hs]
  | free hg hruns hstate => exact hwrite rfl fun e => absurd (e ▸ hstate) halive.2
  | @allocFail i f hg hstate =>
    have e : q ≠ i := fun e => halive.1 (e ▸ hstate)
    cases hp
    rw [show (Sched.alloc s i false).proc = update s.proc i (Write.free.apply (s.proc i)) from rfl,
      update_of_ne e]
    exact ⟨halive, fun _ => rfl⟩
  | @alloc p i hg hstate =>
    have e : q ≠ i := fun e => halive.1 (e ▸ hstate)
    cases hp
    rw [show (Sched.alloc s i true).proc q = s.proc q from update_of_ne e ..]
    exact ⟨halive, fun _ => rfl⟩
  | start => exact hwrite rfl fun _ => hlive (.inl rfl)
  | panic =>
    cases hp
    cases hpanic

theorem InSleep.move (h : InSleep s q lk) (hcur : s.cur c = ⟨t, g⟩) (m : Move s s' c ⟨t, f⟩ frames)
    (halive : Alive (s'.proc q).state)
    (hsaved : Rests s q → (s'.proc q).context = (s.proc q).context)
    (hkeep : ∀ r ∈ g :: s.stack t, r.released = some lk →
      ∃ r' ∈ f :: frames, r'.released = some lk) : InSleep s' q lk := by
  have hself : ∀ r ∈ g :: s.stack t, r.released = some lk → t = .proc q → InSleep s' q lk := by
    rintro r hr hrel rfl
    obtain ⟨r', hr', hrel'⟩ := hkeep r hr hrel
    refine ⟨halive, r', ?_, hrel'⟩
    rcases mem_cons.mp hr' with rfl | hr'
    · exact .inl (.inl ⟨c, m.cur⟩)
    · exact .inr (by rwa [m.stack_self (by rw [hcur])])
  obtain ⟨-, r, hr, hrel⟩ := h
  rcases hr with (⟨c', hc'⟩ | ⟨hrests, hpc⟩) | hr
  · by_cases e : c' = c
    · rw [e, hcur] at hc'
      cases hc'
      exact hself _ mem_cons_self hrel rfl
    · exact ⟨halive, r, .inl (.inl ⟨c', by rw [m.cur_ne e, hc']⟩), hrel⟩
  · exact ⟨halive, r, .inl (.inr ⟨(m.rests_iff hcur).mpr hrests, by rw [hsaved hrests, hpc]⟩), hrel⟩
  · by_cases e : t = .proc q
    · exact hself r (mem_cons_of_mem _ (e ▸ hr)) hrel e
    · exact ⟨halive, r, .inr (by rwa [m.stack_ne (by rw [hcur]; exact Ne.symm e)]), hrel⟩

theorem InSleep.inner (h : InSleep s q lk) (hcur : s.cur c = ⟨t, g⟩) (hstill : Still s s₁ c)
    (hs' : s₁.next c next = some s') (halive : Alive (s₁.proc q).state)
    (hsaved : Rests s q → (s₁.proc q).context = (s.proc q).context)
    (hg : g.released = some lk → ∃ f, next = .goto f ∧ f.released = some lk) : InSleep s' q lk := by
  have hnone : (∀ f, next ≠ .goto f) → g.released ≠ some lk := by
    intro hne hrel
    obtain ⟨f, hf, -⟩ := hg hrel
    exact hne f hf
  cases next with
  | goto f =>
    obtain rfl := next_goto hstill hcur hs'
    refine h.move hcur (hstill.jump hcur f _) halive hsaved fun r hr hrel => ?_
    rcases mem_cons.mp hr with rfl | hr
    · obtain ⟨f', hf, hrel⟩ := hg hrel
      cases hf
      exact ⟨f, mem_cons_self, hrel⟩
    · exact ⟨r, mem_cons_of_mem _ hr, hrel⟩
  | call r₀ f =>
    obtain rfl := next_call hstill hcur hs'
    refine h.move hcur (hstill.jump hcur f _) halive hsaved fun r hr hrel => ?_
    rcases mem_cons.mp hr with rfl | hr
    · exact absurd hrel (hnone nofun)
    · exact ⟨r, mem_cons_of_mem _ (mem_cons_of_mem _ hr), hrel⟩
  | ret =>
    obtain ⟨f, frames, hst, rfl⟩ := next_ret hstill hcur hs'
    refine h.move hcur (hstill.jump hcur f _) halive hsaved fun r hr hrel => ?_
    rcases mem_cons.mp hr with rfl | hr
    · exact absurd hrel (hnone nofun)
    · exact ⟨r, hst ▸ hr, hrel⟩
  | stay =>
    obtain rfl : s₁ = s' := Option.some.inj hs'
    have m : Move s s₁ c ⟨t, g⟩ (s.stack t) :=
      ⟨hstill.cur.trans hcur, by rw [hstill.stack, hcur, update_eq_self], hstill.other⟩
    exact h.move hcur m halive hsaved fun r hr hrel => ⟨r, hr, hrel⟩

theorem InSleep.renew {i : Slot} (h : InSleep s q lk) (hi : (s.proc i).state = .unused) :
    InSleep (s.renew i) q lk := by
  obtain ⟨halive, r, hr, hrel⟩ := h
  have hne : q ≠ i := fun e => halive.1 (e ▸ hi)
  refine ⟨by rwa [renew_proc], r, ?_, hrel⟩
  rcases hr with (hr | ⟨hrests, hpc⟩) | hr
  · exact .inl (.inl hr)
  · exact .inl (.inr ⟨hrests, by rw [renew_context hne, hpc]⟩)
  · exact .inr (by rwa [renew_stack (by simpa using hne)])

theorem InSleep.swtchLoad {k : Caller} (h : InSleep s q lk) (hinv : Inv s)
    (hcur : s.cur c = ⟨t, .swtchLoad p k⟩) (hp : perform s c (.load none) = some s') :
    InSleep s' q lk := by
  obtain rfl := (hinv.fits hcur).of_self rfl
  have hsp : (s.cur c).sp = .proc p := by rw [hcur]
  obtain ⟨hctx, -⟩ := hinv.contexts.sched c p (.inl hsp)
  obtain ⟨intena, hsaved⟩ := hinv.contexts.saving c p k (by rw [hcur])
  obtain rfl : (s.updCore c fun core => { core with cur := ⟨.sched c, .back p⟩ }) = s' := by
    rw [← Option.some.inj hp]
    simp [State.updCore, hctx]
  have m := Move.load s c ⟨.sched c, .back p⟩
  obtain ⟨halive, r, hr, hrel⟩ := h
  refine ⟨halive, ?_⟩
  rcases hr with (⟨c', hc'⟩ | ⟨hrests, hpc⟩) | hr
  · by_cases e : c' = c
    · rw [e, hcur] at hc'
      cases hc'
      refine ⟨.swtchBack p k intena, .inl (.inr ⟨fun c'' hc'' => ?_, ?_⟩), hrel⟩
      · by_cases e' : c'' = c
        · rw [e', m.cur] at hc''
          cases hc''
        · rw [m.cur_ne e'] at hc''
          exact e' (hinv.thread_unique (hc''.trans hsp.symm))
      · exact congrArg Context.pc hsaved
    · exact ⟨r, .inl (.inl ⟨c', by rw [m.cur_ne e, hc']⟩), hrel⟩
  · refine ⟨r, .inl (.inr ⟨fun c' hc' => ?_, hpc⟩), hrel⟩
    by_cases e : c' = c
    · rw [e, m.cur] at hc'
      cases hc'
    · rw [m.cur_ne e] at hc'
      exact hrests c' hc'
  · exact ⟨r, .inr hr, hrel⟩

theorem InSleep.load (h : InSleep s q lk) (hinv : Inv s) (hcur : s.cur c = ⟨t, .load p⟩)
    (hp : perform s c (.load (some p)) = some s') : InSleep s' q lk := by
  obtain ⟨rfl, -⟩ := hinv.sched_thread hcur rfl
  obtain ⟨hsp, -, -⟩ := hinv.resumes_of_load hcur
  cases hp
  have m := Move.load s c (s.proc p).context
  obtain ⟨halive, r, hr, hrel⟩ := h
  refine ⟨halive, r, ?_, hrel⟩
  rcases hr with (⟨c', hc'⟩ | ⟨hrests, hpc⟩) | hr
  · have e : c' ≠ c := by
      rintro rfl
      rw [hcur] at hc'
      cases hc'
    exact .inl (.inl ⟨c', by rw [m.cur_ne e, hc']⟩)
  · by_cases e : p = q
    · subst e
      refine .inl (.inl ⟨c, m.cur.trans ?_⟩)
      rw [← hsp, ← hpc]
    · refine .inl (.inr ⟨fun c' hc' => ?_, hpc⟩)
      by_cases e' : c' = c
      · rw [e', m.cur, hsp] at hc'
        exact e (Thread.proc.inj hc')
      · rw [m.cur_ne e'] at hc'
        exact hrests c' hc'
  · exact .inr hr

omit [DecidableEq κ] in
theorem InSleep.not_exit {status : Int} (h : InSleep s q lk) (hinv : Inv s)
    (hcur : s.cur c = ⟨t, .exitZombie q status⟩) : False := by
  obtain rfl := (hinv.fits hcur).of_self rfl
  have hwf := hinv.place.wf c
  rw [hcur] at hwf
  have hst : s.stack (.proc q) = [.body] := hwf.of_level_one rfl
  obtain ⟨-, r, hr, hrel⟩ := h
  rcases hr with (⟨c', hc'⟩ | ⟨hrests, -⟩) | hr
  · obtain rfl : c' = c := hinv.thread_unique (by rw [hc', hcur])
    rw [hcur] at hc'
    cases hc'
    cases hrel
  · exact hrests c (by rw [hcur])
  · rw [hst] at hr
    cases mem_singleton.mp hr
    cases hrel

theorem InSleep.intr (h : InSleep s q lk) :
    InSleep ((s.jump c .irq ((s.cur c).pc :: s.stack (s.cur c).sp)).updCore c fun core =>
      { core with sie := false }) q lk := by
  generalize hcur : s.cur c = x
  obtain ⟨t, g⟩ := x
  have hstill : Still s (s.updCore c fun core => { core with sie := false }) c :=
    .of_updCore rfl rfl rfl
  rw [jump_intr]
  exact h.move hcur (hstill.jump hcur .irq (g :: s.stack t)) h.1 (fun _ => rfl) fun r hr hrel =>
    ⟨r, mem_cons_of_mem _ hr, hrel⟩

theorem InSleep.step {e : Event κ} (h : InSleep s q lk) (hinv : Inv s)
    (hlk : s.lock (.cond lk) = some c₀) (hs : step s e = some s') : InSleep s' q lk := by
  cases e with
  | intr c =>
    simp only [Sched.step] at hs
    split at hs
    · cases hs
      exact h.intr
    · cases hs
  | run c choice =>
    obtain ⟨act, next, hcode, ⟨msg, rfl⟩ | ⟨s₁, hp, hpanic, hnext⟩⟩ := step_run hs
    · exact h
    generalize hcur : s.cur c = x
    obtain ⟨t, g⟩ := x
    have hpc : (s.core c).cur.pc = g := congrArg Context.pc hcur
    have hd := code_deed hpc hcode
    have hz : ∀ status, act ≠ .write q (.zombie status) := by
      rintro status rfl
      cases hd with
      | keep hact | idle hact | ret hact | hold hact => cases hact
      | exitZombie hg =>
        subst hg
        exact h.not_exit hinv hcur
    have hkind : Kind s c t g act next := by
      have hfits := hinv.place.fits c
      have hproc := hinv.place.proc c
      rw [hcur] at hfits hproc
      exact code_kind hcur hfits hproc (fun hsolo hg => hinv.solo_zero hcur hsolo hg) hcode
    obtain ⟨halive, hsaved⟩ := hkind.kept hcur (hinv.fits hcur) hp hpanic hz h.1
    have hinner : act ≠ .load none → g.released = some lk →
        ∃ f, next = .goto f ∧ f.released = some lk := by
      intro hload hrel
      rcases code_released hpc hrel hcode with hf | rfl | rfl
      · exact hf
      · cases hlk.symm.trans (acquire_eq hp hpanic).1
      · exact absurd rfl hload
    by_cases hsw : act.switches = false
    · refine h.inner hcur (perform_still hp hpanic hsw) hnext halive hsaved (hinner ?_)
      rintro rfl
      cases hsw
    cases hkind with
    | swtchLoad hg =>
      subst hg
      cases hnext
      exact h.swtchLoad hinv hcur hp
    | load hg =>
      subst hg
      cases hnext
      exact h.load hinv hcur hp
    | @alloc p i hg hstate =>
      cases hp
      have hne : q ≠ i := fun e => h.1.1 (e ▸ hstate)
      have hstill : Still (s.renew i) (Sched.alloc s i true) c := ⟨rfl, rfl, fun _ _ => rfl⟩
      refine (h.renew hstate).inner hcur hstill hnext halive (fun hr => ?_) (hinner (by simp))
      rw [hsaved hr, renew_context hne]
    | unlocked hquiet | locked hquiet => exact absurd hquiet.calm.switches hsw
    | _ => exact absurd rfl hsw

theorem Wf.of_sleep {rest : List Frame} (h : Wf (f :: rest)) (hf : f.depth = .call (.sleep lk)) :
    rest = [.body] ∨ lk = .wait ∧
      ∃ p addr havekids, rest = [.waitScan p addr 0 havekids, .body] := by
  obtain ⟨hrest, hover⟩ := h.of_level_two (by rw [Frame.level, hf])
  cases rest with
  | nil => cases hrest
  | cons r rest =>
    have hr := hover r rfl
    rw [hf] at hr
    cases r with
    | body =>
      rw [hrest.of_level_zero rfl]
      exact .inl rfl
    | waitScan p addr i havekids =>
      rw [hrest.of_level_one rfl]
      cases i with
      | zero => exact .inr ⟨of_decide_eq_true hr, p, addr, havekids, rfl⟩
      | succ i => cases hr
    | _ => cases hr

theorem Wf.released_below {rest : List Frame} (h : Wf (f :: rest))
    (hf : f.depth = .call (.sleep lk)) : ∀ r ∈ rest, r.released = none := by
  intro r hr
  rcases h.of_sleep hf with rfl | ⟨-, p, addr, havekids, rfl⟩
  · cases mem_singleton.mp hr
    rfl
  · rcases mem_cons.mp hr with rfl | hr
    · rfl
    · cases mem_singleton.mp hr
      rfl

theorem Frame.of_sleeper (h : f.sleeper = some (chan, lk)) :
    f.released = some lk ∧ f.depth = .call (.sleep lk) := by
  cases f with
  | sleepSet => cases h; exact ⟨rfl, rfl⟩
  | sched p k | swtchSave p k | swtchLoad p k =>
    cases k <;> cases h
    exact ⟨rfl, rfl⟩
  | _ => cases h

omit [DecidableEq κ] in
/-- A process that waits to be woken up has its call of `sleep` at the end of its thread. -/
theorem Sound.sleep_of_pending (h : Sound s) (hp : Pending s q chan lk) :
    ∃ f : Frame, Wf (f :: s.stack (.proc q)) ∧ f.depth = .call (.sleep lk) ∧
      f.released = some lk ∧ ∀ r, Stands s q r → r = f := by
  rcases hp with ⟨c, hsp, hs⟩ | ⟨hrests, hstate, ie, hpc⟩
  · obtain ⟨hrel, hdepth⟩ := Frame.of_sleeper hs
    have hwf := h.inv.place.wf c
    rw [hsp] at hwf
    refine ⟨(s.cur c).pc, hwf, hdepth, hrel, ?_⟩
    rintro r (⟨c', hc'⟩ | ⟨hrests, -⟩)
    · obtain rfl : c' = c := h.inv.thread_unique (by rw [hc', hsp])
      rw [hc']
    · exact absurd hsp (hrests c)
  · obtain ⟨-, hwf, -⟩ := h.inv.contexts.saved q hrests (.inr (.inl hstate))
    rw [hpc] at hwf
    refine ⟨_, hwf, rfl, rfl, ?_⟩
    rintro r (⟨c, hc⟩ | ⟨-, hr⟩)
    · exact absurd (by rw [hc]) (hrests c)
    · rw [← hr, hpc]

omit [DecidableEq κ] in
theorem Sound.pending_of_inSleep (h : Sound s) (hq : InSleep s q lk)
    (hstate : (s.proc q).state = .sleeping) (hchan : (s.proc q).chan = some chan) :
    Pending s q chan lk := by
  obtain ⟨chan', lk', hchan', hp⟩ := h.sleepers q hstate
  cases hchan.symm.trans hchan'
  obtain ⟨f, hwf, hdepth, hrel, hstands⟩ := h.sleep_of_pending hp
  obtain ⟨-, r, hr | hr, hrel'⟩ := hq
  · rw [hstands r hr, hrel] at hrel'
    rwa [← Option.some.inj hrel']
  · cases (hwf.released_below hdepth r hr).symm.trans hrel'

/-- A process that is in a call of `sleep(chan, lk)` with `lk` released when CPU `c` holds `lk` is
not `SLEEPING` on the channel of any `wakeup` that `c` calls before it releases `lk`, when the call
returns. And while `wait_lock` is free, a process that sleeps in `kwait` has no `ZOMBIE` child. -/
theorem no_wakeup_lost {s₀ : State κ} (h : Reachable (· = (boot : State κ)) step s₀) :
    (∀ c q chan lk i s, InSleep s₀ q lk →
      Reachable (· = s₀) (restrict (fun s _ => s.lock (.cond lk) = some c) step) s →
      s.lock (.cond lk) = some c → (s.core c).cur.pc = .wakeup chan i → NPROC ≤ i →
      ¬((s.proc q).state = .sleeping ∧ (s.proc q).chan = some chan)) ∧
    (s₀.lock (.cond .wait) = none → ∀ p q addr, .waitScan p addr 0 false ∈ s₀.stack (.proc p) →
      (s₀.proc p).state = .sleeping → (s₀.proc p).chan = some (.proc p) →
      (s₀.proc q).parent = some p → (s₀.proc q).state ≠ .zombie) := by
  have h₀ := Sound.of_reachable h
  refine ⟨fun c q chan lk i s hq hr hlk hpc hi ⟨hstate, hchan⟩ => ?_,
    fun hfree p q addr hwait hstate hchan hparent hz => ?_⟩
  · have hs : Sound s ∧ InSleep s q lk := by
      refine hr.invariant (P := fun s => Sound s ∧ InSleep s q lk) (fun s he => he ▸ ⟨h₀, hq⟩)
        fun s e s' hs hstep => ?_
      obtain ⟨hl, hstep⟩ := restrict_eq_some.mp hstep
      exact ⟨hs.1.step hstep, hs.2.step hs.1.inv hl hstep⟩
    have hp := hs.1.pending_of_inSleep hs.2 hstate hchan
    have hph : s.proto.phase c = .wake chan i (site (s.stack (s.cur c).sp)) := by
      show (s.cur c).pc.phase _ = _
      rw [show (s.cur c).pc = _ from hpc]
      rfl
    exact (hs.1.proto.good c).wake chan i _ hph lk hlk q (Nat.lt_of_lt_of_le q.isLt hi) hp
  · obtain ⟨chan, lk, hchan', hp⟩ := h₀.sleepers p hstate
    cases hchan.symm.trans hchan'
    obtain ⟨f, hwf, hdepth, -, -⟩ := h₀.sleep_of_pending hp
    rcases hwf.of_sleep hdepth with hst | ⟨rfl, -⟩
    · rw [hst] at hwait
      cases mem_singleton.mp hwait
    · obtain ⟨c, i, st, -, hh⟩ := h₀.proto.child p q hp hparent hz
      cases hfree.symm.trans ((h₀.proto.good c).hold hh)

def forkRun : List (Event (Fin 2)) :=
  firstRun ++ .run 0 .fork :: replicate 12 (.run 0 (.mem true))

/-- The child on the second CPU sleeps on 7 with lock 0, which `init` then takes. -/
def sleepRun : List (Event (Fin 2)) :=
  forkRun ++ replicate 10 (.run 1 .iret) ++ .run 1 (.acquire 0) :: .run 1 (.sleep 7 0) ::
    replicate 8 (.run 1 .iret) ++ [.run 0 (.acquire 0)]

def wakeRun : List (Event (Fin 2)) := .run 0 (.wakeup 7) :: replicate 190 (.run 0 .iret)

def waitRun : List (Event (Fin 2)) := forkRun ++ .run 0 (.wait 0) :: replicate 75 (.run 0 .iret)

theorem no_wakeup_lost_child : ∃ s₀ s s₁ : State (Fin 2), Reachable (· = boot) step s₀ ∧
    InSleep s₀ 1 (.other 0) ∧ (s₀.proc 1).state = .sleeping ∧
    Reachable (· = s₀) (restrict (fun s _ => s.lock (.cond (.other 0)) = some 0) step) s ∧
    (s.core 0).cur.pc = .wakeup (.other 7) NPROC ∧
    ¬((s.proc 1).state = .sleeping ∧ (s.proc 1).chan = some (.other 7)) ∧
    Reachable (· = boot) step s₁ ∧ s₁.lock (.cond .wait) = none ∧
    (s₁.proc 0).state = .sleeping ∧ (s₁.proc 1).parent = some 0 ∧ (s₁.proc 1).state ≠ .zombie := by
  have hwake : (runEvents step (boot : State (Fin 2)) sleepRun).any (fun s₀ =>
      decide ((s₀.proc 1).state = .sleeping ∧ (∀ c, (s₀.core c).cur.sp ≠ .proc 1) ∧
        (s₀.proc 1).context.pc.released = some (.other 0)) &&
      (runEvents (restrict (fun s _ => s.lock (.cond (.other 0)) = some (0 : Fin 2)) step) s₀
        wakeRun).any fun s => decide (s.lock (.cond (.other 0)) = some 0 ∧
          (s.core 0).cur.pc = .wakeup (.other 7) NPROC)) = true := by
    decide +kernel
  have hwait : (runEvents step (boot : State (Fin 2)) waitRun).any (fun s =>
      decide (s.lock (.cond .wait) = none ∧ .waitScan 0 0 0 false ∈ s.stack (.proc 0) ∧
        (s.proc 0).state = .sleeping ∧ (s.proc 0).chan = some (.proc 0) ∧
        (s.proc 1).parent = some 0)) = true := by
    decide +kernel
  obtain ⟨s₀, hs₀, hprop⟩ := (Option.any_eq_true _ _).mp hwake
  rw [Bool.and_eq_true] at hprop
  obtain ⟨hsleep, hrests, hrel⟩ := of_decide_eq_true hprop.1
  obtain ⟨s, hs, hprop⟩ := (Option.any_eq_true _ _).mp hprop.2
  obtain ⟨hlk, hpc⟩ := of_decide_eq_true hprop
  obtain ⟨s₁, hs₁, hprop⟩ := (Option.any_eq_true _ _).mp hwait
  obtain ⟨hfree, hmem, hstate, hchan, hparent⟩ := of_decide_eq_true hprop
  have h₀ : Reachable (· = (boot : State (Fin 2))) step s₀ := Reachable.run (.start rfl) _ hs₀
  have h₁ : Reachable (· = (boot : State (Fin 2))) step s₁ := Reachable.run (.start rfl) _ hs₁
  have hr : Reachable (· = s₀)
      (restrict (fun s _ => s.lock (.cond (.other 0)) = some (0 : Fin 2)) step) s :=
    Reachable.run (.start rfl) _ hs
  have hin : InSleep s₀ 1 (.other 0) :=
    ⟨by rw [hsleep]; exact ⟨nofun, nofun⟩, _, .inl (.inr ⟨hrests, rfl⟩), hrel⟩
  exact ⟨s₀, s, s₁, h₀, hin, hsleep, hr, hpc,
    (no_wakeup_lost h₀).1 0 1 _ _ _ s hin hr hlk hpc (Nat.le_refl _), h₁, hfree, hstate, hparent,
    (no_wakeup_lost h₁).2 hfree 0 1 0 hmem hstate hchan hparent⟩

end Xv6.Sched
