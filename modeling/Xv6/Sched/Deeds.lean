import Xv6.Sched.Wakeups

/-! Every step of the machine is a step of the protocol. -/

namespace Xv6.Sched

open Function
open Wait (Slot ProcState Chan initproc)

variable {κ : Type} [DecidableEq κ] {s s' s₁ : State κ} {c : κ} {t : Thread κ} {g f r : Frame}
  {frames : List Frame} {act : Act} {p q : Slot} {chan : Chan} {lk : Cond}

omit [DecidableEq κ] in
theorem Sound.below (h : Sound s) (hcur : s.cur c = ⟨t, g⟩) (hst : s.stack t = f :: frames) :
    Below frames ∧ (f = .irq → (phaseOf frames).holds = false) ∧ f.plock t = none ∧
      Wf (g :: f :: frames) := by
  have hbelow := h.stack t
  rw [hst] at hbelow
  have hwf := h.inv.place.wf c
  rw [hcur, show s.stack (⟨t, g⟩ : Context κ).sp = f :: frames from hst] at hwf
  exact ⟨hbelow.2, hbelow.1, (h.inv.place.stack t f (by rw [hst]; exact List.mem_cons_self)).2, hwf⟩

omit [DecidableEq κ] in
theorem Sound.irq_of (h : Sound s) (hcur : s.cur c = ⟨t, .irq⟩) :
    (phaseOf (s.stack t)).holds = false := by
  have := h.irq c
  rw [hcur] at this
  exact this rfl

theorem Act.switches_of_safe (hact : act.Safe = true) : act.switches = false := by
  cases act with
  | alloc q ok => cases ok <;> first | rfl | cases hact
  | load p => cases hact
  | _ => rfl

/-! Steps that begin and end no phase, and those that end one. -/

section

variable (h : Sound s) (hinv : Inv s') (hcur : s.cur c = ⟨t, g⟩)

include h hinv hcur

/-- A step that stays in its phase. -/
theorem Sound.keep (hact : act.Safe = true)
    (hcond : act.cond = none) (hphase : ∀ rest, f.phase rest = g.phase rest)
    (hsleeper : f.sleeper = g.sleeper) (hirq : f ≠ .irq) (hp : perform s c act = some s₁)
    (hpanic : s₁.panic = none) (hs' : s₁.next c (.goto f) = some s') : Sound s' := by
  have hm := perform_mild hp hpanic hact
  have hlk := perform_cond hp hpanic hact hcond
  have hstill := perform_still hp hpanic (Act.switches_of_safe hact)
  obtain rfl := next_goto hstill hcur hs'
  have hmove := hstill.jump hcur f (s.stack t)
  refine h.mild hinv hcur hmove hm.jump hsleeper ?_
    (fun chan i site hph hh => .inl ⟨i, site, ?_, ?_⟩) (h.stack t) fun he => absurd he hirq
  · rw [hphase]
    exact h.good_mono hcur hmove hm.jump hsleeper hlk
  · rw [hphase, hph]
  · rwa [hphase]

theorem Sound.idle (hact : act.Safe = true)
    (hg : g.wakes = false) (hphase : ∀ rest, f.phase rest = .idle)
    (hsleeper : f.sleeper = g.sleeper) (hirq : f = .irq → g = .irq)
    (hp : perform s c act = some s₁) (hpanic : s₁.panic = none)
    (hs' : s₁.next c (.goto f) = some s') : Sound s' := by
  have hm := perform_mild hp hpanic hact
  have hstill := perform_still hp hpanic (Act.switches_of_safe hact)
  obtain rfl := next_goto hstill hcur hs'
  refine h.mild hinv hcur (hstill.jump hcur f (s.stack t)) hm.jump hsleeper ?_
    (Frame.not_wake hg _) (h.stack t) fun he => ?_
  · rw [hphase]
    exact .idle
  · rw [hirq he] at hcur
    exact h.irq_of hcur

/-- A call, of `wakeup` or outside of any phase. -/
theorem Sound.call (hg : g.wakes = false)
    (hphase : ∀ rest, f.phase (r :: rest) = .idle ∨
      ∃ chan, f.phase (r :: rest) = .wake chan 0 .plain)
    (hsleeper : f.sleeper = g.sleeper) (hirq : f ≠ .irq) (hr : r = .irq → g = .irq)
    (hs' : s.next c (.call r f) = some s') : Sound s' := by
  obtain rfl := next_call Still.refl hcur hs'
  refine h.mild hinv hcur (Still.refl.jump hcur f (r :: s.stack t)) Mild.refl.jump hsleeper ?_
    (Frame.not_wake hg _) ⟨fun he => ?_, h.stack t⟩
    fun he => absurd he hirq
  · rcases hphase (s.stack t) with hp | ⟨chan, hp⟩ <;> rw [hp]
    · exact .idle
    · exact .plain
  · rw [hr he] at hcur
    exact h.irq_of hcur

theorem Sound.ret (hact : act.Safe = true)
    (hsleeper : g.sleeper = none)
    (hg : g.level = 1 ∨ g.depth = .call .yield ∨ g = .irq ∧ act = .sie true ∧ (s.core c).noff = 0)
    (hp : perform s c act = some s₁) (hpanic : s₁.panic = none)
    (hs' : s₁.next c .ret = some s') : Sound s' := by
  have hm := perform_mild hp hpanic hact
  have hstill := perform_still hp hpanic (Act.switches_of_safe hact)
  obtain ⟨f, frames, hst, rfl⟩ := next_ret hstill hcur hs'
  obtain ⟨hbelow, hirq, hplock, hwf⟩ := h.below hcur hst
  have hwakes : g.wakes = false := by
    rcases hg with h1 | hy | ⟨rfl, -⟩
    · exact Frame.wakes_of_level (by rw [h1]; decide)
    · cases g <;> first | rfl | cases hy
    · rfl
  refine h.mild hinv hcur (hstill.jump hcur f frames) hm.jump
    ((Frame.sleeper_of_plock_none hplock).trans hsleeper.symm) ?_
    (Frame.not_wake hwakes _) hbelow hirq
  rcases hg with h1 | hy | ⟨rfl, rfl, hnoff⟩
  · cases hwf.of_level_one h1
    exact .idle
  · have hover := (hwf.of_level_two (by simp [Frame.level, hy])).2 f rfl
    rw [hy] at hover
    cases f <;> first | exact .idle | cases hover
  · refine .of_free ?_ fun lk hl => ?_
    · have := h.irq_of hcur
      rwa [hst] at this
    · cases hp
      exact h.inv.no_lock hnoff _ hl

end

omit [DecidableEq κ] in
theorem Inv.rests_of_pending (h : Inv s) (hcur : s.cur c = ⟨t, g⟩) (hg : g.plock t = some q)
    (hs : g.sleeper = none) (hp : Pending s q chan lk) :
    Rests s q ∧ (s.proc q).state = .sleeping ∧
      ∃ intena, (s.proc q).context.pc = .swtchBack q (.sleep chan lk) intena := by
  rcases hp with ⟨c', hsp, hs'⟩ | hp
  · have hc' := (h.plocks.lock c' q).mpr (h.plock_of_sleeper hsp hs')
    have hc := (h.plocks.lock c q).mpr (by rw [hcur]; exact hg)
    obtain rfl := Option.some.inj (hc.symm.trans hc')
    rw [hcur] at hs'
    cases hs.symm.trans hs'
  · exact hp

variable (h : Sound s) (hinv : Inv s')

include h hinv

/-! `wait_lock`. -/

theorem Sound.take (hcur : s.cur c = ⟨t, g⟩) (hg : g.wakes = false)
    (hphase : (∀ rest, f.phase rest = .hold) ∨ ∃ p, ∀ rest, f.phase rest = .scan p 0)
    (hsleeper : f.sleeper = g.sleeper) (hp : perform s c (.acquire (.cond .wait)) = some s₁)
    (hpanic : s₁.panic = none) (hs' : s₁.next c (.goto f) = some s') : Sound s' := by
  have hm := perform_mild hp hpanic rfl
  have hstill := perform_still hp hpanic rfl
  obtain rfl := next_goto hstill hcur hs'
  have hirq : f ≠ .irq := by
    rintro rfl
    rcases hphase with hph | ⟨p, hph⟩ <;> cases hph []
  have hlk : (s₁.jump c f (s.stack t)).proto.holder .wait = some c := by
    obtain ⟨-, rfl⟩ := acquire_eq hp hpanic
    show update s.lock (.cond .wait) (some c) (.cond .wait) = some c
    exact update_self ..
  refine h.mild hinv hcur (hstill.jump hcur f (s.stack t)) hm.jump hsleeper ?_
    (Frame.not_wake hg _) (h.stack t)
    fun he => absurd he hirq
  rcases hphase with hph | ⟨p, hph⟩ <;> rw [hph]
  · exact .of_hold hlk
  · exact .of_scan hlk nofun

theorem Sound.hold (hcur : s.cur c = ⟨t, g⟩) (hact : act.Safe = true)
    (hcond : act.cond = none) (hg : g.wakes = false)
    (hholds : ∀ rest, (g.phase rest).holds = true) (hphase : ∀ rest, f.phase rest = .hold)
    (hsleeper : f.sleeper = g.sleeper) (hp : perform s c act = some s₁) (hpanic : s₁.panic = none)
    (hs' : s₁.next c (.goto f) = some s') : Sound s' := by
  have hm := perform_mild hp hpanic hact
  have hlk := perform_cond hp hpanic hact hcond
  have hstill := perform_still hp hpanic (Act.switches_of_safe hact)
  obtain rfl := next_goto hstill hcur hs'
  have hirq : f ≠ .irq := by
    rintro rfl
    cases hphase []
  refine h.mild hinv hcur (hstill.jump hcur f (s.stack t)) hm.jump hsleeper ?_
    (Frame.not_wake hg _) (h.stack t)
    fun he => absurd he hirq
  rw [hphase]
  exact .of_hold ((hlk .wait).trans ((h.good hcur).hold (hholds _)))

/-! `sleep`. -/

/-- `sleep` releases the condition lock, with `p->lock` held. -/
theorem Sound.sleepRel (hcur : s.cur c = ⟨t, .sleepRel p chan lk⟩)
    (hp : perform s c (.release (.cond lk)) = some s₁) (hpanic : s₁.panic = none)
    (hs' : s₁.next c (.goto (.sleepSet p chan lk)) = some s') : Sound s' := by
  have hm := perform_mild hp hpanic rfl
  have hstill := perform_still hp hpanic rfl
  obtain rfl := next_goto hstill hcur hs'
  have hlk : s.lock (.cond lk) = some c := by
    cases hp
    exact (release_eq hpanic).1
  refine h.inner hinv hcur (hstill.jump hcur _ (s.stack t)) hm.jump.tame nofun
    (fun q hq => .inl (hm.sleeping q hq)) (fun chan' lk' he => .inr ?_)
    (fun q hz => .inl (hm.zombie q hz)) (fun q p hq => .inl (hm.parent q p hq)) .idle
    (Frame.not_wake rfl _) (h.stack t) nofun
  cases he
  refine ⟨hlk, fun p' hc hw => ?_⟩
  subst hc hw
  rfl

theorem Sound.sleepSet (hcur : s.cur c = ⟨t, .sleepSet p chan lk⟩)
    (hs' : (s.upd p (Write.sleep chan).apply).next c (.goto (.sched p (.sleep chan lk))) =
    some s') : Sound s' := by
  obtain rfl := (h.inv.fits hcur).of_self rfl
  obtain rfl := next_goto Still.upd hcur hs'
  have hself : (s.upd p (Write.sleep chan).apply).proc p =
      { s.proc p with chan := some chan, state := .sleeping } := State.upd_proc_self _
  have hne : ∀ {q}, q ≠ p → (s.upd p (Write.sleep chan).apply).proc q = s.proc q :=
    State.upd_proc_ne _
  have hrests : ∀ {q}, Rests s q → q ≠ p := by
    rintro q hq rfl
    exact hq c (by rw [hcur])
  refine h.inner hinv hcur (Still.upd.jump hcur _ _)
    ⟨fun q hq hs => ?_, fun q hq => ?_, fun _ _ _ => Iff.rfl⟩ (fun _ => id) (fun q hq => ?_)
    (fun _ _ => .inl) (fun q hq => .inl ?_) (fun q p' hq => .inl ?_) .idle nofun (h.stack _) nofun
  · rwa [jump_proc, hne (hrests hq)] at hs
  · rw [jump_proc, hne (hrests hq)]
  · rw [jump_proc] at hq ⊢
    by_cases e : q = p
    · subst e
      rw [hself]
      exact .inr ⟨chan, lk, rfl, rfl, rfl⟩
    · rw [hne e] at hq ⊢
      exact .inl ⟨hq, rfl⟩
  · rw [jump_proc] at hq
    by_cases e : q = p
    · rw [e, hself] at hq
      cases hq
    · rwa [hne e] at hq
  · rw [jump_proc] at hq
    by_cases e : q = p
    · subst e
      rwa [hself] at hq
    · rwa [hne e] at hq

theorem Sound.own_store {u : Proc κ → Proc κ} (hcur : s.cur c = ⟨.proc p, g⟩)
    (hs' : (s.upd p u).next c (.goto f) = some s')
    (hg : g.wakes = false) (hphase : ∀ rest, f.phase rest = .idle)
    (hsleeper : f.sleeper = g.sleeper) (hirq : f ≠ .irq)
    (hstate : (u (s.proc p)).state = (s.proc p).state)
    (hparent : (u (s.proc p)).parent = (s.proc p).parent)
    (hchan : (s.proc p).state = .sleeping → (u (s.proc p)).chan = (s.proc p).chan) : Sound s' := by
  obtain rfl := next_goto Still.upd hcur hs'
  have hne : ∀ {q}, q ≠ p → (s.upd p u).proc q = s.proc q := State.upd_proc_ne _
  have hrests : ∀ {q}, Rests s q → q ≠ p := by
    rintro q hq rfl
    exact hq c (by rw [hcur])
  have hst : ∀ q, ((s.upd p u).proc q).state = (s.proc q).state := by
    intro q
    by_cases e : q = p
    · rw [e, State.upd_proc_self, hstate]
    · rw [hne e]
  refine h.mild hinv hcur (Still.upd.jump hcur _ _)
    ⟨⟨fun q hq hs => (hst q).symm.trans hs, fun q hq => ?_, fun _ _ _ => Iff.rfl⟩,
      fun q hq => ⟨(hst q).symm.trans hq, ?_⟩, fun q hq => (hst q).symm.trans hq, fun q p' hq => ?_⟩
    hsleeper (by rw [hphase]; exact .idle)
    (Frame.not_wake hg _) (h.stack _)
    fun he => absurd he hirq
  · rw [jump_proc, hne (hrests hq)]
  · have hq' := (hst q).symm.trans hq
    rw [jump_proc]
    by_cases e : q = p
    · subst e
      rw [State.upd_proc_self]
      exact hchan hq'
    · rw [hne e]
  · rw [jump_proc] at hq
    by_cases e : q = p
    · subst e
      rwa [State.upd_proc_self, hparent] at hq
    · rwa [hne e] at hq

theorem Sound.relock (hcur : s.cur c = ⟨t, .sleepRelock lk⟩)
    (hp : perform s c (.acquire (.cond lk)) = some s₁) (hpanic : s₁.panic = none)
    (hs' : s₁.next c .ret = some s') : Sound s' := by
  have hm := perform_mild hp hpanic rfl
  have hstill := perform_still hp hpanic rfl
  obtain ⟨f, frames, hst, rfl⟩ := next_ret hstill hcur hs'
  obtain ⟨hbelow, hirq, hplock, hwf⟩ := h.below hcur hst
  have hlk : (s₁.jump c f frames).proto.holder lk = some c := by
    obtain ⟨-, rfl⟩ := acquire_eq hp hpanic
    exact update_self ..
  refine h.mild hinv hcur (hstill.jump hcur f frames) hm.jump
    (Frame.sleeper_of_plock_none hplock) ?_ nofun hbelow hirq
  -- `sleep` returns to `kwait`, or to a place outside of the calls
  have hover := (hwf.of_level_two rfl).2 f rfl
  cases f with
  | body => exact .idle
  | waitScan p addr i havekids =>
    cases i with
    | zero =>
      obtain rfl : lk = .wait := of_decide_eq_true hover
      exact .of_scan hlk nofun
    | succ i => cases hover
  | _ => cases hover

/-! `swtch`. -/

/-- A CPU loads the registers of another thread. -/
theorem Sound.loaded {x : Context κ} (m : Move s s' c x (s.stack (s.cur c).sp))
    (hproc : s'.proc = s.proc) (hlock : s'.lock = s.lock)
    (hg : (s.cur c).pc.wakes = false) (hphase : ∀ rest, x.pc.phase rest = .idle)
    (hirq : x.pc ≠ .irq) (hpend : ∀ q chan lk, Pending s' q chan lk → Pending s q chan lk)
    (hstays : ∀ q chan lk, (s.proc q).state = .sleeping → Pending s q chan lk →
      Pending s' q chan lk) : Sound s' := by
  have hstack : s'.stack = s.stack := by rw [m.stack, update_eq_self]
  have hidle : s'.proto.phase c = .idle := by
    show s'.phase c = _
    rw [State.phase, m.cur, hphase]
  refine ⟨hinv, h.proto.step ⟨fun c' hne => m.phase_ne h.inv hne, fun c' _ lk => ?_,
    fun q chan lk hp => .inl (hpend q chan lk hp), fun q hq => .inl ?_, fun q p hq => .inl ?_, ?_,
    Frame.not_wake hg _⟩, fun q hq => ?_, fun t => ?_, fun c' hc => ?_⟩
  · show s'.lock (.cond lk) = _ ↔ _
    rw [hlock]
    exact Iff.rfl
  · rwa [show s'.proto.zombie q = ((s'.proc q).state = .zombie) from rfl, hproc] at hq
  · rwa [show s'.proto.parent q = (s'.proc q).parent from rfl, hproc] at hq
  · rw [hidle]
    exact .idle
  · rw [hproc] at hq
    obtain ⟨chan, lk, hchan, hp⟩ := h.sleepers q hq
    exact ⟨chan, lk, by rw [hproc, hchan], hstays q chan lk hq hp⟩
  · rw [hstack]
    exact h.stack t
  · by_cases e : c' = c
    · rw [e, m.cur] at hc
      exact absurd hc hirq
    · rw [m.cur_ne e] at hc ⊢
      rw [hstack]
      exact h.irq c' hc

theorem Sound.swtchLoad {k : Caller} (hcur : s.cur c = ⟨t, .swtchLoad p k⟩)
    (hp : perform s c (.load none) = some s') : Sound s' := by
  obtain rfl := (h.inv.fits hcur).of_self rfl
  have hsp : (s.cur c).sp = .proc p := by rw [hcur]
  obtain ⟨hctx, -⟩ := h.inv.contexts.sched c p (.inl hsp)
  obtain ⟨intena, hsaved⟩ := h.inv.contexts.saving c p k (by rw [hcur])
  have heq : s' = s.updCore c fun core => { core with cur := ⟨.sched c, .back p⟩ } := by
    rw [← Option.some.inj hp]
    simp [State.updCore, hctx]
  have m : Move s s' c ⟨.sched c, .back p⟩ (s.stack (s.cur c).sp) := heq ▸ Move.load s c _
  have hproc : s'.proc = s.proc := by rw [heq]; rfl
  have hrests : ∀ q, Rests s' q ↔ q = p ∨ Rests s q := by
    refine fun q => ⟨fun hq => ?_, fun hq c' hc' => ?_⟩
    · by_cases e : q = p
      · exact .inl e
      · rw [heq] at hq
        exact .inr (hq.of_load (by rw [hsp]; simpa using Ne.symm e))
    · by_cases e : c' = c
      · rw [e, m.cur] at hc'
        cases hc'
      · rw [m.cur_ne e] at hc'
        rcases hq with rfl | hq
        · exact e (h.inv.thread_unique (hc'.trans hsp.symm))
        · exact hq c' hc'
  refine h.loaded hinv m hproc (by rw [heq]; rfl) (by rw [hcur]; rfl) (fun _ => rfl) (by simp)
    (fun q chan lk hq => ?_) fun q chan lk hst hq => ?_
  · rcases hq with ⟨c', hc', hs⟩ | ⟨hq, hst, i, hpc⟩
    · by_cases e : c' = c
      · rw [e, m.cur] at hc'
        cases hc'
      · rw [m.cur_ne e] at hc' hs
        exact .inl ⟨c', hc', hs⟩
    · rw [hproc] at hst hpc
      rcases (hrests q).mp hq with rfl | hq
      · -- the process that has just left the CPU
        rw [hsaved] at hpc
        cases hpc
        exact .inl ⟨c, hsp, by rw [hcur]; rfl⟩
      · exact .inr ⟨hq, hst, i, hpc⟩
  · rcases hq with ⟨c', hc', hs⟩ | ⟨hq, hq'⟩
    · by_cases e : c' = c
      · rw [e, hcur] at hc' hs
        cases hc'
        rw [Pending, hproc, hsaved]
        refine .inr ⟨(hrests p).mpr (.inl rfl), hst, intena, ?_⟩
        cases k <;> cases hs
        rfl
      · exact .inl ⟨c', by rwa [m.cur_ne e], by rwa [m.cur_ne e]⟩
    · rw [Pending, hproc]
      exact .inr ⟨(hrests q).mpr (.inr hq), hq'⟩

theorem Sound.load (hcur : s.cur c = ⟨t, .load q⟩)
    (hp : perform s c (.load (some q)) = some s') : Sound s' := by
  obtain ⟨rfl, -⟩ := h.inv.sched_thread hcur rfl
  have hsp : (s.cur c).sp = .sched c := by rw [hcur]
  have hstate : (s.proc q).state = .running := h.inv.own.running c q (by
    simp only [State.own, hcur]
    rfl)
  have hres := h.inv.resumes_of_load hcur
  generalize hx : (s.proc q).context = x at hres
  obtain ⟨xsp, xpc⟩ := x
  obtain ⟨rfl, -, hpc⟩ := hres
  have heq : s' = s.updCore c fun core => { core with cur := ⟨.proc q, xpc⟩ } := by
    rw [← Option.some.inj hp, hx]
  have m : Move s s' c ⟨.proc q, xpc⟩ (s.stack (s.cur c).sp) := heq ▸ Move.load s c _
  have hproc : s'.proc = s.proc := by rw [heq]; rfl
  have hfacts : xpc.sleeper = none ∧ (∀ rest, xpc.phase rest = .idle) ∧ xpc ≠ .irq := by
    rcases hpc with hpc | ⟨k, intena, hpc⟩ <;> cases hpc <;> exact ⟨rfl, fun _ => rfl, by simp⟩
  obtain ⟨hnone, hphase, hirq⟩ := hfacts
  refine h.loaded hinv m hproc (by rw [heq]; rfl) (by rw [hcur]; rfl) hphase hirq
    (fun r chan lk hr => ?_) fun r chan lk hst hr => ?_
  · rcases hr with ⟨c', hc', hs⟩ | ⟨hr, hr'⟩
    · by_cases e : c' = c
      · rw [e, m.cur, show (⟨.proc q, xpc⟩ : Context κ).pc.sleeper = none from hnone] at hs
        cases hs
      · rw [m.cur_ne e] at hc' hs
        exact .inl ⟨c', hc', hs⟩
    · rw [hproc] at hr'
      rw [heq] at hr
      exact .inr ⟨hr.of_load (by simp [hsp]), hr'⟩
  · have hne : r ≠ q := by
      rintro rfl
      rw [hstate] at hst
      cases hst
    rcases hr with ⟨c', hc', hs⟩ | ⟨hr, hr'⟩
    · have e : c' ≠ c := by
        rintro rfl
        rw [hsp] at hc'
        cases hc'
      exact .inl ⟨c', by rwa [m.cur_ne e], by rwa [m.cur_ne e]⟩
    · rw [Pending, hproc]
      refine .inr ⟨fun c' hc' => ?_, hr'⟩
      by_cases e : c' = c
      · rw [e, m.cur] at hc'
        cases hc'
        exact hne rfl
      · rw [m.cur_ne e] at hc'
        exact hr c' hc'

theorem Sound.swtchSave {k : Caller} {intena : Bool} (hcur : s.cur c = ⟨t, .swtchSave p k intena⟩)
    (hp : perform s c (.save (some p) (.swtchBack p k intena)) = some s₁)
    (hs' : s₁.next c (.goto (.swtchLoad p k)) = some s') : Sound s' := by
  obtain rfl := (h.inv.fits hcur).of_self rfl
  cases hp
  exact h.own_store hinv hcur hs' rfl (fun _ => rfl) rfl nofun rfl rfl fun _ => rfl

theorem Sound.tidy (hcur : s.cur c = ⟨t, .sleepTidy p lk⟩)
    (hs' : (s.upd p Write.nochan.apply).next c (.goto (.sleepUnlock p lk)) = some s') :
    Sound s' := by
  obtain rfl := (h.inv.fits hcur).of_self rfl
  have hstate : (s.proc p).state = .running := h.inv.own.running c p (by
    simp only [State.own, hcur]
    rfl)
  refine h.own_store hinv hcur hs' rfl (fun _ => rfl) rfl (by simp) rfl rfl fun he => ?_
  rw [hstate] at he
  cases he

/-! `wakeup`. -/

/-- The loop of `wakeup` goes on, past a slot that does not sleep on `chan` any more. -/
theorem Sound.advance {i : Nat} (hcur : s.cur c = ⟨t, g⟩)
    (hs' : s₁.next c (.goto f) = some s') (hm : Mild s s₁ c) (hstill : Still s s₁ c)
    (hlk : ∀ lk, s₁.lock (.cond lk) = s.lock (.cond lk))
    (hg : ∀ rest, g.phase rest = .wake chan i (site rest))
    (hf : ∀ rest, f.phase rest = .wake chan (i + 1) (site rest)) (hsleeper : f.sleeper = g.sleeper)
    (hpass : ∀ q : Slot, q.val = i → ∀ lk, ¬Pending s' q chan lk) : Sound s' := by
  obtain rfl := next_goto hstill hcur hs'
  have hmove := hstill.jump hcur f (s.stack t)
  have hgood := h.good_mono hcur hmove hm.jump hsleeper hlk
  rw [hg] at hgood
  have hirq : f ≠ .irq := by
    rintro rfl
    cases hf []
  refine h.mild hinv hcur hmove hm.jump hsleeper ?_ (fun chan' i' site' hph hh => .inl ?_)
    (h.stack t) fun he => absurd he hirq
  · rw [hf]
    exact hgood.advance fun lk _ q hq => hpass q hq lk
  · rw [hg] at hph hh
    cases hph
    exact ⟨_, _, hf _, by rwa [hf, Proto.Phase.holds_wake chan chan (i + 1) i]⟩

theorem Sound.skip {i : Slot} (hcur : s.cur c = ⟨t, .wakeup chan i.val⟩)
    (hproc : (s.core c).proc = some i)
    (hs' : s.next c (.goto (.wakeup chan (i.val + 1))) = some s') : Sound s' := by
  refine h.advance hinv hcur hs' .refl .refl (fun _ => rfl)
    (fun _ => rfl) (fun _ => rfl) rfl fun q hq lk hp => ?_
  obtain rfl : q = i := Fin.ext hq
  obtain rfl := next_goto Still.refl hcur hs'
  have hmove := Still.refl.jump hcur (.wakeup chan (q.val + 1)) (s.stack t)
  -- the CPU runs `q` itself
  have hsp : (s.cur c).sp = .proc q := by
    rw [h.inv.place.proc, hcur] at hproc
    rw [hcur]
    cases t with
    | proc p => exact congrArg _ (Option.some.inj hproc)
    | sched c' => cases hproc
  rcases hp with ⟨c', hc', hs⟩ | ⟨hrests, -⟩
  · by_cases e : c' = c
    · rw [e, hmove.cur] at hs
      cases hs
    · rw [hmove.cur_ne e] at hc'
      exact e (h.inv.thread_unique (hc'.trans hsp.symm))
  · exact (hmove.rests_iff hcur).mp hrests c hsp

theorem Sound.done {i : Nat} (hcur : s.cur c = ⟨t, .wakeup chan i⟩)
    (hi : NPROC ≤ i) (hs' : s.next c .ret = some s') : Sound s' := by
  obtain ⟨f, frames, hst, rfl⟩ := next_ret Still.refl hcur hs'
  obtain ⟨hbelow, hirq, hplock, hwf⟩ := h.below hcur hst
  have hmove := Still.refl.jump hcur f frames
  have hsleeper := Frame.sleeper_of_plock_none hplock
  have hgood := h.good_mono hcur hmove Mild.refl.jump hsleeper fun _ => rfl
  rw [hst] at hgood
  refine h.mild hinv hcur hmove Mild.refl.jump hsleeper ?_ (fun _ _ _ hph _ => .inr ?_) hbelow hirq
  · have hover := (hwf.of_level_two rfl).2 f rfl
    cases f with
    | body | irq => exact .idle
    | reparent p status j => exact .of_hold (hgood.hold rfl)
    | exitLock p status =>
      refine ⟨nofun, fun _ => hgood.hold rfl, nofun, fun p' hp' r hr => ?_, nofun⟩
      cases hp'
      obtain rfl := hgood.site chan i p rfl r hr
      exact hgood.wake _ i _ rfl .wait (hgood.hold rfl) r (Nat.lt_of_lt_of_le r.isLt hi)
    | _ => cases hover
  · cases hph
    exact hi

theorem Sound.wake {i : Slot} (hcur : s.cur c = ⟨t, .wakeTest chan i⟩)
    (hs' : (s.upd i (Write.state .runnable).apply).next c (.goto (.wakeRel chan i)) = some s') :
    Sound s' := by
  have hm : Mild s (s.upd i (Write.state .runnable).apply) c :=
    .upd rfl nofun nofun fun _ he => he
  refine h.advance hinv hcur hs' hm Still.upd (fun _ => rfl) (fun _ => rfl) (fun _ => rfl) rfl
    fun q hq lk hp => ?_
  obtain rfl : q = i := Fin.ext hq
  obtain rfl := next_goto Still.upd hcur hs'
  obtain ⟨-, hstate, -⟩ := hinv.rests_of_pending (Still.upd.jump hcur _ _).cur rfl rfl hp
  rw [jump_proc, State.upd_proc_self] at hstate
  cases hstate

theorem Sound.pass {i : Slot} (hcur : s.cur c = ⟨t, .wakeTest chan i⟩)
    (hstate : ¬((s.proc i).state = .sleeping ∧ (s.proc i).chan = some chan))
    (hs' : s.next c (.goto (.wakeRel chan i)) = some s') : Sound s' := by
  refine h.advance hinv hcur hs' .refl .refl (fun _ => rfl)
    (fun _ => rfl) (fun _ => rfl) rfl fun q hq lk hp => ?_
  obtain rfl : q = i := Fin.ext hq
  obtain rfl := next_goto Still.refl hcur hs'
  obtain ⟨-, hsleeping, ie, hpc⟩ := hinv.rests_of_pending (Still.refl.jump hcur _ _).cur rfl rfl hp
  rw [jump_proc] at hsleeping hpc
  -- the channel of the process is that of its call of `sleep`
  obtain ⟨chan', lk', hchan, hp'⟩ := h.sleepers q hsleeping
  obtain ⟨-, -, ie', hpc'⟩ := h.inv.rests_of_pending hcur rfl rfl hp'
  cases hpc.symm.trans hpc'
  exact hstate ⟨hsleeping, hchan⟩

end Xv6.Sched
