import Xv6.Sched.Phases

/-! The machine follows the protocol of `sleep` and `wakeup`. -/

namespace Xv6.Sched

open Function State
open Wait (Slot ProcState Chan initproc)

section

variable {κ : Type}

/-- Process `q` has released `lk` in a call of `sleep(chan, lk)` and was not woken up: it is on its
way to the scheduler, or there and `SLEEPING`. -/
def Pending (s : State κ) (q : Slot) (chan : Chan) (lk : Cond) : Prop :=
  (∃ c, (s.cur c).sp = .proc q ∧ (s.cur c).pc.sleeper = some (chan, lk)) ∨
  Rests s q ∧ (s.proc q).state = .sleeping ∧
    ∃ intena, (s.proc q).context.pc = .swtchBack q (.sleep chan lk) intena

def phaseOf : List Frame → Phase
  | [] => .idle
  | f :: rest => f.phase rest

/-- Interrupts come where `wait_lock` is not held. -/
def Below : List Frame → Prop
  | [] => True
  | f :: rest => (f = .irq → (phaseOf rest).holds = false) ∧ Below rest

def State.phase (s : State κ) (c : κ) : Phase := (s.cur c).pc.phase (s.stack (s.cur c).sp)

def State.proto (s : State κ) : Proto κ where
  pend := Pending s
  holder lk := s.lock (.cond lk)
  phase := s.phase
  parent q := (s.proc q).parent
  zombie q := (s.proc q).state = .zombie

structure Sound (s : State κ) : Prop where
  inv : Inv s
  proto : s.proto.Inv
  sleepers : ∀ q, (s.proc q).state = .sleeping →
    ∃ chan lk, (s.proc q).chan = some chan ∧ Pending s q chan lk
  stack : ∀ t, Below (s.stack t)
  irq : ∀ c, (s.cur c).pc = .irq → (phaseOf (s.stack (s.cur c).sp)).holds = false

variable {s : State κ} {c : κ} {q : Slot}

theorem Sound.panic (h : Sound s) (msg : Option String) : Sound { s with panic := msg } :=
  ⟨h.inv.panic msg, h.proto, h.sleepers, h.stack, h.irq⟩

theorem Sound.good {t : Thread κ} {g : Frame} (h : Sound s) (hcur : s.cur c = ⟨t, g⟩) :
    s.proto.Good c (g.phase (s.stack t)) := by
  have hph : s.proto.phase c = g.phase (s.stack t) := by
    show s.phase c = _
    rw [phase, hcur]
  rw [← hph]
  exact h.proto.good c

theorem Inv.no_lock (h : Inv s) (hnoff : (s.core c).noff = 0) (lk : Lock) : s.lock lk ≠ some c := by
  intro hlk
  obtain ⟨L, hlen, hL⟩ := h.spin.held c
  rw [hnoff] at hlen
  have := hL lk hlk
  rw [List.length_eq_zero_iff.mp (Nat.le_zero.mp hlen)] at this
  cases this

theorem Inv.plock_of_sleeper (h : Inv s) {x : Chan × Cond} (hsp : (s.cur c).sp = .proc q)
    (hs : (s.cur c).pc.sleeper = some x) : (s.cur c).plock = some q := by
  have hfits := h.place.fits c
  rw [hsp] at hfits
  rw [Context.plock, hsp]
  cases hpc : (s.cur c).pc <;> rw [hpc] at hs hfits <;> first
    | cases hs; done
    | exact congrArg some (hfits.2 _ rfl)

end

variable {κ : Type} [DecidableEq κ] {s s' s₁ : State κ} {c : κ} {t : Thread κ} {g f : Frame}
  {frames : List Frame} {act : Act} {next : Next} {p q : Slot}

/-- Steps after which no more processes sleep, without new registers for those that rest. -/
structure Tame (s s' : State κ) (c : κ) : Prop where
  asleep : ∀ q, Rests s q → (s'.proc q).state = .sleeping → (s.proc q).state = .sleeping
  saved : ∀ q, Rests s q → (s'.proc q).context = (s.proc q).context
  locks : ∀ c', c' ≠ c → ∀ lk, s'.lock (.cond lk) = some c' ↔ s.lock (.cond lk) = some c'

namespace Move

theorem phase_ne {x : Context κ} {c' : κ} (m : Move s s' c x frames) (h : Inv s) (hne : c' ≠ c) :
    s'.phase c' = s.phase c' := by
  rw [phase, m.cur_ne hne, m.stack_ne fun he => hne (h.thread_unique he)]
  rfl

section

variable (m : Move s s' c ⟨t, f⟩ frames) (hcur : s.cur c = ⟨t, g⟩)

include m hcur

theorem phase_self :
    s'.phase c = f.phase frames := by
  rw [phase, m.cur, m.stack_self (by rw [hcur])]

theorem rests_iff :
    Rests s' q ↔ Rests s q := by
  refine forall_congr' fun c' => ?_
  by_cases e : c' = c
  · rw [e, m.cur, hcur]
  · rw [m.cur_ne e]

/-- No process begins to sleep in a step inside of a thread, other than in `sleep` itself. -/
theorem pending (ht : Tame s s' c)
    {chan : Chan} {lk : Cond} (hp : Pending s' q chan lk) :
    Pending s q chan lk ∨ t = .proc q ∧ f.sleeper = some (chan, lk) := by
  rcases hp with ⟨c', hsp, hs⟩ | ⟨hrests, hstate, hctx⟩
  · by_cases e : c' = c
    · rw [e, m.cur] at hsp hs
      exact .inr ⟨hsp, hs⟩
    · rw [m.cur_ne e] at hsp hs
      exact .inl (.inl ⟨c', hsp, hs⟩)
  · rw [m.rests_iff hcur] at hrests
    rw [ht.saved q hrests] at hctx
    exact .inl (.inr ⟨hrests, ht.asleep q hrests hstate, hctx⟩)

theorem pending_same (ht : Tame s s' c)
    (hsleeper : f.sleeper = g.sleeper) {chan : Chan} {lk : Cond} (hp : Pending s' q chan lk) :
    Pending s q chan lk := by
  rcases m.pending hcur ht hp with hp | ⟨rfl, hs⟩
  · exact hp
  · exact .inl ⟨c, by rw [hcur], by rw [hcur, ← hs, hsleeper]⟩

theorem pending_stays (ht : Tame s s' c)
    (hsleeper : ∀ x, g.sleeper = some x → f.sleeper = some x) {chan : Chan} {lk : Cond}
    (hp : Pending s q chan lk) (hstate : (s'.proc q).state = .sleeping) : Pending s' q chan lk := by
  rcases hp with ⟨c', hsp, hs⟩ | ⟨hrests, -, hctx⟩
  · refine .inl ⟨c', ?_⟩
    by_cases e : c' = c
    · rw [e, hcur] at hsp hs
      rw [e, m.cur]
      exact ⟨hsp, hsleeper _ hs⟩
    · rw [m.cur_ne e]
      exact ⟨hsp, hs⟩
  · refine .inr ⟨(m.rests_iff hcur).mpr hrests, hstate, ?_⟩
    rwa [ht.saved q hrests]

end

end Move

theorem Sound.inner (h : Sound s) (hinv : Inv s') (hcur : s.cur c = ⟨t, g⟩)
    (m : Move s s' c ⟨t, f⟩ frames) (ht : Tame s s' c)
    (hstays : ∀ x, g.sleeper = some x → f.sleeper = some x)
    (hsleepers : ∀ q, (s'.proc q).state = .sleeping →
      (s.proc q).state = .sleeping ∧ (s'.proc q).chan = (s.proc q).chan ∨
      ∃ chan lk, (s'.proc q).chan = some chan ∧ t = .proc q ∧ f.sleeper = some (chan, lk))
    (hpend : ∀ chan lk, f.sleeper = some (chan, lk) → g.sleeper = some (chan, lk) ∨
      s.lock (.cond lk) = some c ∧
        ∀ p, chan = .proc p → lk = .wait → g.phase (s.stack t) = .scan p NPROC)
    (hzombie : ∀ q, (s'.proc q).state = .zombie →
      (s.proc q).state = .zombie ∨ g.phase (s.stack t) = .exiting q)
    (hparent : ∀ q p, (s'.proc q).parent = some p → (s.proc q).parent = some p ∨
      s.lock (.cond .wait) = some c ∧ ((s'.proc q).state = .zombie →
        ∃ i site, f.phase frames = .wake (.proc p) i site ∧ (f.phase frames).holds = true))
    (hgood : s'.proto.Good c (f.phase frames))
    (hleave : ∀ chan i site, g.phase (s.stack t) = .wake chan i site →
      (g.phase (s.stack t)).holds = true →
      (∃ i' site', f.phase frames = .wake chan i' site' ∧ (f.phase frames).holds = true) ∨
      NPROC ≤ i)
    (hbelow : Below frames) (hirq : f = .irq → (phaseOf frames).holds = false) : Sound s' := by
  have hold : s.phase c = g.phase (s.stack t) := by rw [phase, hcur]
  have hnew : s'.phase c = f.phase frames := m.phase_self hcur
  refine ⟨hinv, h.proto.step ⟨fun c' hne => m.phase_ne h.inv hne, ht.locks,
    fun q chan lk hp => ?_, fun q hz => ?_, fun q p hp => ?_, ?_, fun chan i site hph hh => ?_⟩,
    fun q hq => ?_, fun t' => ?_, fun c' hc => ?_⟩
  · rcases m.pending hcur ht hp with hp | ⟨rfl, hs⟩
    · exact .inl hp
    · rcases hpend chan lk hs with hg | ⟨hlk, hscan⟩
      · exact .inl (.inl ⟨c, by rw [hcur], by rw [hcur]; exact hg⟩)
      · exact .inr ⟨hlk, fun p hc hw => hold.trans (hscan p hc hw)⟩
  · exact (hzombie q hz).imp_right hold.trans
  · refine (hparent q p hp).imp_right fun ⟨hlk, hz⟩ => ⟨hlk, fun hz' => ?_⟩
    obtain ⟨i, site, hph, hh⟩ := hz hz'
    exact ⟨i, site, hnew.trans hph, by rwa [show s'.proto.phase c = _ from hnew]⟩
  · rw [show s'.proto.phase c = _ from hnew]
    exact hgood
  · rw [show s.proto.phase c = _ from hold] at hph hh
    rw [show s'.proto.phase c = _ from hnew]
    exact hleave chan i site hph hh
  · rcases hsleepers q hq with ⟨hs, hchan⟩ | ⟨chan, lk, hchan, rfl, hs⟩
    · obtain ⟨chan, lk, hc, hp⟩ := h.sleepers q hs
      exact ⟨chan, lk, hchan.trans hc, m.pending_stays hcur ht hstays hp hq⟩
    · exact ⟨chan, lk, hchan, .inl ⟨c, by rw [m.cur], by rw [m.cur]; exact hs⟩⟩
  · by_cases e : t' = t
    · rw [e, m.stack_self (by rw [hcur])]
      exact hbelow
    · rw [m.stack_ne (by rw [hcur]; exact e)]
      exact h.stack t'
  · by_cases e : c' = c
    · rw [e, m.cur] at hc ⊢
      rw [m.stack_self (by rw [hcur])]
      exact hirq hc
    · rw [m.cur_ne e] at hc ⊢
      rw [m.stack_ne fun he => e (h.inv.thread_unique he)]
      exact h.irq c' hc

/-- Steps after which no more processes sleep, are zombies or have a parent. -/
structure Mild (s s' : State κ) (c : κ) : Prop where
  tame : Tame s s' c
  sleeping : ∀ q, (s'.proc q).state = .sleeping →
    (s.proc q).state = .sleeping ∧ (s'.proc q).chan = (s.proc q).chan
  zombie : ∀ q, (s'.proc q).state = .zombie → (s.proc q).state = .zombie
  parent : ∀ q p, (s'.proc q).parent = some p → (s.proc q).parent = some p

theorem Sound.mild (h : Sound s) (hinv : Inv s') (hcur : s.cur c = ⟨t, g⟩)
    (m : Move s s' c ⟨t, f⟩ frames) (hm : Mild s s' c) (hsleeper : f.sleeper = g.sleeper)
    (hgood : s'.proto.Good c (f.phase frames))
    (hleave : ∀ chan i site, g.phase (s.stack t) = .wake chan i site →
      (g.phase (s.stack t)).holds = true →
      (∃ i' site', f.phase frames = .wake chan i' site' ∧ (f.phase frames).holds = true) ∨
      NPROC ≤ i)
    (hbelow : Below frames) (hirq : f = .irq → (phaseOf frames).holds = false) : Sound s' :=
  h.inner hinv hcur m hm.tame (fun _ hx => hsleeper.trans hx) (fun q hq => .inl (hm.sleeping q hq))
    (fun _ _ hs => .inl (hsleeper ▸ hs)) (fun q hz => .inl (hm.zombie q hz))
    (fun q p hp => .inl (hm.parent q p hp)) hgood hleave hbelow hirq

theorem Sound.good_mono (h : Sound s) (hcur : s.cur c = ⟨t, g⟩) (m : Move s s' c ⟨t, f⟩ frames)
    (hm : Mild s s' c) (hsleeper : f.sleeper = g.sleeper)
    (hlk : ∀ lk, s'.lock (.cond lk) = s.lock (.cond lk)) :
    s'.proto.Good c (g.phase (s.stack t)) := by
  have hg := h.good hcur
  have hpend : ∀ q chan lk, Pending s' q chan lk → Pending s q chan lk := fun _ _ _ hp =>
    m.pending_same hcur hm.tame hsleeper hp
  refine ⟨fun chan i site hph lk hl q hq hp => ?_, fun hh => ?_, fun p i hph q hq hp hz => ?_,
    fun p hph r hr hp => ?_, fun chan i p hph r hr => ?_⟩
  · exact hg.wake chan i site hph lk ((hlk lk).symm.trans hl) q hq (hpend q chan lk hp)
  · exact (hlk .wait).trans (hg.hold hh)
  · exact hg.scan p i hph q hq (hm.parent q p hp) (hm.zombie q hz)
  · exact hg.exiting p hph r (hm.parent p r hr) (hpend r _ _ hp)
  · exact hg.site chan i p hph r (hm.parent p r hr)

omit [DecidableEq κ] in
theorem Mild.upd {r : Proc κ → Proc κ} (hcontext : (r (s.proc q)).context = (s.proc q).context)
    (hsleeping : (r (s.proc q)).state = .sleeping →
      (s.proc q).state = .sleeping ∧ (r (s.proc q)).chan = (s.proc q).chan)
    (hzombie : (r (s.proc q)).state = .zombie → (s.proc q).state = .zombie)
    (hparent : ∀ p, (r (s.proc q)).parent = some p → (s.proc q).parent = some p) :
    Mild s (s.upd q r) c := by
  have hsame : ∀ {q'}, q' ≠ q → (s.upd q r).proc q' = s.proc q' := upd_proc_ne r
  have hsl : ∀ q', ((s.upd q r).proc q').state = .sleeping →
      (s.proc q').state = .sleeping ∧ ((s.upd q r).proc q').chan = (s.proc q').chan := by
    intro q' hq'
    by_cases e : q' = q
    · subst e
      rw [upd_proc_self] at hq' ⊢
      exact hsleeping hq'
    · rw [hsame e] at hq' ⊢
      exact ⟨hq', rfl⟩
  refine ⟨⟨fun q' _ hq' => (hsl q' hq').1, fun q' _ => ?_, fun _ _ _ => Iff.rfl⟩, hsl,
    fun q' hq' => ?_, fun q' p hq' => ?_⟩
  · by_cases e : q' = q
    · rw [e, upd_proc_self, hcontext]
    · rw [hsame e]
  · by_cases e : q' = q
    · subst e
      rw [upd_proc_self] at hq'
      exact hzombie hq'
    · rwa [hsame e] at hq'
  · by_cases e : q' = q
    · subst e
      rw [upd_proc_self] at hq'
      exact hparent p hq'
    · rwa [hsame e] at hq'

omit [DecidableEq κ] in
theorem Mild.of_proc (hproc : s'.proc = s.proc)
    (hlock : ∀ c', c' ≠ c → ∀ lk, s'.lock (.cond lk) = some c' ↔ s.lock (.cond lk) = some c') :
    Mild s s' c := by
  refine ⟨⟨fun q _ hq => ?_, fun q _ => ?_, hlock⟩, fun q hq => ?_, fun q hq => ?_,
    fun q p hq => ?_⟩ <;> rw [hproc] at *
  · exact hq
  · exact ⟨hq, rfl⟩
  · exact hq
  · exact hq

omit [DecidableEq κ] in
theorem Mild.refl : Mild s s c := .of_proc rfl fun _ _ _ => Iff.rfl

theorem perform_mild (hp : perform s c act = some s₁) (hpanic : s₁.panic = none)
    (hact : act.Safe = true) : Mild s s₁ c := by
  have hlock : ∀ (lk : Lock) (v : Option κ), (∀ c', c' ≠ c → s.lock lk ≠ some c' ∧ v ≠ some c') →
      ∀ c', c' ≠ c → ∀ lk', update s.lock lk v (.cond lk') = some c' ↔
        s.lock (.cond lk') = some c' := by
    intro lk v hv c' hne lk'
    by_cases e : .cond lk' = lk
    · rw [e, update_self]
      exact iff_of_false (hv c' hne).2 (hv c' hne).1
    · rw [update_of_ne e]
  cases act with
  | nop =>
    cases hp
    exact .of_proc rfl fun _ _ _ => Iff.rfl
  | acquire lk =>
    obtain ⟨hfree, rfl⟩ := acquire_eq hp hpanic
    refine .of_proc rfl (hlock lk (some c) fun c' hne => ⟨?_, ?_⟩)
    · rw [hfree]
      nofun
    · exact fun he => hne (Option.some.inj he).symm
  | release lk =>
    cases hp
    obtain ⟨hheld, -, heq⟩ := release_eq hpanic
    rw [heq]
    refine .of_proc rfl (hlock lk none fun c' hne => ⟨?_, nofun⟩)
    rw [hheld]
    exact fun he => hne (Option.some.inj he).symm
  | setProc _ | intena _ | sie _ =>
    cases hp
    exact .of_proc rfl fun _ _ _ => Iff.rfl
  | save p pc =>
    cases p with
    | some p => cases hact
    | none =>
      cases hp
      exact .of_proc rfl fun _ _ _ => Iff.rfl
  | write q w =>
    cases hp
    cases w with
    | state st =>
      have hst := of_decide_eq_true hact
      exact .upd rfl (fun he => absurd he hst.1) (fun he => absurd he hst.2) fun _ he => he
    | kill =>
      have hkill : (Write.kill.apply (s.proc q)).state = .runnable ∨
          (s.proc q).state ≠ .sleeping ∧
          (Write.kill.apply (s.proc q)).state = (s.proc q).state := by
        by_cases hs : (s.proc q).state = .sleeping
        · exact .inl (if_pos hs)
        · exact .inr ⟨hs, if_neg hs⟩
      refine .upd rfl (fun he => ?_) (fun he => ?_) fun _ he => he
      · rcases hkill with hr | ⟨hs, hk⟩
        · cases hr.symm.trans he
        · exact absurd (hk.symm.trans he) hs
      · rcases hkill with hr | ⟨-, hk⟩
        · cases hr.symm.trans he
        · exact hk.symm.trans he
    | free => exact .upd rfl nofun nofun nofun
    | _ => cases hact
  | alloc q ok =>
    cases ok with
    | true => cases hact
    | false =>
      cases hp
      have h := Mild.upd (s := { s with nextpid := Wait.wrap (s.nextpid + 1) }) (c := c) (q := q)
        (r := fun r => Write.free.apply r) rfl nofun nofun nofun
      exact ⟨⟨h.tame.asleep, h.tame.saved, h.tame.locks⟩, h.sleeping, h.zombie, h.parent⟩
  | _ => cases hact

theorem perform_cond (hp : perform s c act = some s₁) (hpanic : s₁.panic = none)
    (hact : act.Safe = true) (hcond : act.cond = none) (lk : Cond) :
    s₁.lock (.cond lk) = s.lock (.cond lk) := by
  cases act with
  | acquire lk' =>
    obtain ⟨-, rfl⟩ := acquire_eq hp hpanic
    cases lk' with
    | proc q =>
      show update s.lock (.proc q) (some c) (.cond lk) = _
      exact update_of_ne (by simp) _ _
    | cond _ => cases hcond
  | release lk' =>
    cases hp
    rw [(release_eq hpanic).2.2]
    cases lk' with
    | proc q =>
      show update s.lock (.proc q) none (.cond lk) = _
      exact update_of_ne (by simp) _ _
    | cond _ => cases hcond
  | save p pc | alloc q ok =>
    first | cases p | cases ok
    all_goals first | cases hact; done | cases Option.some.inj hp; rfl
  | load p | panic msg => cases hact
  | _ =>
    cases hp
    rfl

theorem Mild.jump (h : Mild s s₁ c) : Mild s (s₁.jump c f frames) c :=
  ⟨⟨h.tame.asleep, h.tame.saved, h.tame.locks⟩, h.sleeping, h.zombie, h.parent⟩

theorem next_call {r : Frame} (hstill : Still s s₁ c) (hcur : s.cur c = ⟨t, g⟩)
    (hs' : s₁.next c (.call r f) = some s') : s' = s₁.jump c f (r :: s.stack t) := by
  have hsp : (s₁.core c).cur = ⟨t, g⟩ := hstill.cur.trans hcur
  rw [← Option.some.inj hs', hsp, hstill.stack]

theorem next_ret (hstill : Still s s₁ c) (hcur : s.cur c = ⟨t, g⟩)
    (hs' : s₁.next c .ret = some s') :
    ∃ f frames, s.stack t = f :: frames ∧ s' = s₁.jump c f frames := by
  have hsp : (s₁.core c).cur = ⟨t, g⟩ := hstill.cur.trans hcur
  simp only [next, hsp, hstill.stack] at hs'
  cases hst : s.stack t with
  | nil => simp only [hst] at hs'; cases hs'
  | cons f frames =>
    simp only [hst, Option.some.injEq] at hs'
    exact ⟨f, frames, rfl, hs'.symm⟩

end Xv6.Sched
