import Xv6.Proc.Sleep

/-! What holds of the processes under any code that keeps track of its locks: a lock has one holder,
and the steps of a run in one list of cases. -/

namespace Xv6.Sleep

open Function
open Wait (Slot ProcState)

variable {Lock Chan σ Place Call Input Intr : Type} [DecidableEq Lock] [DecidableEq Chan]
  {c : Code Lock Chan σ Place Call Input Intr} {s s' : State Lock Chan σ Place}

/-- The steps, by what runs. -/
inductive Moves (c : Code Lock Chan σ Place Call Input Intr) (s : State Lock Chan σ Place) :
    Event Call Input Intr → State Lock Chan σ Place → Prop
  | sched {p : Slot} (hs : (s.proc p).state = .runnable) :
    Moves c s (.sched p) (s.upd p fun q => { q with state := .running })
  | yield {p : Slot} (hs : (s.proc p).state = .running) :
    Moves c s (.yield p) (s.upd p fun q => { q with state := .runnable })
  | call {p : Slot} {call : Call} (hs : (s.proc p).state = .running) (hp : s.pos p = .user) :
    Moves c s (.call p call)
      ({ s with calls := s.calls + 1 }.goto p (.call (c.enter s.calls call)))
  | act {p : Slot} {place : Place} {input : Input} {a : Act Lock Chan σ Place}
    {s' : State Lock Chan σ Place} (hs : (s.proc p).state = .running)
    (hp : s.pos p = .call place) (hc : c.code p s.proc s.data place input = some a)
    (ha : perform s p place a = some s') : Moves c s (.run p input) s'
  | waking {p : Slot} {input : Input} {chan : Chan} {j : Nat} {next : Place}
    (hs : (s.proc p).state = .running) (hp : s.pos p = .waking chan j next) :
    Moves c s (.run p input) (wakeupStep s p chan j next)
  | awake {p : Slot} {input : Input} {lk : Lock} {next : Place}
    (hs : (s.proc p).state = .running) (hp : s.pos p = .asleep lk next) :
    Moves c s (.run p input)
      ((s.upd p fun q => { q with chan := none }).goto p (.relock lk next))
  | relock {p : Slot} {input : Input} {lk : Lock} {next : Place}
    (hs : (s.proc p).state = .running) (hp : s.pos p = .relock lk next) (hl : s.lock lk = none) :
    Moves c s (.run p input)
      ({ s with lock := update s.lock lk (some p) }.goto p (.call next))
  | kill {pid : Int} {v : Slot} (hp : (s.proc v).pid = pid) :
    Moves c s (.kill pid v) (s.upd v kkill)
  | intr {i : Intr} {h : Handler Lock Chan σ} {s' : State Lock Chan σ Place}
    (hc : c.intr s.data i = some h) (hs : intrStep s h = some s') : Moves c s (.intr i) s'

theorem step_moves {e : Event Call Input Intr} (h : step c s e = some s') : Moves c s e s' := by
  cases e with
  | sched p =>
    simp only [step, guard_eq_some] at h
    obtain ⟨hs, rfl⟩ := h
    exact .sched hs
  | yield p =>
    simp only [step, guard_eq_some] at h
    obtain ⟨⟨hs, -⟩, rfl⟩ := h
    exact .yield hs
  | call p call =>
    cases hp : s.pos p with
    | user =>
      simp only [step, hp, guard_eq_some] at h
      obtain ⟨hs, rfl⟩ := h
      exact .call hs hp
    | _ => simp [step, hp] at h
  | run p input =>
    simp only [step, Option.ite_none_right_eq_some] at h
    obtain ⟨hs, h⟩ := h
    cases hp : s.pos p with
    | user => simp [runStep, hp] at h
    | dead => simp [runStep, hp] at h
    | call place =>
      simp only [runStep, hp] at h
      obtain ⟨a, hc, ha⟩ := Option.bind_eq_some_iff.mp h
      exact .act hs hp hc ha
    | waking chan j next =>
      simp only [runStep, hp, Option.some.injEq] at h
      exact h ▸ .waking hs hp
    | asleep lk next =>
      simp only [runStep, hp, Option.some.injEq] at h
      exact h ▸ .awake hs hp
    | relock lk next =>
      simp only [runStep, hp, guard_eq_some] at h
      exact h.2 ▸ .relock hs hp h.1
  | kill pid v =>
    simp only [step, guard_eq_some] at h
    obtain ⟨hp, rfl⟩ := h
    exact .kill hp
  | intr i =>
    obtain ⟨handler, hc, hs⟩ := Option.bind_eq_some_iff.mp h
    exact .intr hc hs

def Act.Keeps (held : Place → Option Lock) (place : Place) : Act Lock Chan σ Place → Prop
  | .acquire lk next => held place = none ∧ held next = some lk
  | .data _ next => held place ≠ none ∧ held next = held place
  | .wakeup _ next | .setParent _ _ next => held next = held place
  | .killed next => ∀ k, held (next k) = held place
  | .sleep _ lk next => held place = some lk ∧ held next = some lk
  | .leave lk _ _ _ | .exit lk _ => held place = some lk

/-- The code says of every place which lock is held there. -/
structure Code.Locks (c : Code Lock Chan σ Place Call Input Intr) : Prop where
  enter : ∀ n call, c.held (c.enter n call) = none
  code : ∀ {p proc d place input a}, c.code p proc d place input = some a → a.Keeps c.held place

def Agree (lock : Lock → Option Slot) (held : Slot → Option Lock) : Prop :=
  ∀ lk p, lock lk = some p ↔ held p = some lk

variable {p : Slot}

theorem Agree.take {lock : Lock → Option Slot} {held : Slot → Option Lock} (h : Agree lock held)
    {lk : Lock} (hl : lock lk = none) (hp : held p = none) :
    Agree (update lock lk (some p)) (update held p (some lk)) := by
  intro lk' q
  rcases eq_or_ne lk' lk with rfl | hlk <;> rcases eq_or_ne q p with rfl | hq
  · simp
  · have hne : held q ≠ some lk' := fun he => by
      rw [(h lk' q).mpr he] at hl
      cases hl
    simp [hq, hne, Ne.symm hq]
  · have hne : lock lk' ≠ some q := fun he => by
      rw [(h lk' q).mp he] at hp
      cases hp
    simp [hlk, hne, Ne.symm hlk]
  · simpa [hlk, hq] using h lk' q

theorem Agree.give {lock : Lock → Option Slot} {held : Slot → Option Lock} (h : Agree lock held)
    {lk : Lock} (hp : held p = some lk) :
    Agree (update lock lk none) (update held p none) := by
  have hl := (h lk p).mpr hp
  intro lk' q
  rcases eq_or_ne lk' lk with rfl | hlk <;> rcases eq_or_ne q p with rfl | hq
  · simp
  · have hne : held q ≠ some lk' := fun he => by
      rw [(h lk' q).mpr he] at hl
      exact hq (Option.some.inj hl)
    simp [hq, hne]
  · have hne : lock lk' ≠ some q := fun he => by
      rw [(h lk' q).mp he] at hp
      exact hlk (Option.some.inj hp)
    simp [hlk, hne]
  · simpa [hlk, hq] using h lk' q

def Proc.Gone (q : Proc Chan) : Prop := q.state = .unused ∨ q.state = .zombie

/-- A process in `sleep` will have its lock again. -/
def Pos.Rest (held : Place → Option Lock) : Pos Lock Chan Place → Prop
  | .asleep lk next | .relock lk next => held next = some lk
  | _ => True

/-- The locks agree with the places, and a slot without a process is nowhere. -/
structure Mutex (held : Place → Option Lock) (s : State Lock Chan σ Place) : Prop where
  agree : Agree s.lock fun p => (s.pos p).held held
  rest : ∀ p, (s.pos p).Rest held
  dead : ∀ p, (s.proc p).Gone → s.pos p = .dead

section Basics

omit [DecidableEq Lock] [DecidableEq Chan]

theorem not_gone_of_running {q : Proc Chan} (h : q.state = .running) : ¬q.Gone := by
  simp [Proc.Gone, h]

theorem held_update (held : Place → Option Lock) (pos : Slot → Pos Lock Chan Place) (p : Slot)
    (x : Pos Lock Chan Place) :
    (fun q => (update pos p x q).held held) =
      update (fun q => (pos q).held held) p (x.held held) := by
  funext q
  rcases eq_or_ne q p with rfl | hq
  · simp
  · simp [hq]

variable {held : Place → Option Lock}

theorem Mutex.unique (h : Mutex held s) {p q : Slot} {lk : Lock}
    (hp : (s.pos p).held held = some lk) (hq : (s.pos q).held held = some lk) : p = q := by
  have h1 := (h.agree lk p).mpr hp
  have h2 := (h.agree lk q).mpr hq
  exact Option.some.inj (h1.symm.trans h2)

theorem Mutex.procs (h : Mutex held s) {proc : Slot → Proc Chan}
    {d : σ} (hg : ∀ q, (proc q).Gone → (s.proc q).Gone) :
    Mutex held { s with proc, data := d } :=
  ⟨h.agree, h.rest, fun q hq => h.dead q (hg q hq)⟩

theorem Mutex.move (h : Mutex held s) {p : Slot}
    {x : Pos Lock Chan Place} (hpos : s'.pos = update s.pos p x)
    (hagree : Agree s'.lock (update (fun q => (s.pos q).held held) p (x.held held)))
    (hrest : x.Rest held) (hp : (s'.proc p).Gone → x = .dead)
    (hg : ∀ q ≠ p, (s'.proc q).Gone → (s.proc q).Gone) : Mutex held s' := by
  constructor
  · rw [hpos, held_update]
    exact hagree
  · intro q
    rw [hpos]
    rcases eq_or_ne q p with rfl | hqp
    · rwa [update_self]
    · rw [update_of_ne hqp]
      exact h.rest q
  · intro q hq
    rw [hpos]
    rcases eq_or_ne q p with rfl | hqp
    · rw [update_self]
      exact hp hq
    · rw [update_of_ne hqp]
      exact h.dead q (hg q hqp hq)

theorem Mutex.goto (h : Mutex held s) {p : Slot}
    {x : Pos Lock Chan Place} (hs : (s.proc p).state = .running)
    (hx : x.held held = (s.pos p).held held) (hrest : x.Rest held) :
    Mutex held (s.goto p x) := by
  refine h.move rfl ?_ hrest (fun hp => absurd hp (not_gone_of_running hs)) fun _ _ hq => hq
  rw [hx, update_eq_self]
  exact h.agree

end Basics

theorem gone_wakeOne {chan : Chan} {q : Proc Chan} (h : (wakeOne chan q).Gone) : q.Gone := by
  unfold wakeOne at h
  split at h
  · simp [Proc.Gone] at h
  · exact h

omit [DecidableEq Lock] in
theorem Mutex.wakeupStep {held : Place → Option Lock} (h : Mutex held s) {chan : Chan}
    {j : Nat} {next : Place} (hs : (s.proc p).state = .running)
    (hp : s.pos p = .waking chan j next) : Mutex held (wakeupStep s p chan j next) := by
  have hsame : ∀ {x : Pos Lock Chan Place}, x.held held = held next →
      x.held held = (s.pos p).held held := fun hx => by rw [hp, hx]; rfl
  unfold Sleep.wakeupStep
  split
  · rename_i hj
    by_cases hjp : (⟨j, hj⟩ : Slot) = p
    · rw [if_neg (by simpa using hjp)]
      exact h.goto hs (hsame rfl) trivial
    · rw [if_pos hjp]
      have hprocs : Mutex held (s.upd ⟨j, hj⟩ (wakeOne chan)) := by
        refine h.procs fun q hq => ?_
        rcases eq_or_ne q ⟨j, hj⟩ with rfl | hqj
        · exact gone_wakeOne (by simpa using hq)
        · simpa [hqj] using hq
      exact hprocs.goto (by simpa [State.upd, Ne.symm hjp] using hs) (hsame rfl) trivial
  · exact h.goto hs (hsame rfl) trivial

omit [DecidableEq Lock] [DecidableEq Chan] in
theorem Mutex.effect {held : Place → Option Lock} (h : Mutex held s) {effect : Effect}
    (he : effect.apply s p = some s') : Mutex held s' := by
  cases effect with
  | keep =>
    cases he
    exact h
  | freeproc pp =>
    simp only [Effect.apply, guard_eq_some] at he
    obtain ⟨hz, rfl⟩ := he
    refine h.procs fun q hq => ?_
    rcases eq_or_ne q pp with rfl | hqp
    · exact .inr hz
    · simpa [hqp] using hq
  | start np pid =>
    simp only [Effect.apply, guard_eq_some] at he
    obtain ⟨hu, rfl⟩ := he
    have hnp := h.dead np (.inl hu)
    have hsame : (Pos.user : Pos Lock Chan Place).held held = (s.pos np).held held := by
      rw [hnp]
      rfl
    refine h.move rfl ?_ trivial (by simp [State.upd, State.goto, Proc.Gone]) fun q hq hg => ?_
    · rw [hsame, update_eq_self]
      exact h.agree
    · simpa [State.upd, State.goto, hq] using hg

omit [DecidableEq Chan] in
theorem Mutex.perform {held : Place → Option Lock} (h : Mutex held s) {place : Place}
    {a : Act Lock Chan σ Place} (hs : (s.proc p).state = .running) (hp : s.pos p = .call place)
    (hk : a.Keeps held place) (ha : perform s p place a = some s') : Mutex held s' := by
  have hheld : (s.pos p).held held = held place := by rw [hp]; rfl
  have hrun := not_gone_of_running hs
  cases a with
  | acquire lk next =>
    simp only [Sleep.perform, guard_eq_some] at ha
    obtain ⟨hl, rfl⟩ := ha
    refine h.move rfl ?_ trivial (fun hg => absurd hg hrun) fun _ _ hg => hg
    rw [show (Pos.call next : Pos Lock Chan Place).held held = some lk from hk.2]
    exact h.agree.take hl (hheld.trans hk.1)
  | data d next =>
    cases ha
    exact (h.procs fun _ hq => hq).goto hs (hk.2.trans hheld.symm) trivial
  | killed next =>
    cases ha
    exact h.goto hs ((hk _).trans hheld.symm) trivial
  | sleep chan lk next =>
    cases ha
    refine h.move rfl (h.agree.give (hheld.trans hk.1)) hk.2 ?_ fun q hq hg => ?_
    · simp [State.upd, State.goto, Proc.Gone]
    · simpa [State.upd, State.goto, hq] using hg
  | wakeup chan next =>
    cases ha
    exact h.goto hs (Eq.trans hk hheld.symm) trivial
  | setParent pp parent next =>
    cases ha
    have hprocs : Mutex held (s.upd pp fun q => { q with parent := some parent }) := by
      refine h.procs fun q hq => ?_
      rcases eq_or_ne q pp with rfl | hqp
      · simpa [Proc.Gone] using hq
      · simpa [hqp] using hq
    refine hprocs.goto ?_ (Eq.trans hk hheld.symm) trivial
    rcases eq_or_ne p pp with rfl | hpp
    · simpa [State.upd] using hs
    · simpa [State.upd, hpp] using hs
  | leave lk d effect r =>
    have hleft : Mutex held ({ s with
        lock := update s.lock lk none, data := d
        returns := s.returns ++ [Return.mk place d r] }.goto p .user) :=
      h.move rfl (h.agree.give (hheld.trans hk)) trivial (fun hg => absurd hg hrun)
        fun _ _ hg => hg
    exact hleft.effect ha
  | exit lk status =>
    cases ha
    refine h.move rfl (h.agree.give (hheld.trans hk)) trivial (fun _ => rfl) fun q hq hg => ?_
    simpa [State.upd, State.goto, hq] using hg

theorem Mutex.step (hc : c.Locks) (h : Mutex c.held s) {e : Event Call Input Intr}
    (hstep : step c s e = some s') : Mutex c.held s' := by
  -- The scheduler and `kkill` change the state of one process.
  have hupd : ∀ (p : Slot) (f : Proc Chan → Proc Chan), ((f (s.proc p)).Gone → (s.proc p).Gone) →
      Mutex c.held (s.upd p f) := fun p f hf => by
    refine h.procs fun q hq => ?_
    rcases eq_or_ne q p with rfl | hqp
    · exact hf (by simpa using hq)
    · simpa [hqp] using hq
  cases step_moves hstep with
  | sched => exact hupd _ _ (by simp [Proc.Gone])
  | yield => exact hupd _ _ (by simp [Proc.Gone])
  | call hs hp =>
    have hcalls : Mutex c.held { s with calls := s.calls + 1 } := ⟨h.agree, h.rest, h.dead⟩
    refine hcalls.goto hs ?_ trivial
    simp only [hp]
    exact hc.enter _ _
  | act hs hp hcode ha => exact h.perform hs hp (hc.code hcode) ha
  | waking hs hp => exact h.wakeupStep hs hp
  | @awake p _ _ _ hs hp =>
    have hwoken := hupd p (fun q => { q with chan := none }) (by simp [Proc.Gone])
    have hrest := h.rest p
    rw [hp] at hrest
    exact hwoken.goto (by simpa [State.upd] using hs) (by simp only [State.upd, hp]; rfl) hrest
  | @relock p _ lk next hs hp hl =>
    have hrest := h.rest p
    rw [hp] at hrest
    refine h.move rfl ?_ trivial (fun hg => absurd hg (not_gone_of_running hs)) fun _ _ hg => hg
    rw [show (Pos.call next : Pos Lock Chan Place).held c.held = some lk from hrest]
    exact h.agree.take hl (by rw [hp]; rfl)
  | @kill _ v =>
    refine hupd v kkill ?_
    unfold kkill Proc.Gone
    split <;> simp_all
  | @intr _ handler _ _ hs =>
    simp only [intrStep, guard_eq_some] at hs
    obtain ⟨-, rfl⟩ := hs
    refine h.procs fun q hq => ?_
    cases hw : handler.wakes with
    | none => simpa [hw] using hq
    | some chan => exact gone_wakeOne (by simpa [hw] using hq)

end Xv6.Sleep
