import Xv6.Proc.SleepInv

/-! The sleep locks of `sleeplock.c`: one process at a time is past `acquiresleep`, `holdingsleep`
tells which, and nobody sleeps on a lock that is free. -/

namespace Xv6.SleepLock

open Function
open Sleep (Act Pos Mutex Proc step_moves)
open Wait (Slot)

/-- `struct sleeplock` without `lk`. `past` records the processes that have returned from
`acquiresleep` and have not cleared `locked` in `releasesleep` since. -/
structure Lock where
  locked : Bool
  pid : Int
  past : List Slot

/-- `lk->lk`, and the lock of other code that calls `wakeup` with the same address. -/
inductive Spin
  | lk
  | other
  deriving DecidableEq

/-- The places of `acquiresleep`, `releasesleep` and `holdingsleep`. -/
inductive Place
  | acquire
  | test
  | taken
  | release
  | clear
  | wake
  | released
  | holding
  | read (p : Slot)

inductive Call
  | acquiresleep
  | releasesleep
  | holdingsleep

def enter : Call → Place
  | .acquiresleep => .acquire
  | .releasesleep => .release
  | .holdingsleep => .holding

def held : Place → Option Spin
  | .acquire | .release | .holding => none
  | _ => some .lk

/-- What `p` does at a place. Only a holder calls `releasesleep`. -/
def code (p : Slot) (proc : Slot → Proc Unit) (d : Lock) : Place → Option (Act Spin Unit Lock Place)
  | .acquire => some (.acquire .lk .test)
  | .test =>
    if d.locked then some (.sleep () .lk .test)
    else some (.data { d with locked := true, pid := (proc p).pid } .taken)
  | .taken => some (.leave .lk { d with past := p :: d.past } .keep 0)
  | .release => if p ∈ d.past then some (.acquire .lk .clear) else none
  | .clear => some (.data { locked := false, pid := 0, past := d.past.erase p } .wake)
  | .wake => some (.wakeup () .released)
  | .released => some (.leave .lk d .keep 0)
  | .holding => some (.acquire .lk (.read p))
  | .read _ => some (.leave .lk d .keep (if d.locked ∧ d.pid = (proc p).pid then 1 else 0))

/-- An interrupt stands for a `wakeup` that nobody is due. -/
def sleepCode : Sleep.Code Spin Unit Lock Place Call Unit Unit where
  enter _ := enter
  code p proc d place _ := code p proc d place
  intr d _ := some { lk := .other, data := d, wakes := some () }
  held := held

abbrev State := Sleep.State Spin Unit Lock Place

abbrev step (s : State) (e : Sleep.Event Call Unit Unit) : Option State := Sleep.step sleepCode s e

/-- After `initsleeplock`. The processes have distinct pids. -/
structure Start (s : State) : Prop where
  data : s.data = { locked := false, pid := 0, past := [] }
  pos : ∀ p, s.pos p = .user ∨ s.pos p = .dead
  gone : ∀ p, (s.proc p).Gone → s.pos p = .dead
  awake : ∀ p, (s.proc p).state ≠ .sleeping
  lock : ∀ l, s.lock l = none
  returns : s.returns = []
  pids : ∀ p q, s.pos p ≠ .dead → s.pos q ≠ .dead → (s.proc p).pid = (s.proc q).pid → p = q

theorem sleepCode_locks : sleepCode.Locks where
  enter n call := by cases call <;> rfl
  code {p proc d place input a} h := by
    cases place <;> simp only [sleepCode, code] at h <;> (try split at h) <;> cases h <;>
      simp [Act.Keeps, held, sleepCode]

def SleepsOn (s : State) (q : Slot) : Prop :=
  (s.proc q).state = .sleeping ∧ (s.proc q).chan = some ()

/-- The lock is free, or one process is past `acquiresleep` and `pid` names it. -/
def Sound (s : State) : Prop :=
  s.data.locked = false ∧ s.data.past = [] ∨
    ∃ p, s.data.past = [p] ∧ s.pos p ≠ .dead ∧ s.data.locked = true ∧ s.data.pid = (s.proc p).pid

/-- A process in `releasesleep` has not come to `q` with its `wakeup`. -/
def Owes (q : Slot) : Pos Spin Unit Place → Prop
  | .call .wake => True
  | .waking _ j _ => j ≤ q
  | _ => False

def Knows (s : State) (p : Slot) : Pos Spin Unit Place → Prop
  | .call .taken => s.data.locked = true ∧ s.data.pid = (s.proc p).pid ∧ s.data.past = []
  | .call .clear => p ∈ s.data.past
  | .call (.read q) => q = p
  | .waking _ _ next => next = .released
  | .asleep l next | .relock l next => l = .lk ∧ next = .test
  | _ => True

structure Inv (s : State) : Prop where
  mutex : Mutex held s
  pids : ∀ p q, s.pos p ≠ .dead → s.pos q ≠ .dead → (s.proc p).pid = (s.proc q).pid → p = q
  sound : Sound s ∨ ∃ p, s.pos p = .call .taken
  knows : ∀ p, Knows s p (s.pos p)
  sleepers : ∀ q, SleepsOn s q → s.data.locked = true ∨ ∃ p, Owes q (s.pos p)
  returns : ∀ r ∈ s.returns, ∀ p, r.place = .read p → r.result = if p ∈ r.data.past then 1 else 0

variable {s s' : State} {p : Slot} {x : Pos Spin Unit Place}

/-- A change of slot `v` that does not put it to sleep. -/
theorem upd_frame {v : Slot} {f : Proc Unit → Proc Unit}
    (hpid : (f (s.proc v)).pid = (s.proc v).pid)
    (hsleep : (f (s.proc v)).state = .sleeping → f (s.proc v) = s.proc v) (q : Slot) :
    ((s.upd v f).proc q).pid = (s.proc q).pid ∧ (SleepsOn (s.upd v f) q → SleepsOn s q) := by
  rcases eq_or_ne q v with rfl | hq
  · simp only [Sleep.State.upd, SleepsOn, update_self]
    exact ⟨hpid, fun hs => by rwa [hsleep hs.1] at hs⟩
  · simp [Sleep.State.upd, SleepsOn, hq]

theorem Start.inv (h : Start s) : Inv s where
  mutex :=
    { agree := fun l p => by rcases h.pos p with hp | hp <;> simp [hp, Pos.held, h.lock]
      rest := fun p => by rcases h.pos p with hp | hp <;> simp [hp, Pos.Rest]
      dead := h.gone }
  pids := h.pids
  sound := .inl (.inl (by simp [h.data]))
  knows p := by rcases h.pos p with hp | hp <;> simp [hp, Knows]
  sleepers q hq := absurd hq.1 (h.awake q)
  returns := by simp [h.returns]

/-- What the holder of `lk->lk` knows is not known to another process. -/
theorem Knows.other {q : Slot} (h : Knows s q (s.pos q)) (hfree : (s.pos q).held held ≠ some .lk) :
    Knows s' q (s.pos q) := by
  cases hq : s.pos q with
  | call place => cases place <;> simp_all [Knows, Pos.held, held]
  | _ => simp_all [Knows]

theorem Inv.held_of_owes {q : Slot} (h : Inv s) (ho : Owes q (s.pos p)) :
    (s.pos p).held held = some .lk := by
  have hk := h.knows p
  cases hp : s.pos p with
  | call place => cases place <;> simp_all [Owes, Pos.held, held]
  | waking chan j next => simp_all [Knows, Pos.held, held]
  | _ => simp_all [Owes]

/-- `p` goes to `x`, and changes the lock only if it has `lk->lk`. -/
theorem Inv.move (h : Inv s) (hm : Mutex held s') (hpos : s'.pos = update s.pos p x)
    (hp : s.pos p ≠ .dead)
    (hdata : s'.data = s.data ∧ s.pos p ≠ .call .taken ∨
      (s.pos p).held held = some .lk ∧ (Sound s' ∨ x = .call .taken))
    (hk : Knows s' p x)
    (hsleep : ∀ q, SleepsOn s' q → s'.data.locked = true ∨ Owes q x ∨
      SleepsOn s q ∧ s'.data = s.data ∧ ¬Owes q (s.pos p))
    (hret : ∀ r ∈ s'.returns, ∀ p, r.place = .read p →
      r.result = if p ∈ r.data.past then 1 else 0)
    (hpid : ∀ q, (s'.proc q).pid = (s.proc q).pid := by exact fun _ => rfl)
    (hx : x ≠ .dead := by simp) : Inv s' := by
  have hself : s'.pos p = x := by rw [hpos, update_self]
  have hother : ∀ q ≠ p, s'.pos q = s.pos q := fun q hq => by rw [hpos, update_of_ne hq]
  have hdead : ∀ q, s'.pos q ≠ .dead ↔ s.pos q ≠ .dead := by grind
  refine ⟨hm, fun q q' => ?_, ?_, fun q => ?_, fun q hq => ?_, hret⟩
  · rw [hdead, hdead, hpid, hpid]
    exact h.pids q q'
  · rcases hdata with ⟨hd, ht⟩ | ⟨-, hs | rfl⟩
    · refine h.sound.imp (fun hs => ?_) fun ⟨q, hq⟩ => ⟨q, ?_⟩
      · simpa only [Sound, hd, hpid, hdead] using hs
      · rw [hother q (by rintro rfl; exact ht hq), hq]
    · exact .inl hs
    · exact .inr ⟨p, hself⟩
  · rcases eq_or_ne q p with rfl | hq
    · rwa [hself]
    rw [hother q hq]
    rcases hdata with ⟨hd, -⟩ | ⟨hl, -⟩
    · have := h.knows q
      unfold Knows at this ⊢
      rwa [hd, hpid]
    · exact (h.knows q).other fun hq' => hq (h.mutex.unique hq' hl)
  · rcases hsleep q hq with hl | ho | ⟨hs, hd, hn⟩
    · exact .inl hl
    · exact .inr ⟨p, by rwa [hself]⟩
    · rw [hd]
      refine (h.sleepers q hs).imp_right fun ⟨p', ho⟩ => ⟨p', ?_⟩
      rwa [hother p' (by rintro rfl; exact hn ho)]

/-- Changes to processes that put none to sleep. -/
theorem Inv.procs (h : Inv s) (hm : Mutex held s') (hpos : s'.pos = s.pos)
    (hdata : s'.data = s.data)
    (hret : s'.returns = s.returns) (hpid : ∀ q, (s'.proc q).pid = (s.proc q).pid)
    (hsleep : ∀ q, SleepsOn s' q → SleepsOn s q) : Inv s' := by
  refine ⟨hm, ?_, ?_, fun q => ?_, fun q hq => ?_, hret ▸ h.returns⟩
  · simpa only [hpos, hpid] using h.pids
  · simpa only [Sound, hpos, hdata, hpid] using h.sound
  · have := h.knows q
    unfold Knows at this ⊢
    rwa [hpos, hdata, hpid]
  · rw [hpos, hdata]
    exact h.sleepers q (hsleep q hq)

/-- While `lk->lk` is free, or its holder owes nothing, who sleeps waits for a process that has the
sleep lock. -/
theorem Inv.waits {q : Slot} (h : Inv s) (hq : SleepsOn s q)
    (hpaid : ∀ p, (s.pos p).held held = some .lk → ¬Owes q (s.pos p)) : s.data.locked = true :=
  (h.sleepers q hq).resolve_right fun ⟨p, ho⟩ => hpaid p (h.held_of_owes ho) ho

theorem Inv.returns_append {r : Sleep.Return Lock Place} (h : Inv s)
    (hr : ∀ p, r.place = .read p → r.result = if p ∈ r.data.past then 1 else 0) :
    ∀ r' ∈ s.returns ++ [r], ∀ p, r'.place = .read p →
      r'.result = if p ∈ r'.data.past then 1 else 0 := by
  intro r' hr'
  rcases List.mem_append.mp hr' with hr' | hr'
  · exact h.returns r' hr'
  · rwa [List.mem_singleton.mp hr']

theorem Inv.act {place : Place} {a : Act Spin Unit Lock Place} (h : Inv s) (hm : Mutex held s')
    (hp : s.pos p = .call place) (hc : code p s.proc s.data place = some a)
    (ha : Sleep.perform s p place a = some s') : Inv s' := by
  have hdead : s.pos p ≠ .dead := by simp [hp]
  have hheld : (s.pos p).held held = held place := by rw [hp]; rfl
  have hknows := h.knows p
  rw [hp] at hknows
  -- The others do not have `lk->lk` while `p` has it.
  have honly : ∀ q, held place = some .lk → (s.pos q).held held = some .lk → q = p :=
    fun q hl hq => h.mutex.unique hq (hheld.trans hl)
  have hsound : held place = some .lk → place ≠ .taken → Sound s := fun hl ht => by
    refine h.sound.resolve_right ?_
    rintro ⟨q, hq⟩
    refine ht ?_
    obtain rfl := honly q hl (by rw [hq]; rfl)
    exact Pos.call.inj (hp.symm.trans hq)
  have hpaid : held place = some .lk → place ≠ .wake → ∀ q, SleepsOn s q → s.data.locked = true :=
    fun hl hw q hq => h.waits hq fun p' hp' ho => by
      obtain rfl := honly p' hl hp'
      rw [hp] at ho
      cases place <;> simp_all [Owes]
  cases place with
  | acquire | holding =>
    cases hc
    obtain ⟨-, rfl⟩ := guard_eq_some.mp ha
    exact h.move hm rfl hdead (.inl ⟨rfl, by simp [hp]⟩) (by simp [Knows])
      (fun q hq => .inr (.inr ⟨hq, rfl, by simp [hp, Owes]⟩)) h.returns
  | release =>
    simp only [code] at hc
    split at hc <;> cases hc
    rename_i hpast
    obtain ⟨-, rfl⟩ := guard_eq_some.mp ha
    exact h.move hm rfl hdead (.inl ⟨rfl, by simp [hp]⟩) hpast
      (fun q hq => .inr (.inr ⟨hq, rfl, by simp [hp, Owes]⟩)) h.returns
  | test =>
    simp only [code] at hc
    split at hc <;> cases hc <;> cases ha
    · rename_i hl
      refine h.move hm rfl hdead (.inl ⟨rfl, by simp [hp]⟩) ⟨rfl, rfl⟩ (fun q _ => .inl hl)
        h.returns fun q => ?_
      rcases eq_or_ne q p with rfl | hq
      · simp [Sleep.State.goto, Sleep.State.upd]
      · simp [Sleep.State.goto, Sleep.State.upd, hq]
    · rename_i hl
      have hpast : s.data.past = [] := by
        rcases hsound rfl (by simp) with hs | ⟨_, _, _, hs, _⟩
        · exact hs.2
        · exact absurd hs hl
      exact h.move hm rfl hdead (.inr ⟨hheld, .inr rfl⟩) ⟨rfl, rfl, hpast⟩
        (fun q _ => .inl rfl) h.returns
  | taken =>
    cases hc
    cases ha
    refine h.move hm rfl hdead (.inr ⟨hheld, .inl (.inr ⟨p, ?_⟩)⟩) trivial
      (fun q hq => .inl hknows.1) (h.returns_append (by simp))
    simp [Sleep.State.goto, hknows.1, hknows.2.1, hknows.2.2]
  | clear =>
    cases hc
    cases ha
    have hpast : s.data.past = [p] := by
      rcases hsound rfl (by simp) with hs | ⟨q, hs, -⟩
      · simp [Knows, hs.2] at hknows
      · simp only [Knows, hs, List.mem_singleton] at hknows
        rw [hs, hknows]
    exact h.move hm rfl hdead
      (.inr ⟨hheld, .inl (.inl ⟨rfl, by simp [Sleep.State.goto, hpast]⟩)⟩) trivial
      (fun q _ => .inr (.inl trivial)) h.returns
  | wake =>
    cases hc
    cases ha
    exact h.move hm rfl hdead (.inl ⟨rfl, by simp [hp]⟩) rfl
      (fun q _ => .inr (.inl (Nat.zero_le _))) h.returns
  | released =>
    cases hc
    cases ha
    exact h.move hm rfl hdead (.inl ⟨rfl, by simp [hp]⟩) trivial
      (fun q hq => .inl (hpaid rfl (by simp) q hq)) (h.returns_append (by simp))
  | read p' =>
    cases hc
    cases ha
    obtain rfl : p' = p := hknows
    refine h.move hm rfl hdead (.inl ⟨rfl, by simp [hp]⟩) trivial
      (fun q hq => .inl (hpaid rfl (by simp) q hq)) (h.returns_append ?_)
    rintro _ ⟨⟩
    -- The pid in the lock is that of the one process past `acquiresleep`.
    rcases hsound rfl (by simp) with hs | ⟨q, hq, hlive, hl, hpid⟩
    · simp [hs.1, hs.2]
    · have : (s.proc q).pid = (s.proc p').pid ↔ p' = q :=
        ⟨fun he => (h.pids q p' hlive hdead he).symm, fun he => by rw [he]⟩
      simp [hq, hl, hpid, this]

theorem Inv.wakeupStep {chan : Unit} {j : Nat} {next : Place} (h : Inv s)
    (hs : (s.proc p).state = .running) (hp : s.pos p = .waking chan j next)
    (hm : Mutex held (Sleep.wakeupStep s p chan j next)) :
    Inv (Sleep.wakeupStep s p chan j next) := by
  have hdead : s.pos p ≠ .dead := by simp [hp]
  have hknows := h.knows p
  rw [hp] at hknows
  obtain rfl : next = .released := hknows
  -- Slot `j` does not sleep on the lock then: it has been woken up, or it is `p`.
  have hpaid : ∀ {q : Slot}, SleepsOn s q → (q : Nat) ≠ j →
      Owes q (.waking chan (j + 1) .released) ∨ SleepsOn s q ∧ s.data = s.data ∧
      ¬Owes q (s.pos p) := by
    intro q hq hne
    simp only [hp, Owes, hq, true_and]
    omega
  unfold Sleep.wakeupStep at hm ⊢
  split_ifs at hm ⊢ with hj hjp
  · have hframe := upd_frame (s := s) (v := ⟨j, hj⟩) (f := Sleep.wakeOne chan)
      (by unfold Sleep.wakeOne; split <;> rfl)
      fun hst => by unfold Sleep.wakeOne at hst ⊢; split at hst <;> simp_all
    refine h.move hm rfl hdead (.inl ⟨rfl, by simp [hp]⟩) rfl
      (fun q hq => .inr (hpaid ((hframe q).2 hq) ?_)) h.returns fun q => (hframe q).1
    rintro rfl
    simp [SleepsOn, Sleep.State.goto, Sleep.State.upd, Sleep.wakeOne] at hq
    split at hq <;> simp_all
  · refine h.move hm rfl hdead (.inl ⟨rfl, by simp [hp]⟩) rfl
      (fun q hq => .inr (hpaid hq ?_)) h.returns
    rintro rfl
    obtain rfl : q = p := not_not.mp hjp
    exact absurd (hs.symm.trans hq.1) (by simp)
  · refine h.move hm rfl hdead (.inl ⟨rfl, by simp [hp]⟩) trivial
      (fun q hq => .inr (.inr ⟨hq, rfl, ?_⟩)) h.returns
    have := q.isLt
    simp only [hp, Owes]
    omega

theorem Inv.step {e : Sleep.Event Call Unit Unit} (h : Inv s) (hstep : step s e = some s') :
    Inv s' := by
  have hm := h.mutex.step sleepCode_locks hstep
  have hupd : ∀ v f, Mutex held (s.upd v f) → (f (s.proc v)).pid = (s.proc v).pid →
      (f (s.proc v)).state ≠ .sleeping → Inv (s.upd v f) := fun v f hm hpid hst =>
    h.procs hm rfl rfl rfl (fun q => (upd_frame hpid (absurd · hst) q).1)
      fun q => (upd_frame hpid (absurd · hst) q).2
  cases step_moves hstep with
  | sched | yield => exact hupd _ _ hm rfl nofun
  | @kill _ v =>
    refine hupd v _ hm rfl ?_
    unfold Sleep.kkill
    split <;> simp_all
  | @call p call hs hp =>
    refine h.move hm rfl (by simp [hp]) (.inl ⟨rfl, by simp [hp]⟩) ?_
      (fun q hq => .inr (.inr ⟨hq, rfl, by simp [hp, Owes]⟩)) h.returns
    cases call <;> trivial
  | act hs hp hc ha => exact h.act hm hp hc ha
  | waking hs hp => exact h.wakeupStep hs hp hm
  | @awake p _ l next hs hp =>
    have hknows := h.knows p
    rw [hp] at hknows
    have hframe := upd_frame (s := s) (v := p) (f := fun q => { q with chan := none }) rfl
      fun hst => absurd (hs.symm.trans hst) nofun
    exact h.move hm rfl (by simp [hp]) (.inl ⟨rfl, by simp [hp]⟩) hknows
      (fun q hq => .inr (.inr ⟨(hframe q).2 hq, rfl, by simp [hp, Owes]⟩)) h.returns
      fun q => (hframe q).1
  | @relock p _ l next hs hp hl =>
    have hknows := h.knows p
    rw [hp] at hknows
    obtain ⟨rfl, rfl⟩ := hknows
    exact h.move hm rfl (by simp [hp]) (.inl ⟨rfl, by simp [hp]⟩) trivial
      (fun q hq => .inr (.inr ⟨hq, rfl, by simp [hp, Owes]⟩)) h.returns
  | @intr i handler _ hc hs =>
    cases hc
    obtain ⟨-, rfl⟩ := guard_eq_some.mp hs
    refine h.procs hm rfl rfl rfl (fun q => ?_) fun q hq => ?_
    · simp only [Sleep.wakeOne]
      split <;> rfl
    · simp only [SleepsOn, Sleep.wakeOne] at hq
      split at hq <;> simp_all

/-- In every interleaving of `acquiresleep`, `releasesleep` by holders, `holdingsleep`, `kkill` and
spurious wakeups, at most one process is past `acquiresleep` and before its `releasesleep`,
`holdingsleep` returns 1 exactly for that process, and while `lk->lk` is free no process sleeps on
a lock with `locked = 0`. -/
theorem sleeplock_exclusive (h : Reachable Start step s) :
    s.data.past.length ≤ 1 ∧
      (∀ r ∈ s.returns, ∀ p, r.place = .read p → r.result = if p ∈ r.data.past then 1 else 0) ∧
      (s.lock .lk = none → s.data.locked = false → ∀ q, ¬SleepsOn s q) := by
  have hinv : Inv s := h.invariant (fun _ hs => hs.inv) fun _ _ _ hs hstep => hs.step hstep
  refine ⟨?_, hinv.returns, fun hfree hl q hq => ?_⟩
  · rcases hinv.sound with (hs | ⟨p, hs, -⟩) | ⟨p, hp⟩
    · simp [hs.2]
    · simp [hs]
    · have hknows := hinv.knows p
      rw [hp] at hknows
      simp [hknows.2.2]
  · have hw := hinv.waits hq fun p hp => by
      rw [(hinv.mutex.agree .lk p).mpr hp] at hfree
      cases hfree
    rw [hl] at hw
    cases hw

/-- Two processes with the pids 1 and 2. -/
def start : State where
  proc p :=
    { state := if p < 2 then .running else .unused, chan := none, killed := false, xstate := 0
      pid := p + 1, parent := none }
  pos p := if p < 2 then .user else .dead
  lock _ := none
  data := { locked := false, pid := 0, past := [] }
  calls := 0
  returns := []

theorem start_ok : Start start where
  data := rfl
  pos p := by by_cases hp : p < 2 <;> simp [start, hp]
  gone p h := by by_cases hp : p < 2 <;> simp_all [start, Proc.Gone]
  awake p := by by_cases hp : p < 2 <;> simp [start, hp]
  lock _ := rfl
  returns := rfl
  pids p q _ _ h := Fin.ext (by simp only [start] at h; omega)

/-- One process has the lock and finds that it has, and another is killed while it waits, sleeps
again. -/
def contend : List (Sleep.Event Call Unit Unit) :=
  [.call 0 .acquiresleep, .run 0 (), .run 0 (), .run 0 (), .call 1 .acquiresleep, .run 1 (),
    .run 1 (), .call 0 .holdingsleep, .run 0 (), .run 0 (), .kill 2 1, .sched 1, .run 1 (),
    .run 1 (), .run 1 ()]

theorem sleeplock_exclusive_contend :
    ∃ s, Reachable Start step s ∧ s.data.past = [0] ∧ SleepsOn s 1 ∧
      (s.returns.map (·.result)) = [0, 1] ∧ s.data.past.length ≤ 1 := by
  have hrun : (runEvents step start contend).any (fun s => decide (s.data.past = [0] ∧
      ((s.proc 1).state = .sleeping ∧ (s.proc 1).chan = some ()) ∧
      s.returns.map (·.result) = [0, 1])) := by
    decide +kernel
  obtain ⟨s, hreach, hpast, hsleeps, hreturns⟩ := Reachable.exists_run start_ok hrun
  exact ⟨s, hreach, hpast, hsleeps, hreturns, (sleeplock_exclusive hreach).1⟩

end Xv6.SleepLock
