import Xv6.Ipc.Fifo

/-! The processes on a pipe: what each knows at its place, from having the lock, and what the calls
that have returned found. -/

namespace Xv6.Ipc

open Function
open Sleep (Act Pos Mutex Moves Return step_moves)
open Wait (Slot)

def Chan.Waits (d : Pipe) : Chan → Prop
  | .nread => d.isEmpty = true ∧ d.writeopen = true
  | .nwrite => d.isFull = true ∧ d.readopen = true

def Sees (d : Pipe) : Place → Prop
  | .writeLoop _ _ stored => stored = true → d.readopen = true
  | .writeFull _ _ | .writeSleep _ _ => Chan.Waits d .nwrite
  | .writeCopy _ _ _ => d.isFull = false ∧ d.readopen = true
  | .readSleep _ => Chan.Waits d .nread
  | .readCopy _ i => i = 0 → d.isEmpty = true → d.writeopen = false
  | .readLeave n r => 0 < n → r = 0 → d.isEmpty = true ∧ d.writeopen = false
  | _ => True

variable {place : Place}

theorem sees_of_free (h : held place = none) (d : Pipe) : Sees d place := by
  cases place with
  | write => trivial
  | read => trivial
  | close => trivial
  | _ => cases h

/-- The `n` of the `piperead` that a place belongs to. -/
def Place.reads : Place → Option Int
  | .read n | .readWait n | .readSleep n | .readCopy n _ | .readLeave n _ | .readFail n => some n
  | _ => none

/-- A `piperead` that returned 0 found the pipe empty and the write end closed. -/
def Ends (r : Return Pipe Place) : Prop :=
  ∀ n, r.place.reads = some n → 0 < n → r.result = 0 →
    r.data.isEmpty = true ∧ r.data.writeopen = false

def Post (d : Pipe) (place : Place) : Act Unit Chan Pipe Place → Prop
  | .acquire _ next | .wakeup _ next => Sees d next
  | .data d' next => Fifo d' ∧ Sees d' next
  | .killed next => ∀ k, Sees d (next k)
  | .sleep chan _ next => chan.Waits d ∧ ∀ d', Sees d' next
  | .leave _ d' effect r => Fifo d' ∧ effect = .keep ∧ Ends { place, data := d', result := r }
  | .setParent _ _ _ | .exit _ _ => False

variable {a : Act Unit Chan Pipe Place} {d : Pipe} {ok : Bool}

theorem post_write {w : Write} (hd : Fifo d) (hsees : Sees d place)
    (hc : writeCode d w ok place = some a) : Post d place a := by
  have hends : ∀ {r : Int}, place.reads = none → Ends { place, data := d, result := r } :=
    fun hn n he => by rw [show _ = _ from hn] at he; cases he
  cases place with
  | write _ =>
    cases hc
    exact nofun
  | writeLoop _ i stored =>
    simp only [writeCode] at hc
    split_ifs at hc with hi hr hf <;> cases hc
    · exact ⟨hd, rfl, hends rfl⟩
    · intro k
      dsimp only
      split
      · trivial
      · exact ⟨hf, by simpa using hr⟩
    · intro k
      dsimp only
      split
      · trivial
      · exact ⟨by simpa using hf, by simpa using hr⟩
    · trivial
  | writeFull _ i =>
    cases hc
    exact hsees
  | writeSleep _ i =>
    cases hc
    exact ⟨hsees, nofun⟩
  | writeCopy _ i stored =>
    simp only [writeCode] at hc
    split_ifs at hc with hok <;> cases hc
    · exact ⟨hd.store hsees.1 _ _, fun _ => hsees.2⟩
    · trivial
  | writeLeave _ i =>
    cases hc
    exact ⟨hd, rfl, hends rfl⟩
  | writeFail _ i =>
    cases hc
    exact ⟨hd, rfl, hends rfl⟩
  | _ => cases hc

theorem post_read {n : Int}
    (hd : Fifo d) (hsees : Sees d place) (hn : place.reads = some n)
    (hc : readCode d n ok place = some a) : Post d place a := by
  cases place with
  | read _ =>
    cases hc
    trivial
  | readWait _ =>
    simp only [readCode] at hc
    split_ifs at hc with hw <;> cases hc
    · intro k
      dsimp only
      split
      · trivial
      · exact hw
    · refine ⟨hd, fun _ he => ?_⟩
      simpa [he] using hw
  | readSleep _ =>
    cases hc
    exact ⟨hsees, fun _ => trivial⟩
  | readCopy _ i =>
    simp only [readCode] at hc
    split_ifs at hc with hi he hok h0 <;> cases hc
    · -- The pipe is empty now, so this is what the first test saw if nothing was copied.
      intro _ h0
      exact ⟨he, hsees (by omega) he⟩
    · exact ⟨hd.consume (by simpa using he), nofun⟩
    · intro _ h
      cases h
    · intro _ h
      omega
    · intro hpos h
      omega
  | readLeave _ r =>
    cases hc
    cases hn
    refine ⟨hd, rfl, fun n' he hpos h0 => ?_⟩
    cases he
    exact hsees hpos h0
  | readFail _ =>
    cases hc
    refine ⟨hd, rfl, fun n' he hpos h0 => ?_⟩
    cases h0
  | _ => cases hc

theorem post_close {b : Bool}
    (hd : Fifo d) (hc : closeCode d b place = some a) : Post d place a := by
  cases place with
  | close _ =>
    cases hc
    trivial
  | closeSet _ =>
    cases hc
    exact ⟨hd.close b, trivial⟩
  | closeWake _ =>
    cases hc
    trivial
  | closeLeave _ =>
    cases hc
    refine ⟨hd.free, rfl, fun n he => ?_⟩
    cases he
  | _ => cases hc

theorem post_code
    (hd : Fifo d) (hsees : Sees d place) (hc : code d place ok = some a) : Post d place a := by
  unfold code at hc
  split at hc
  · cases hc
  · cases place with
    | read n | readWait n | readSleep n | readCopy n i | readLeave n r | readFail n =>
      exact post_read hd hsees rfl hc
    | close b | closeSet b | closeWake b | closeLeave b => exact post_close hd hc
    | _ => exact post_write hd hsees hc

theorem keeps_write {w : Write} (hc : writeCode d w ok place = some a) : a.Keeps held place := by
  cases place with
  | writeLoop _ i stored =>
    simp only [writeCode] at hc
    split_ifs at hc <;> cases hc
    · rfl
    · intro k
      dsimp only
      split <;> rfl
    · intro k
      dsimp only
      split <;> rfl
    · rfl
  | writeCopy _ i stored =>
    simp only [writeCode] at hc
    split_ifs at hc <;> cases hc
    · exact ⟨by simp [held], rfl⟩
    · rfl
  | write _ | writeSleep _ i =>
    cases hc
    exact ⟨rfl, rfl⟩
  | writeFull _ i | writeLeave _ i | writeFail _ i =>
    cases hc
    rfl
  | _ => cases hc

theorem keeps_read {n : Int}
    (hc : readCode d n ok place = some a) : a.Keeps held place := by
  cases place with
  | readWait _ =>
    simp only [readCode] at hc
    split_ifs at hc <;> cases hc
    · intro k
      dsimp only
      split <;> rfl
    · exact ⟨by simp [held], rfl⟩
  | readCopy _ i =>
    simp only [readCode] at hc
    split_ifs at hc <;> cases hc <;> first | rfl | exact ⟨by simp [held], rfl⟩
  | read _ | readSleep _ =>
    cases hc
    exact ⟨rfl, rfl⟩
  | readLeave _ r | readFail _ =>
    cases hc
    rfl
  | _ => cases hc

theorem keeps_close {b : Bool}
    (hc : closeCode d b place = some a) : a.Keeps held place := by
  cases place with
  | close _ =>
    cases hc
    exact ⟨rfl, rfl⟩
  | closeSet _ =>
    cases hc
    exact ⟨by simp [held], rfl⟩
  | closeWake _ | closeLeave _ =>
    cases hc
    rfl
  | _ => cases hc

theorem keeps_code
    (hc : code d place ok = some a) : a.Keeps held place := by
  unfold code at hc
  split at hc
  · cases hc
  · cases place with
    | read n | readWait n | readSleep n | readCopy n i | readLeave n r | readFail n =>
      exact keeps_read hc
    | close b | closeSet b | closeWake b | closeLeave b => exact keeps_close hc
    | _ => exact keeps_write hc

theorem pipeCode_locks : pipeCode.Locks where
  enter _ call := by cases call <;> rfl
  code hc := keeps_code hc

def PosSees (d : Pipe) : Pos Unit Chan Place → Prop
  | .call place | .waking _ _ place => Sees d place
  | .asleep _ next | .relock _ next => ∀ d', Sees d' next
  | _ => True

theorem posSees_of_free {d d' : Pipe} {pos : Pos Unit Chan Place} (h : pos.held held = none)
    (hsees : PosSees d pos) : PosSees d' pos := by
  cases pos with
  | call place => exact sees_of_free h d'
  | waking chan j next => exact sees_of_free h d'
  | asleep lk next => exact hsees
  | relock lk next => exact hsees
  | user => trivial
  | dead => trivial

/-- The pipe is a queue, each process knows what it claims to know, and the calls that returned did
so for a reason. -/
structure PipeInv (s : State) : Prop where
  mutex : Mutex held s
  fifo : Fifo s.data
  sees : ∀ p, PosSees s.data (s.pos p)
  ends : ∀ r ∈ s.returns, Ends r

theorem Start.pipeInv {s : State} (h : Start s) : PipeInv s where
  mutex :=
    { agree := fun lk p => by
        rw [h.lock]
        rcases h.pos p with hp | hp <;> simp [hp, Pos.held]
      rest := fun p => by rcases h.pos p with hp | hp <;> simp [hp, Pos.Rest]
      dead := h.gone }
  fifo := by
    obtain ⟨data, hd⟩ := h.data
    rw [hd]
    exact fifo_alloc data
  sees p := by rcases h.pos p with hp | hp <;> simp [hp, PosSees]
  ends := by simp [h.returns]

variable {s s' : State}

theorem PipeInv.move (h : PipeInv s) {p : Slot} {x : Pos Unit Chan Place} (hm : Mutex held s')
    (hpos : s'.pos = update s.pos p x) (hfifo : Fifo s'.data) (hx : PosSees s'.data x)
    (hothers : s'.data = s.data ∨ (s.pos p).held held = some ())
    (hends : ∀ r ∈ s'.returns, Ends r) : PipeInv s' := by
  refine ⟨hm, hfifo, fun q => ?_, hends⟩
  rw [hpos]
  rcases eq_or_ne q p with rfl | hq
  · rw [update_self]
    exact hx
  rw [update_of_ne hq]
  rcases hothers with hd | hp
  · rw [hd]
    exact h.sees q
  · refine posSees_of_free ?_ (h.sees q)
    by_contra hheld
    obtain ⟨lk, hlk⟩ := Option.ne_none_iff_exists'.mp hheld
    exact hq (h.mutex.unique hlk hp)

theorem PipeInv.perform (h : PipeInv s) {p : Slot} (hp : s.pos p = .call place)
    (hc : code s.data place ok = some a)
    (hm : Mutex held s') (ha : Sleep.perform s p place a = some s') : PipeInv s' := by
  have hsees := h.sees p
  rw [hp] at hsees
  have hpost := post_code h.fifo hsees hc
  have hkeeps := keeps_code hc
  have hheld : (s.pos p).held held = held place := by rw [hp]; rfl
  cases a with
  | acquire lk next =>
    simp only [Sleep.perform, guard_eq_some] at ha
    obtain ⟨-, rfl⟩ := ha
    exact h.move hm rfl h.fifo hpost (.inl rfl) h.ends
  | data d next =>
    cases ha
    obtain ⟨lk, hlk⟩ := Option.ne_none_iff_exists'.mp hkeeps.1
    exact h.move hm rfl hpost.1 hpost.2 (.inr (hheld.trans hlk)) h.ends
  | killed next =>
    cases ha
    exact h.move hm rfl h.fifo (hpost _) (.inl rfl) h.ends
  | sleep chan lk next =>
    cases ha
    exact h.move hm rfl h.fifo hpost.2 (.inl rfl) h.ends
  | wakeup chan next =>
    cases ha
    exact h.move hm rfl h.fifo hpost (.inl rfl) h.ends
  | leave lk d effect r =>
    obtain ⟨hfifo, rfl, hends⟩ := hpost
    cases ha
    refine h.move hm rfl hfifo trivial (.inr (hheld.trans hkeeps)) fun r' hr' => ?_
    rcases List.mem_append.mp hr' with hr' | hr'
    · exact h.ends r' hr'
    · rw [List.mem_singleton.mp hr']
      exact hends
  | setParent pp parent next => exact hpost.elim
  | exit lk status => exact hpost.elim

theorem PipeInv.procs (h : PipeInv s) (hm : Mutex held s') (hpos : s'.pos = s.pos)
    (hdata : s'.data = s.data) (hreturns : s'.returns = s.returns) : PipeInv s' :=
  ⟨hm, hdata ▸ h.fifo, fun p => by rw [hpos, hdata]; exact h.sees p, hreturns ▸ h.ends⟩

theorem PipeInv.wakeupStep (h : PipeInv s) {p : Slot} {chan : Chan} {j : Nat} {next : Place}
    (hp : s.pos p = .waking chan j next) (hm : Mutex held (Sleep.wakeupStep s p chan j next)) :
    PipeInv (Sleep.wakeupStep s p chan j next) := by
  have hsees := h.sees p
  rw [hp] at hsees
  unfold Sleep.wakeupStep at hm ⊢
  split_ifs at hm ⊢ <;> exact h.move hm rfl h.fifo hsees (.inl rfl) h.ends

theorem PipeInv.step (h : PipeInv s) {e : Event} (hstep : step s e = some s') : PipeInv s' := by
  have hm := h.mutex.step pipeCode_locks hstep
  cases step_moves hstep with
  | sched => exact h.procs hm rfl rfl rfl
  | yield => exact h.procs hm rfl rfl rfl
  | kill => exact h.procs hm rfl rfl rfl
  | @call p call =>
    refine h.move hm rfl h.fifo ?_ (.inl rfl) h.ends
    cases call <;> trivial
  | act hs hp hc ha => exact h.perform hp hc hm ha
  | waking hs hp => exact h.wakeupStep hp hm
  | @awake p _ _ _ hs hp =>
    have hsees := h.sees p
    rw [hp] at hsees
    exact h.move hm rfl h.fifo hsees (.inl rfl) h.ends
  | @relock p _ _ _ hs hp =>
    have hsees := h.sees p
    rw [hp] at hsees
    exact h.move hm rfl h.fifo (hsees _) (.inl rfl) h.ends
  | @intr i => exact i.elim

theorem reachable_pipeInv (h : Reachable Start step s) : PipeInv s :=
  h.invariant (fun _ hs => hs.pipeInv) fun _ _ _ hs hstep => hs.step hstep

end Xv6.Ipc
