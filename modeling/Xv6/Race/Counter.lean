import Xv6.Lib.Run
import Xv6.Race.Spin

/-! The shared counter of `race.c` under its lock: `race_increment` with `use_lock` set,
`race_get_counter` and `race_reset` by any number of processes, at the granularity of single loads
and stores of `counter`, `total_ops` and the lock. -/

namespace Xv6.Race

open Function

/-- Where a process is in `race_increment`: before the test of the loop, in `acquire` or before
the load of `counter`, before one of the other accesses, in `release` up to the store that frees
the lock, or past that. -/
inductive IncPc
  | loop
  | enter
  | store (temp : Nat)
  | loadOps
  | storeOps (ops : Nat)
  | leave
  | next
  deriving DecidableEq

/-- What a process is doing: outside of these calls, in `race_increment`, in `race_get_counter`
before or after the load, or in `race_reset` before one of the stores or after both. -/
inductive Job
  | user
  | inc (i iterations : Int) (pc : IncPc)
  | get
  | getLeave (val : Nat)
  | reset
  | resetOps
  | resetLeave
  deriving DecidableEq

/-- A `race_get_counter` that has given up the lock: the value that it returns, and the number of
critical sections completed since the last reset. -/
structure Got where
  value : Nat
  completed : Nat

/-- `shared_res` and the processes. The other fields record what happened: the critical sections of
`race_increment` completed since the last reset, the values got, the processes inside
`race_increment`, the iterations that they still had to do at the last reset, and the arguments of
the calls made since then. -/
structure State where
  spin : Spin.Sys
  counter : Nat
  totalOps : Nat
  job : Nat → Job
  completed : Nat
  got : List Got
  workers : List Nat
  owed : Nat
  calls : List Int

def Job.left : Job → Nat
  | .inc i iterations .next => (iterations - i - 1).toNat
  | .inc i iterations _ => (iterations - i).toNat
  | _ => 0

def State.goto (s : State) (p : Nat) (job : Job) : State := { s with job := update s.job p job }

def init : State where
  spin :=
    { lk := { locked := false, cpu := none }, pc := fun _ => .idle, cpu := fun _ => none
      running := fun _ => none, panic := none }
  counter := 0
  totalOps := 0
  job _ := .user
  completed := 0
  got := []
  workers := []
  owed := 0
  calls := []

def succ32 (x : Nat) : Nat := (x + 1) % 2 ^ 32

/-- What the store that frees the lock ends: a critical section of the call that `p` makes. -/
def endSection (s : State) (p : Nat) : State :=
  match s.job p with
  | .inc i iterations _ =>
    { s with completed := s.completed + 1 }.goto p (.inc i iterations .next)
  | .getLeave val => { s with got := { value := val, completed := s.completed } :: s.got }
  | .resetLeave =>
    { s with completed := 0, calls := [], owed := (s.workers.map fun q => (s.job q).left).sum }
  | _ => s

/-- The step of `p` outside of `acquire` and `release`, without the lock. -/
def freeStep (s : State) (p : Nat) : Option State :=
  match s.job p with
  | .inc i iterations .loop =>
    if i < iterations then
      some ({ s with spin := Spin.acquire s.spin p }.goto p (.inc i iterations .enter))
    else some ({ s with workers := s.workers.erase p }.goto p .user)
  | .inc i iterations .next => some (s.goto p (.inc (i + 1) iterations .loop))
  | .get | .reset => some { s with spin := Spin.acquire s.spin p }
  | .getLeave _ | .resetLeave => some (s.goto p .user)
  | _ => none

/-- The step of `p` outside of `acquire` and `release`, with the lock. -/
def heldStep (s : State) (p : Nat) : Option State :=
  match s.job p with
  | .inc i iterations .enter => some (s.goto p (.inc i iterations (.store s.counter)))
  | .inc i iterations (.store temp) =>
    some ({ s with counter := succ32 temp }.goto p (.inc i iterations .loadOps))
  | .inc i iterations .loadOps => some (s.goto p (.inc i iterations (.storeOps s.totalOps)))
  | .inc i iterations (.storeOps ops) =>
    some ({ s with totalOps := succ32 ops }.goto p (.inc i iterations .leave))
  | .get => some (s.goto p (.getLeave s.counter))
  | .reset => some ({ s with counter := 0 }.goto p .resetOps)
  | .resetOps => some ({ s with totalOps := 0 }.goto p .resetLeave)
  | .inc _ _ .leave | .getLeave _ | .resetLeave =>
    some { s with spin := Spin.release s.spin p }
  | _ => none

/-- The next step of `p`, which runs on CPU `c`. -/
def runStep (s : State) (p c : Nat) : Option State :=
  match s.spin.pc p with
  | .idle => freeStep s p
  | .held => heldStep s p
  | .clearLocked => some { endSection s p with spin := Spin.step s.spin p c }
  | _ => some { s with spin := Spin.step s.spin p c }

/-- The calls. -/
inductive Call
  | increment (iterations : Int)
  | getCounter
  | reset

def callStep (s : State) (p : Nat) : Call → State
  | .increment iterations =>
    { s with workers := p :: s.workers, calls := iterations :: s.calls }.goto p
      (.inc 0 iterations .loop)
  | .getCounter => s.goto p .get
  | .reset => s.goto p .reset

/-- What can happen next: a CPU takes up a process or gives it up, a process makes a call, or the
call takes its next step. -/
inductive Event
  | sched (p c : Nat)
  | preempt (p : Nat)
  | call (p : Nat) (call : Call)
  | run (p : Nat)

def step (s : State) (e : Event) : Option State :=
  if s.spin.panic.isSome then none
  else match e with
    | .sched p c => (Spin.sched s.spin p c).map fun spin => { s with spin }
    | .preempt p => (Spin.preempt s.spin p).map fun spin => { s with spin }
    | .call p call =>
      if s.job p = .user ∧ (s.spin.cpu p).isSome then some (callStep s p call) else none
    | .run p => (s.spin.cpu p).bind fun c => runStep s p c

/-- A place in `acquire` or `release`, or outside, goes with the places of the calls that are
there. -/
def JobAt : Spin.Pc → Job → Prop
  | .idle, .user | .idle, .getLeave _ | .idle, .resetLeave | .idle, .get | .idle, .reset => True
  | .idle, .inc _ _ pc => pc = .loop ∨ pc = .next
  | .loadLocked, job | .loadCpu, job | .swap, job | .storeCpu, job =>
    job = .get ∨ job = .reset ∨ ∃ i n, job = .inc i n .enter
  | .held, .get | .held, .getLeave _ | .held, .reset | .held, .resetOps | .held, .resetLeave => True
  | .held, .inc _ _ pc => pc ≠ .loop ∧ pc ≠ .next
  | .checkLocked, job | .checkCpu, job | .clearCpu, job | .clearLocked, job =>
    (∃ v, job = .getLeave v) ∨ job = .resetLeave ∨ ∃ i n, job = .inc i n .leave
  | .popOff, job => (∃ v, job = .getLeave v) ∨ job = .resetLeave ∨ ∃ i n, job = .inc i n .next
  | _, _ => False

/-- What the holder of the lock leaves in `counter` and `total_ops`, at each of its places, when
`n` critical sections have been completed. -/
def Job.Data (n counter ops : Nat) : Job → Prop
  | .inc _ _ (.store temp) => temp = n % 2 ^ 32 ∧ counter = n % 2 ^ 32 ∧ ops = n % 2 ^ 32
  | .inc _ _ .loadOps => counter = (n + 1) % 2 ^ 32 ∧ ops = n % 2 ^ 32
  | .inc _ _ (.storeOps ops') =>
    ops' = n % 2 ^ 32 ∧ counter = (n + 1) % 2 ^ 32 ∧ ops = n % 2 ^ 32
  | .inc _ _ .leave => counter = (n + 1) % 2 ^ 32 ∧ ops = (n + 1) % 2 ^ 32
  | .getLeave val => val = n % 2 ^ 32 ∧ counter = n % 2 ^ 32 ∧ ops = n % 2 ^ 32
  | .resetOps => counter = 0 ∧ ops = n % 2 ^ 32
  | .resetLeave => counter = 0 ∧ ops = 0
  | _ => counter = n % 2 ^ 32 ∧ ops = n % 2 ^ 32

end Xv6.Race
