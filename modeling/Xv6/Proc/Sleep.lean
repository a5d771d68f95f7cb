import Xv6.Proc.Wait

/-! `sleep`, `wakeup`, `killed` and `kkill` of `proc.c` under the code that calls them. The code of
the kernel calls is a parameter: the places where a process can be, and what it does at each. The
processes interleave at the granularity of the critical sections of `p->lock`. -/

namespace Xv6.Sleep

open Function
open Wait (Slot ProcState)

/-- The fields of `struct proc` that the calls use. -/
structure Proc (Chan : Type) where
  state : ProcState
  chan : Option Chan
  killed : Bool
  xstate : Int
  pid : Int
  parent : Option Slot

/-- What the end of a call does to the process table: nothing, `freeproc(pp)`, or the start of the
new process `np`. -/
inductive Effect
  | keep
  | freeproc (pp : Slot)
  | start (np : Slot) (pid : Int)

/-- What a process does at a place, and the place after that. `data` is an access to shared data;
`leave` releases the lock and returns; `exit` is the end of `kexit`. -/
inductive Act (Lock Chan σ Place : Type)
  | acquire (lk : Lock) (next : Place)
  | data (d : σ) (next : Place)
  | killed (next : Bool → Place)
  | sleep (chan : Chan) (lk : Lock) (next : Place)
  | wakeup (chan : Chan) (next : Place)
  | setParent (pp parent : Slot) (next : Place)
  | leave (lk : Lock) (d : σ) (effect : Effect) (r : Int)
  | exit (lk : Lock) (status : Int)

/-- An interrupt handler: it takes a lock, changes the data and wakes up a channel. -/
structure Handler (Lock Chan σ : Type) where
  lk : Lock
  data : σ
  wakes : Option Chan

/-- The code of the kernel calls. `enter` is the first place of a call, which gets the number of the
call; `code` is what a process does at a place, with some input from outside; `held` is the lock
that a process holds there. -/
structure Code (Lock Chan σ Place Call Input Intr : Type) where
  enter : Nat → Call → Place
  code : Slot → (Slot → Proc Chan) → σ → Place → Input → Option (Act Lock Chan σ Place)
  intr : σ → Intr → Option (Handler Lock Chan σ)
  held : Place → Option Lock

/-- Where a process is: in user space, at a place of a call, in the loop of `wakeup` before slot
`j`, in `sleep` before or after it has given up `p->lock`, or nowhere. -/
inductive Pos (Lock Chan Place : Type)
  | user
  | call (place : Place)
  | waking (chan : Chan) (j : Nat) (next : Place)
  | asleep (lk : Lock) (next : Place)
  | relock (lk : Lock) (next : Place)
  | dead

/-- The end of a call: the place, the data when it released the lock, and the result. -/
structure Return (σ Place : Type) where
  place : Place
  data : σ
  result : Int

/-- The processes, who holds each lock, and the shared data. The last two fields record the number
of calls made and the calls that have returned. -/
structure State (Lock Chan σ Place : Type) where
  proc : Slot → Proc Chan
  pos : Slot → Pos Lock Chan Place
  lock : Lock → Option Slot
  data : σ
  calls : Nat
  returns : List (Return σ Place)

variable {Lock Chan σ Place Call Input Intr : Type}

def State.upd (s : State Lock Chan σ Place) (p : Slot) (f : Proc Chan → Proc Chan) :
    State Lock Chan σ Place :=
  { s with proc := update s.proc p (f (s.proc p)) }

def State.goto (s : State Lock Chan σ Place) (p : Slot) (pos : Pos Lock Chan Place) :
    State Lock Chan σ Place :=
  { s with pos := update s.pos p pos }

def Pos.held (held : Place → Option Lock) : Pos Lock Chan Place → Option Lock
  | .call place => held place
  | .waking _ _ next => held next
  | _ => none

def freeProc (_ : Proc Chan) : Proc Chan :=
  { state := .unused, chan := none, killed := false, xstate := 0, pid := 0, parent := none }

/-- `freeproc` on a zombie, or the end of `kfork` by `p` with the slot that `allocproc` found. -/
def Effect.apply (s : State Lock Chan σ Place) (p : Slot) :
    Effect → Option (State Lock Chan σ Place)
  | .keep => some s
  | .freeproc pp => if (s.proc pp).state = .zombie then some (s.upd pp freeProc) else none
  | .start np pid =>
    if (s.proc np).state = .unused then
      some ((s.upd np fun q => { q with state := .runnable, pid, parent := some p }).goto np .user)
    else none

section Steps

variable [DecidableEq Lock] [DecidableEq Chan]

def wakeOne (chan : Chan) (q : Proc Chan) : Proc Chan :=
  if q.state = .sleeping ∧ q.chan = some chan then { q with state := .runnable } else q

/-- One action of `p`, at `place`. A process that needs a lock waits while another holds it. -/
def perform (s : State Lock Chan σ Place) (p : Slot) (place : Place) :
    Act Lock Chan σ Place → Option (State Lock Chan σ Place)
  | .acquire lk next =>
    if s.lock lk = none then
      some ({ s with lock := update s.lock lk (some p) }.goto p (.call next))
    else none
  | .data d next => some ({ s with data := d }.goto p (.call next))
  | .killed next => some (s.goto p (.call (next (s.proc p).killed)))
  | .sleep chan lk next =>
    -- With `p->lock` held from here to `sched`.
    some (({ s with lock := update s.lock lk none }.upd p fun q =>
      { q with state := .sleeping, chan := some chan }).goto p (.asleep lk next))
  | .wakeup chan next => some (s.goto p (.waking chan 0 next))
  | .setParent pp parent next =>
    some ((s.upd pp fun q => { q with parent := some parent }).goto p (.call next))
  | .leave lk d effect r =>
    let s := { s with
      lock := update s.lock lk none, data := d, returns := s.returns ++ [Return.mk place d r] }
    effect.apply (s.goto p .user) p
  | .exit lk status =>
    some (({ s with lock := update s.lock lk none }.upd p fun q =>
      { q with xstate := status, state := .zombie }).goto p .dead)

/-- Slot `j` of the loop of `wakeup(chan)`, called by `p`. -/
def wakeupStep (s : State Lock Chan σ Place) (p : Slot) (chan : Chan) (j : Nat) (next : Place) :
    State Lock Chan σ Place :=
  if h : j < NPROC then
    (if (⟨j, h⟩ : Slot) ≠ p then s.upd ⟨j, h⟩ (wakeOne chan) else s).goto p
      (.waking chan (j + 1) next)
  else s.goto p (.call next)

def runStep (c : Code Lock Chan σ Place Call Input Intr) (s : State Lock Chan σ Place) (p : Slot)
    (input : Input) : Option (State Lock Chan σ Place) :=
  match s.pos p with
  | .user | .dead => none
  | .call place => (c.code p s.proc s.data place input).bind (perform s p place)
  | .waking chan j next => some (wakeupStep s p chan j next)
  | .asleep lk next => some ((s.upd p fun q => { q with chan := none }).goto p (.relock lk next))
  | .relock lk next =>
    if s.lock lk = none then
      some ({ s with lock := update s.lock lk (some p) }.goto p (.call next))
    else none

/-- The critical section in which `kkill` finds its pid. -/
def kkill (q : Proc Chan) : Proc Chan :=
  { q with killed := true, state := if q.state = .sleeping then .runnable else q.state }

def intrStep (s : State Lock Chan σ Place) (h : Handler Lock Chan σ) :
    Option (State Lock Chan σ Place) :=
  if s.lock h.lk = none then
    some { s with
      data := h.data
      proc := fun q => match h.wakes with
        | some chan => wakeOne chan (s.proc q)
        | none => s.proc q }
  else none

/-- What can happen next: the scheduler runs a process, a timer interrupt makes one give up the
CPU, a process makes a call, the call takes its next step, `kkill(pid)` finds its process in slot
`v`, or a device interrupts. -/
inductive Event (Call Input Intr : Type)
  | sched (p : Slot)
  | yield (p : Slot)
  | call (p : Slot) (call : Call)
  | run (p : Slot) (input : Input)
  | kill (pid : Int) (v : Slot)
  | intr (i : Intr)

def step (c : Code Lock Chan σ Place Call Input Intr) (s : State Lock Chan σ Place) :
    Event Call Input Intr → Option (State Lock Chan σ Place)
  | .sched p =>
    if (s.proc p).state = .runnable then some (s.upd p fun q => { q with state := .running })
    else none
  | .yield p =>
    if (s.proc p).state = .running ∧ (s.pos p).held c.held = none then
      some (s.upd p fun q => { q with state := .runnable })
    else none
  | .call p call =>
    match s.pos p with
    | .user =>
      if (s.proc p).state = .running then
        some ({ s with calls := s.calls + 1 }.goto p (.call (c.enter s.calls call)))
      else none
    | _ => none
  | .run p input => if (s.proc p).state = .running then runStep c s p input else none
  | .kill pid v => if (s.proc v).pid = pid then some (s.upd v kkill) else none
  | .intr i => (c.intr s.data i).bind (intrStep s)

end Steps

end Xv6.Sleep
