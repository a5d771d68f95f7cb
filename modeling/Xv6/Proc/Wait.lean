import Xv6.Lib.Run
import Xv6.Param

/-! The exit and wait protocol of `proc.c`: `kfork`, `kexit` with `reparent`, `kwait` and `kkill`,
interleaved at the granularity of the critical sections of `p->lock`, with `wait_lock` held over
many of them. -/

namespace Xv6.Wait

/-- A slot of the process table, which stands for a `struct proc *`. -/
abbrev Slot := Fin NPROC

/-- `enum procstate`. -/
inductive ProcState
  | unused | used | sleeping | runnable | running | zombie
  deriving DecidableEq, Repr

/-- A sleep channel: the address of a `struct proc`, or some other address. -/
inductive Chan
  | proc (p : Slot)
  | other (addr : Nat)
  deriving DecidableEq

/-- Where a process is between two critical sections. The loops carry their index; `reparent`,
`reparentWake`, `exitWake`, `exitLast`, `waitScan` and `waitBlock` hold `wait_lock`. -/
inductive Pc
  | user
  | fork (i : Nat)
  | forkParent (np : Slot) (pid : Int)
  | forkRun (np : Slot) (pid : Int)
  | exit (status : Int)
  | reparent (status : Int) (i : Nat)
  | reparentWake (status : Int) (i j : Nat)
  | exitWake (status : Int) (j : Nat)
  | exitLast (status : Int)
  | wait (addr : Nat)
  | waitScan (addr i : Nat) (havekids : Bool)
  | waitBlock (addr : Nat)
  | waitSleep (addr : Nat)
  | kill (pid : Int) (i : Nat)
  | dead
  deriving DecidableEq

/-- Where a process may sleep on a channel of some other subsystem; `kexit` closes files and leaves
its directory before it takes `wait_lock`. -/
def Pc.maySleep : Pc → Bool
  | .user | .exit _ => true
  | _ => false

/-- The fields of `struct proc` that the protocol uses, where the process is, and the result of its
last system call. -/
structure Proc where
  state : ProcState
  chan : Option Chan
  killed : Bool
  xstate : Int
  pid : Int
  parent : Option Slot
  pc : Pc
  a0 : Int

/-- One end of a `kexit`: the process's slot and pid, and the status it was called with. -/
structure Exit where
  slot : Slot
  pid : Int
  status : Int

/-- One `kwait` that freed a zombie: who called it with what address, the child's slot with the
parent and pid found there, the pid returned, and the status copied out. -/
structure Reap where
  caller : Slot
  addr : Nat
  slot : Slot
  parent : Option Slot
  pid : Int
  returned : Int
  delivered : Option Int

/-- The process table, `nextpid`, the holder of `wait_lock` and the message of a panic. The last
three fields record the number of process allocations, every exit, and every zombie that was
freed. -/
structure State where
  proc : Slot → Proc
  nextpid : Int
  waitLock : Option Slot
  panic : Option String
  allocs : Nat
  exits : List Exit
  reaps : List Reap

def initproc : Slot := 0

def freeProc (q : Proc) : Proc :=
  { q with
    state := .unused, pid := 0, parent := none, chan := none, killed := false, xstate := 0
    pc := .dead }

/-- The system after `userinit`: `init` is the first process. -/
def init : State where
  proc i :=
    { state := if i = initproc then .runnable else .unused
      chan := none, killed := false, xstate := 0
      pid := if i = initproc then 1 else 0
      parent := none
      pc := if i = initproc then .user else .dead
      a0 := 0 }
  nextpid := 2
  waitLock := none
  panic := none
  allocs := 1
  exits := []
  reaps := []

def State.upd (s : State) (p : Slot) (f : Proc → Proc) : State :=
  { s with proc := Function.update s.proc p (f (s.proc p)) }

def State.goto (s : State) (p : Slot) (pc : Pc) : State := s.upd p fun q => { q with pc }

def State.ret (s : State) (p : Slot) (r : Int) : State :=
  s.upd p fun q => { q with pc := .user, a0 := r }

def wrap (x : Int) : Int := Int.bmod x 4294967296

def wakeOne (chan : Chan) (q : Proc) : Proc :=
  if q.state = .sleeping ∧ q.chan = some chan then { q with state := .runnable } else q

/-- Slot `i` of the loop of `allocproc`, and, when the slot is free, the rest of `kfork` up to the
release of `np->lock`; `ok` says whether every memory allocation succeeds. -/
def forkStep (s : State) (p : Slot) (i : Nat) (ok : Bool) : State :=
  if h : i < NPROC then
    let np : Slot := ⟨i, h⟩
    if (s.proc np).state = .unused then
      let pid := s.nextpid
      let s := { s with nextpid := wrap (s.nextpid + 1), allocs := s.allocs + 1 }
      if ok then
        (s.upd np fun q => { q with state := .used, pid, pc := .user, a0 := 0 }).goto p
          (.forkParent np pid)
      else (s.upd np freeProc).ret p (-1)
    else s.goto p (.fork (i + 1))
  else s.ret p (-1)

def reparentStep (s : State) (p : Slot) (status : Int) (i : Nat) : State :=
  if h : i < NPROC then
    if (s.proc ⟨i, h⟩).parent = some p then
      (s.upd ⟨i, h⟩ fun q => { q with parent := some initproc }).goto p (.reparentWake status i 0)
    else s.goto p (.reparent status (i + 1))
  else s.goto p (.exitWake status 0)

/-- Slot `j` of the loop of `wakeup(chan)`, called by `p`, which goes on at `more` or at `done`. -/
def wakeupStep (s : State) (p : Slot) (chan : Option Slot) (j : Nat) (more done : Pc) : State :=
  if h : j < NPROC then
    (match chan with
      | some c => if (⟨j, h⟩ : Slot) ≠ p then s.upd ⟨j, h⟩ (wakeOne (.proc c)) else s
      | none => s).goto p more
  else s.goto p done

/-- The end of `kexit`, with `p->lock` held: `wait_lock` is released and `p` never runs again. -/
def exitStep (s : State) (p : Slot) (status : Int) : State :=
  { s.upd p fun q => { q with xstate := status, state := .zombie, pc := .dead } with
    waitLock := none
    exits := s.exits ++ [{ slot := p, pid := (s.proc p).pid, status }] }

/-- Slot `i` of the scan of `kwait`; `ok` says whether `copyout` succeeds. After the last slot,
`p` gives up or calls `sleep`. -/
def waitStep (s : State) (p : Slot) (addr i : Nat) (havekids ok : Bool) : State :=
  if h : i < NPROC then
    let pp : Slot := ⟨i, h⟩
    if (s.proc pp).parent = some p then
      if (s.proc pp).state = .zombie then
        if addr ≠ 0 ∧ ok = false then ({ s with waitLock := none }).ret p (-1)
        else
          let pid := (s.proc pp).pid
          let reap : Reap :=
            { caller := p, addr, slot := pp, parent := (s.proc pp).parent, pid, returned := pid
              delivered := if addr ≠ 0 then some (s.proc pp).xstate else none }
          (({ s with waitLock := none, reaps := s.reaps ++ [reap] }).upd pp freeProc).ret p pid
      else s.goto p (.waitScan addr (i + 1) true)
    else s.goto p (.waitScan addr (i + 1) havekids)
  else if havekids = false ∨ (s.proc p).killed then ({ s with waitLock := none }).ret p (-1)
  else s.goto p (.waitBlock addr)

def killStep (s : State) (p : Slot) (pid : Int) (i : Nat) : State :=
  if h : i < NPROC then
    if (s.proc ⟨i, h⟩).pid = pid then
      (s.upd ⟨i, h⟩ fun q => { q with
        killed := true, state := if q.state = .sleeping then .runnable else q.state }).ret p 0
    else s.goto p (.kill pid (i + 1))
  else s.ret p (-1)

/-- The next critical section of a process that is running in the kernel. A process that needs
`wait_lock` waits while another holds it. -/
def runStep (s : State) (p : Slot) (ok : Bool) : Option State :=
  match (s.proc p).pc with
  | .user | .dead => none
  | .fork i => some (forkStep s p i ok)
  | .forkParent np pid =>
    if s.waitLock = none then
      some ((s.upd np fun q => { q with parent := some p }).goto p (.forkRun np pid))
    else none
  | .forkRun np pid => some ((s.upd np fun q => { q with state := .runnable }).ret p pid)
  | .exit status =>
    if s.waitLock = none then some (({ s with waitLock := some p }).goto p (.reparent status 0))
    else none
  | .reparent status i => some (reparentStep s p status i)
  | .reparentWake status i j =>
    some (wakeupStep s p (some initproc) j (.reparentWake status i (j + 1))
      (.reparent status (i + 1)))
  | .exitWake status j =>
    some (wakeupStep s p (s.proc p).parent j (.exitWake status (j + 1)) (.exitLast status))
  | .exitLast status => some (exitStep s p status)
  | .wait addr =>
    if s.waitLock = none then some (({ s with waitLock := some p }).goto p (.waitScan addr 0 false))
    else none
  | .waitScan addr i havekids => some (waitStep s p addr i havekids ok)
  | .waitBlock addr => some (({ s with waitLock := none }).upd p fun q =>
      { q with state := .sleeping, chan := some (.proc p), pc := .waitSleep addr })
  | .waitSleep addr => some (s.upd p fun q => { q with chan := none, pc := .wait addr })
  | .kill pid i => some (killStep s p pid i)

/-- A system call of the protocol. -/
inductive Call
  | fork
  | exit (status : Int)
  | wait (addr : Nat)
  | kill (pid : Int)

def callStep (s : State) (p : Slot) : Call → State
  | .fork => s.goto p (.fork 0)
  | .exit status =>
    if p = initproc then { s with panic := some "init exiting" } else s.goto p (.exit status)
  | .wait addr => s.goto p (.wait addr)
  | .kill pid => s.goto p (.kill pid 0)

/-- What can happen next: the scheduler runs a process, a timer interrupt makes one give up the
CPU, a process sleeps on a channel of some other subsystem or is woken from it, a process
makes a system call, or the system call takes its next step. -/
inductive Event
  | sched (p : Slot)
  | yield (p : Slot)
  | sleep (p : Slot) (addr : Nat)
  | wakeup (p : Slot) (addr : Nat)
  | call (p : Slot) (c : Call)
  | run (p : Slot) (ok : Bool)

/-- One critical section. Spinlocks disable interrupts, so the holder of `wait_lock` does not
yield; nothing runs after a panic. -/
def step (s : State) (e : Event) : Option State :=
  if s.panic.isSome then none
  else match e with
    | .sched p =>
      if (s.proc p).state = .runnable then some (s.upd p fun q => { q with state := .running })
      else none
    | .yield p =>
      if (s.proc p).state = .running ∧ s.waitLock ≠ some p then
        some (s.upd p fun q => { q with state := .runnable })
      else none
    | .sleep p addr =>
      if (s.proc p).state = .running ∧ (s.proc p).pc.maySleep then
        some (s.upd p fun q => { q with state := .sleeping, chan := some (.other addr) })
      else none
    | .wakeup p addr => some (s.upd p (wakeOne (.other addr)))
    | .call p c =>
      if (s.proc p).state = .running ∧ (s.proc p).pc = .user then some (callStep s p c) else none
    | .run p ok => if (s.proc p).state = .running then runStep s p ok else none

end Xv6.Wait
