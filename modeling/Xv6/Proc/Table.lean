import Xv6.Proc.Wait

/-! The process table of `proc.c` with `syscall.c`, `sysproc.c` and the part of `usertrap` that
looks at `killed`: sequences of system calls, faults and interrupts of any processes. A system call
takes effect when it completes; processes may run and sleep in any order between its start and
that point. -/

namespace Xv6.Table

open Wait (Slot ProcState initproc wrap)

abbrev SYS_fork : Int := 1

abbrev SYS_exit : Int := 2

abbrev SYS_wait : Int := 3

abbrev SYS_kill : Int := 6

abbrev SYS_exec : Int := 7

abbrev SYS_trace : Int := 23

/-- The names from `SYS_fork` on; every number up to `SYS_race_reset` has a system call. -/
def syscallnames : List String :=
  ["fork", "exit", "wait", "pipe", "read", "kill", "exec", "fstat", "chdir", "dup", "getpid",
    "sbrk", "pause", "uptime", "open", "write", "mknod", "unlink", "link", "mkdir", "close",
    "sync", "trace", "race_inc", "race_get", "race_reset"]

def syscallName (num : Int) : Option String :=
  if 0 < num then syscallnames[num.toNat - 1]? else none

/-- Where a process is: in user space, in a system call with the number in `a7` and its first
argument, past its system call or fault and on the way back to user space, or nowhere. -/
inductive Pc
  | user
  | call (num arg : Int)
  | leaving
  | dead
  deriving DecidableEq

/-- The fields of `struct proc` that these functions use; `a0` is in the trapframe. -/
structure Proc where
  state : ProcState
  killed : Bool
  xstate : Int
  pid : Int
  parent : Option Slot
  name : String
  tracing : Int
  a0 : Int
  pc : Pc

/-- What is printed: the line of a traced system call, or that of an unknown one. -/
inductive Line
  | traced (pid : Int) (name : String) (value : Int)
  | unknown (pid : Int) (name : String) (num : Int)
  deriving DecidableEq

/-- What has happened, where `id` numbers the processes in the order of their creation: a fork, a
`trace` call with its argument, a `kkill` call with its argument, or a `setkilled`. -/
inductive Past
  | fork (parent child : Nat)
  | trace (id : Nat) (val : Int)
  | kill (pid : Int)
  | setkilled (id : Nat)

/-- The process table, `nextpid`, the lines printed and the message of a panic. The last three
fields record which process is in a slot, how many there have been, and the past, with the latest
first. -/
structure State where
  proc : Slot → Proc
  nextpid : Int
  console : List Line
  panic : Option String
  id : Slot → Nat
  created : Nat
  past : List Past

def State.upd (s : State) (p : Slot) (f : Proc → Proc) : State :=
  { s with proc := Function.update s.proc p (f (s.proc p)) }

def State.print (s : State) (line : Line) : State := { s with console := line :: s.console }

def State.record (s : State) (e : Past) : State := { s with past := e :: s.past }

def freeProc (q : Proc) : Proc :=
  { q with
    pid := 0, parent := none, name := "", killed := false, xstate := 0, state := .unused
    tracing := 0, pc := .dead }

def freeproc (s : State) (p : Slot) : State := s.upd p freeProc

def allocpid (s : State) : Int × State :=
  (s.nextpid, { s with nextpid := wrap (s.nextpid + 1) })

/-- The slot that the loop of `allocproc` stops at. -/
def findUnused (s : State) : Option Slot :=
  (List.finRange NPROC).find? fun p => (s.proc p).state = .unused

/-- `allocproc`; `ok` says whether there is memory for the trapframe and the page table. -/
def allocproc (s : State) (ok : Bool) : Option Slot × State :=
  match findUnused s with
  | none => (none, s)
  | some p =>
    let (pid, s) := allocpid s
    let s := s.upd p fun q => { q with pid, state := .used }
    if ok then
      (some p,
        { s.upd p fun q => { q with tracing := 0 } with
          id := Function.update s.id p s.created, created := s.created + 1 })
    else (none, freeproc s p)

def boot : State where
  proc _ :=
    { state := .unused, killed := false, xstate := 0, pid := 0, parent := none, name := ""
      tracing := 0, a0 := 0, pc := .dead }
  nextpid := 1
  console := []
  panic := none
  id _ := 0
  created := 0
  past := []

def userinit (s : State) : State :=
  match allocproc s true with
  | (some p, s) => s.upd p fun q => { q with state := .runnable, pc := .user }
  | (none, s) => s

/-- `kfork` of `p`; `mem` and `copy` say whether there is memory for the process and for the copy
of the parent's memory. -/
def kfork (s : State) (p : Slot) (mem copy : Bool) : Int × State :=
  match allocproc s mem with
  | (none, s) => (-1, s)
  | (some np, s) =>
    if copy then
      let parent := s.proc p
      let s := s.upd np fun q =>
        { q with a0 := 0, name := parent.name, tracing := parent.tracing, pc := .user }
      let pid := (s.proc np).pid
      let s := s.upd np fun q => { q with parent := some p }
      let s := s.upd np fun q => { q with state := .runnable }
      (pid, s.record (.fork (s.id p) (s.id np)))
    else (-1, freeproc s np)

def reparent (s : State) (p : Slot) : State :=
  { s with
    proc := fun pp =>
      if (s.proc pp).parent = some p then { s.proc pp with parent := some initproc }
      else s.proc pp }

def kexit (s : State) (p : Slot) (status : Int) : State :=
  if p = initproc then { s with panic := some "init exiting" }
  else
    (reparent s p).upd p fun q => { q with xstate := status, state := .zombie, pc := .dead }

def killed (s : State) (p : Slot) : Bool := (s.proc p).killed

/-- `kwait` of `p`, or `none` while it sleeps; `copyout` says whether the status can be copied. -/
def kwait (s : State) (p : Slot) (addr : Int) (copyout : Bool) : Option (Int × State) :=
  match (List.finRange NPROC).find? fun pp =>
      (s.proc pp).parent = some p ∧ (s.proc pp).state = .zombie with
  | some pp =>
    if addr ≠ 0 ∧ copyout = false then some (-1, s)
    else some ((s.proc pp).pid, freeproc s pp)
  | none =>
    if (∀ pp, (s.proc pp).parent ≠ some p) ∨ killed s p then some (-1, s) else none

/-- The slot that the loop of `kkill` stops at. -/
def killTarget (s : State) (pid : Int) : Option Slot :=
  (List.finRange NPROC).find? fun p => (s.proc p).pid = pid

def kkill (s : State) (pid : Int) : Int × State :=
  let s := s.record (.kill pid)
  match killTarget s pid with
  | some p =>
    (0, s.upd p fun q =>
      { q with killed := true, state := if q.state = .sleeping then .runnable else q.state })
  | none => (-1, s)

def setkilled (s : State) (p : Slot) : State :=
  (s.upd p fun q => { q with killed := true }).record (.setkilled (s.id p))

def traced (tracing num : Int) : Bool :=
  tracing = 1 ∨ (tracing % 2 ^ 32).toNat &&& 1 <<< num.toNat ≠ 0

/-- What the rest of the kernel decides: whether the memory allocations of a fork and the copy of
a status succeed, the program name that `exec` sets, and the result of any other call. -/
structure Oracle where
  mem : Bool
  copy : Bool
  name : Option String
  result : Int

def sysTrace (s : State) (p : Slot) (arg : Int) : Int × State :=
  let val := wrap arg
  (0, (s.upd p fun q => { q with tracing := val }).record (.trace (s.id p) val))

/-- The system call with number `num` of `p`, except `exit`, or `none` while it sleeps. -/
def syscalls (s : State) (p : Slot) (num arg : Int) (o : Oracle) : Option (Int × State) :=
  if num = SYS_fork then some (kfork s p o.mem o.copy)
  else if num = SYS_wait then kwait s p arg o.copy
  else if num = SYS_kill then some (kkill s (wrap arg))
  else if num = SYS_trace then some (sysTrace s p arg)
  else if num = SYS_exec then
    match o.name with
    | some name => some (o.result, s.upd p fun q => { q with name })
    | none => some (-1, s)
  else some (o.result, s)

def sysExit (s : State) (p : Slot) (arg : Int) : State :=
  let n := wrap arg
  let s := if traced (s.proc p).tracing SYS_exit then
      s.print (.traced (s.proc p).pid "exit" n) else s
  kexit s p n

def syscall (s : State) (p : Slot) (num arg : Int) (o : Oracle) : Option State :=
  match syscallName num with
  | some name =>
    if num = SYS_exit then some (sysExit s p arg)
    else (syscalls s p num arg o).map fun (a0, s) =>
      let s := s.upd p fun q => { q with a0, pc := .leaving }
      if traced (s.proc p).tracing num then s.print (.traced (s.proc p).pid name a0) else s
  | none =>
    let s := s.print (.unknown (s.proc p).pid (s.proc p).name num)
    some (s.upd p fun q => { q with a0 := -1, pc := .leaving })

/-- What can happen next: the scheduler runs a process, one gives up the CPU, sleeps inside a
system call or is woken, one makes a system call, completes it, faults or is interrupted, or one
reaches the end of `usertrap`. -/
inductive Event
  | sched (p : Slot)
  | yield (p : Slot)
  | sleep (p : Slot)
  | wakeup (p : Slot)
  | call (p : Slot) (num arg : Int)
  | complete (p : Slot) (o : Oracle)
  | fault (p : Slot)
  | intr (p : Slot)
  | leave (p : Slot)

def State.at (s : State) (p : Slot) (pc : Pc) : Prop :=
  (s.proc p).state = .running ∧ (s.proc p).pc = pc

instance (s : State) (p : Slot) (pc : Pc) : Decidable (s.at p pc) := instDecidableAnd

def step (s : State) (e : Event) : Option State :=
  if s.panic.isSome then none
  else match e with
    | .sched p =>
      if (s.proc p).state = .runnable then some (s.upd p fun q => { q with state := .running })
      else none
    | .yield p =>
      if (s.proc p).state = .running then some (s.upd p fun q => { q with state := .runnable })
      else none
    | .sleep p =>
      match (s.proc p).pc with
      | .call _ _ =>
        if (s.proc p).state = .running then
          some (s.upd p fun q => { q with state := .sleeping })
        else none
      | _ => none
    | .wakeup p =>
      if (s.proc p).state = .sleeping then some (s.upd p fun q => { q with state := .runnable })
      else none
    | .call p num arg =>
      if s.at p .user then
        if killed s p then some (kexit s p (-1))
        else some (s.upd p fun q => { q with pc := .call num arg })
      else none
    | .complete p o =>
      match (s.proc p).pc with
      | .call num arg => if (s.proc p).state = .running then syscall s p num arg o else none
      | _ => none
    | .fault p =>
      if s.at p .user then some ((setkilled s p).upd p fun q => { q with pc := .leaving })
      else none
    | .intr p => if s.at p .user then some (s.upd p fun q => { q with pc := .leaving }) else none
    | .leave p =>
      if s.at p .leaving then
        if killed s p then some (kexit s p (-1)) else some (s.upd p fun q => { q with pc := .user })
      else none

def init : State := userinit boot

end Xv6.Table
