import Xv6.Proc.Wait

/-! The scheduler of `proc.c` and the calls around it, at the granularity of locks: CPUs run kernel
threads, `swtch` saves the registers of one thread and then loads those of another, and `p->lock` is
held across it. Interrupts come while a CPU holds no spinlock. The memory and the files of processes
are left out. -/

namespace Xv6.Sched

open Function
open Wait (Slot ProcState Chan initproc wrap)

/-- A lock that guards a condition to sleep for: `wait_lock` or the lock of another subsystem. -/
inductive Cond
  | wait
  | other (n : Nat)
  deriving DecidableEq

inductive Lock
  | proc (p : Slot)
  | cond (lk : Cond)
  deriving DecidableEq

/-- Who called `sched`. -/
inductive Caller
  | yield
  | sleep (chan : Chan) (lk : Cond)
  | exit
  deriving DecidableEq

/-- A place in the code with its local variables: the next thing that a thread does there, or, on
its stack, what it does when the call returns. -/
inductive Frame
  -- `scheduler`
  | top
  | loop (i : Nat)
  | test (i : Slot)
  | setProc (i : Slot)
  | save (i : Slot)
  | load (i : Slot)
  | back (i : Slot)
  | rel (i : Slot)
  -- user space and the rest of the kernel, `forkret`, an interrupt handler
  | body
  | forkret
  | irq
  -- `yield`, `sched` and `swtch`
  | yield
  | yieldSet (p : Slot)
  | sched (p : Slot) (k : Caller)
  | swtchSave (p : Slot) (k : Caller) (intena : Bool)
  | swtchLoad (p : Slot) (k : Caller)
  | swtchBack (p : Slot) (k : Caller) (intena : Bool)
  | yieldRel (p : Slot)
  -- `sleep`
  | sleep (chan : Chan) (lk : Cond)
  | sleepRel (p : Slot) (chan : Chan) (lk : Cond)
  | sleepSet (p : Slot) (chan : Chan) (lk : Cond)
  | sleepTidy (p : Slot) (lk : Cond)
  | sleepUnlock (p : Slot) (lk : Cond)
  | sleepRelock (lk : Cond)
  -- `wakeup`
  | wakeup (chan : Chan) (i : Nat)
  | wakeTest (chan : Chan) (i : Slot)
  | wakeRel (chan : Chan) (i : Slot)
  -- `kkill`
  | kill (pid : Int) (i : Nat)
  | killTest (pid : Int) (i : Slot)
  | killRel (pid : Int) (i : Slot) (found : Bool)
  -- `kfork`
  | fork (p : Slot) (i : Nat)
  | forkTest (p i : Slot)
  | forkNext (p i : Slot)
  | forkFail (i : Slot)
  | forkRel (p np : Slot)
  | forkWait (p np : Slot)
  | forkParent (p np : Slot)
  | forkWaitRel (np : Slot)
  | forkLock (np : Slot)
  | forkRun (np : Slot)
  | forkDone (np : Slot)
  -- `kexit`
  | exit (p : Slot) (status : Int)
  | reparent (p : Slot) (status : Int) (i : Nat)
  | exitWake (p : Slot) (status : Int)
  | exitLock (p : Slot) (status : Int)
  | exitZombie (p : Slot) (status : Int)
  | exitRel (p : Slot)
  | dead (p : Slot)
  -- `kwait`
  | wait (p : Slot) (addr : Nat)
  | waitScan (p : Slot) (addr i : Nat) (havekids : Bool)
  | waitChild (p : Slot) (addr : Nat) (i : Slot)
  | waitTest (p : Slot) (addr : Nat) (i : Slot)
  | waitNext (p : Slot) (addr : Nat) (i : Slot)
  | waitRel (i : Slot)
  | waitDone
  | waitKilled (p : Slot) (addr : Nat)
  | waitKilledTest (p : Slot) (addr : Nat)
  | waitKilledRel (p : Slot) (addr : Nat) (killed : Bool)
  deriving DecidableEq

/-- A kernel thread: that of a process, or the scheduler of a CPU. -/
inductive Thread (κ : Type)
  | proc (p : Slot)
  | sched (c : κ)
  deriving DecidableEq

/-- The registers that `swtch` saves: the stack pointer says which thread it is. -/
structure Context (κ : Type) where
  sp : Thread κ
  pc : Frame
  deriving DecidableEq

/-- The fields of `struct proc` that the calls use. -/
structure Proc (κ : Type) where
  state : ProcState
  chan : Option Chan
  killed : Bool
  xstate : Int
  pid : Int
  parent : Option Slot
  context : Context κ

/-- The fields of `struct cpu`, the registers, and whether interrupts are on. -/
structure Core (κ : Type) where
  proc : Option Slot
  context : Context κ
  cur : Context κ
  noff : Nat
  intena : Bool
  sie : Bool

/-- The process table, the CPUs, the CPU that holds each lock, what is on the stack of each thread,
`nextpid`, and the message of a panic. -/
structure State (κ : Type) where
  proc : Slot → Proc κ
  core : κ → Core κ
  lock : Lock → Option κ
  stack : Thread κ → List Frame
  nextpid : Int
  panic : Option String

/-- What the code outside of the calls does next, and whether calls for memory succeed. -/
inductive Choice
  | acquire (n : Nat)
  | release (n : Nat)
  | intr (enable : Bool)
  | yield
  | sleep (addr n : Nat)
  | wakeup (addr : Nat)
  | kill (pid : Int)
  | fork
  | exit (status : Int)
  | wait (addr : Nat)
  | iret
  | mem (ok : Bool)

/-- A store to the fields of a process. -/
inductive Write
  | state (state : ProcState)
  | sleep (chan : Chan)
  | nochan
  | kill
  | parent (parent : Option Slot)
  | zombie (status : Int)
  | free

/-- What a thread does in one step. A context is that of a process or of the CPU itself. -/
inductive Act
  | nop
  | acquire (lk : Lock)
  | release (lk : Lock)
  | write (q : Slot) (w : Write)
  | alloc (q : Slot) (ok : Bool)
  | setProc (proc : Option Slot)
  | save (p : Option Slot) (pc : Frame)
  | load (p : Option Slot)
  | intena (intena : Bool)
  | sie (enable : Bool)
  | panic (msg : String)

/-- Where the thread goes on: at a frame, in a call that returns to another, after a return, or
where the registers that were loaded say. -/
inductive Next
  | goto (f : Frame)
  | call (ret f : Frame)
  | ret
  | stay

variable {κ : Type}

def schedCheck [DecidableEq κ] (s : State κ) (c : κ) (p : Slot) : Act :=
  if s.lock (.proc p) ≠ some c then .panic "sched p->lock"
  else if (s.core c).noff ≠ 1 then .panic "sched locks"
  else if (s.proc p).state = .running then .panic "sched RUNNING"
  else if (s.core c).sie then .panic "sched interruptible"
  else .nop

def Caller.after (p : Slot) : Caller → Frame
  | .yield => .yieldRel p
  | .sleep _ lk => .sleepTidy p lk
  | .exit => .dead p

def parentChan : Option Slot → Chan
  | some p => .proc p
  | none => .other 0

def bodyCode (core : Core κ) : Choice → Option (Act × Next)
  | .acquire n => some (.acquire (.cond (.other n)), .goto .body)
  | .release n => some (.release (.cond (.other n)), .goto .body)
  | .intr enable => if core.noff = 0 then some (.sie enable, .goto .body) else none
  | .yield => some (.nop, .call .body .yield)
  | .sleep addr n => some (.nop, .call .body (.sleep (.other addr) (.other n)))
  | .wakeup addr => some (.nop, .call .body (.wakeup (.other addr) 0))
  | .kill pid => some (.nop, .call .body (.kill pid 0))
  | .fork => core.proc.map fun p => (.nop, .call .body (.fork p 0))
  | .exit status => core.proc.map fun p =>
    if p = initproc then (.panic "init exiting", .stay)
    else (.nop, .call .body (.exit p status))
  | .wait addr => core.proc.map fun p => (.nop, .call .body (.wait p addr))
  | .iret | .mem _ => none

def irqCode (core : Core κ) : Choice → Option (Act × Next)
  | .acquire n => some (.acquire (.cond (.other n)), .goto .irq)
  | .release n => some (.release (.cond (.other n)), .goto .irq)
  | .wakeup addr => some (.nop, .call .irq (.wakeup (.other addr) 0))
  | .yield => if core.proc.isSome then some (.nop, .call .irq .yield) else none
  | .iret => if core.noff = 0 then some (.sie true, .ret) else none
  | _ => none

variable [DecidableEq κ]

def code (s : State κ) (c : κ) (choice : Choice) : Option (Act × Next) :=
  match (s.core c).cur.pc with
  -- `scheduler`
  | .top => some (.sie false, .goto (.loop 0))
  | .loop i =>
    if h : i < NPROC then some (.acquire (.proc ⟨i, h⟩), .goto (.test ⟨i, h⟩))
    else some (.sie true, .goto .top)
  | .test i =>
    if (s.proc i).state = .runnable then some (.write i (.state .running), .goto (.setProc i))
    else some (.nop, .goto (.rel i))
  | .setProc i => some (.setProc (some i), .goto (.save i))
  | .save i => some (.save none (.back i), .goto (.load i))
  | .load i => some (.load (some i), .stay)
  | .back i => some (.setProc none, .goto (.rel i))
  | .rel i => some (.release (.proc i), .goto (.loop (i.val + 1)))
  | .body => bodyCode (s.core c) choice
  | .forkret => (s.core c).proc.map fun p => (.release (.proc p), .goto .body)
  | .irq => irqCode (s.core c) choice
  -- `yield`, `sched` and `swtch`
  | .yield => (s.core c).proc.map fun p => (.acquire (.proc p), .goto (.yieldSet p))
  | .yieldSet p => some (.write p (.state .runnable), .goto (.sched p .yield))
  | .sched p k => some (schedCheck s c p, .goto (.swtchSave p k (s.core c).intena))
  | .swtchSave p k intena =>
    some (.save (some p) (.swtchBack p k intena), .goto (.swtchLoad p k))
  | .swtchLoad _ _ => some (.load none, .stay)
  | .swtchBack p k intena => some (.intena intena, .goto (k.after p))
  | .yieldRel p => some (.release (.proc p), .ret)
  -- `sleep`
  | .sleep chan lk =>
    (s.core c).proc.map fun p => (.acquire (.proc p), .goto (.sleepRel p chan lk))
  | .sleepRel p chan lk => some (.release (.cond lk), .goto (.sleepSet p chan lk))
  | .sleepSet p chan lk => some (.write p (.sleep chan), .goto (.sched p (.sleep chan lk)))
  | .sleepTidy p lk => some (.write p .nochan, .goto (.sleepUnlock p lk))
  | .sleepUnlock p lk => some (.release (.proc p), .goto (.sleepRelock lk))
  | .sleepRelock lk => some (.acquire (.cond lk), .ret)
  -- `wakeup`
  | .wakeup chan i =>
    if h : i < NPROC then
      if (s.core c).proc = some ⟨i, h⟩ then some (.nop, .goto (.wakeup chan (i + 1)))
      else some (.acquire (.proc ⟨i, h⟩), .goto (.wakeTest chan ⟨i, h⟩))
    else some (.nop, .ret)
  | .wakeTest chan i =>
    if (s.proc i).state = .sleeping ∧ (s.proc i).chan = some chan then
      some (.write i (.state .runnable), .goto (.wakeRel chan i))
    else some (.nop, .goto (.wakeRel chan i))
  | .wakeRel chan i => some (.release (.proc i), .goto (.wakeup chan (i.val + 1)))
  -- `kkill`
  | .kill pid i =>
    if h : i < NPROC then some (.acquire (.proc ⟨i, h⟩), .goto (.killTest pid ⟨i, h⟩))
    else some (.nop, .ret)
  | .killTest pid i =>
    if (s.proc i).pid = pid then some (.write i .kill, .goto (.killRel pid i true))
    else some (.nop, .goto (.killRel pid i false))
  | .killRel pid i found =>
    some (.release (.proc i), if found then .ret else .goto (.kill pid (i.val + 1)))
  -- `kfork`
  | .fork p i =>
    if h : i < NPROC then some (.acquire (.proc ⟨i, h⟩), .goto (.forkTest p ⟨i, h⟩))
    else some (.nop, .ret)
  | .forkTest p i =>
    if (s.proc i).state = .unused then
      match choice with
      | .mem true => some (.alloc i true, .goto (.forkRel p i))
      | .mem false => some (.alloc i false, .goto (.forkFail i))
      | _ => none
    else some (.nop, .goto (.forkNext p i))
  | .forkNext p i => some (.release (.proc i), .goto (.fork p (i.val + 1)))
  | .forkFail i => some (.release (.proc i), .ret)
  | .forkRel p np => some (.release (.proc np), .goto (.forkWait p np))
  | .forkWait p np => some (.acquire (.cond .wait), .goto (.forkParent p np))
  | .forkParent p np => some (.write np (.parent (some p)), .goto (.forkWaitRel np))
  | .forkWaitRel np => some (.release (.cond .wait), .goto (.forkLock np))
  | .forkLock np => some (.acquire (.proc np), .goto (.forkRun np))
  | .forkRun np => some (.write np (.state .runnable), .goto (.forkDone np))
  | .forkDone np => some (.release (.proc np), .ret)
  -- `kexit`
  | .exit p status => some (.acquire (.cond .wait), .goto (.reparent p status 0))
  | .reparent p status i =>
    if h : i < NPROC then
      if (s.proc ⟨i, h⟩).parent = some p then
        some (.write ⟨i, h⟩ (.parent (some initproc)),
          .call (.reparent p status (i + 1)) (.wakeup (.proc initproc) 0))
      else some (.nop, .goto (.reparent p status (i + 1)))
    else some (.nop, .goto (.exitWake p status))
  | .exitWake p status =>
    some (.nop, .call (.exitLock p status) (.wakeup (parentChan (s.proc p).parent) 0))
  | .exitLock p status => some (.acquire (.proc p), .goto (.exitZombie p status))
  | .exitZombie p status => some (.write p (.zombie status), .goto (.exitRel p))
  | .exitRel p => some (.release (.cond .wait), .goto (.sched p .exit))
  | .dead _ => some (.panic "zombie exit", .stay)
  -- `kwait`
  | .wait p addr => some (.acquire (.cond .wait), .goto (.waitScan p addr 0 false))
  | .waitScan p addr i havekids =>
    if h : i < NPROC then
      if (s.proc ⟨i, h⟩).parent = some p then some (.nop, .goto (.waitChild p addr ⟨i, h⟩))
      else some (.nop, .goto (.waitScan p addr (i + 1) havekids))
    else some (.nop, .goto (if havekids then .waitKilled p addr else .waitDone))
  | .waitChild p addr i => some (.acquire (.proc i), .goto (.waitTest p addr i))
  | .waitTest p addr i =>
    if (s.proc i).state = .zombie then
      match choice with
      | .mem true => some (.write i .free, .goto (.waitRel i))
      | .mem false => if addr ≠ 0 then some (.nop, .goto (.waitRel i)) else none
      | _ => none
    else some (.nop, .goto (.waitNext p addr i))
  | .waitNext p addr i => some (.release (.proc i), .goto (.waitScan p addr (i.val + 1) true))
  | .waitRel i => some (.release (.proc i), .goto .waitDone)
  | .waitDone => some (.release (.cond .wait), .ret)
  | .waitKilled p addr => some (.acquire (.proc p), .goto (.waitKilledTest p addr))
  | .waitKilledTest p addr => some (.nop, .goto (.waitKilledRel p addr (s.proc p).killed))
  | .waitKilledRel p addr killed =>
    some (.release (.proc p),
      if killed then .goto .waitDone else .call (.waitScan p addr 0 false) (.sleep (.proc p) .wait))

def Write.apply (q : Proc κ) : Write → Proc κ
  | .state st => { q with state := st }
  | .sleep chan => { q with chan := some chan, state := .sleeping }
  | .nochan => { q with chan := none }
  | .kill =>
    { q with killed := true, state := if q.state = .sleeping then .runnable else q.state }
  | .parent p => { q with parent := p }
  | .zombie status => { q with xstate := status, state := .zombie }
  | .free =>
    { q with
      state := .unused, chan := none, killed := false, xstate := 0, pid := 0, parent := none }

def State.upd (s : State κ) (q : Slot) (f : Proc κ → Proc κ) : State κ :=
  { s with proc := update s.proc q (f (s.proc q)) }

def State.updCore (s : State κ) (c : κ) (f : Core κ → Core κ) : State κ :=
  { s with core := update s.core c (f (s.core c)) }

def Core.pushOff (core : Core κ) : Core κ :=
  { core with
    noff := core.noff + 1, sie := false
    intena := if core.noff = 0 then core.sie else core.intena }

def Core.popOff (core : Core κ) : Core κ :=
  { core with noff := core.noff - 1, sie := core.noff = 1 ∧ core.intena }

def acquire (s : State κ) (c : κ) (lk : Lock) : Option (State κ) :=
  match s.lock lk with
  | some c' => if c' = c then some { s with panic := some "acquire" } else none
  | none => some ({ s with lock := update s.lock lk (some c) }.updCore c Core.pushOff)

def release (s : State κ) (c : κ) (lk : Lock) : State κ :=
  if s.lock lk ≠ some c then { s with panic := some "release" }
  else if (s.core c).sie then { s with panic := some "pop_off - interruptible" }
  else if (s.core c).noff < 1 then { s with panic := some "pop_off" }
  else { s with lock := update s.lock lk none }.updCore c Core.popOff

/-- `allocproc` with the slot `q` that it found, up to its end or to the end of a `kfork` that
finds no memory. The stack of the new thread is empty. -/
def alloc (s : State κ) (q : Slot) (ok : Bool) : State κ :=
  let pid := s.nextpid
  let s := { s with nextpid := wrap (pid + 1) }
  if ok then
    { s with stack := update s.stack (.proc q) [] }.upd q fun r =>
      { r with state := .used, pid, context := ⟨.proc q, .forkret⟩ }
  else s.upd q fun r => Write.free.apply r

/-- One step of CPU `c`, without where it goes on. -/
def perform (s : State κ) (c : κ) : Act → Option (State κ)
  | .nop => some s
  | .acquire lk => acquire s c lk
  | .release lk => some (release s c lk)
  | .write q w => some (s.upd q w.apply)
  | .alloc q ok => some (alloc s q ok)
  | .setProc proc => some (s.updCore c fun core => { core with proc })
  | .save (some p) pc => some (s.upd p fun q => { q with context := ⟨(s.core c).cur.sp, pc⟩ })
  | .save none pc =>
    some (s.updCore c fun core => { core with context := ⟨core.cur.sp, pc⟩ })
  | .load (some p) => some (s.updCore c fun core => { core with cur := (s.proc p).context })
  | .load none => some (s.updCore c fun core => { core with cur := core.context })
  | .intena intena => some (s.updCore c fun core => { core with intena })
  | .sie enable => some (s.updCore c fun core => { core with sie := enable })
  | .panic msg => some { s with panic := some msg }

/-- The thread on CPU `c` goes on at `f` with `frames` on its stack. -/
def State.jump (s : State κ) (c : κ) (f : Frame) (frames : List Frame) : State κ :=
  { s with stack := update s.stack (s.core c).cur.sp frames }.updCore c fun core =>
    { core with cur := { core.cur with pc := f } }

def State.next (s : State κ) (c : κ) : Next → Option (State κ)
  | .goto f => some (s.jump c f (s.stack (s.core c).cur.sp))
  | .call ret f => some (s.jump c f (ret :: s.stack (s.core c).cur.sp))
  | .ret =>
    match s.stack (s.core c).cur.sp with
    | f :: frames => some (s.jump c f frames)
    | [] => none
  | .stay => some s

/-- What can happen: a CPU takes its next step, or is interrupted. -/
inductive Event (κ : Type)
  | run (c : κ) (choice : Choice)
  | intr (c : κ)

def step (s : State κ) : Event κ → Option (State κ)
  | .run c choice =>
    if s.panic.isSome then none
    else (code s c choice).bind fun (act, next) =>
      (perform s c act).bind fun t => if t.panic.isSome then some t else t.next c next
  | .intr c =>
    if s.panic.isNone ∧ (s.core c).sie then
      some ((s.jump c .irq ((s.core c).cur.pc :: s.stack (s.core c).cur.sp)).updCore c fun core =>
        { core with sie := false })
    else none

/-- The machine when every CPU has come to `scheduler`: `init` is the only process. -/
def boot : State κ where
  proc i :=
    { state := if i = initproc then .runnable else .unused
      chan := none, killed := false, xstate := 0
      pid := if i = initproc then 1 else 0
      parent := none
      context := ⟨.proc i, .forkret⟩ }
  core c :=
    { proc := none, context := ⟨.sched c, .top⟩, cur := ⟨.sched c, .top⟩, noff := 0, intena := false
      sie := true }
  lock _ := none
  stack _ := []
  nextpid := 2
  panic := none

end Xv6.Sched
