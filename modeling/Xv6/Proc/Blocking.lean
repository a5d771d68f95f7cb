import Xv6.Ipc.Pipe

/-! The calls that wait until killed: `piperead`, `pipewrite`, `consoleread`, `kwait` and
`sys_pause`, with `kexit`, `kfork` and the interrupts that they wait for, in one system. -/

namespace Xv6.Blocking

open Function
open Sleep (Act Handler Proc)
open Wait (Slot initproc)

abbrev INPUT_BUF_SIZE : Nat := 128

/-- `cons` of `console.c`, without its lock. -/
structure Console where
  buf : Nat → UInt8
  r : Nat
  w : Nat
  e : Nat

/-- The shared data: the pipes, the console, `ticks` and `nextpid`. -/
structure Kernel where
  pipe : Nat → Ipc.Pipe
  cons : Console
  ticks : Nat
  nextpid : Int

/-- `pi->lock` of each pipe, `cons.lock`, `tickslock` and `wait_lock`. -/
inductive Lock
  | pipe (k : Nat)
  | cons
  | ticks
  | wait
  deriving DecidableEq

/-- The channels of each pipe, `&cons.r`, `&ticks` and the processes themselves. -/
inductive Chan
  | pipe (k : Nat) (chan : Ipc.Chan)
  | cons
  | ticks
  | proc (p : Slot)
  deriving DecidableEq

/-- Where a process is. `consoleread` carries `target` and `n`, `sys_pause` carries `n` and
`ticks0`, and the loops over the process table carry the slot. -/
inductive Place
  | pipe (k : Nat) (place : Ipc.Place)
  | console (n : Int)
  | consoleLoop (target n : Int)
  | consoleSleep (target n : Int)
  | consoleGot (target n : Int) (c : UInt8)
  | consoleLeave (target n : Int)
  | consoleFail
  | pause (n : Int)
  | pauseStart (n : Int)
  | pauseLoop (n : Int) (ticks0 : Nat)
  | pauseSleep (n : Int) (ticks0 : Nat)
  | pauseFail
  | wait (addr : Nat)
  | waitScan (addr i : Nat) (havekids : Bool)
  | waitSleep (addr : Nat)
  | waitFail
  | exit (status : Int)
  | reparent (status : Int) (i : Nat)
  | reparentWake (status : Int) (i : Nat)
  | exitWake (status : Int)
  | exitLast (status : Int)
  | fork
  | forkLast

/-- The calls; `pipe k` is a call on pipe `k`. -/
inductive Call
  | pipe (k : Nat) (call : Ipc.Call)
  | consoleread (n : Int)
  | pause (n : Int)
  | wait (addr : Nat)
  | exit (status : Int)
  | fork

/-- From outside of a step: whether a copy to or from user memory succeeds, and the slot that
`allocproc` finds. -/
structure Input where
  ok : Bool
  np : Slot

def enter (id : Nat) : Call → Place
  | .pipe k call => .pipe k (Ipc.enter id call)
  | .consoleread n => .console n
  | .pause n => .pause (if n < 0 then 0 else n)
  | .wait addr => .wait addr
  | .exit status => .exit status
  | .fork => .fork

def held : Place → Option Lock
  | .pipe k place => (Ipc.held place).map fun _ => .pipe k
  | .console _ | .pause _ | .wait _ | .exit _ | .fork => none
  | .consoleLoop _ _ | .consoleSleep _ _ | .consoleGot _ _ _ | .consoleLeave _ _
  | .consoleFail => some .cons
  | .pauseStart _ | .pauseLoop _ _ | .pauseSleep _ _ | .pauseFail => some .ticks
  | .waitScan _ _ _ | .waitSleep _ | .waitFail | .reparent _ _ | .reparentWake _ _ | .exitWake _
  | .exitLast _ | .forkLast => some .wait

def onPipe (d : Kernel) (k : Nat) :
    Act Unit Ipc.Chan Ipc.Pipe Ipc.Place → Act Lock Chan Kernel Place
  | .acquire _ next => .acquire (.pipe k) (.pipe k next)
  | .data pi next => .data { d with pipe := update d.pipe k pi } (.pipe k next)
  | .killed next => .killed fun killed => .pipe k (next killed)
  | .sleep chan _ next => .sleep (.pipe k chan) (.pipe k) (.pipe k next)
  | .wakeup chan next => .wakeup (.pipe k chan) (.pipe k next)
  | .setParent pp parent next => .setParent pp parent (.pipe k next)
  | .leave _ pi effect r => .leave (.pipe k) { d with pipe := update d.pipe k pi } effect r
  | .exit _ status => .exit (.pipe k) status

abbrev ctrlD : UInt8 := 4

def consoleCode (d : Kernel) (ok : Bool) : Place → Option (Act Lock Chan Kernel Place)
  | .console n => some (.acquire .cons (.consoleLoop n n))
  | .consoleLoop target n =>
    if 0 < n then
      if d.cons.r = d.cons.w then
        some (.killed fun killed => if killed then .consoleFail else .consoleSleep target n)
      else
        let cons := { d.cons with r := (d.cons.r + 1) % 2 ^ 32 }
        some (.data { d with cons } (.consoleGot target n (d.cons.buf (d.cons.r % INPUT_BUF_SIZE))))
    else some (.data d (.consoleLeave target n))
  | .consoleSleep target n => some (.sleep .cons .cons (.consoleLoop target n))
  | .consoleGot target n c =>
    if c = ctrlD then
      if n < target then
        let cons := { d.cons with r := (d.cons.r + (2 ^ 32 - 1)) % 2 ^ 32 }
        some (.data { d with cons } (.consoleLeave target n))
      else some (.data d (.consoleLeave target n))
    else if ok = false then some (.data d (.consoleLeave target n))
    else if c = 10 then some (.data d (.consoleLeave target (n - 1)))
    else some (.data d (.consoleLoop target (n - 1)))
  | .consoleLeave target n => some (.leave .cons d .keep (target - n))
  | .consoleFail => some (.leave .cons d .keep (-1))
  | _ => none

def pauseCode (d : Kernel) : Place → Option (Act Lock Chan Kernel Place)
  | .pause n => some (.acquire .ticks (.pauseStart n))
  | .pauseStart n => some (.data d (.pauseLoop n d.ticks))
  | .pauseLoop n ticks0 =>
    if ((d.ticks + (2 ^ 32 - ticks0)) % 2 ^ 32 : Nat) < n then
      some (.killed fun killed => if killed then .pauseFail else .pauseSleep n ticks0)
    else some (.leave .ticks d .keep 0)
  | .pauseSleep n ticks0 => some (.sleep .ticks .ticks (.pauseLoop n ticks0))
  | .pauseFail => some (.leave .ticks d .keep (-1))
  | _ => none

def waitCode (p : Slot) (proc : Slot → Proc Chan) (d : Kernel) (ok : Bool) :
    Place → Option (Act Lock Chan Kernel Place)
  | .wait addr => some (.acquire .wait (.waitScan addr 0 false))
  | .waitScan addr i havekids =>
    if h : i < NPROC then
      let pp := proc ⟨i, h⟩
      if pp.parent = some p then
        if pp.state = .zombie then
          if addr ≠ 0 ∧ ok = false then some (.leave .wait d .keep (-1))
          else some (.leave .wait d (.freeproc ⟨i, h⟩) pp.pid)
        else some (.data d (.waitScan addr (i + 1) true))
      else some (.data d (.waitScan addr (i + 1) havekids))
    else if havekids = false then some (.leave .wait d .keep (-1))
    else some (.killed fun killed => if killed then .waitFail else .waitSleep addr)
  | .waitSleep addr => some (.sleep (.proc p) .wait (.waitScan addr 0 false))
  | .waitFail => some (.leave .wait d .keep (-1))
  | _ => none

/-- What `kexit` does from `acquire(&wait_lock)` on. It panics in `init`. -/
def exitCode (p : Slot) (proc : Slot → Proc Chan) (d : Kernel) :
    Place → Option (Act Lock Chan Kernel Place)
  | .exit status => if p = initproc then none else some (.acquire .wait (.reparent status 0))
  | .reparent status i =>
    if h : i < NPROC then
      if (proc ⟨i, h⟩).parent = some p then
        some (.setParent ⟨i, h⟩ initproc (.reparentWake status i))
      else some (.data d (.reparent status (i + 1)))
    else some (.data d (.exitWake status))
  | .reparentWake status i => some (.wakeup (.proc initproc) (.reparent status (i + 1)))
  | .exitWake status =>
    match (proc p).parent with
    | some parent => some (.wakeup (.proc parent) (.exitLast status))
    | none => some (.data d (.exitLast status))
  | .exitLast status => some (.exit .wait status)
  | _ => none

/-- What a `kfork` that finds a slot and memory does from `acquire(&wait_lock)` on. -/
def forkCode (d : Kernel) (np : Slot) : Place → Option (Act Lock Chan Kernel Place)
  | .fork => some (.acquire .wait .forkLast)
  | .forkLast =>
    some (.leave .wait { d with nextpid := Wait.wrap (d.nextpid + 1) } (.start np d.nextpid)
      d.nextpid)
  | _ => none

def code (p : Slot) (proc : Slot → Proc Chan) (d : Kernel) (place : Place) (input : Input) :
    Option (Act Lock Chan Kernel Place) :=
  match place with
  | .pipe k place => (Ipc.code (d.pipe k) place input.ok).map (onPipe d k)
  | .console _ | .consoleLoop _ _ | .consoleSleep _ _ | .consoleGot _ _ _ | .consoleLeave _ _
  | .consoleFail => consoleCode d input.ok place
  | .pause _ | .pauseStart _ | .pauseLoop _ _ | .pauseSleep _ _ | .pauseFail => pauseCode d place
  | .wait _ | .waitScan _ _ _ | .waitSleep _ | .waitFail => waitCode p proc d input.ok place
  | .exit _ | .reparent _ _ | .reparentWake _ _ | .exitWake _ | .exitLast _ =>
    exitCode p proc d place
  | .fork | .forkLast => forkCode d input.np place

/-- The loop of `consoleintr` for `C('U')`; at most `n` characters are there to erase. -/
def killLine (cons : Console) : Nat → Console
  | 0 => cons
  | n + 1 =>
    let e := (cons.e + (2 ^ 32 - 1)) % 2 ^ 32
    if cons.e ≠ cons.w ∧ cons.buf (e % INPUT_BUF_SIZE) ≠ 10 then killLine { cons with e } n
    else cons

/-- `consoleintr(c)`, and whether it calls `wakeup(&cons.r)`. -/
def consoleintr (cons : Console) (c : UInt8) : Console × Bool :=
  -- `C('P')`, `C('U')`, `C('H')` and delete.
  if c = 16 then (cons, false)
  else if c = 21 then (killLine cons ((cons.e + (2 ^ 32 - cons.w)) % 2 ^ 32), false)
  else if c = 8 ∨ c = 127 then
    (if cons.e ≠ cons.w then { cons with e := (cons.e + (2 ^ 32 - 1)) % 2 ^ 32 } else cons, false)
  else if c ≠ 0 ∧ (cons.e + (2 ^ 32 - cons.r)) % 2 ^ 32 < INPUT_BUF_SIZE then
    let c := if c = 13 then 10 else c
    let e := (cons.e + 1) % 2 ^ 32
    let buf := update cons.buf (cons.e % INPUT_BUF_SIZE) c
    if c = 10 ∨ c = ctrlD ∨ (e + (2 ^ 32 - cons.r)) % 2 ^ 32 = INPUT_BUF_SIZE then
      ({ cons with buf, e, w := e }, true)
    else ({ cons with buf, e }, false)
  else (cons, false)

/-- The device interrupts. -/
inductive Intr
  | clock
  | uart (c : UInt8)

def intr (d : Kernel) : Intr → Option (Handler Lock Chan Kernel)
  | .clock =>
    some { lk := .ticks, data := { d with ticks := (d.ticks + 1) % 2 ^ 32 }, wakes := some .ticks }
  | .uart c =>
    let (cons, wakes) := consoleintr d.cons c
    some { lk := .cons, data := { d with cons }, wakes := if wakes then some .cons else none }

def kernelCode : Sleep.Code Lock Chan Kernel Place Call Input Intr where
  enter := enter
  code := code
  intr := intr
  held := held

abbrev State := Sleep.State Lock Chan Kernel Place

abbrev Event := Sleep.Event Call Input Intr

abbrev step (s : State) (e : Event) : Option State := Sleep.step kernelCode s e

/-- Processes that have made none of these calls yet. -/
structure Start (s : State) : Prop where
  pos : ∀ p, s.pos p = .user ∨ s.pos p = .dead
  live : ∀ p, s.pos p = .user → (s.proc p).state = .runnable ∨ (s.proc p).state = .running
  awake : ∀ p, (s.proc p).state ≠ .sleeping

end Xv6.Blocking
