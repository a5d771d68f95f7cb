import Xv6.Proc.Sleep

/-! The pipes of `pipe.c`: `pipewrite`, `piperead` and `pipeclose` as code of processes that sleep
and wake each other up. -/

namespace Xv6.Ipc

open Function
open Sleep (Act)

abbrev PIPESIZE : Nat := 512

/-- `struct pipe` without its lock; `freed` says that `kfree` has the page. The last two fields
record every byte stored, with the number of the `pipewrite` that stored it, and every byte that a
`piperead` has copied out, in order. -/
structure Pipe where
  data : Nat → UInt8
  nread : Nat
  nwrite : Nat
  readopen : Bool
  writeopen : Bool
  freed : Bool
  accepted : List (Nat × UInt8)
  delivered : List UInt8

def Pipe.isEmpty (d : Pipe) : Bool := d.nread == d.nwrite

def Pipe.isFull (d : Pipe) : Bool := d.nwrite == (d.nread + PIPESIZE) % 2 ^ 32

def Pipe.store (d : Pipe) (id : Nat) (ch : UInt8) : Pipe :=
  { d with
    data := update d.data (d.nwrite % PIPESIZE) ch
    nwrite := (d.nwrite + 1) % 2 ^ 32
    accepted := d.accepted ++ [(id, ch)] }

/-- `pi->nread++`, after the byte has been copied out. -/
def Pipe.consume (d : Pipe) : Pipe :=
  { d with
    nread := (d.nread + 1) % 2 ^ 32
    delivered := d.delivered ++ [d.data (d.nread % PIPESIZE)] }

/-- The stores of `pipeclose`, and `kfree` when both ends are closed. -/
def Pipe.close (d : Pipe) (writable : Bool) : Pipe :=
  if writable then { d with writeopen := false } else { d with readopen := false }

def Pipe.free (d : Pipe) : Pipe :=
  if d.readopen = false ∧ d.writeopen = false then { d with freed := true } else d

/-- The sleep channels `&pi->nread` and `&pi->nwrite`. -/
inductive Chan
  | nread
  | nwrite
  deriving DecidableEq

/-- A call of `pipewrite`: its number, the bytes at `addr` and `n`. -/
structure Write where
  id : Nat
  buf : Nat → UInt8
  n : Int

/-- Where a process is. The places of `pipewrite` carry the loop index and, in the loop, whether a
byte has been stored since the process took the lock; those of `piperead` carry `n`, the index
and the result. -/
inductive Place
  | write (w : Write)
  | writeLoop (w : Write) (i : Nat) (stored : Bool)
  | writeFull (w : Write) (i : Nat)
  | writeSleep (w : Write) (i : Nat)
  | writeCopy (w : Write) (i : Nat) (stored : Bool)
  | writeLeave (w : Write) (i : Nat)
  | writeFail (w : Write) (i : Nat)
  | read (n : Int)
  | readWait (n : Int)
  | readSleep (n : Int)
  | readCopy (n : Int) (i : Nat)
  | readLeave (n r : Int)
  | readFail (n : Int)
  | close (writable : Bool)
  | closeSet (writable : Bool)
  | closeWake (writable : Bool)
  | closeLeave (writable : Bool)

/-- `pipewrite(pi, addr, n)` with the bytes `buf` at `addr`, `piperead(pi, addr, n)` and
`pipeclose(pi, writable)`. -/
inductive Call
  | write (buf : Nat → UInt8) (n : Int)
  | read (n : Int)
  | close (writable : Bool)

def enter (id : Nat) : Call → Place
  | .write buf n => .write { id, buf, n }
  | .read n => .read n
  | .close writable => .close writable

/-- Every place past `acquire(&pi->lock)` holds the lock. -/
def held : Place → Option Unit
  | .write _ | .read _ | .close _ => none
  | _ => some ()

/-- What `pipewrite` does; `ok` says whether `copyin` succeeds. -/
def writeCode (d : Pipe) (w : Write) (ok : Bool) : Place → Option (Act Unit Chan Pipe Place)
  | .write _ => some (.acquire () (.writeLoop w 0 false))
  | .writeLoop _ i stored =>
    if (i : Int) < w.n then
      if d.readopen = false then some (.leave () d .keep (-1))
      else some (.killed fun killed =>
        if killed then .writeFail w i
        else if d.isFull then .writeFull w i
        else .writeCopy w i stored)
    else some (.wakeup .nread (.writeLeave w i))
  | .writeFull _ i => some (.wakeup .nread (.writeSleep w i))
  | .writeSleep _ i => some (.sleep .nwrite () (.writeLoop w i false))
  | .writeCopy _ i _ =>
    if ok then some (.data (d.store w.id (w.buf i)) (.writeLoop w (i + 1) true))
    else some (.wakeup .nread (.writeLeave w i))
  | .writeLeave _ i => some (.leave () d .keep i)
  | .writeFail _ _ => some (.leave () d .keep (-1))
  | _ => none

/-- What `piperead` does; `ok` says whether `copyout` succeeds. -/
def readCode (d : Pipe) (n : Int) (ok : Bool) : Place → Option (Act Unit Chan Pipe Place)
  | .read _ => some (.acquire () (.readWait n))
  | .readWait _ =>
    if d.isEmpty ∧ d.writeopen then
      some (.killed fun killed => if killed then .readFail n else .readSleep n)
    else some (.data d (.readCopy n 0))
  | .readSleep _ => some (.sleep .nread () (.readWait n))
  | .readCopy _ i =>
    if (i : Int) < n then
      if d.isEmpty then some (.wakeup .nwrite (.readLeave n i))
      else if ok then some (.data d.consume (.readCopy n (i + 1)))
      else some (.wakeup .nwrite (.readLeave n (if i = 0 then -1 else i)))
    else some (.wakeup .nwrite (.readLeave n i))
  | .readLeave _ r => some (.leave () d .keep r)
  | .readFail _ => some (.leave () d .keep (-1))
  | _ => none

def closeCode (d : Pipe) (writable : Bool) : Place → Option (Act Unit Chan Pipe Place)
  | .close _ => some (.acquire () (.closeSet writable))
  | .closeSet _ => some (.data (d.close writable) (.closeWake writable))
  | .closeWake _ => some (.wakeup (if writable then .nread else .nwrite) (.closeLeave writable))
  | .closeLeave _ => some (.leave () d.free .keep 0)
  | _ => none

def code (d : Pipe) (place : Place) (ok : Bool) : Option (Act Unit Chan Pipe Place) :=
  if d.freed then none
  else match place with
    | .write w | .writeLoop w _ _ | .writeFull w _ | .writeSleep w _ | .writeCopy w _ _
    | .writeLeave w _ | .writeFail w _ => writeCode d w ok place
    | .read n | .readWait n | .readSleep n | .readCopy n _ | .readLeave n _
    | .readFail n => readCode d n ok place
    | .close b | .closeSet b | .closeWake b | .closeLeave b => closeCode d b place

def pipeCode : Sleep.Code Unit Chan Pipe Place Call Bool Empty where
  enter := enter
  code _ _ d place ok := code d place ok
  intr _ i := i.elim
  held := held

abbrev State := Sleep.State Unit Chan Pipe Place

abbrev Event := Sleep.Event Call Bool Empty

abbrev step (s : State) (e : Event) : Option State := Sleep.step pipeCode s e

/-- The pipe after `pipealloc`; `kalloc` leaves anything in `data`. -/
def Pipe.alloc (data : Nat → UInt8) : Pipe where
  data := data
  nread := 0
  nwrite := 0
  readopen := true
  writeopen := true
  freed := false
  accepted := []
  delivered := []

/-- A new pipe, on which no process has made a call yet. -/
structure Start (s : State) : Prop where
  data : ∃ data, s.data = Pipe.alloc data
  pos : ∀ p, s.pos p = .user ∨ s.pos p = .dead
  gone : ∀ p, (s.proc p).state = .unused ∨ (s.proc p).state = .zombie → s.pos p = .dead
  awake : ∀ p, (s.proc p).state ≠ .sleeping
  lock : s.lock () = none
  calls : s.calls = 0
  returns : s.returns = []

end Xv6.Ipc
