import Xv6.Lib.Ring
import Xv6.Proc.Blocking

/-! The console of `console.c` as a line discipline. Interrupts and reads are the critical sections
of `cons.lock`: `consoleintr` is one, and `consoleread` is one from where it has the lock to where
it sleeps or returns. The same machine runs over the ring of the code and over a pair of lists. -/

namespace Xv6.Tty

open Function
open Blocking (Console consoleintr ctrlD INPUT_BUF_SIZE)

/-- How a critical section of `consoleread` ends. -/
inductive Outcome
  | ret (r : Int)
  | sleep (n : Nat)

/-- An input buffer: what it does with a character, with what that commits, and how `consoleread`
takes bytes from it. A `none` stands for an end of file that is taken. -/
structure Buffer (β : Type) where
  key : β → UInt8 → β × List UInt8
  take : (killed : Bool) → (target n : Nat) → β → β × List (Option UInt8) × Outcome
  next : β → Option UInt8

/-- The loop of `consoleread`, from where it has the lock. -/
def readLoop (killed : Bool) (target : Nat) :
    Nat → Console → List (Option UInt8) → Console × List (Option UInt8) × Outcome
  | 0, cons, outs => (cons, outs, .ret target)
  | n + 1, cons, outs =>
    if cons.r = cons.w then (cons, outs, if killed then .ret (-1) else .sleep (n + 1))
    else
      let c := cons.buf (cons.r % INPUT_BUF_SIZE)
      let cons := { cons with r := (cons.r + 1) % 2 ^ 32 }
      if c = ctrlD then
        if n + 1 < target then
          -- The end of file is put back for the next read.
          ({ cons with r := (cons.r + (2 ^ 32 - 1)) % 2 ^ 32 }, outs, .ret (target - (n + 1 : Nat)))
        else (cons, outs ++ [none], .ret (target - (n + 1 : Nat)))
      else if c = 10 then (cons, outs ++ [some c], .ret (target - n))
      else readLoop killed target n cons (outs ++ [some c])

def unread (cons : Console) : List UInt8 :=
  slots INPUT_BUF_SIZE cons.buf cons.r (wsub (2 ^ 32) cons.w cons.r)

def edit (cons : Console) : List UInt8 :=
  slots INPUT_BUF_SIZE cons.buf cons.w (wsub (2 ^ 32) cons.e cons.w)

def ring : Buffer Console where
  key cons c :=
    let cons' := (consoleintr cons c).1
    (cons', slots INPUT_BUF_SIZE cons'.buf cons.w (wsub (2 ^ 32) cons'.w cons.w))
  take killed target n cons := readLoop killed target n cons []
  next cons := if cons.r = cons.w then none else some (cons.buf (cons.r % INPUT_BUF_SIZE))

/-- Input as two lists: what is committed and not read, and what can still be edited. -/
structure Line where
  unread : List UInt8
  edit : List UInt8

namespace Line

def key (l : Line) (c : UInt8) : Line × List UInt8 :=
  if c = 16 then (l, [])
  else if c = 21 then ({ l with edit := [] }, [])
  else if c = 8 ∨ c = 127 then ({ l with edit := l.edit.dropLast }, [])
  else if c ≠ 0 ∧ l.unread.length + l.edit.length < INPUT_BUF_SIZE then
    let c := if c = 13 then 10 else c
    let edit := l.edit ++ [c]
    if c = 10 ∨ c = ctrlD ∨ l.unread.length + edit.length = INPUT_BUF_SIZE then
      (⟨l.unread ++ edit, []⟩, edit)
    else ({ l with edit }, [])
  else (l, [])

def takeLoop (killed : Bool) (target : Nat) :
    Nat → List UInt8 → List (Option UInt8) → List UInt8 × List (Option UInt8) × Outcome
  | 0, u, outs => (u, outs, .ret target)
  | n + 1, [], outs => ([], outs, if killed then .ret (-1) else .sleep (n + 1))
  | n + 1, c :: u, outs =>
    if c = ctrlD then
      if n + 1 < target then (c :: u, outs, .ret (target - (n + 1 : Nat)))
      else (u, outs ++ [none], .ret (target - (n + 1 : Nat)))
    else if c = 10 then (u, outs ++ [some c], .ret (target - n))
    else takeLoop killed target n u (outs ++ [some c])

def lists : Buffer Line where
  key := key
  take killed target n l :=
    let (u, outs, o) := takeLoop killed target n l.unread []
    ({ l with unread := u }, outs, o)
  next l := l.unread.head?

end Line

/-- A `consoleread` that sleeps: the number of the call, its `target` and its `n`. -/
structure Reader where
  id : Nat
  target : Nat
  n : Nat

/-- A `consoleread` that has returned, with the byte that the next read finds. -/
structure Return where
  id : Nat
  target : Nat
  result : Int
  next : Option UInt8

/-- The input buffer and the processes that sleep in `consoleread`. The last four fields record the
number of calls, what has been committed, what the calls have taken, and the calls that have
returned, all in order. -/
structure State (ρ β : Type) where
  buf : β
  reader : ρ → Option Reader
  calls : Nat
  committed : List UInt8
  outs : List (Nat × Option UInt8)
  returns : List Return

/-- A character arrives, a process calls `consoleread(n)`, or one that sleeps goes on; `killed` is
what `killed(myproc())` says. -/
inductive Event (ρ : Type)
  | intr (c : UInt8)
  | read (p : ρ) (n : Int) (killed : Bool)
  | resume (p : ρ) (killed : Bool)

variable {ρ β : Type} [DecidableEq ρ]

def enter (b : Buffer β) (s : State ρ β) (p : ρ) (rd : Reader) (killed : Bool) : State ρ β :=
  let (buf, outs, o) := b.take killed rd.target rd.n s.buf
  let s := { s with buf, outs := s.outs ++ outs.map (rd.id, ·) }
  match o with
  | .ret r =>
    { s with
      reader := update s.reader p none
      returns := s.returns ++ [⟨rd.id, rd.target, r, b.next buf⟩] }
  | .sleep n => { s with reader := update s.reader p (some { rd with n }) }

def step (b : Buffer β) (s : State ρ β) : Event ρ → Option (State ρ β)
  | .intr c =>
    let (buf, new) := b.key s.buf c
    some { s with buf, committed := s.committed ++ new }
  | .read p n killed =>
    match s.reader p with
    | none => some (enter b { s with calls := s.calls + 1 } p ⟨s.calls, n.toNat, n.toNat⟩ killed)
    | some _ => none
  | .resume p killed => (s.reader p).map fun rd => enter b s p rd killed

/-- No input and no calls. -/
structure Boot (empty : β → Prop) (s : State ρ β) : Prop where
  buf : empty s.buf
  reader : ∀ p, s.reader p = none
  calls : s.calls = 0
  committed : s.committed = []
  outs : s.outs = []
  returns : s.returns = []

def Zero (cons : Console) : Prop := cons.r = 0 ∧ cons.w = 0 ∧ cons.e = 0

end Xv6.Tty
