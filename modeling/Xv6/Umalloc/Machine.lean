import Xv6.Lib.Run

/-! The user heap of `umalloc.c`. Addresses are bytes and sizes are units of a header. A header's
fields are kept by its address; the loops of `free` and `malloc` are given `fuel` rounds and `none`
is a loop that has not ended. -/

namespace Xv6.Umalloc

open Function

def HDR : Nat := 16

/-- `Header`: the next free block and the size of this one, a `uint`. -/
structure Header where
  ptr : Nat
  size : Nat

/-- The headers in memory and the variable `freep`. -/
structure Heap where
  hdr : Nat → Header
  freep : Nat

namespace Heap

def ptr (h : Heap) (a : Nat) : Nat := (h.hdr a).ptr

def size (h : Heap) (a : Nat) : Nat := (h.hdr a).size

def setPtr (h : Heap) (a q : Nat) : Heap :=
  { h with hdr := update h.hdr a { h.hdr a with ptr := q } }

def setSize (h : Heap) (a n : Nat) : Heap :=
  { h with hdr := update h.hdr a { h.hdr a with size := n % 2 ^ 32 } }

/-- The loop of `free`: the free block behind which `bp` belongs. -/
def seek (h : Heap) (bp : Nat) : Nat → Nat → Option Nat
  | 0, _ => none
  | fuel + 1, p =>
    if p < bp ∧ bp < h.ptr p then some p
    else if h.ptr p ≤ p ∧ (p < bp ∨ bp < h.ptr p) then some p
    else seek h bp fuel (h.ptr p)

/-- `free` joins `bp` to the free block behind it, or links it to that. -/
def joinNext (h : Heap) (bp p : Nat) : Heap :=
  if bp + HDR * h.size bp = h.ptr p then
    let h := h.setSize bp (h.size bp + h.size (h.ptr p))
    h.setPtr bp (h.ptr (h.ptr p))
  else h.setPtr bp (h.ptr p)

/-- `free` joins `bp` to the free block before it, or links that to it. -/
def joinPrev (h : Heap) (bp p : Nat) : Heap :=
  if p + HDR * h.size p = bp then
    let h := h.setSize p (h.size p + h.size bp)
    h.setPtr p (h.ptr bp)
  else h.setPtr p bp

def free (h : Heap) (fuel ap : Nat) : Option Heap :=
  let bp := ap - HDR
  (h.seek bp fuel h.freep).map fun p => { (h.joinNext bp p).joinPrev bp p with freep := p }

end Heap

/-- A block of `size` units, its header included. -/
structure Block where
  addr : Nat
  size : Nat
  deriving DecidableEq

def Block.stop (b : Block) : Nat := b.addr + HDR * b.size

/-- The heap, with the blocks that `malloc` has returned and `free` has not got back, the units that
`sbrk` has given, and the address behind the last region that it has given. -/
structure State where
  heap : Heap
  live : List Block
  units : Nat
  brk : Nat

/-- `sbrk` for `nu` units: it may fail, and it does when the memory of `mem` units is used up. A
region that it gives starts at or above the end of the last one. -/
def sbrk (mem : Nat) (s : State) (nu : Nat) (answer : Option Nat) : Option Nat :=
  if s.units + nu ≤ mem then answer.map (s.brk + ·) else none

/-- `morecore`, which returns `0` if there is no memory. -/
def morecore (mem : Nat) (s : State) (fuel nu : Nat) (answer : Option Nat) :
    Option (State × Nat) :=
  let nu := if nu < 4096 then 4096 else nu
  match sbrk mem s nu answer with
  | none => some (s, 0)
  | some hp =>
    let heap := s.heap.setSize hp nu
    (heap.free fuel (hp + HDR)).map fun heap =>
      ({ s with heap, units := s.units + nu, brk := hp + HDR * nu }, heap.freep)

/-- `malloc` takes `nunits` units from the block `p`: all of it, or its end. -/
def take (s : State) (nunits prevp p : Nat) : State × Nat :=
  if s.heap.size p = nunits then
    ({ s with
        heap := { s.heap.setPtr prevp (s.heap.ptr p) with freep := prevp }
        live := ⟨p, nunits⟩ :: s.live }, p + HDR)
  else
    let heap := s.heap.setSize p (s.heap.size p - nunits)
    let p := p + HDR * heap.size p
    ({ s with
        heap := { heap.setSize p nunits with freep := prevp }
        live := ⟨p, nunits⟩ :: s.live }, p + HDR)

/-- The loop of `malloc`. Each call of `morecore` takes an answer of `sbrk`. -/
def mallocLoop (mem nunits : Nat) :
    Nat → State → (prevp p : Nat) → (answers : List (Option Nat)) → Option (State × Nat)
  | 0, _, _, _, _ => none
  | fuel + 1, s, prevp, p, answers =>
    if nunits ≤ s.heap.size p then some (take s nunits prevp p)
    else if p = s.heap.freep then
      (morecore mem s fuel nunits answers.head?.join).bind fun (s, p) =>
        if p = 0 then some (s, 0) else mallocLoop mem nunits fuel s p (s.heap.ptr p) answers.tail
    else mallocLoop mem nunits fuel s p (s.heap.ptr p) answers

def unitsFor (nbytes : Nat) : Nat := (nbytes + HDR - 1) / HDR + 1

/-- The first call of `malloc` makes a list of `base` alone. -/
def init (base : Nat) (h : Heap) : Heap :=
  if h.freep = 0 then { h.setPtr base base with freep := base }.setSize base 0 else h

def malloc (mem base : Nat) (s : State) (fuel nbytes : Nat) (answers : List (Option Nat)) :
    Option (State × Nat) :=
  let nunits := unitsFor nbytes
  let heap := init base s.heap
  mallocLoop mem nunits fuel { s with heap } heap.freep (heap.ptr heap.freep) answers

/-- A request that `morecore` can pass on: the bytes to ask `sbrk` for are an `int`. -/
def Fits (nbytes : Nat) : Prop := HDR * max (unitsFor nbytes) 4096 < 2 ^ 31

instance (nbytes : Nat) : Decidable (Fits nbytes) := inferInstanceAs (Decidable (_ < _))

/-- The program allocates, frees a live block, or writes sixteen bytes inside of one. -/
inductive Event
  | malloc (fuel nbytes : Nat) (answers : List (Option Nat))
  | free (fuel : Nat) (b : Block)
  | store (b : Block) (a : Nat) (v : Header)

def release (s : State) (fuel : Nat) (b : Block) : Option State :=
  (s.heap.free fuel (b.addr + HDR)).map fun heap => { s with heap, live := s.live.erase b }

def step (mem base : Nat) (s : State) : Event → Option State
  | .malloc fuel nbytes answers =>
    if Fits nbytes then (malloc mem base s fuel nbytes answers).map (·.1) else none
  | .free fuel b => if b ∈ s.live then release s fuel b else none
  | .store b a v =>
    if b ∈ s.live ∧ b.addr + HDR ≤ a ∧ a + HDR ≤ b.stop then
      some { s with heap := { s.heap with hdr := update s.heap.hdr a v } }
    else none

/-- Nothing is allocated, and the memory that `sbrk` gives is behind `base`. -/
structure Boot (base : Nat) (s : State) : Prop where
  freep : s.heap.freep = 0
  live : s.live = []
  units : s.units = 0
  brk : base + HDR ≤ s.brk

end Xv6.Umalloc
