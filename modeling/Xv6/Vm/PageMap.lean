import Xv6.Lib.Run
import Xv6.Vm.Teardown

/-! A page table as a finite map from virtual pages to physical pages: what any sequence of
`mappages`, `uvmunmap` and `uvmclear` makes of a table that starts out empty. -/

namespace Xv6.Vm

open Function Finset

abbrev PageMap := Nat → Option (Nat × Nat)

namespace PageMap

/-- The `n` pages from `v` on map to the page of `pa` and the pages that follow it. -/
def assign (m : PageMap) (v n pa perm : Nat) : PageMap := fun w =>
  if v ≤ w ∧ w < v + n then some (pgrounddown (u64 (pa + (w - v) * PGSIZE)), perm ||| PTE_V)
  else m w

def remove (m : PageMap) (v n : Nat) : PageMap := fun w => if v ≤ w ∧ w < v + n then none else m w

def clearUser (m : PageMap) (v : Nat) : PageMap :=
  update m v ((m v).map fun e => (e.1, e.2 - (e.2 &&& PTE_U)))

end PageMap

def mapping (pte : Nat) : Option (Nat × Nat) :=
  if pte &&& PTE_V ≠ 0 then some (pte2pa pte, pteFlags pte) else none

/-- The page-table pages from `p` at `level` on, one for each path of valid entries. -/
def tree (mem : Nat → Page) : Nat → Nat → List Nat
  | 0, p => [p]
  | level + 1, p => p :: (List.range 512).flatMap fun i =>
    if mem p i &&& PTE_V ≠ 0 then tree mem level (pte2pa (mem p i)) else []

/-- A page table: memory and the address of the root page. -/
structure PageTable where
  mem : Nat → Page
  root : Nat

namespace PageTable

/-- The entry that `walk(pagetable, va, 0)` finds. -/
def slot (s : PageTable) (va : Nat) : Option (Nat × Nat) :=
  match walk s.root va false ⟨s.mem, []⟩ with
  | .ok (r, _) => r
  | .error _ => none

def map (s : PageTable) : PageMap := fun v =>
  (s.slot (v * PGSIZE)).bind fun e => mapping (s.mem e.1 e.2)

def pages (s : PageTable) : List Nat := tree s.mem 2 s.root

/-- `kalloc` may return `free`, in this order: pages that it manages, none of them in the table. -/
def Fresh (L : Layout) (s : PageTable) (free : List Nat) : Prop :=
  free.Nodup ∧ ∀ p ∈ free, (p % PGSIZE = 0 ∧ L.kernelEnd ≤ p ∧ p < PHYSTOP) ∧ p ∉ s.pages

instance (L : Layout) (s : PageTable) (free : List Nat) : Decidable (Fresh L s free) :=
  inferInstanceAs (Decidable (_ ∧ _))

end PageTable

/-- One call. `free` is what `kalloc` returns in turn; after that it fails. -/
inductive TableOp
  | mappages (va size pa perm : Nat) (free : List Nat)
  | uvmunmap (va npages : Nat) (doFree : Bool)
  | uvmclear (va : Nat)

namespace TableOp

def run (L : Layout) (root : Nat) : TableOp → Prog Kmem Int
  | .mappages va size pa perm _ => Vm.mappages root va size pa perm
  | .uvmunmap va npages doFree => do
    Vm.uvmunmap L root va npages doFree
    pure 0
  | .uvmclear va => do
    Vm.uvmclear root va
    pure 0

def free : TableOp → List Nat
  | .mappages _ _ _ _ free => free
  | _ => []

/-- The call is about a page-aligned range below `MAXVA`, `kalloc` keeps to its pages, and no
page-table page is freed as if it were mapped memory. -/
def Ok (L : Layout) (s : PageTable) : TableOp → Prop
  | .mappages va size pa perm free => va % PGSIZE = 0 ∧ size % PGSIZE = 0 ∧ 0 < size ∧
    va + size ≤ MAXVA ∧ pa < 18446744073709551616 ∧ perm < 1024 ∧ s.Fresh L free
  | .uvmunmap va npages doFree => va % PGSIZE = 0 ∧ va + npages * PGSIZE ≤ MAXVA ∧
    (doFree = true → ∀ i < npages, (s.map (va / PGSIZE + i)).all fun e => decide (e.1 ∉ s.pages))
  | .uvmclear va => va < MAXVA

instance (L : Layout) (s : PageTable) (op : TableOp) : Decidable (op.Ok L s) :=
  match op with
  | .mappages _ _ _ _ _ => inferInstanceAs (Decidable (_ ∧ _))
  | .uvmunmap _ _ _ => inferInstanceAs (Decidable (_ ∧ _))
  | .uvmclear _ => inferInstanceAs (Decidable (_ < _))

end TableOp

def PageTable.step (L : Layout) (s : PageTable) (op : TableOp) : Option PageTable :=
  if op.Ok L s then
    match op.run L s.root ⟨s.mem, op.free⟩ with
    | .ok (_, k) => some { s with mem := k.mem }
    | .error _ => none
  else none

/-- An empty table, on a page of the allocator. -/
structure PageTable.Empty (L : Layout) (s : PageTable) : Prop where
  zero : ∀ i < 512, s.mem s.root i = 0
  root : s.root % PGSIZE = 0 ∧ L.kernelEnd ≤ s.root ∧ s.root < PHYSTOP

end Xv6.Vm
