import Xv6.Lib.Wp

/-! Physical memory, the page allocator of `kalloc.c` and the address arithmetic of `riscv.h`.
Memory is a map from page addresses to pages, and a page is 512 words of 64 bits. -/

namespace Xv6.Vm

open Function

abbrev PGSIZE : Nat := 4096
abbrev KERNBASE : Nat := 0x80000000
abbrev PHYSTOP : Nat := 0x88000000
abbrev MAXVA : Nat := 0x4000000000
abbrev TRAMPOLINE : Nat := 0x3ffffff000
abbrev TRAPFRAME : Nat := 0x3fffffe000
abbrev PTE_V : Nat := 1
abbrev PTE_R : Nat := 2
abbrev PTE_W : Nat := 4
abbrev PTE_X : Nat := 8
abbrev PTE_U : Nat := 16

example : TRAMPOLINE = MAXVA - PGSIZE ∧ TRAPFRAME = TRAMPOLINE - PGSIZE := by decide

abbrev u64 (a : Nat) : Nat := a % 18446744073709551616

def pgroundup (a : Nat) : Nat := u64 (a + PGSIZE - 1) / PGSIZE * PGSIZE

def pgrounddown (a : Nat) : Nat := a / PGSIZE * PGSIZE

def pa2pte (pa : Nat) : Nat := (pa >>> 12) <<< 10

def pte2pa (pte : Nat) : Nat := u64 ((pte >>> 10) <<< 12)

def pteFlags (pte : Nat) : Nat := pte &&& 0x3FF

def px (level va : Nat) : Nat := (va >>> (12 + 9 * level)) &&& 0x1FF

theorem mul_div_pgsize (v : Nat) : v * PGSIZE / PGSIZE = v := Nat.mul_div_cancel _ (by decide)

theorem px_eq (level va : Nat) : px level va = (va >>> (12 + 9 * level)) % 512 :=
  Nat.and_two_pow_sub_one_eq_mod _ 9

theorem pte_eq {perm : Nat} (pa : Nat) (h : perm < 1024) :
    pa2pte pa ||| perm ||| PTE_V = pa / 4096 * 1024 + (perm ||| PTE_V) := by
  have hlt : perm ||| PTE_V < 2 ^ 10 := Nat.or_lt_two_pow h (by decide)
  rw [Nat.or_assoc, pa2pte, ← Nat.shiftLeft_add_eq_or_of_lt hlt, Nat.shiftLeft_eq,
    Nat.shiftRight_eq_div_pow]

theorem and_low {b : Nat} (x : Nat) (h : b < 1024) : x &&& b = x % 1024 &&& b := by
  have hb : x &&& b < 2 ^ 10 := Nat.lt_of_le_of_lt Nat.and_le_right h
  have := Nat.and_mod_two_pow (a := x) (b := b) (n := 10)
  rw [Nat.mod_eq_of_lt hb, Nat.mod_eq_of_lt h] at this
  exact this

theorem and_pte {perm b : Nat} (pa : Nat) (hperm : perm < 1024) (hb : b < 1024) :
    (pa2pte pa ||| perm ||| PTE_V) &&& b = (perm ||| PTE_V) &&& b := by
  have hlt : perm ||| PTE_V < 2 ^ 10 := Nat.or_lt_two_pow hperm (by decide)
  rw [pte_eq pa hperm, and_low _ hb]
  congr 1
  omega

theorem valid_pte {perm : Nat} (pa : Nat) (hperm : perm < 1024) :
    (pa2pte pa ||| perm ||| PTE_V) &&& PTE_V ≠ 0 := by
  rw [and_pte pa hperm (by decide), Nat.and_or_distrib_right]
  intro h
  have := Nat.right_le_or (n := perm &&& PTE_V) (m := PTE_V &&& PTE_V)
  rw [h] at this
  exact absurd this (by decide)

theorem pte2pa_pte {pa perm : Nat} (hpa : pa % PGSIZE = 0) (hlt : pa < PHYSTOP)
    (hperm : perm < 1024) : pte2pa (pa2pte pa ||| perm ||| PTE_V) = pa := by
  have h1 : perm ||| PTE_V < 2 ^ 10 := Nat.or_lt_two_pow hperm (by decide)
  simp only [PGSIZE, PHYSTOP] at hpa hlt
  rw [pte_eq pa hperm, pte2pa, u64, Nat.shiftLeft_eq, Nat.shiftRight_eq_div_pow]
  omega

abbrev Page := Nat → Nat

namespace Page

/-- The page that `memset(page, c, PGSIZE)` leaves. -/
def fill (c : Nat) : Page := fun _ => c * 0x0101010101010101

def byte (page : Page) (off : Nat) : Nat := page (off / 8) / 256 ^ (off % 8) % 256

def setByte (page : Page) (off c : Nat) : Page :=
  update page (off / 8)
    (page (off / 8) - page.byte off * 256 ^ (off % 8) + c % 256 * 256 ^ (off % 8))

def setBytes (page : Page) (off : Nat) : List Nat → Page
  | [] => page
  | c :: cs => setBytes (page.setByte off c) (off + 1) cs

def bytes (page : Page) (off n : Nat) : List Nat := (List.range n).map fun i => page.byte (off + i)

end Page

/-- Physical memory and `kmem.freelist`. -/
structure Kmem where
  mem : Nat → Page
  freelist : List Nat

/-- Where the kernel image lies: the symbols `end` and `trampoline`. -/
structure Layout where
  kernelEnd : Nat
  trampoline : Nat
  aligned : trampoline % PGSIZE = 0
  above : KERNBASE ≤ trampoline
  inside : trampoline + PGSIZE ≤ kernelEnd
  below : kernelEnd ≤ PHYSTOP

/-- A kernel whose first page is the trampoline. -/
def Layout.upTo (kernelEnd : Nat) (inside : 0x80000000 + PGSIZE ≤ kernelEnd)
    (below : kernelEnd ≤ PHYSTOP) : Layout where
  kernelEnd
  trampoline := 0x80000000
  aligned := by decide
  above := by decide
  inside
  below

def readWord (pa i : Nat) : Prog Kmem Nat := fun k => .ok (k.mem pa i, k)

def Kmem.setPage (k : Kmem) (pa : Nat) (page : Page) : Kmem :=
  { k with mem := update k.mem pa page }

theorem Kmem.setPage_same (k : Kmem) (pa : Nat) (page : Page) : (k.setPage pa page).mem pa = page :=
  update_self _ _ _

theorem Kmem.setPage_of_ne {k : Kmem} {pa q : Nat} {page : Page} (h : q ≠ pa) :
    (k.setPage pa page).mem q = k.mem q := update_of_ne h _ _

def writePage (pa : Nat) (page : Page) : Prog Kmem Unit := fun k => .ok ((), k.setPage pa page)

def writeWord (pa i v : Nat) : Prog Kmem Unit := fun k =>
  .ok ((), k.setPage pa (update (k.mem pa) i v))

/-- `kfree(pa)`. The free list is threaded through the pages; here it is a list of addresses. -/
def kfree (L : Layout) (pa : Nat) : Prog Kmem Unit :=
  if pa % PGSIZE ≠ 0 ∨ pa < L.kernelEnd ∨ PHYSTOP ≤ pa then Prog.panic "kfree"
  else fun k => .ok ((), { k.setPage pa (Page.fill 1) with freelist := pa :: k.freelist })

def kalloc : Prog Kmem (Option Nat) := fun k =>
  match k.freelist with
  | [] => .ok (none, k)
  | pa :: rest => .ok (some pa, { k.setPage pa (Page.fill 5) with freelist := rest })

/-- The loop of `freerange`, from `p` on. -/
def freerangeLoop (L : Layout) (paEnd p : Nat) : Prog Kmem Unit :=
  if p + PGSIZE ≤ paEnd then do
    kfree L p
    freerangeLoop L paEnd (p + PGSIZE)
  else pure ()
termination_by paEnd - p
decreasing_by
  simp only [PGSIZE] at *
  omega

def freerange (L : Layout) (paStart paEnd : Nat) : Prog Kmem Unit :=
  freerangeLoop L paEnd (pgroundup paStart)

def kinit (L : Layout) : Prog Kmem Unit := freerange L L.kernelEnd PHYSTOP

/-- The pages between the end of the kernel and `PHYSTOP`. -/
def Layout.pageCount (L : Layout) : Nat := (PHYSTOP - pgroundup L.kernelEnd) / PGSIZE

def Layout.pages (L : Layout) : List Nat :=
  (List.range L.pageCount).map fun i => pgroundup L.kernelEnd + i * PGSIZE

end Xv6.Vm
