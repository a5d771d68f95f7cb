import Xv6.Vm.Mem

/-! The page-table code of `vm.c`. A `pte_t *` is the address of a page-table page and an index in
it. -/

namespace Xv6.Vm

def walkLoop (va : Nat) (alloc : Bool) : Nat → Nat → Prog Kmem (Option (Nat × Nat))
  | 0, pagetable => pure (some (pagetable, px 0 va))
  | level + 1, pagetable => do
    let pte ← readWord pagetable (px (level + 1) va)
    if pte &&& PTE_V ≠ 0 then walkLoop va alloc level (pte2pa pte)
    else if alloc = false then pure none
    else
      match ← kalloc with
      | none => pure none
      | some child => do
        writePage child (Page.fill 0)
        writeWord pagetable (px (level + 1) va) (pa2pte child ||| PTE_V)
        walkLoop va alloc level child

def walk (pagetable va : Nat) (alloc : Bool) : Prog Kmem (Option (Nat × Nat)) :=
  if MAXVA ≤ va then Prog.panic "walk" else walkLoop va alloc 2 pagetable

def walkaddr (pagetable va : Nat) : Prog Kmem Nat :=
  if MAXVA ≤ va then pure 0
  else do
    match ← walk pagetable va false with
    | none => pure 0
    | some (page, i) => do
      let pte ← readWord page i
      if pte &&& PTE_V = 0 then pure 0
      else if pte &&& PTE_U = 0 then pure 0
      else pure (pte2pa pte)

/-- The loop of `mappages`, with `n` pages left. -/
def mappagesLoop (pagetable perm : Nat) : Nat → Nat → Nat → Prog Kmem Int
  | 0, _, _ => pure 0
  | n + 1, a, pa => do
    match ← walk pagetable a true with
    | none => pure (-1)
    | some (page, i) => do
      let pte ← readWord page i
      if pte &&& PTE_V ≠ 0 then Prog.panic "mappages: remap"
      else do
        writeWord page i (pa2pte pa ||| perm ||| PTE_V)
        mappagesLoop pagetable perm n (a + PGSIZE) (u64 (pa + PGSIZE))

def mappages (pagetable va size pa perm : Nat) : Prog Kmem Int :=
  if va % PGSIZE ≠ 0 then Prog.panic "mappages: va not aligned"
  else if size % PGSIZE ≠ 0 then Prog.panic "mappages: size not aligned"
  else if size = 0 then Prog.panic "mappages: size"
  else mappagesLoop pagetable perm (size / PGSIZE) va pa

def uvmcreate : Prog Kmem Nat := do
  match ← kalloc with
  | none => pure 0
  | some pagetable => do
    writePage pagetable (Page.fill 0)
    pure pagetable

def unmapPage (L : Layout) (pagetable : Nat) (doFree : Bool) (a : Nat) : Prog Kmem Unit := do
  match ← walk pagetable a false with
  | none => pure ()
  | some (page, i) => do
    let pte ← readWord page i
    if pte &&& PTE_V = 0 then pure ()
    else do
      if doFree then kfree L (pte2pa pte) else pure ()
      writeWord page i 0

def uvmunmap (L : Layout) (pagetable va npages : Nat) (doFree : Bool) : Prog Kmem Unit :=
  if va % PGSIZE ≠ 0 then Prog.panic "uvmunmap: not aligned"
  else Prog.loop (fun j => unmapPage L pagetable doFree (va + j * PGSIZE)) 0 npages

def uvmdealloc (L : Layout) (pagetable oldsz newsz : Nat) : Prog Kmem Nat :=
  if oldsz ≤ newsz then pure oldsz
  else do
    if pgroundup newsz < pgroundup oldsz then
      uvmunmap L pagetable (pgroundup newsz) ((pgroundup oldsz - pgroundup newsz) / PGSIZE) true
    else pure ()
    pure newsz

/-- One pass of the loop of `uvmalloc`, for the page at `a`; a result ends the loop. -/
def growPage (L : Layout) (pagetable oldsz xperm a : Nat) : Prog Kmem (Option Nat) := do
  match ← kalloc with
  | none => do
    let _ ← uvmdealloc L pagetable a oldsz
    pure (some 0)
  | some mem => do
    writePage mem (Page.fill 0)
    let r ← mappages pagetable a PGSIZE mem (PTE_R ||| PTE_U ||| xperm)
    if r ≠ 0 then do
      kfree L mem
      let _ ← uvmdealloc L pagetable a oldsz
      pure (some 0)
    else pure none

def uvmalloc (L : Layout) (pagetable oldsz newsz xperm : Nat) : Prog Kmem Nat :=
  if newsz < oldsz then pure oldsz
  else do
    let start := pgroundup oldsz
    let r ← Prog.search (fun j => growPage L pagetable start xperm (start + j * PGSIZE)) 0
      ((newsz - start + PGSIZE - 1) / PGSIZE)
    pure (r.getD newsz)

/-- `freewalk`, which recurses at most `depth` levels down. -/
def freewalk (L : Layout) : Nat → Nat → Prog Kmem Unit
  | 0, _ => Prog.panic "freewalk: too deep"
  | depth + 1, pagetable => do
    Prog.loop (fun i => do
      let pte ← readWord pagetable i
      if pte &&& PTE_V ≠ 0 ∧ pte &&& (PTE_R ||| PTE_W ||| PTE_X) = 0 then do
        freewalk L depth (pte2pa pte)
        writeWord pagetable i 0
      else if pte &&& PTE_V ≠ 0 then Prog.panic "freewalk: leaf"
      else pure ()) 0 512
    kfree L pagetable

def uvmfree (L : Layout) (pagetable sz : Nat) : Prog Kmem Unit := do
  if 0 < sz then uvmunmap L pagetable 0 (pgroundup sz / PGSIZE) true else pure ()
  freewalk L 3 pagetable

/-- One pass of the loop of `uvmcopy`, for the page at `i`; a result is an error. -/
def copyPage (L : Layout) (old new i : Nat) : Prog Kmem (Option Nat) := do
  match ← walk old i false with
  | none => pure none
  | some (page, j) => do
    let pte ← readWord page j
    if pte &&& PTE_V = 0 then pure none
    else do
      match ← kalloc with
      | none => pure (some i)
      | some mem => do
        let k ← get
        writePage mem (k.mem (pte2pa pte))
        let r ← mappages new i PGSIZE mem (pteFlags pte)
        if r ≠ 0 then do
          kfree L mem
          pure (some i)
        else pure none

def uvmcopy (L : Layout) (old new sz : Nat) : Prog Kmem Int := do
  match ← Prog.search (fun j => copyPage L old new (j * PGSIZE)) 0 ((sz + PGSIZE - 1) / PGSIZE) with
  | none => pure 0
  | some i => do
    uvmunmap L new 0 (i / PGSIZE) true
    pure (-1)

def uvmclear (pagetable va : Nat) : Prog Kmem Unit := do
  match ← walk pagetable va false with
  | none => Prog.panic "uvmclear"
  | some (page, i) => do
    let pte ← readWord page i
    writeWord page i (pte - (pte &&& PTE_U))

def ismapped (pagetable va : Nat) : Prog Kmem Bool := do
  match ← walk pagetable va false with
  | none => pure false
  | some (page, i) => do
    let pte ← readWord page i
    pure (pte &&& PTE_V ≠ 0)

/-- What the code reads from `myproc()`. -/
structure Cur where
  sz : Nat
  pagetable : Nat

def vmfault (L : Layout) (p : Cur) (pagetable va : Nat) : Prog Kmem Nat :=
  if p.sz ≤ va then pure 0
  else do
    let va := pgrounddown va
    if ← ismapped pagetable va then pure 0
    else
      match ← kalloc with
      | none => pure 0
      | some mem => do
        writePage mem (Page.fill 0)
        let r ← mappages p.pagetable va PGSIZE mem (PTE_W ||| PTE_U ||| PTE_R)
        if r ≠ 0 then do
          kfree L mem
          pure 0
        else pure mem

/-- The page for a user access at `va0`: the loops of `copyout` and `copyin` up to the fault. -/
def userPage (L : Layout) (p : Cur) (pagetable va0 : Nat) : Prog Kmem Nat := do
  let pa0 ← walkaddr pagetable va0
  if pa0 = 0 then vmfault L p pagetable va0 else pure pa0

/-- `copyout(pagetable, dstva, src, len)`; each pass copies at least one byte. -/
def copyoutLoop (L : Layout) (p : Cur) (pagetable : Nat) : Nat → Nat → List Nat → Prog Kmem Int
  | _, _, [] => pure 0
  | 0, _, _ => pure 0
  | fuel + 1, dstva, src => do
    let va0 := pgrounddown dstva
    if MAXVA ≤ va0 then pure (-1)
    else do
      let pa0 ← userPage L p pagetable va0
      if pa0 = 0 then pure (-1)
      else
        match ← walk pagetable va0 false with
        | none => Prog.panic "copyout: null pte"
        | some (page, i) => do
          let pte ← readWord page i
          if pte &&& PTE_W = 0 then pure (-1)
          else do
            let n := min (PGSIZE - (dstva - va0)) src.length
            let k ← get
            writePage pa0 ((k.mem pa0).setBytes (dstva - va0) (src.take n))
            copyoutLoop L p pagetable fuel (va0 + PGSIZE) (src.drop n)

def copyout (L : Layout) (p : Cur) (pagetable dstva : Nat) (src : List Nat) : Prog Kmem Int :=
  copyoutLoop L p pagetable src.length dstva src

/-- `copyin(pagetable, dst, srcva, len)`, with the bytes copied, if it succeeds. -/
def copyinLoop (L : Layout) (p : Cur) (pagetable : Nat) : Nat → Nat → Nat → List Nat →
    Prog Kmem (Option (List Nat))
  | 0, _, _, dst => pure (some dst)
  | fuel + 1, srcva, len, dst =>
    if len = 0 then pure (some dst)
    else do
      let va0 := pgrounddown srcva
      let pa0 ← userPage L p pagetable va0
      if pa0 = 0 then pure none
      else do
        let n := min (PGSIZE - (srcva - va0)) len
        let k ← get
        copyinLoop L p pagetable fuel (va0 + PGSIZE) (len - n)
          (dst ++ (k.mem pa0).bytes (srcva - va0) n)

def copyin (L : Layout) (p : Cur) (pagetable srcva len : Nat) : Prog Kmem (Option (List Nat)) :=
  copyinLoop L p pagetable len srcva len []

/-- `copyinstr(pagetable, dst, srcva, max)`, with the string copied, if it succeeds. -/
def copyinstrLoop (pagetable : Nat) : Nat → Nat → Nat → List Nat → Prog Kmem (Option (List Nat))
  | 0, _, _, _ => pure none
  | fuel + 1, srcva, max, dst =>
    if max = 0 then pure none
    else do
      let va0 := pgrounddown srcva
      let pa0 ← walkaddr pagetable va0
      if pa0 = 0 then pure none
      else do
        let n := min (PGSIZE - (srcva - va0)) max
        let k ← get
        let chunk := (k.mem pa0).bytes (srcva - va0) n
        if 0 ∈ chunk then pure (some (dst ++ chunk.takeWhile (· ≠ 0)))
        else copyinstrLoop pagetable fuel (va0 + PGSIZE) (max - n) (dst ++ chunk)

def copyinstr (pagetable srcva max : Nat) : Prog Kmem (Option (List Nat)) :=
  copyinstrLoop pagetable max srcva max []

/-- A store of the byte `c` by a user program, through the table that the hardware walks; -1 is a
page fault. -/
def store (pagetable va c : Nat) : Prog Kmem Int :=
  if MAXVA ≤ va then pure (-1)
  else do
    match ← walk pagetable va false with
    | none => pure (-1)
    | some (page, i) => do
      let pte ← readWord page i
      if pte &&& PTE_V = 0 ∨ pte &&& PTE_U = 0 ∨ pte &&& PTE_W = 0 then pure (-1)
      else do
        let k ← get
        writePage (pte2pa pte) ((k.mem (pte2pa pte)).setByte (va % PGSIZE) c)
        pure 0

end Xv6.Vm
