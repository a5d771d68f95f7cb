import Xv6.Param
import Xv6.Vm.Uvm

/-! The parts of `proc.c`, `exec.c` and `sysfile.c` that build and free address spaces. What the
file system supplies is the contents of a file. -/

namespace Xv6.Vm

abbrev MAXARG : Nat := 32
abbrev MAXPATH : Nat := 128
abbrev USERSTACK : Nat := 1
abbrev ELF_MAGIC : Nat := 0x464C457F
abbrev ELF_PROG_LOAD : Nat := 1

/-- `proc_pagetable(p)`, where `p->trapframe` is `trapframe`. -/
def procPagetable (L : Layout) (trapframe : Nat) : Prog Kmem Nat := do
  let pagetable ← uvmcreate
  if pagetable = 0 then pure 0
  else do
    let r ← mappages pagetable TRAMPOLINE PGSIZE L.trampoline (PTE_R ||| PTE_X)
    if r < 0 then do
      uvmfree L pagetable 0
      pure 0
    else do
      let r ← mappages pagetable TRAPFRAME PGSIZE trapframe (PTE_R ||| PTE_W)
      if r < 0 then do
        uvmunmap L pagetable TRAMPOLINE 1 false
        uvmfree L pagetable 0
        pure 0
      else pure pagetable

def procFreepagetable (L : Layout) (pagetable sz : Nat) : Prog Kmem Unit := do
  uvmunmap L pagetable TRAMPOLINE 1 false
  uvmunmap L pagetable TRAPFRAME 1 false
  uvmfree L pagetable sz

/-- The contents of a file. -/
structure Exe where
  size : Nat
  byte : Nat → Nat

/-- What `readi(ip, 0, dst, off, n)` copies; `off` and `n` are 32-bit. -/
def Exe.readi (f : Exe) (off n : Nat) : List Nat :=
  if f.size < off ∨ 4294967296 ≤ off + n then []
  else (List.range (min n (f.size - off))).map fun i => f.byte (off + i) % 256

/-- The little-endian number in `w` bytes from `off` on. -/
def leNum (bs : List Nat) (off w : Nat) : Nat :=
  ((bs.drop off).take w).foldr (fun b n => b + 256 * n) 0

def leBytes (v : Nat) : List Nat := (List.range 8).map fun i => v / 256 ^ i % 256

def flags2perm (flags : Nat) : Nat :=
  (if flags &&& 1 ≠ 0 then PTE_X else 0) ||| (if flags &&& 2 ≠ 0 then PTE_W else 0)

/-- One pass of the loop of `loadseg`, at the offset `i`; a result is an error. -/
def loadPage (pagetable va : Nat) (f : Exe) (offset sz i : Nat) : Prog Kmem (Option Unit) := do
  let pa ← walkaddr pagetable (va + i)
  if pa = 0 then Prog.panic "loadseg: address should exist"
  else do
    let n := min (sz - i) PGSIZE
    let bs := f.readi ((offset + i) % 4294967296) n
    let k ← get
    writePage pa ((k.mem pa).setBytes 0 bs)
    if bs.length ≠ n then pure (some ()) else pure none

/-- `loadseg`; `offset`, `sz` and the loop variable are 32-bit, so the loop over a size above
`2 ^ 32 - PGSIZE` starts again at 0 and does not end. -/
def loadseg (pagetable va : Nat) (f : Exe) (offset sz : Nat) : Prog Kmem Int := do
  match ← Prog.search (fun j => loadPage pagetable va f offset sz (j * PGSIZE)) 0
      ((sz + PGSIZE - 1) / PGSIZE) with
  | some _ => pure (-1)
  | none => if 4294967296 < sz + PGSIZE then Prog.panic "loadseg: no end" else pure 0

/-- The loop of `kexec` over the program headers, with `n` left: whether all were loaded, and the
size so far. -/
def loadSegments (L : Layout) (pagetable : Nat) (f : Exe) (phoff : Nat) : Nat → Nat → Nat →
    Prog Kmem (Bool × Nat)
  | 0, _, sz => pure (true, sz)
  | n + 1, i, sz =>
    let ph := f.readi ((phoff + i * 56) % 4294967296) 56
    let type := leNum ph 0 4
    let flags := leNum ph 4 4
    let off := leNum ph 8 8
    let vaddr := leNum ph 16 8
    let filesz := leNum ph 32 8
    let memsz := leNum ph 40 8
    if ph.length ≠ 56 then pure (false, sz)
    else if type ≠ ELF_PROG_LOAD then loadSegments L pagetable f phoff n (i + 1) sz
    else if memsz < filesz then pure (false, sz)
    else if u64 (vaddr + memsz) < vaddr then pure (false, sz)
    else if vaddr % PGSIZE ≠ 0 then pure (false, sz)
    else do
      let sz1 ← uvmalloc L pagetable sz (u64 (vaddr + memsz)) (flags2perm flags)
      if sz1 = 0 then pure (false, sz)
      else do
        let r ← loadseg pagetable vaddr f (off % 4294967296) (filesz % 4294967296)
        if r < 0 then pure (false, sz1)
        else loadSegments L pagetable f phoff n (i + 1) sz1

def pushDown (sp n : Nat) : Nat :=
  let sp := u64 (sp + 18446744073709551616 - n)
  sp - sp % 16

/-- The loop of `kexec` over the arguments: the stack pointer and `ustack`, or an error. -/
def pushArgs (L : Layout) (p : Cur) (pagetable stackbase : Nat) : List (List Nat) → Nat → Nat →
    List Nat → Prog Kmem (Option (Nat × List Nat))
  | [], _, sp, ustack => pure (some (sp, ustack))
  | arg :: argv, argc, sp, ustack =>
    if MAXARG ≤ argc then pure none
    else
      let sp := pushDown sp (arg.length + 1)
      if sp < stackbase then pure none
      else do
        let r ← copyout L p pagetable sp (arg ++ [0])
        if r < 0 then pure none
        else pushArgs L p pagetable stackbase argv (argc + 1) sp (ustack ++ [sp])

/-- A new user image, before `kexec` commits to it. -/
structure Image where
  pagetable : Nat
  sz : Nat
  sp : Nat
  argc : Nat
  entry : Nat

def buildStack (L : Layout) (p : Cur) (pagetable sz : Nat) (argv : List (List Nat)) :
    Prog Kmem (Nat × Option Nat) := do
  let sz := pgroundup sz
  let sz1 ← uvmalloc L pagetable sz (u64 (sz + (USERSTACK + 1) * PGSIZE)) PTE_W
  if sz1 = 0 then pure (sz, none)
  else do
    uvmclear pagetable (sz1 - (USERSTACK + 1) * PGSIZE)
    let stackbase := sz1 - USERSTACK * PGSIZE
    match ← pushArgs L p pagetable stackbase argv 0 sz1 [] with
    | none => pure (sz1, none)
    | some (sp, ustack) => do
      let sp := pushDown sp ((argv.length + 1) * 8)
      if sp < stackbase then pure (sz1, none)
      else do
        let r ← copyout L p pagetable sp ((ustack ++ [0]).flatMap leBytes)
        if r < 0 then pure (sz1, none) else pure (sz1, some sp)

/-- `kexec` up to the commit, for the process `p` with the given trap frame; on an error nothing
is left of the new image. -/
def buildImage (L : Layout) (p : Cur) (trapframe : Nat) (f : Exe) (argv : List (List Nat)) :
    Prog Kmem (Option Image) :=
  let elf := f.readi 0 64
  if elf.length ≠ 64 then pure none
  else if leNum elf 0 4 ≠ ELF_MAGIC then pure none
  else do
    let pagetable ← procPagetable L trapframe
    if pagetable = 0 then pure none
    else do
      let (ok, sz) ← loadSegments L pagetable f (leNum elf 32 8) (leNum elf 56 2) 0 0
      if ok = false then do
        procFreepagetable L pagetable sz
        pure none
      else do
        match ← buildStack L p pagetable sz argv with
        | (sz, none) => do
          procFreepagetable L pagetable sz
          pure none
        | (sz, some sp) => pure (some
            { pagetable, sz, sp, argc := argv.length, entry := leNum elf 24 8 })

def fetchaddr (L : Layout) (p : Cur) (addr : Nat) : Prog Kmem (Option Nat) :=
  if p.sz ≤ addr ∨ p.sz < u64 (addr + 8) then pure none
  else do
    match ← copyin L p p.pagetable addr 8 with
    | none => pure none
    | some bs => pure (some (leNum bs 0 8))

/-- The loop of `sys_exec` that fetches the arguments, with `n` slots of `argv` left: whether it
reached the null pointer, and the pages and strings fetched. -/
def fetchArgs (L : Layout) (p : Cur) (uargv : Nat) : Nat → Nat → List (Nat × List Nat) →
    Prog Kmem (Bool × List (Nat × List Nat))
  | 0, _, argv => pure (false, argv)
  | n + 1, i, argv => do
    match ← fetchaddr L p (u64 (uargv + 8 * i)) with
    | none => pure (false, argv)
    | some uarg =>
      if uarg = 0 then pure (true, argv)
      else
        match ← kalloc with
        | none => pure (false, argv)
        | some page => do
          match ← copyinstr p.pagetable uarg PGSIZE with
          | none => pure (false, argv ++ [(page, [])])
          | some arg => do
            let k ← get
            writePage page ((k.mem page).setBytes 0 (arg ++ [0]))
            fetchArgs L p uargv n (i + 1) (argv ++ [(page, arg)])

def freeArgs (L : Layout) : List (Nat × List Nat) → Prog Kmem Unit
  | [] => pure ()
  | (page, _) :: argv => do
    kfree L page
    freeArgs L argv

end Xv6.Vm
