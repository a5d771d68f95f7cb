import Xv6.Vm.System

/-! `kexec` and `kfork` with all of `struct proc`: on top of the pages and files of `Sys`, the
fields of a process that own no page, and the reference counts of the inode table. -/

namespace Xv6.Vm

open Wait (Slot wrap)

/-- `char name[16]`; no code stores anything but a NUL in its last byte. -/
structure Name where
  byte : Nat → Nat
  nul : byte 15 = 0

/-- The bytes that `safestrcpy(s, t, 16)` leaves at `s`. -/
def safestrcpyBytes (s : Nat → Nat) (t : List Nat) : Nat → Nat := fun i =>
  if i < min 15 t.length then t.getD i 0 else if i = min 15 t.length then 0 else s i

/-- `safestrcpy(s, t, sizeof(p->name))`, where `t` is the string without its NUL. -/
def safestrcpy (s : Name) (t : List Nat) : Name where
  byte := safestrcpyBytes s.byte t
  nul := by
    unfold safestrcpyBytes
    split
    · omega
    · split
      · rfl
      · exact s.nul

/-- The fields of `struct proc` that own neither pages nor files; `cwd` is an entry of the inode
table. -/
structure Info where
  chan : Nat
  killed : Int
  context : Nat → Nat
  cwd : Option Nat
  name : Name
  tracing : Int

/-- The state: the pages, processes and files, the other fields of the processes, and the reference
counts of the inode table; `forkret` is the address of that function. -/
structure Kernel where
  sys : Sys
  info : Slot → Info
  iref : Nat → Nat
  forkret : Nat

def Kernel.setSys (s : Kernel) (sys : Sys) : Kernel := { s with sys }

def Kernel.setInfo (s : Kernel) (p : Slot) (i : Info) : Kernel :=
  { s with info := Function.update s.info p i }

def Kernel.setIref (s : Kernel) (i n : Nat) : Kernel :=
  { s with iref := Function.update s.iref i n }

section lift

variable {α : Type}

def onSys (m : Prog Sys α) : Prog Kernel α := Prog.on Kernel.sys (fun sys s => s.setSys sys) m

def onMem (m : Prog Kmem α) : Prog Kernel α := onSys (onK m)

end lift

def modInfo (p : Slot) (f : Info → Info) : Prog Kernel Unit := fun s =>
  .ok ((), s.setInfo p (f (s.info p)))

def idup (i : Nat) : Prog Kernel Unit := fun s => .ok ((), s.setIref i (s.iref i + 1))

def iunlockput (i : Nat) : Prog Kernel Unit := fun s => .ok ((), s.setIref i (s.iref i - 1))

namespace Kernel

/-- The loop of `kexec` that finds the last element of a path. -/
def lastElement : List Nat → List Nat → List Nat
  | [], last => last
  | c :: s, last => lastElement s (if c = 47 then s else last)

def bad (L : Layout) (pagetable sz : Nat) (ip : Option Nat) : Prog Kernel Int := do
  if pagetable ≠ 0 then onMem (procFreepagetable L pagetable sz) else pure ()
  match ip with
  | some i => iunlockput i
  | none => pure ()
  pure (-1)

/-- `kexec` from the commit on; the words 3, 6 and 15 of the trap frame are `epc`, `sp` and `a1`. -/
def commit (L : Layout) (p : Slot) (path : List Nat) (im : Image) : Prog Kernel Int := do
  let q ← onSys (getProc p)
  onMem (writeWord q.trapframe 15 im.sp)
  modInfo p fun i => { i with name := safestrcpy i.name (lastElement path path) }
  onSys (modProc p fun q => { q with pagetable := im.pagetable, sz := im.sz })
  onMem (writeWord q.trapframe 3 im.entry)
  onMem (writeWord q.trapframe 6 im.sp)
  onMem (procFreepagetable L q.pagetable q.sz)
  pure im.argc

/-- `kexec` with the file that `namei` found, in the entry `ip` of the inode table and with a
reference for the caller. -/
def execFile (L : Layout) (p : Slot) (path : List Nat) (ip : Nat) (f : Exe)
    (argv : List (List Nat)) : Prog Kernel Int := do
  let q ← onSys (getProc p)
  let elf := f.readi 0 64
  if elf.length ≠ 64 then bad L 0 0 (some ip)
  else if leNum elf 0 4 ≠ ELF_MAGIC then bad L 0 0 (some ip)
  else do
    let pagetable ← onMem (procPagetable L q.trapframe)
    if pagetable = 0 then bad L 0 0 (some ip)
    else do
      let (ok, sz) ← onMem (loadSegments L pagetable f (leNum elf 32 8) (leNum elf 56 2) 0 0)
      if ok = false then bad L pagetable sz (some ip)
      else do
        iunlockput ip
        match ← onMem (buildStack L q.cur pagetable sz argv) with
        | (sz, none) => bad L pagetable sz none
        | (sz, some sp) =>
          commit L p path { pagetable, sz, sp, argc := argv.length, entry := leNum elf 24 8 }

/-- `kexec`, where `file` is what `namei` finds. -/
def kexec (L : Layout) (p : Slot) (path : List Nat) (file : Option (Nat × Exe))
    (argv : List (List Nat)) : Prog Kernel Int :=
  match file with
  | none => pure (-1)
  | some (ip, f) => do
    idup ip
    execFile L p path ip f argv

end Kernel

end Xv6.Vm
