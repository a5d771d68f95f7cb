import Xv6.Proc.Wait
import Xv6.Vm.Exec

/-! The system calls and traps that allocate and free pages, each as one operation: `fork`,
`exec`, `sbrk`, page faults, `exit`, `wait` and pipes; and the stores of user programs. -/

namespace Xv6.Vm

open Function

open Wait (Slot initproc wrap)

abbrev NOFILE : Nat := 16
abbrev NFILE : Nat := 100

/-- The states that `p->state` has between operations, and `USED` inside `kfork`. -/
inductive Life
  | unused | used | runnable | zombie
  deriving DecidableEq

inductive FileType
  | none | pipe | inode | device
  deriving DecidableEq

/-- The fields of `struct file` that pipes use. -/
structure File where
  type : FileType
  ref : Nat
  readable : Bool
  writable : Bool
  pipe : Nat

/-- Which ends of a pipe are open. -/
structure Pipe where
  readopen : Bool
  writeopen : Bool

/-- The fields of `struct proc` that own pages and files; addresses are 0 for null. -/
structure Proc where
  state : Life
  pid : Int
  parent : Option Slot
  xstate : Int
  sz : Nat
  pagetable : Nat
  trapframe : Nat
  ofile : Fin NOFILE → Option (Fin NFILE)

/-- The state; `kstack` and `kernel` are the pages that the kernel has kept since boot. -/
structure Sys where
  k : Kmem
  proc : Slot → Proc
  nextpid : Int
  file : Fin NFILE → File
  pipe : Nat → Pipe
  kstack : Slot → Nat
  kernel : List Nat

def Sys.setK (s : Sys) (k : Kmem) : Sys := { s with k }

def onK {α : Type} (m : Prog Kmem α) : Prog Sys α := Prog.on Sys.k (fun k s => s.setK k) m

def getProc (p : Slot) : Prog Sys Proc := fun s => .ok (s.proc p, s)

def Sys.setProc (s : Sys) (p : Slot) (q : Proc) : Sys :=
  { s with proc := update s.proc p q }

def modProc (p : Slot) (f : Proc → Proc) : Prog Sys Unit := fun s =>
  .ok ((), s.setProc p (f (s.proc p)))

def Sys.setFile (s : Sys) (i : Fin NFILE) (f : File) : Sys :=
  { s with file := update s.file i f }

def Proc.cur (q : Proc) : Cur := ⟨q.sz, q.pagetable⟩

def Proc.setFd (q : Proc) (fd : Fin NOFILE) (o : Option (Fin NFILE)) : Proc :=
  { q with ofile := update q.ofile fd o }

def freeTrapframe (L : Layout) (q : Proc) : Prog Sys Unit :=
  if q.trapframe ≠ 0 then onK (kfree L q.trapframe) else pure ()

def freeSpace (L : Layout) (q : Proc) : Prog Sys Unit :=
  if q.pagetable ≠ 0 then onK (procFreepagetable L q.pagetable q.sz) else pure ()

def freeproc (L : Layout) (p : Slot) : Prog Sys Unit := do
  let q ← getProc p
  freeTrapframe L q
  freeSpace L q
  modProc p fun q =>
    { q with
      trapframe := 0, pagetable := 0, sz := 0, pid := 0, parent := none, xstate := 0
      state := .unused }

/-- The slot that the loop of `allocproc` finds. -/
def Sys.findUnused (s : Sys) : Option Slot :=
  (List.finRange NPROC).find? fun i => (s.proc i).state = .unused

/-- `allocproc`, for the trap frame and the page table. -/
def allocPages (L : Layout) (np : Slot) : Prog Sys (Option Slot) := do
  match ← onK kalloc with
  | none => do
    modProc np fun q => { q with trapframe := 0 }
    freeproc L np
    pure none
  | some trapframe => do
    modProc np fun q => { q with trapframe }
    let pagetable ← onK (procPagetable L trapframe)
    modProc np fun q => { q with pagetable }
    if pagetable = 0 then do
      freeproc L np
      pure none
    else pure (some np)

def allocproc (L : Layout) : Prog Sys (Option Slot) := do
  let s ← get
  match s.findUnused with
  | none => pure none
  | some np => do
    modify fun s => { s with nextpid := wrap (s.nextpid + 1) }
    modProc np fun q => { q with pid := s.nextpid, state := .used }
    allocPages L np

def userinit (L : Layout) : Prog Sys Int := do
  match ← allocproc L with
  | none => pure (-1)
  | some p => do
    modProc p fun q => { q with state := .runnable }
    pure 0

/-- `*(np->trapframe) = *(p->trapframe); np->trapframe->a0 = 0`. -/
def copyTrapframe (dst src : Nat) : Prog Kmem Unit := do
  let k ← get
  writePage dst fun i => if i = 14 then 0 else if i < 36 then k.mem src i else k.mem dst i

def filedup (i : Fin NFILE) : Prog Sys Unit := do
  let s ← get
  if (s.file i).ref < 1 then Prog.panic "filedup"
  else modify fun s => s.setFile i { s.file i with ref := (s.file i).ref + 1 }

def dupFiles (p np : Slot) : List (Fin NOFILE) → Prog Sys Unit
  | [] => pure ()
  | fd :: fds => do
    let q ← getProc p
    match q.ofile fd with
    | none => dupFiles p np fds
    | some f => do
      filedup f
      modProc np fun n => n.setFd fd (some f)
      dupFiles p np fds

def kfork (L : Layout) (p : Slot) : Prog Sys Int := do
  match ← allocproc L with
  | none => pure (-1)
  | some np => do
    let q ← getProc p
    let n ← getProc np
    let r ← onK (uvmcopy L q.pagetable n.pagetable q.sz)
    if r < 0 then do
      freeproc L np
      pure (-1)
    else do
      modProc np fun n => { n with sz := q.sz }
      onK (copyTrapframe n.trapframe q.trapframe)
      dupFiles p np (List.finRange NOFILE)
      modProc np fun n => { n with parent := some p, state := .runnable }
      pure n.pid

def Pipe.close (q : Pipe) (writable : Bool) : Pipe :=
  if writable then { q with writeopen := false } else { q with readopen := false }

def pipeclose (L : Layout) (pi : Nat) (writable : Bool) : Prog Sys Unit := do
  modify fun s => { s with pipe := update s.pipe pi ((s.pipe pi).close writable) }
  let s ← get
  if (s.pipe pi).readopen = false ∧ (s.pipe pi).writeopen = false then onK (kfree L pi)
  else pure ()

/-- `fileclose`; releasing an inode frees no page. -/
def fileclose (L : Layout) (i : Fin NFILE) : Prog Sys Unit := do
  let s ← get
  if (s.file i).ref < 1 then Prog.panic "fileclose"
  else if 0 < (s.file i).ref - 1 then
    modify fun s => s.setFile i { s.file i with ref := (s.file i).ref - 1 }
  else do
    modify fun s => s.setFile i { s.file i with ref := 0, type := .none }
    if (s.file i).type = .pipe then pipeclose L (s.file i).pipe (s.file i).writable else pure ()

def clearFd (p : Slot) (fd : Fin NOFILE) : Prog Sys Unit :=
  modProc p fun q => q.setFd fd none

def closeFiles (L : Layout) (p : Slot) : List (Fin NOFILE) → Prog Sys Unit
  | [] => pure ()
  | fd :: fds => do
    let q ← getProc p
    match q.ofile fd with
    | none => closeFiles L p fds
    | some f => do
      fileclose L f
      clearFd p fd
      closeFiles L p fds

def Sys.reparent (s : Sys) (p : Slot) : Sys :=
  { s with proc := fun i => { s.proc i with
      parent := if (s.proc i).parent = some p then some initproc else (s.proc i).parent } }

def kexit (L : Layout) (p : Slot) (status : Int) : Prog Sys Int :=
  if p = initproc then Prog.panic "init exiting"
  else do
    closeFiles L p (List.finRange NOFILE)
    modify fun s => s.reparent p
    modProc p fun q => { q with xstate := status, state := .zombie }
    pure 0

def Sys.findZombie (s : Sys) (p : Slot) : Option Slot :=
  (List.finRange NPROC).find? fun i => (s.proc i).parent = some p ∧ (s.proc i).state = .zombie

def Sys.havekids (s : Sys) (p : Slot) : Bool :=
  (List.finRange NPROC).any fun i => (s.proc i).parent = some p

/-- The copy of the exit status that `kwait` makes for the caller. -/
def copyStatus (L : Layout) (p : Slot) (addr : Nat) (xstate : Int) : Prog Sys Int := do
  let q ← getProc p
  if addr ≠ 0 then
    onK (copyout L q.cur q.pagetable addr ((leBytes (xstate % 4294967296).toNat).take 4))
  else pure 0

/-- `kwait`; there is no result when the caller goes to sleep. -/
def kwait (L : Layout) (p : Slot) (addr : Nat) : Prog Sys (Option Int) := do
  let s ← get
  match s.findZombie p with
  | some pp => do
    let r ← copyStatus L p addr (s.proc pp).xstate
    if r < 0 then pure (some (-1))
    else do
      freeproc L pp
      pure (some (s.proc pp).pid)
  | none => pure (if s.havekids p then none else some (-1))

def addInt (sz : Nat) (n : Int) : Nat := ((sz + n) % 18446744073709551616).toNat

def growproc (L : Layout) (p : Slot) (n : Int) : Prog Sys Int := do
  let q ← getProc p
  if 0 < n then
    if TRAPFRAME < addInt q.sz n then pure (-1)
    else do
      let sz ← onK (uvmalloc L q.pagetable q.sz (addInt q.sz n) PTE_W)
      if sz = 0 then pure (-1)
      else do
        modProc p fun q => { q with sz }
        pure 0
  else if n < 0 then do
    let sz ← onK (uvmdealloc L q.pagetable q.sz (addInt q.sz n))
    modProc p fun q => { q with sz }
    pure 0
  else pure 0

abbrev SBRK_EAGER : Int := 1

/-- `sys_sbrk`; `argint` truncates the arguments to 32 bits. -/
def sysSbrk (L : Layout) (p : Slot) (a0 a1 : Int) : Prog Sys Int := do
  let n := wrap a0
  let t := wrap a1
  let q ← getProc p
  if t = SBRK_EAGER ∨ n < 0 then do
    let r ← growproc L p n
    if r < 0 then pure (-1) else pure q.sz
  else if addInt q.sz n < q.sz then pure (-1)
  else if TRAPFRAME < addInt q.sz n then pure (-1)
  else do
    modProc p fun q => { q with sz := addInt q.sz n }
    pure q.sz

/-- `kexec` for a file that `namei` found; the words 3, 6 and 15 of the trap frame are `epc`, `sp`
and `a1`. -/
def kexec (L : Layout) (p : Slot) (exe : Option Exe) (argv : List (List Nat)) : Prog Sys Int := do
  let q ← getProc p
  match exe with
  | none => pure (-1)
  | some f => do
    match ← onK (buildImage L q.cur q.trapframe f argv) with
    | none => pure (-1)
    | some im => do
      onK (writeWord q.trapframe 15 im.sp)
      modProc p fun q => { q with pagetable := im.pagetable, sz := im.sz }
      onK (writeWord q.trapframe 3 im.entry)
      onK (writeWord q.trapframe 6 im.sp)
      onK (procFreepagetable L q.pagetable q.sz)
      pure im.argc

/-- `sys_exec`, where `namei` says what a path leads to. -/
def sysExec (L : Layout) (p : Slot) (upath uargv : Nat) (namei : List Nat → Option Exe) :
    Prog Sys Int := do
  let q ← getProc p
  match ← onK (copyinstr q.pagetable upath MAXPATH) with
  | none => pure (-1)
  | some path => do
    let (ok, argv) ← onK (fetchArgs L q.cur uargv MAXARG 0 [])
    if ok = false then do
      onK (freeArgs L argv)
      pure (-1)
    else do
      let ret ← kexec L p (namei path) (argv.map Prod.snd)
      onK (freeArgs L argv)
      pure ret

def filealloc : Prog Sys (Option (Fin NFILE)) := do
  let s ← get
  match (List.finRange NFILE).find? fun i => (s.file i).ref = 0 with
  | none => pure none
  | some i => do
    modify fun s => s.setFile i { s.file i with ref := 1 }
    pure (some i)

/-- The end of `pipealloc`, with both file structures and the page. -/
def openPipe (f0 f1 : Fin NFILE) (pi : Nat) : Prog Sys Unit := modify fun s =>
  { s with
    pipe := update s.pipe pi { readopen := true, writeopen := true }
    file := update
      (update s.file f0
        { s.file f0 with type := .pipe, readable := true, writable := false, pipe := pi }) f1
      { s.file f1 with type := .pipe, readable := false, writable := true, pipe := pi } }

def pipealloc (L : Layout) : Prog Sys (Option (Fin NFILE × Fin NFILE)) := do
  match ← filealloc with
  | none => pure none
  | some f0 => do
    match ← filealloc with
    | none => do
      fileclose L f0
      pure none
    | some f1 => do
      match ← onK kalloc with
      | none => do
        fileclose L f0
        fileclose L f1
        pure none
      | some pi => do
        openPipe f0 f1 pi
        pure (some (f0, f1))

def fdalloc (p : Slot) (f : Fin NFILE) : Prog Sys (Option (Fin NOFILE)) := do
  let q ← getProc p
  match (List.finRange NOFILE).find? fun fd => q.ofile fd = none with
  | none => pure none
  | some fd => do
    modProc p fun q => q.setFd fd (some f)
    pure (some fd)

/-- The copies of the two descriptors that `sys_pipe` makes for the caller. -/
def copyFds (L : Layout) (p : Slot) (fdarray : Nat) (fd0 fd1 : Fin NOFILE) : Prog Sys Bool := do
  let q ← getProc p
  let r ← onK (copyout L q.cur q.pagetable fdarray ((leBytes fd0.val).take 4))
  if r < 0 then pure false
  else do
    let r ← onK (copyout L q.cur q.pagetable (u64 (fdarray + 4)) ((leBytes fd1.val).take 4))
    if r < 0 then pure false else pure true

def sysPipe (L : Layout) (p : Slot) (fdarray : Nat) : Prog Sys Int := do
  match ← pipealloc L with
  | none => pure (-1)
  | some (rf, wf) => do
    match ← fdalloc p rf with
    | none => do
      fileclose L rf
      fileclose L wf
      pure (-1)
    | some fd0 => do
      match ← fdalloc p wf with
      | none => do
        clearFd p fd0
        fileclose L rf
        fileclose L wf
        pure (-1)
      | some fd1 => do
        if ← copyFds L p fdarray fd0 fd1 then pure 0
        else do
          clearFd p fd0
          clearFd p fd1
          fileclose L rf
          fileclose L wf
          pure (-1)

def sysClose (L : Layout) (p : Slot) (fd : Fin NOFILE) : Prog Sys Int := do
  let q ← getProc p
  match q.ofile fd with
  | none => pure (-1)
  | some f => do
    clearFd p fd
    fileclose L f
    pure 0

/-- A page fault in user space: `usertrap` kills the process when `vmfault` does not help. -/
def usertrap (L : Layout) (p : Slot) (va : Nat) : Prog Sys Int := do
  let q ← getProc p
  let r ← onK (vmfault L q.cur q.pagetable va)
  if r ≠ 0 then pure 0 else kexit L p (-1)

def kernelFault (L : Layout) (p : Slot) (va : Nat) : Prog Sys Int := do
  let q ← getProc p
  let r ← onK (vmfault L q.cur q.pagetable va)
  pure r

/-- The program of `p` stores a byte. A page fault is an operation of its own. -/
def userStore (p : Slot) (va c : Nat) : Prog Sys Int := do
  let q ← getProc p
  onK (store q.pagetable va c)

/-- One operation. -/
inductive Event
  | userinit
  | fork (p : Slot)
  | exec (p : Slot) (upath uargv : Nat) (namei : List Nat → Option Exe)
  | sbrk (p : Slot) (n t : Int)
  | trap (p : Slot) (va : Nat)
  | fault (p : Slot) (va : Nat)
  | store (p : Slot) (va c : Nat)
  | exit (p : Slot) (status : Int)
  | wait (p : Slot) (addr : Nat)
  | pipe (p : Slot) (fdarray : Nat)
  | close (p : Slot) (fd : Fin NOFILE)

def Event.actor : Event → Option Slot
  | .userinit => none
  | .fork p | .exec p _ _ _ | .sbrk p _ _ | .trap p _ | .fault p _ | .store p _ _ | .exit p _
  | .wait p _ | .pipe p _ | .close p _ => some p

/-- An operation runs in a live process; `userinit` runs first. -/
def Event.enabled (s : Sys) (e : Event) : Bool :=
  match e.actor with
  | none => (List.finRange NPROC).all fun i => (s.proc i).state = .unused
  | some p => (s.proc p).state = .runnable

def Event.run (L : Layout) : Event → Prog Sys (Option Int)
  | .userinit => some <$> Vm.userinit L
  | .fork p => some <$> kfork L p
  | .exec p upath uargv namei => some <$> sysExec L p upath uargv namei
  | .sbrk p n t => some <$> sysSbrk L p n t
  | .trap p va => some <$> usertrap L p va
  | .fault p va => some <$> kernelFault L p va
  | .store p va c => some <$> userStore p va c
  | .exit p status => some <$> kexit L p status
  | .wait p addr => kwait L p addr
  | .pipe p fdarray => some <$> sysPipe L p fdarray
  | .close p fd => some <$> sysClose L p fd

def step (L : Layout) (s : Sys) (e : Event) : Option Sys :=
  if e.enabled s then
    match e.run L s with
    | .ok (_, s') => some s'
    | .error _ => none
  else none

end Xv6.Vm
