import Xv6.Fs.Inode
import Xv6.Lib.Run

/-! The inode table of `fs.c` at the granularity of `itable.lock`, of the locks of inodes and of
buffers: any processes call `iget`, `idup`, `ilock`, `iunlock`, `iput` and `ialloc` at the same
time. What is done under `itable.lock` is one step, and so is what is done with a buffer. The free
map is left out. -/

namespace Xv6.Itable

open Function
open Fs (Dinode NINODE Ip)

/-- An entry of the table without its lock; `d` is its copy of the inode on the disk. -/
structure Inode where
  dev : Nat
  inum : Nat
  ref : Nat
  valid : Bool
  d : Dinode

/-- Where a process is in a call. The places `ρ` are those that can hold a counted reference:
variables, current directories and file structures. -/
inductive Pc (ρ : Type)
  | idle
  -- `ialloc` at inode `inum`, and when it has allocated it
  | ialloc (dev type inum : Nat) (r : ρ)
  | iallocGet (dev type inum : Nat) (r : ρ)
  -- `ilock` before `acquiresleep`, and with the lock held
  | ilock (r : ρ)
  | ilockWait (r : ρ)
  | ilockRead (r : ρ)
  -- `iput`, and its steps when it frees the inode
  | iput (r : ρ)
  | itrunc (r : ρ)
  | itruncUpdate (r : ρ)
  | clear (r : ρ)
  | clearUpdate (r : ρ)
  | invalidate (r : ρ)
  | unlock (r : ρ)
  | drop (r : ρ)
  deriving DecidableEq

def Pc.place {ρ : Type} : Pc ρ → Option ρ
  | idle => none
  | ialloc _ _ _ r | iallocGet _ _ _ r | ilock r | ilockWait r | ilockRead r => some r
  | iput r | itrunc r | itruncUpdate r | clear r | clearUpdate r => some r
  | invalidate r | unlock r | drop r => some r

def Pc.sole {ρ : Type} : Pc ρ → Option ρ
  | ilock _ | ilockWait _ | ilockRead _ => none
  | pc => pc.place

/-- The table, the process that has locked each entry and the place with its reference, the inodes
on the disks, the references, and where each process is. -/
structure State (π ρ : Type) where
  inode : Ip → Inode
  lock : Ip → Option (π × ρ)
  disk : Nat → Nat → Dinode
  refs : ρ → Option Ip
  pc : π → Pc ρ
  panic : Option String

/-- What a process does next outside of the calls. It looks up a name of an inode, or it changes an
inode that it has locked. -/
inductive Call (ρ : Type)
  | lookup (dev inum : Nat) (r : ρ)
  | ialloc (dev type : Nat) (r : ρ)
  | idup (r r' : ρ)
  | ilock (r : ρ)
  | iunlock (r : ρ)
  | iput (r : ρ)
  | store (r : ρ) (d : Dinode)
  | iupdate (r : ρ)

inductive Event (π ρ : Type)
  | call (p : π) (c : Call ρ)
  | run (p : π)

namespace State

variable {π ρ : Type} [DecidableEq π] [DecidableEq ρ]

def setInode (s : State π ρ) (i : Ip) (f : Inode → Inode) : State π ρ :=
  { s with inode := update s.inode i (f (s.inode i)) }

def setLock (s : State π ρ) (i : Ip) (h : Option (π × ρ)) : State π ρ :=
  { s with lock := update s.lock i h }

def setDisk (s : State π ρ) (dev inum : Nat) (d : Dinode) : State π ρ :=
  { s with disk := update s.disk dev (update (s.disk dev) inum d) }

def setRef (s : State π ρ) (r : ρ) (i : Option Ip) : State π ρ :=
  { s with refs := update s.refs r i }

def goto (s : State π ρ) (p : π) (pc : Pc ρ) : State π ρ :=
  { s with pc := update s.pc p pc }

def stop (s : State π ρ) (msg : String) : State π ρ := { s with panic := some msg }

def At (s : State π ρ) (dev inum : Nat) (i : Ip) : Prop :=
  0 < (s.inode i).ref ∧ (s.inode i).dev = dev ∧ (s.inode i).inum = inum

instance (s : State π ρ) (dev inum : Nat) (i : Ip) : Decidable (s.At dev inum i) :=
  inferInstanceAs (Decidable (_ ∧ _ ∧ _))

/-- The loop of `iget` over the entries: the entry of the inode, or the first empty one. -/
def igetLoop (s : State π ρ) (dev inum : Nat) (empty : Option Ip) : List Ip → Ip ⊕ Option Ip
  | [] => .inr empty
  | i :: rest =>
    if s.At dev inum i then .inl i
    else s.igetLoop dev inum (if empty = none ∧ (s.inode i).ref = 0 then some i else empty) rest

def iget (s : State π ρ) (dev inum : Nat) (r : ρ) : State π ρ :=
  match s.igetLoop dev inum none (List.finRange NINODE) with
  | .inl i => (s.setInode i fun e => { e with ref := e.ref + 1 }).setRef r (some i)
  | .inr (some i) =>
    (s.setInode i fun e => { e with dev := dev, inum := inum, ref := 1, valid := false }).setRef r
      (some i)
  | .inr none => s.stop "iget: no inodes"

def unref (s : State π ρ) (i : Ip) (r : ρ) : State π ρ :=
  (s.setInode i fun e => { e with ref := e.ref - 1 }).setRef r none

def iupdate (s : State π ρ) (i : Ip) : State π ρ :=
  s.setDisk (s.inode i).dev (s.inode i).inum (s.inode i).d

def nlink (s : State π ρ) (dev inum : Nat) : Nat :=
  match (List.finRange NINODE).find? fun i => s.At dev inum i ∧ (s.inode i).valid with
  | some i => (s.inode i).d.nlink
  | none => (s.disk dev inum).nlink

def Holds (s : State π ρ) (p : π) (i : Ip) : Prop := ∃ r, s.lock i = some (p, r)

instance (s : State π ρ) (p : π) (i : Ip) : Decidable (s.Holds p i) :=
  match h : s.lock i with
  | some (q, r) =>
    if e : q = p then .isTrue ⟨r, by rw [h, e]⟩
    else .isFalse fun ⟨r', h'⟩ => e (by rw [h] at h'; exact (Prod.mk.inj (Option.some.inj h')).1)
  | none => .isFalse fun ⟨r', h'⟩ => by rw [h] at h'; cases h'

end State

section

variable {π ρ : Type} [DecidableEq π] [DecidableEq ρ] [Fintype π]

def call (s : State π ρ) (p : π) : Call ρ → Option (State π ρ)
  | .lookup dev inum r =>
    if s.refs r = none ∧ ∀ q, (s.pc q).place ≠ some r then some (s.iget dev inum r) else none
  | .ialloc dev type r =>
    if type ≠ 0 ∧ s.refs r = none ∧ ∀ q, (s.pc q).place ≠ some r then
      some (s.goto p (.ialloc dev type 1 r))
    else none
  | .idup r r' =>
    match s.refs r with
    | some i =>
      if (∀ q, (s.pc q).sole ≠ some r) ∧ s.refs r' = none ∧ ∀ q, (s.pc q).place ≠ some r' then
        some ((s.setInode i fun e => { e with ref := e.ref + 1 }).setRef r' (some i))
      else none
    | none => none
  | .ilock r =>
    if s.refs r ≠ none ∧ ∀ q, (s.pc q).sole ≠ some r then some (s.goto p (.ilock r)) else none
  | .iunlock r =>
    match s.refs r with
    | some i =>
      if ∀ q, (s.pc q).sole ≠ some r then
        some (if ¬s.Holds p i ∨ (s.inode i).ref < 1 then s.stop "iunlock" else s.setLock i none)
      else none
    | none => none
  | .iput r =>
    if s.refs r ≠ none ∧ (∀ q, (s.pc q).place ≠ some r) ∧
        ∀ i q, s.lock i ≠ some (q, r) then
      some (s.goto p (.iput r))
    else none
  | .store r d =>
    match s.refs r with
    | some i =>
      if s.Holds p i ∧ d.type ≠ 0 then some (s.setInode i fun e => { e with d := d }) else none
    | none => none
  | .iupdate r =>
    match s.refs r with
    | some i => if s.Holds p i then some (s.iupdate i) else none
    | none => none

/-- The next step of process `p` in a call on entry `i`. -/
def runAt (s : State π ρ) (p : π) (i : Ip) : Pc ρ → Option (State π ρ)
  | .ilock r =>
    some (if (s.inode i).ref < 1 then s.stop "ilock" else s.goto p (.ilockWait r))
  | .ilockWait r =>
    if s.lock i = none then some ((s.setLock i (some (p, r))).goto p (.ilockRead r)) else none
  | .ilockRead _ =>
    if (s.inode i).valid then some (s.goto p .idle)
    else
      let d := s.disk (s.inode i).dev (s.inode i).inum
      let s := s.setInode i fun e => { e with d := d, valid := true }
      some (if d.type = 0 then s.stop "ilock: no type" else s.goto p .idle)
  | .iput r =>
    if (s.inode i).ref = 1 ∧ (s.inode i).valid ∧ (s.inode i).d.nlink = 0 then
      -- To wait for the lock here would be to sleep with `itable.lock` held.
      some (if s.lock i ≠ none then s.stop "sched locks"
        else (s.setLock i (some (p, r))).goto p (.itrunc r))
    else some ((s.unref i r).goto p .idle)
  | .itrunc r =>
    some ((s.setInode i fun e => { e with d := { e.d with addrs := fun _ => 0, size := 0 } }).goto p
      (.itruncUpdate r))
  | .itruncUpdate r => some ((s.iupdate i).goto p (.clear r))
  | .clear r =>
    some ((s.setInode i fun e => { e with d := { e.d with type := 0 } }).goto p (.clearUpdate r))
  | .clearUpdate r => some ((s.iupdate i).goto p (.invalidate r))
  | .invalidate r =>
    some ((s.setInode i fun e => { e with valid := false }).goto p (.unlock r))
  | .unlock r => some ((s.setLock i none).goto p (.drop r))
  | .drop r => some ((s.unref i r).goto p .idle)
  | .idle | .ialloc _ _ _ _ | .iallocGet _ _ _ _ => none

def run (ninodes : Nat) (s : State π ρ) (p : π) : Option (State π ρ) :=
  match s.pc p with
  | .ialloc dev type inum r =>
    if inum < ninodes then
      if (s.disk dev inum).type = 0 then
        some ((s.setDisk dev inum { Dinode.zero with type := type }).goto p
          (.iallocGet dev type inum r))
      else some (s.goto p (.ialloc dev type (inum + 1) r))
    else some (s.goto p .idle)
  | .iallocGet dev _ inum r => some ((s.iget dev inum r).goto p .idle)
  | pc => (pc.place.bind s.refs).bind fun i => runAt s p i pc

def step (ninodes : Nat) (s : State π ρ) : Event π ρ → Option (State π ρ)
  | .call p c => if s.panic.isSome ∨ s.pc p ≠ .idle then none else call s p c
  | .run p => if s.panic.isSome then none else run ninodes s p

def Named (s : State π ρ) : Event π ρ → Prop
  | .call _ (.lookup dev inum _) => s.nlink dev inum ≠ 0
  | _ => True

instance (s : State π ρ) (e : Event π ρ) : Decidable (Named s e) := by
  unfold Named
  split <;> infer_instance

def Boot (s : State π ρ) : Prop :=
  (∀ i, (s.inode i).ref = 0) ∧ (∀ i, s.lock i = none) ∧ (∀ r, s.refs r = none) ∧
    (∀ p, s.pc p = .idle) ∧ s.panic = none ∧
    ∀ dev inum, (s.disk dev inum).type = 0 → (s.disk dev inum).nlink = 0

end

end Xv6.Itable
