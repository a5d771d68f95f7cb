import Xv6.Itable.Machine
import Xv6.Lib.Own

/-! What holds of the inode table while any processes use it: how the references are counted, who
may free an inode, and what an inode number that is allocated again looks like. -/

namespace Xv6.Itable

open Function Finset
open Fs (Dinode NINODE Ip)

namespace Pc

variable {ρ : Type}

def locked : Pc ρ → Option ρ
  | ilockRead r | itrunc r | itruncUpdate r | clear r | clearUpdate r => some r
  | invalidate r | unlock r => some r
  | _ => none

/-- The reference with which `iput` frees an inode, before the inode is free on the disk. -/
def frees : Pc ρ → Option ρ
  | itrunc r | itruncUpdate r | clear r | clearUpdate r => some r
  | _ => none

/-- The reference that `iput` drops after it has freed the inode. -/
def ends : Pc ρ → Option ρ
  | invalidate r | unlock r | drop r => some r
  | _ => none

variable {pc : Pc ρ} {r : ρ}

theorem place_of_sole (h : pc.sole = some r) : pc.place = some r := by
  cases pc <;> first | exact h | cases h

theorem sole_of_ends (h : pc.ends = some r) : pc.sole = some r := by
  cases pc <;> first | exact h | cases h

theorem sole_of_frees (h : pc.frees = some r) : pc.sole = some r := by
  cases pc <;> first | exact h | cases h

theorem ends_of_frees (h : pc.frees = some r) : pc.ends = none := by
  cases pc <;> first | rfl | cases h

theorem place_of_locked (h : pc.locked = some r) : pc.place = some r := by
  cases pc <;> first | exact h | cases h

end Pc

def newInode (type : Nat) : Dinode := { Dinode.zero with type := type }

section

variable {π ρ : Type}

def State.dinode (s : State π ρ) (i : Ip) : Dinode := s.disk (s.inode i).dev (s.inode i).inum

/-- What entry `i` has in the table is not valid, or an `iput` that has freed the inode is about to
say so. -/
def Stale (s : State π ρ) (i : Ip) : Prop :=
  (s.inode i).valid = true → ∃ p r, s.lock i = some (p, r) ∧ s.pc p = .invalidate r

/-- All references to the inode are about to be dropped by an `iput` that has freed it. -/
def Unclaimed (s : State π ρ) (dev inum : Nat) : Prop :=
  ∀ r i, s.refs r = some i → (s.inode i).dev = dev → (s.inode i).inum = inum →
    (∃ p, (s.pc p).ends = some r) ∧ Stale s i

/-- Process `p` has entry `i` locked through the reference in `r`. -/
structure Locks (s : State π ρ) (p : π) (r : ρ) (i : Ip) : Prop where
  refs : s.refs r = some i
  lock : s.lock i = some (p, r)

/-- Process `p` frees entry `i`: it has the only reference, and the inode has no links. -/
structure Frees (s : State π ρ) (p : π) (r : ρ) (i : Ip) : Prop extends Locks s p r i where
  ref : (s.inode i).ref = 1
  valid : (s.inode i).valid = true
  nlink : (s.inode i).d.nlink = 0
  type : (s.dinode i).type ≠ 0

/-- What holds at the places of a call of process `p`. -/
def Good (s : State π ρ) (p : π) : Pc ρ → Prop
  | .idle => True
  | .ialloc _ type _ r => s.refs r = none ∧ type ≠ 0
  | .iallocGet dev type inum r =>
    s.refs r = none ∧ type ≠ 0 ∧ s.disk dev inum = newInode type ∧ Unclaimed s dev inum
  | .ilock r | .ilockWait r | .iput r | .drop r => ∃ i, s.refs r = some i
  | .ilockRead r => ∃ i, Locks s p r i
  | .itrunc r | .itruncUpdate r | .clear r | .clearUpdate r => ∃ i, Frees s p r i
  | .invalidate r =>
    ∃ i, Locks s p r i ∧ (s.inode i).valid = true ∧ (s.inode i).d.nlink = 0
  | .unlock r => ∃ i, Locks s p r i ∧ (s.inode i).valid = false

variable [Fintype ρ]

structure Inv (s : State π ρ) : Prop where
  count : ∀ i, (s.inode i).ref = (own univ s.refs).count i
  unique : ∀ i j, 0 < (s.inode i).ref → 0 < (s.inode j).ref →
    (s.inode i).dev = (s.inode j).dev → (s.inode i).inum = (s.inode j).inum → i = j
  sole : ∀ p q r, (s.pc p).sole = some r → (s.pc q).place = some r → q = p
  held : ∀ i p r, s.lock i = some (p, r) → s.refs r = some i ∧
    ∀ q, (s.pc q).sole = some r → q = p ∧ (s.pc p).locked = some r
  loaded : ∀ i p r, s.lock i = some (p, r) →
    (s.inode i).valid = true ∨ s.pc p = .ilockRead r ∨ s.pc p = .unlock r
  free : ∀ dev inum, (s.disk dev inum).type = 0 → (s.disk dev inum).nlink = 0
  live : ∀ r i, s.refs r = some i → (∀ p, (s.pc p).ends ≠ some r) → (s.dinode i).type ≠ 0
  disk : ∀ i, 0 < (s.inode i).ref → (s.dinode i).type = 0 → Stale s i
  copy : ∀ i, 0 < (s.inode i).ref → (s.inode i).valid = true → (s.inode i).d.type = 0 →
    ∃ p r, s.lock i = some (p, r) ∧ (s.pc p = .clearUpdate r ∨ s.pc p = .invalidate r)
  alloc : ∀ p q dev type type' inum r r', s.pc p = .iallocGet dev type inum r →
    s.pc q = .iallocGet dev type' inum r' → p = q
  good : ∀ p, Good s p (s.pc p)

end

section

variable {π ρ : Type} {s s' : State π ρ} {q : π}

/-- What the other processes leave to `q`. -/
structure Keeps (s s' : State π ρ) (q : π) : Prop where
  refs : ∀ r, (s.pc q).place = some r → s'.refs r = s.refs r
  lock : ∀ i r, s.lock i = some (q, r) → s'.lock i = some (q, r) ∧
    (s'.inode i).valid = (s.inode i).valid ∧ (s'.inode i).d = (s.inode i).d
  frees : ∀ i r, (s.pc q).frees = some r → Frees s q r i →
    (s'.inode i).ref = 1 ∧ (s'.dinode i).type ≠ 0
  alloc : ∀ dev type inum r, s.pc q = .iallocGet dev type inum r →
    s'.disk dev inum = s.disk dev inum ∧ Unclaimed s' dev inum

theorem Good.keep (h : Good s q (s.pc q)) (hk : Keeps s s' q) : Good s' q (s.pc q) := by
  have hlocks : ∀ {r i}, (s.pc q).place = some r → Locks s q r i → Locks s' q r i :=
    fun hr hl => ⟨(hk.refs _ hr).trans hl.refs, (hk.lock _ _ hl.lock).1⟩
  have hfrees : ∀ {r i}, (s.pc q).frees = some r → Frees s q r i → Frees s' q r i := by
    intro r i hr hf
    obtain ⟨-, hvalid, hd⟩ := hk.lock i r hf.lock
    obtain ⟨href, htype⟩ := hk.frees i r hr hf
    have hplace := Pc.place_of_sole (Pc.sole_of_frees hr)
    exact ⟨hlocks hplace hf.toLocks, href, hvalid.trans hf.valid, by rw [hd, hf.nlink], htype⟩
  cases hpc : s.pc q with
  | idle => trivial
  | ialloc dev type inum r =>
    rw [hpc] at h
    exact ⟨(hk.refs r (by rw [hpc]; rfl)).trans h.1, h.2⟩
  | iallocGet dev type inum r =>
    rw [hpc] at h
    obtain ⟨hdisk, hun⟩ := hk.alloc dev type inum r hpc
    exact ⟨(hk.refs r (by rw [hpc]; rfl)).trans h.1, h.2.1, hdisk.trans h.2.2.1, hun⟩
  | ilock r | ilockWait r | iput r | drop r =>
    rw [hpc] at h
    obtain ⟨i, hi⟩ := h
    exact ⟨i, (hk.refs r (by rw [hpc]; rfl)).trans hi⟩
  | ilockRead r =>
    rw [hpc] at h
    obtain ⟨i, hl⟩ := h
    exact ⟨i, hlocks (by rw [hpc]; rfl) hl⟩
  | itrunc r | itruncUpdate r | clear r | clearUpdate r =>
    rw [hpc] at h
    obtain ⟨i, hf⟩ := h
    exact ⟨i, hfrees (by rw [hpc]; rfl) hf⟩
  | invalidate r =>
    rw [hpc] at h
    obtain ⟨i, hl, hvalid, hnlink⟩ := h
    obtain ⟨-, hvalid', hd⟩ := hk.lock i r hl.lock
    exact ⟨i, hlocks (by rw [hpc]; rfl) hl, hvalid'.trans hvalid, by rw [hd, hnlink]⟩
  | unlock r =>
    rw [hpc] at h
    obtain ⟨i, hl, hvalid⟩ := h
    exact ⟨i, hlocks (by rw [hpc]; rfl) hl, (hk.lock i r hl.lock).2.1.trans hvalid⟩

end

section

variable {π ρ : Type} [Fintype ρ] {s : State π ρ} {p q : π} {r : ρ} {i j : Ip}

theorem Inv.ref_pos (h : Inv s) (hr : s.refs r = some i) : 0 < (s.inode i).ref := by
  rw [h.count]
  exact count_own_pos.mpr ⟨r, mem_univ r, hr⟩

theorem Inv.exists_ref (h : Inv s) (hi : 0 < (s.inode i).ref) : ∃ r, s.refs r = some i := by
  rw [h.count] at hi
  obtain ⟨r, -, hr⟩ := count_own_pos.mp hi
  exact ⟨r, hr⟩

theorem Inv.only_ref [DecidableEq ρ] {r' : ρ} (h : Inv s) (hi : (s.inode i).ref = 1)
    (hr : s.refs r = some i) (hr' : s.refs r' = some i) : r' = r := by
  rw [h.count] at hi
  exact eq_of_count_own hi (mem_univ _) (mem_univ _) hr' hr

theorem Inv.same_entry {r' : ρ} (h : Inv s) (hr : s.refs r = some i) (hr' : s.refs r' = some j)
    (hdev : (s.inode i).dev = (s.inode j).dev) (hinum : (s.inode i).inum = (s.inode j).inum) :
    i = j :=
  h.unique i j (h.ref_pos hr) (h.ref_pos hr') hdev hinum

end

end Xv6.Itable
