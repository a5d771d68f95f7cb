import Xv6.Fs.Layout
import Xv6.Lib.Alloc

/-! The slots in which inodes refer to blocks: the addresses in the inode and the entries of its
indirect block, and what a store in one of them does to the others. -/

namespace Xv6.Fs

open Function

namespace Dinode

/-- Slot `k` of an inode: address `k` up to the one of the indirect block, then the entries of the
indirect block. -/
def slot (d : Dinode) (disk : Disk) (k : Nat) : Nat :=
  if k ≤ NDIRECT then d.addrs k
  else if d.addrs NDIRECT ≠ 0 ∧ k ≤ NDIRECT + NINDIRECT then
    (disk (d.addrs NDIRECT)).word (k - (NDIRECT + 1))
  else 0

def slotOf (bn : Nat) : Nat := if bn < NDIRECT then bn else bn + 1

def addr (d : Dinode) (disk : Disk) (bn : Nat) : Nat := d.slot disk (slotOf bn)

def blocks (n : Nat) : Nat := (n + BSIZE - 1) / BSIZE

/-- The first `m` bytes are in blocks that are there. -/
structure There (d : Dinode) (disk : Disk) (m : Nat) : Prop where
  le : m ≤ MAXFILE * BSIZE
  addr : ∀ bn < blocks m, d.addr disk bn ≠ 0

abbrev Full (d : Dinode) (disk : Disk) : Prop := d.There disk d.size

def byte (d : Dinode) (disk : Disk) (j : Nat) : UInt8 :=
  (disk (d.addr disk (j / BSIZE))).byte (j % BSIZE)

def content (d : Dinode) (disk : Disk) : List UInt8 := (List.range d.size).map (d.byte disk)

variable {d : Dinode} {disk disk' : Disk} {bn k b : Nat}

theorem slotOf_inj {bn' : Nat} (h : slotOf bn = slotOf bn') : bn = bn' := by
  unfold slotOf at h
  split at h <;> split at h <;> omega

theorem slotOf_ne (bn : Nat) : slotOf bn ≠ NDIRECT := by
  unfold slotOf
  split <;> omega

theorem slot_addrs (h : k ≤ NDIRECT) : d.slot disk k = d.addrs k := if_pos h

theorem slot_word {j : Nat} (hd : d.addrs NDIRECT ≠ 0) (hj : j < NINDIRECT) :
    d.slot disk (NDIRECT + 1 + j) = (disk (d.addrs NDIRECT)).word j := by
  rw [slot, if_neg (by omega), if_pos ⟨hd, by omega⟩, Nat.add_sub_cancel_left]

theorem slot_none (hk : NDIRECT < k) (hd : d.addrs NDIRECT = 0 ∨ NDIRECT + NINDIRECT < k) :
    d.slot disk k = 0 := by
  rw [slot, if_neg (by omega), if_neg (by omega)]

theorem addr_direct (h : bn < NDIRECT) : d.addr disk bn = d.addrs bn := by
  rw [addr, slotOf, if_pos h, slot_addrs (by omega)]

theorem addr_indirect (hd : d.addrs NDIRECT ≠ 0) (h : NDIRECT ≤ bn) (h' : bn < MAXFILE) :
    d.addr disk bn = (disk (d.addrs NDIRECT)).word (bn - NDIRECT) := by
  have hk : slotOf bn = NDIRECT + 1 + (bn - NDIRECT) := by
    rw [slotOf, if_neg (by omega)]
    omega
  have hj : bn - NDIRECT < NINDIRECT := by
    simp only [MAXFILE] at h'
    omega
  rw [addr, hk, slot_word hd hj]

theorem slot_congr (h : d.addrs NDIRECT ≠ 0 → disk' (d.addrs NDIRECT) = disk (d.addrs NDIRECT))
    (k : Nat) : d.slot disk' k = d.slot disk k := by
  unfold slot
  by_cases hd : d.addrs NDIRECT ≠ 0
  · rw [h hd]
  · simp [hd]

/-- A store in an address of the inode. The indirect block that it may bring in is empty. -/
theorem slot_setAddr (hk : k ≤ NDIRECT)
    (hnew : k = NDIRECT → d.addrs NDIRECT = 0 ∧ disk b = Block.zero) :
    ({ d with addrs := update d.addrs k b } : Dinode).slot disk = update (d.slot disk) k b := by
  funext m
  rcases eq_or_ne m k with rfl | hm
  · rw [update_self, slot_addrs hk]
    exact update_self ..
  rw [update_of_ne hm]
  by_cases hle : m ≤ NDIRECT
  · rw [slot_addrs hle, slot_addrs hle]
    exact update_of_ne hm _ _
  by_cases hk' : k = NDIRECT
  · subst hk'
    obtain ⟨hzero, hblank⟩ := hnew rfl
    rw [slot_none (by omega) (.inl hzero), slot, if_neg hle]
    simp [hblank, Block.word_zero, ite_self]
  · simp [slot, if_neg hle, update_of_ne (Ne.symm hk')]

theorem slot_setWord {j : Nat} (hd : d.addrs NDIRECT ≠ 0) (hj : j < NINDIRECT) (hb : b < 2 ^ 32) :
    d.slot (update disk (d.addrs NDIRECT) ((disk (d.addrs NDIRECT)).setWord j b)) =
      update (d.slot disk) (NDIRECT + 1 + j) b := by
  funext m
  by_cases hle : m ≤ NDIRECT
  · rw [update_of_ne (by omega), slot_addrs hle, slot_addrs hle]
  by_cases hm : m ≤ NDIRECT + NINDIRECT
  · obtain ⟨i, rfl⟩ : ∃ i, m = NDIRECT + 1 + i := ⟨m - (NDIRECT + 1), by omega⟩
    have hi : i < NINDIRECT := by omega
    rw [slot_word hd hi, update_self]
    rcases eq_or_ne i j with rfl | hij
    · rw [update_self, Block.word_setWord_same _ hj hb]
    · rw [update_of_ne (by omega), Block.word_setWord_ne _ _ hij, slot_word hd hi]
  · rw [update_of_ne (by omega), slot_none (by omega) (by omega), slot_none (by omega) (by omega)]

@[simp] theorem length_content : (d.content disk).length = d.size := by simp [content]

theorem content_congr {d' : Dinode} (hsize : d'.size = d.size)
    (h : ∀ j < d.size, d'.byte disk' j = d.byte disk j) : d'.content disk' = d.content disk := by
  unfold content
  rw [hsize]
  exact List.map_congr_left fun j hj => h j (List.mem_range.mp hj)

theorem lt_blocks {n j : Nat} (h : j < n) : j / BSIZE < blocks n := by
  simp only [blocks, BSIZE]
  omega

theorem lt_blocks_iff {n bn : Nat} : bn < blocks n ↔ bn * BSIZE < n := by
  simp only [blocks, BSIZE]
  omega

theorem blocks_mono {m n : Nat} (h : m ≤ n) : blocks m ≤ blocks n := by
  simp only [blocks, BSIZE]
  omega

theorem There.mono {m n : Nat} (h : d.There disk n) (hle : m ≤ n) : d.There disk m :=
  ⟨le_trans hle h.le, fun bn hbn => h.addr bn (lt_of_lt_of_le hbn (blocks_mono hle))⟩

theorem blocks_le {n : Nat} (h : n ≤ MAXFILE * BSIZE) : blocks n ≤ MAXFILE := by
  simp only [blocks, BSIZE, MAXFILE, NDIRECT, NINDIRECT] at *
  omega

end Dinode

def slot (D : Nat → Dinode) (disk : Disk) (p : Nat × Nat) : Nat := (D p.1).slot disk p.2

variable {D : Nat → Dinode} {disk disk' : Disk} {i k b lo n : Nat} {used : Nat → Bool}

theorem slot_update {d : Dinode} (h : d.slot disk = update ((D i).slot disk) k b) :
    slot (update D i d) disk = update (slot D disk) (i, k) b := by
  funext ⟨j, m⟩
  show (update D i d j).slot disk m = _
  rcases eq_or_ne j i with rfl | hj
  · rw [update_self, h]
    rcases eq_or_ne m k with rfl | hm
    · rw [update_self, update_self]
    · rw [update_of_ne hm, update_of_ne (by simp [hm])]
      rfl
  · rw [update_of_ne hj, update_of_ne (by simp [hj])]
    rfl

theorem slot_congr (h : ∀ i, (D i).addrs NDIRECT ≠ 0 →
    disk' ((D i).addrs NDIRECT) = disk ((D i).addrs NDIRECT)) : slot D disk' = slot D disk :=
  funext fun p => Dinode.slot_congr (h p.1) p.2

namespace Track

theorem indirect_ne (h : Tracks lo n used (slot D disk)) {j : Nat} (hji : j ≠ i)
    (hd : (D j).addrs NDIRECT ≠ 0) : (D j).addrs NDIRECT ≠ (D i).addrs NDIRECT := by
  have hslot : ∀ i, slot D disk (i, NDIRECT) = (D i).addrs NDIRECT := fun i =>
    Dinode.slot_addrs le_rfl
  intro he
  have := h.unique (j, NDIRECT) (i, NDIRECT) (by rwa [hslot]) (by rw [hslot, hslot, he])
  exact hji (congrArg Prod.fst this)

theorem ne_indirect (h : Tracks lo n used (slot D disk)) {p : Nat × Nat} (hp : p.2 ≠ NDIRECT)
    (j : Nat) (hd : (D j).addrs NDIRECT ≠ 0) : (D j).addrs NDIRECT ≠ slot D disk p := by
  have hslot : slot D disk (j, NDIRECT) = (D j).addrs NDIRECT := Dinode.slot_addrs le_rfl
  intro he
  have := h.unique (j, NDIRECT) p (by rwa [hslot]) (by rw [hslot, he])
  exact hp (congrArg Prod.snd this).symm

theorem slot_setWord (h : Tracks lo n used (slot D disk)) {j : Nat}
    (hd : (D i).addrs NDIRECT ≠ 0) (hj : j < NINDIRECT) (hb : b < 2 ^ 32) :
    slot D (update disk ((D i).addrs NDIRECT) ((disk ((D i).addrs NDIRECT)).setWord j b)) =
      update (slot D disk) (i, NDIRECT + 1 + j) b := by
  funext ⟨m, k⟩
  show (D m).slot _ k = _
  rcases eq_or_ne m i with rfl | hm
  · rw [Dinode.slot_setWord hd hj hb]
    rcases eq_or_ne k (NDIRECT + 1 + j) with rfl | hk
    · rw [update_self, update_self]
    · rw [update_of_ne hk, update_of_ne (by simp [hk])]
      rfl
  · rw [update_of_ne (by simp [hm])]
    exact Dinode.slot_congr (fun hne => update_of_ne (indirect_ne h hm hne) _ _) k

end Track

end Xv6.Fs
