import Xv6.Block

/-! The layout of the disk in `fs.h`: the super block, the blocks of inodes, the free map and the
data blocks, and what a store in one of them does to the others. -/

namespace Xv6.Fs

open Function

abbrev NDIRECT : Nat := 12

abbrev NINDIRECT : Nat := BSIZE / 4

abbrev MAXFILE : Nat := NDIRECT + NINDIRECT

abbrev IPB : Nat := BSIZE / 64

abbrev BPB : Nat := BSIZE * 8

/-- The super block of an image whose parts do not overlap and whose block and inode numbers fit
the fields that hold them: `int b` in `balloc`, `ushort inum` in a directory entry. -/
structure Superblock where
  size : Nat
  nblocks : Nat
  ninodes : Nat
  inodestart : Nat
  bmapstart : Nat
  inodes_lt : (ninodes - 1) / IPB + inodestart < bmapstart
  bmap_lt : (size - 1) / BPB + bmapstart < size - nblocks
  size_lt : size < 2 ^ 31
  root_lt : 1 < ninodes
  ninodes_le : ninodes ≤ 2 ^ 16

namespace Superblock

variable (sb : Superblock)

def nmeta : Nat := sb.size - sb.nblocks

def iblock (i : Nat) : Nat := i / IPB + sb.inodestart

/-- The block of the free map that holds the bit of block `b`. -/
def bblock (b : Nat) : Nat := b / BPB + sb.bmapstart

theorem nmeta_le : sb.nmeta ≤ sb.size := Nat.sub_le _ _

theorem nmeta_pos : 0 < sb.nmeta := Nat.lt_of_le_of_lt (Nat.zero_le _) sb.bmap_lt

variable {sb}

theorem iblock_lt {i : Nat} (hi : i < sb.ninodes) : sb.iblock i < sb.bmapstart := by
  have h := sb.inodes_lt
  have : i / IPB ≤ (sb.ninodes - 1) / IPB := Nat.div_le_div_right (by omega)
  unfold iblock
  omega

theorem iblock_ne_bblock {i : Nat} (hi : i < sb.ninodes) (b : Nat) :
    sb.iblock i ≠ sb.bblock b := by
  have := iblock_lt hi
  have : sb.bmapstart ≤ sb.bblock b := Nat.le_add_left _ _
  omega

theorem bblock_lt {b : Nat} (hb : b < sb.size) : sb.bblock b < sb.nmeta := by
  have h := sb.bmap_lt
  have : b / BPB ≤ (sb.size - 1) / BPB := Nat.div_le_div_right (by omega)
  unfold bblock nmeta
  omega

theorem iblock_lt_nmeta {i : Nat} (hi : i < sb.ninodes) : sb.iblock i < sb.nmeta := by
  have := iblock_lt hi
  have : sb.bmapstart ≤ (sb.size - 1) / BPB + sb.bmapstart := Nat.le_add_left _ _
  have : (sb.size - 1) / BPB + sb.bmapstart < sb.nmeta := sb.bmap_lt
  omega

end Superblock

abbrev Disk := Nat → Block

/-- The fields of an inode that are on the disk. -/
structure Dinode where
  type : Nat
  major : Nat
  minor : Nat
  nlink : Nat
  size : Nat
  addrs : Nat → Nat

namespace Dinode

def zero : Dinode := ⟨0, 0, 0, 0, 0, fun _ => 0⟩

/-- The fields hold no more than their types on the disk can. -/
structure Fits (d : Dinode) : Prop where
  type : d.type < 2 ^ 16
  major : d.major < 2 ^ 16
  minor : d.minor < 2 ^ 16
  nlink : d.nlink < 2 ^ 16
  size : d.size < 2 ^ 32
  addrs : ∀ k, d.addrs k < 2 ^ 32
  rest : ∀ k, NDIRECT < k → d.addrs k = 0

end Dinode

end Xv6.Fs

namespace Xv6.Block

open Fs

def dinode (b : Block) (off : Nat) : Dinode where
  type := b.num off 2
  major := b.num (off + 2) 2
  minor := b.num (off + 4) 2
  nlink := b.num (off + 6) 2
  size := b.num (off + 8) 4
  addrs := fun k => if k ≤ NDIRECT then b.num (off + 12 + 4 * k) 4 else 0

/-- Store the first `n` of the addresses at byte `off`. -/
def setAddrs (b : Block) (off : Nat) (addrs : Nat → Nat) : Nat → Block
  | 0 => b
  | n + 1 => (setAddrs b off addrs n).setNum (off + 4 * n) 4 (addrs n)

def setDinode (b : Block) (off : Nat) (d : Dinode) : Block :=
  (((((b.setNum off 2 d.type).setNum (off + 2) 2 d.major).setNum (off + 4) 2 d.minor).setNum
    (off + 6) 2 d.nlink).setNum (off + 8) 4 d.size).setAddrs (off + 12) d.addrs (NDIRECT + 1)

theorem dinode_fits (b : Block) (off : Nat) : (b.dinode off).Fits where
  type := b.num_lt _ 2
  major := b.num_lt _ 2
  minor := b.num_lt _ 2
  nlink := b.num_lt _ 2
  size := b.num_lt _ 4
  addrs k := by
    dsimp only [dinode]
    split
    · exact b.num_lt _ 4
    · omega
  rest k hk := if_neg (by omega)

theorem num_setAddrs_ne (b : Block) {off : Nat} (addrs : Nat → Nat) {n off' w : Nat}
    (h : off' + w ≤ off ∨ off + 4 * n ≤ off') :
    (b.setAddrs off addrs n).num off' w = b.num off' w := by
  induction n with
  | zero => rfl
  | succ n ih => rw [setAddrs, num_setNum_ne _ _ (by omega), ih (by omega)]

theorem num_setAddrs (b : Block) {off : Nat} (addrs : Nat → Nat) {n k : Nat}
    (hoff : off + 4 * n ≤ BSIZE) (hk : k < n) :
    (b.setAddrs off addrs n).num (off + 4 * k) 4 = addrs k % 256 ^ 4 := by
  induction n with
  | zero => omega
  | succ n ih =>
    rw [setAddrs]
    rcases eq_or_ne k n with rfl | hkn
    · exact num_setNum_same _ _ (by omega)
    · rw [num_setNum_ne _ _ (by omega), ih (by omega) (by omega)]

theorem dinode_setDinode (b : Block) {off : Nat} {d : Dinode} (hoff : off + 64 ≤ BSIZE)
    (hd : d.Fits) : (b.setDinode off d).dinode off = d := by
  have hmod : ∀ {v w : Nat}, v < 256 ^ w → v % 256 ^ w = v := Nat.mod_eq_of_lt
  unfold dinode setDinode
  simp only [NDIRECT]
  cases d with
  | mk type major minor nlink size addrs =>
    obtain ⟨htype, hmajor, hminor, hnlink, hsize, haddrs, hrest⟩ := hd
    simp only [Dinode.mk.injEq]
    refine ⟨?_, ?_, ?_, ?_, ?_, funext fun k => ?_⟩
    · rw [num_setAddrs_ne _ _ (by omega), num_setNum_ne _ _ (by omega),
        num_setNum_ne _ _ (by omega),
        num_setNum_ne _ _ (by omega), num_setNum_ne _ _ (by omega), num_setNum_same _ _ (by omega),
        hmod htype]
    · rw [num_setAddrs_ne _ _ (by omega), num_setNum_ne _ _ (by omega),
        num_setNum_ne _ _ (by omega),
        num_setNum_ne _ _ (by omega), num_setNum_same _ _ (by omega), hmod hmajor]
    · rw [num_setAddrs_ne _ _ (by omega), num_setNum_ne _ _ (by omega),
        num_setNum_ne _ _ (by omega), num_setNum_same _ _ (by omega), hmod hminor]
    · rw [num_setAddrs_ne _ _ (by omega), num_setNum_ne _ _ (by omega),
        num_setNum_same _ _ (by omega), hmod hnlink]
    · rw [num_setAddrs_ne _ _ (by omega), num_setNum_same _ _ (by omega), hmod hsize]
    · split
      · rw [num_setAddrs _ _ (by omega) (by omega), hmod (haddrs k)]
      · exact (hrest k (by simp only [NDIRECT]; omega)).symm

theorem dinode_setDinode_ne (b : Block) {off off' : Nat} (d : Dinode)
    (h : off' + 64 ≤ off ∨ off + 64 ≤ off') : (b.setDinode off d).dinode off' = b.dinode off' := by
  have hnum : ∀ o w, o + w ≤ off ∨ off + 64 ≤ o →
      (b.setDinode off d).num o w = b.num o w := by
    intro o w ho
    unfold setDinode
    rw [num_setAddrs_ne _ _ (by simp only [NDIRECT]; omega), num_setNum_ne _ _ (by omega),
      num_setNum_ne _ _ (by omega), num_setNum_ne _ _ (by omega), num_setNum_ne _ _ (by omega),
      num_setNum_ne _ _ (by omega)]
  unfold dinode
  rw [hnum _ _ (by omega), hnum _ _ (by omega), hnum _ _ (by omega), hnum _ _ (by omega),
    hnum _ _ (by omega)]
  refine congrArg (Dinode.mk _ _ _ _ _) (funext fun k => ?_)
  by_cases hk : k ≤ NDIRECT
  · rw [if_pos hk, if_pos hk]
    simp only [NDIRECT] at hk
    exact hnum _ _ (by omega)
  · rw [if_neg hk, if_neg hk]

end Xv6.Block

namespace Xv6.Fs

open Function

variable (sb : Superblock) (disk : Disk)

def bit (b : Nat) : Bool := ((disk (sb.bblock b)).byte (b % BPB / 8)).toNat.testBit (b % 8)

def dinodeAt (i : Nat) : Dinode := (disk (sb.iblock i)).dinode (64 * (i % IPB))

variable {sb disk}

theorem bit_update_ne {x b : Nat} (blk : Block) (h : sb.bblock b ≠ x) :
    bit sb (update disk x blk) b = bit sb disk b := by
  rw [bit, update_of_ne h, bit]

theorem dinodeAt_update_ne {x i : Nat} (blk : Block) (h : sb.iblock i ≠ x) :
    dinodeAt sb (update disk x blk) i = dinodeAt sb disk i := by
  rw [dinodeAt, update_of_ne h, dinodeAt]

theorem bit_store {b v : Nat} (hv : v < 256) (c : Nat) :
    bit sb (update disk (sb.bblock b) ((disk (sb.bblock b)).setNum (b % BPB / 8) 1 v)) c =
      if c / 8 = b / 8 then v.testBit (c % 8) else bit sb disk c := by
  simp only [bit, Superblock.bblock, BPB, BSIZE]
  by_cases hblock : c / 8192 = b / 8192
  · rw [hblock, update_self, Block.byte_setNum]
    by_cases hbyte : c / 8 = b / 8
    · rw [if_pos (by simp only [BSIZE]; omega), if_pos hbyte, UInt8.toNat_ofNat',
        show c % 8192 / 8 - b % 8192 / 8 = 0 by omega, pow_zero, Nat.div_one, Nat.mod_eq_of_lt hv]
    · rw [if_neg (by omega), if_neg hbyte]
  · rw [update_of_ne (by omega), if_neg (by omega)]

theorem bit_set (sb : Superblock) (disk : Disk) (b : Nat) :
    bit sb (update disk (sb.bblock b) ((disk (sb.bblock b)).setNum (b % BPB / 8) 1
      (((disk (sb.bblock b)).byte (b % BPB / 8)).toNat ||| 1 <<< (b % 8)))) =
      update (bit sb disk) b true := by
  funext c
  have hm : 1 <<< (b % 8) < 2 ^ 8 := by
    rw [Nat.one_shiftLeft]
    exact Nat.pow_lt_pow_right (by decide) (by omega)
  rw [bit_store (Nat.or_lt_two_pow (UInt8.toNat_lt _) hm), Nat.testBit_or,
    Nat.one_shiftLeft, Nat.testBit_two_pow]
  rcases eq_or_ne c b with rfl | hcb
  · simp
  · rw [update_of_ne hcb]
    split
    · rename_i hbyte
      rw [decide_eq_false (by omega), Bool.or_false, bit, Superblock.bblock, Superblock.bblock,
        show c / BPB = b / BPB by simp only [BPB, BSIZE]; omega,
        show c % BPB / 8 = b % BPB / 8 by simp only [BPB, BSIZE]; omega]
    · rfl

theorem bit_clear (sb : Superblock) (disk : Disk) (b : Nat) :
    bit sb (update disk (sb.bblock b) ((disk (sb.bblock b)).setNum (b % BPB / 8) 1
      (((disk (sb.bblock b)).byte (b % BPB / 8)).toNat &&& (255 ^^^ 1 <<< (b % 8))))) =
      update (bit sb disk) b false := by
  funext c
  rw [bit_store (lt_of_le_of_lt Nat.and_le_left (UInt8.toNat_lt _)), Nat.testBit_and,
    Nat.testBit_xor, Nat.one_shiftLeft, Nat.testBit_two_pow,
    show 255 = 2 ^ 8 - 1 by rfl, Nat.testBit_two_pow_sub_one, decide_eq_true (by omega)]
  rcases eq_or_ne c b with rfl | hcb
  · simp
  · rw [update_of_ne hcb]
    split
    · rename_i hbyte
      rw [decide_eq_false (by omega), Bool.xor_false, Bool.and_true, bit, Superblock.bblock,
        Superblock.bblock, show c / BPB = b / BPB by simp only [BPB, BSIZE]; omega,
        show c % BPB / 8 = b % BPB / 8 by simp only [BPB, BSIZE]; omega]
    · rfl

theorem dinodeAt_store {d : Dinode} (hd : d.Fits) (i : Nat) :
    dinodeAt sb (update disk (sb.iblock i)
      ((disk (sb.iblock i)).setDinode (64 * (i % IPB)) d)) = update (dinodeAt sb disk) i d := by
  funext j
  rcases eq_or_ne j i with rfl | hji
  · rw [dinodeAt, update_self, update_self,
      Block.dinode_setDinode _ (by simp only [IPB, BSIZE]; omega) hd]
  · rw [update_of_ne hji]
    simp only [dinodeAt, Superblock.iblock, IPB, BSIZE, Nat.reduceDiv]
    by_cases hblock : j / 16 = i / 16
    · rw [hblock, update_self, Block.dinode_setDinode_ne _ _ (by omega)]
    · rw [update_of_ne (by omega)]

end Xv6.Fs
