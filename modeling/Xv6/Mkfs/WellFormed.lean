import Xv6.Mkfs.Build

/-! The image that `mkfs` leaves: when the kernel can rely on it. The size of the root directory is
rounded up to the end of a block after the last entry, so a directory whose entries end with a block
has a size that covers one block more than it has. -/

namespace Xv6.Mkfs

open Function Fs List
open Fs.Dinode (blocks slotOf)

def contents (files : List File) : Nat → List UInt8 := withFiles 2 files rootOnly

/-- What `main` leaves. -/
structure Made (files : List File) (s : State) : Prop where
  image : Image (inodes s.img) s.img s.freeblock (fun i => blocks (contents files i).length)
    (contents files)
  type : ∀ i, (inodes s.img i).type = withTypes 2 files.length rootType i
  size : ∀ i ≠ ROOTINO, (inodes s.img i).size = (contents files i).length
  root : (inodes s.img ROOTINO).size = ((contents files ROOTINO).length / BSIZE + 1) * BSIZE
  sup : s.img 1 = sbBlock
  bits : ∀ b < BPB, bit sb s.img b = decide (b < s.freeblock)

variable {E : String → Prop} {s : State} {t : Nat → Nat} {c : Nat → List UInt8}
  {files : List File}

theorem bblock_eq {b : Nat} (hb : b < BPB) : sb.bblock b = sb.bmapstart := by
  rw [Superblock.bblock, Nat.div_eq_of_lt hb, zero_add]

theorem bit_bitmap {img : Disk} {used : Nat} (hused : used ≤ BPB) {b : Nat} (hb : b < BPB) :
    bit sb (update img sb.bmapstart (bitmap used)) b = decide (b < used) := by
  induction used with
  | zero =>
    rw [bit, bblock_eq hb, update_self, bitmap, Block.byte_zero]
    simp
  | succ used ih =>
    have hset := congrFun (bit_set sb (update img sb.bmapstart (bitmap used)) used) b
    rw [bblock_eq (by omega), update_self, update_idem, Nat.mod_eq_of_lt (by omega)] at hset
    rw [bitmap, hset]
    rcases eq_or_ne b used with rfl | hne
    · simp
    · rw [update_of_ne hne, ih (by omega)]
      congr 1
      simp only [eq_iff_iff]
      omega

theorem fixRoot_spec (h : Holds s t c) :
    wp E fixRoot s fun _ s' => inodes s'.img = update (inodes s.img) ROOTINO
        { inodes s.img ROOTINO with size := ((c ROOTINO).length / BSIZE + 1) * BSIZE } ∧
      (∀ b, b ≠ sb.iblock ROOTINO → s'.img b = s.img b) ∧ s'.freeblock = s.freeblock := by
  unfold fixRoot
  refine (rinode_spec (by decide)).bind ?_
  rintro d s' ⟨hs, hd⟩
  subst hs hd
  rw [h.size]
  have hfits : ({ inodes s'.img ROOTINO with
      size := ((c ROOTINO).length / BSIZE + 1) * BSIZE } : Dinode).Fits :=
    { inodes_fits s'.img ROOTINO with
      size := by
        have hle := h.image.nb_le ROOTINO
        simp only [blocks, BSIZE, MAXFILE, NDIRECT, NINDIRECT] at hle ⊢
        omega }
  exact (winode_spec (by decide) hfits).mono fun _ s₁ h => ⟨h.1, h.2.1, h.2.2.1⟩

theorem main_spec (hn : files.length + 1 < NINODES)
    (hvalid : ∀ f ∈ files, (∀ msg, E msg) ∨ f.Valid) (hfit : Fit E (contents files)) :
    wp E (main files) blank fun _ s => Made files s := by
  unfold main
  refine (makeRoot_spec (hfit.mono (length_le_withFiles _))).bind fun _ s₁ ⟨h₁, hfi₁⟩ => ?_
  refine (addFiles_spec h₁ (by rw [hfi₁]; decide) (by omega) hvalid
    (by rwa [hfi₁])).bind fun _ s₂ ⟨h₂, _⟩ => ?_
  rw [hfi₁] at h₂
  change Holds s₂ _ (contents files) at h₂
  refine (fixRoot_spec h₂).bind fun _ s₃ ⟨hin, hother, hfb⟩ => ?_
  have hfree := h₂.image.hi
  rw [wp_bind, wp_get, balloc, if_neg (by simp only [BPB, BSIZE, FSSIZE] at *; omega), wp_wsect]
  have hmap : ∀ i < NINODES, sb.iblock i ≠ sb.bmapstart := fun i hi =>
    ne_of_lt (sb.iblock_lt hi)
  have hinodes : inodes (update s₃.img sb.bmapstart (bitmap s₃.freeblock)) = inodes s₃.img := by
    funext i
    unfold inodes
    split
    · rename_i hi
      exact dinodeAt_update_ne _ (hmap i hi)
    · rfl
  refine ⟨?_, fun i => ?_, fun i hi => ?_, ?_, ?_, fun b hb => bit_bitmap ?_ hb⟩
  · show Image (inodes (update s₃.img _ _)) (update s₃.img _ _) s₃.freeblock _ _
    rw [hinodes, hfb, hin]
    refine h₂.image.congr (fun i => ?_) fun b hb => ?_
    · rcases eq_or_ne i ROOTINO with rfl | hi
      · rw [update_self]
      · rw [update_of_ne hi]
    · have hlt : sb.iblock ROOTINO < nmeta := iblock_lt (by decide)
      have hlt' : sb.bmapstart < nmeta := by decide
      rw [update_of_ne (by omega), hother b (by omega)]
  · show (inodes (update s₃.img _ _) i).type = _
    rw [hinodes, hin]
    rcases eq_or_ne i ROOTINO with rfl | hi
    · rw [update_self]
      exact h₂.type _
    · rw [update_of_ne hi]
      exact h₂.type i
  · show (inodes (update s₃.img _ _) i).size = _
    rw [hinodes, hin, update_of_ne hi]
    exact h₂.size i
  · show (inodes (update s₃.img sb.bmapstart (bitmap s₃.freeblock)) ROOTINO).size = _
    rw [hinodes, hin, update_self]
  · show update s₃.img sb.bmapstart (bitmap s₃.freeblock) 1 = _
    rw [update_of_ne (by decide), hother 1 (one_ne_iblock _)]
    exact h₂.sup
  · simp only [BPB, BSIZE, FSSIZE] at *
    omega

theorem sbBlock_words : sbBlock.word 1 = FSSIZE ∧ sbBlock.word 2 = nblocks ∧
    sbBlock.word 3 = NINODES ∧ sbBlock.word 4 = nlog ∧ sbBlock.word 5 = 2 ∧
    sbBlock.word 6 = sb.inodestart ∧ sbBlock.word 7 = sb.bmapstart := by
  unfold sbBlock
  refine ⟨?_, ?_, ?_, ?_, ?_, ?_, Block.word_setWord_same _ (by decide) (by decide)⟩
  all_goals
    repeat rw [Block.word_setWord_ne _ _ (by decide)]
    exact Block.word_setWord_same _ (by decide) (by decide)

/-- A super block whose regions lie one after the other, the last before block `nmeta`: the log, the
blocks of the inodes and the free map. -/
structure Regions (b : Block) : Prop where
  log : 2 ≤ b.word 5
  inodes : b.word 5 + b.word 4 ≤ b.word 6
  map : ∀ i < b.word 3, i / IPB + b.word 6 < b.word 7
  data : ∀ k < b.word 1, k / BPB + b.word 7 < nmeta
  nmeta : b.word 1 - b.word 2 = nmeta

theorem regions_sbBlock : Regions sbBlock := by
  obtain ⟨h1, h2, h3, h4, h5, h6, h7⟩ := sbBlock_words
  refine ⟨by omega, ?_, fun i hi => ?_, fun k hk => ?_, ?_⟩
  · rw [h4, h5, h6]
    decide
  · rw [h6, h7]
    exact sb.iblock_lt (by rw [h3] at hi; exact hi)
  · rw [h7]
    exact sb.bblock_lt (by rw [h1] at hk; exact hk)
  · rw [h1, h2]
    decide

/-- What the kernel relies on. -/
structure WellFormed (files : List File) (s : State) : Prop where
  regions : Regions (s.img 1)
  full : ∀ i < NINODES, (dinodeAt sb s.img i).Full s.img
  range : ∀ p, slot (inodes s.img) s.img p ≠ 0 →
    nmeta ≤ slot (inodes s.img) s.img p ∧ slot (inodes s.img) s.img p < FSSIZE
  distinct : ∀ p q, slot (inodes s.img) s.img p ≠ 0 →
    slot (inodes s.img) s.img p = slot (inodes s.img) s.img q → p = q
  bits : ∀ b < FSSIZE, bit sb s.img b = true ↔ b < s.freeblock
  root : ∃ pad, (dinodeAt sb s.img ROOTINO).content s.img = dirent ROOTINO dot ++
    dirent ROOTINO dotdot ++ entries 2 files ++ replicate pad 0

theorem contents_root (files : List File) : contents files ROOTINO =
    dirent ROOTINO dot ++ dirent ROOTINO dotdot ++ entries 2 files := by
  rw [contents, withFiles_root (by decide), rootOnly, update_self]

theorem length_contents_root (files : List File) :
    (contents files ROOTINO).length = 16 * (files.length + 2) := by
  rw [contents_root]
  simp only [length_append, length_dirent, length_entries]
  omega

/-- The root has a block for each part of its size unless its entries end with a block. -/
theorem blocks_root (h : (files.length + 2) % 64 ≠ 0) :
    blocks (((contents files ROOTINO).length / BSIZE + 1) * BSIZE) =
      blocks (contents files ROOTINO).length := by
  rw [length_contents_root]
  simp only [blocks, BSIZE]
  omega

namespace Made

theorem full (h : Made files s) (hroot : (files.length + 2) % 64 ≠ 0) (i : Nat) :
    (inodes s.img i).Full s.img := by
  have hblocks : blocks (inodes s.img i).size = blocks (contents files i).length := by
    rcases eq_or_ne i ROOTINO with rfl | hi
    · rw [h.root, blocks_root hroot]
    · rw [h.size i hi]
  refine ⟨?_, fun bn hbn => (h.image.addr i bn).mpr (by rwa [← hblocks])⟩
  have := h.image.nb_le i
  rw [← hblocks] at this
  exact le_trans (le_blocks_mul _) (Nat.mul_le_mul_right _ this)

/-- The contents of an inode whose size lies in its blocks: what was appended, then zeros. -/
theorem content_eq (h : Made files s) {i : Nat}
    (hlo : (contents files i).length ≤ (inodes s.img i).size)
    (hhi : blocks (inodes s.img i).size = blocks (contents files i).length) :
    (inodes s.img i).content s.img = contents files i ++
      replicate ((inodes s.img i).size - (contents files i).length) 0 := by
  apply ext_getElem
  · simp only [Dinode.length_content, length_append, length_replicate]
    omega
  intro j hj hj'
  rw [Dinode.length_content] at hj
  have hbyte := h.image.byte i j
    (by have := le_blocks_mul (inodes s.img i).size; rw [hhi] at this; omega)
  simp only [Dinode.content, getElem_map, getElem_range]
  rw [hbyte]
  by_cases hin : j < (contents files i).length
  · rw [getElem_append_left hin, getD_eq_getElem _ _ hin]
  · rw [getElem_append_right (by omega), getElem_replicate,
      getD_eq_default _ _ (by omega)]

end Made

theorem inodes_eq (img : Disk) {i : Nat} (hi : i < NINODES) : inodes img i = dinodeAt sb img i :=
  if_pos hi

theorem Made.wellFormed (h : Made files s) (hroot : (files.length + 2) % 64 ≠ 0) :
    WellFormed files s := by
  refine ⟨by rw [h.sup]; exact regions_sbBlock, fun i hi => ?_, h.image.tracks.range,
    h.image.tracks.unique, fun b hb => ?_, ?_⟩
  · rw [← inodes_eq s.img hi]
    exact h.full hroot i
  · rw [h.bits b (lt_trans hb (by decide)), decide_eq_true_iff]
  · rw [← inodes_eq s.img (by decide), ← contents_root]
    refine ⟨_, h.content_eq ?_ ?_⟩
    · rw [h.root]
      simp only [BSIZE]
      omega
    · rw [h.root, blocks_root hroot]

/-- The size of a root directory whose entries end with a block covers the block after them, which
it does not have. -/
theorem Made.missing (h : Made files s) (hroot : (files.length + 2) % 64 = 0) :
    (files.length + 2) / 64 < blocks (dinodeAt sb s.img ROOTINO).size ∧
      (dinodeAt sb s.img ROOTINO).addr s.img ((files.length + 2) / 64) = 0 := by
  have haddr := (h.image.addr ROOTINO ((files.length + 2) / 64)).not
  rw [← inodes_eq s.img (by decide), h.root, length_contents_root]
  rw [length_contents_root, not_not] at haddr
  simp only [blocks, BSIZE] at haddr ⊢
  exact ⟨by omega, haddr.mpr (by omega)⟩

/-- An image that `mkfs` makes is well formed exactly when the number of its files and the two
entries of the root directory is no multiple of the entries in a block. -/
theorem mkfs_wellFormed (hn : files.length + 1 < NINODES) (hrun : main files blank = .ok ((), s)) :
    WellFormed files s ↔ (files.length + 2) % 64 ≠ 0 := by
  have h : Made files s := (main_spec hn (fun _ _ => .inl fun _ => trivial)
    (.inl fun _ => trivial)).of_ok hrun
  refine ⟨fun hw hroot => ?_, h.wellFormed⟩
  obtain ⟨hlt, hzero⟩ := h.missing hroot
  exact (hw.full ROOTINO (by decide)).2 _ hlt hzero

theorem main_ok (hn : files.length + 1 < NINODES) (hvalid : ∀ f ∈ files, f.Valid)
    (hlen : ∀ i < NINODES, (contents files i).length ≤ MAXFILE * BSIZE)
    (hfit : nmeta + total (contents files) ≤ FSSIZE) :
    ∃ s, main files blank = .ok ((), s) ∧ Made files s := by
  have h := main_spec (E := fun _ => False) hn (fun f hf => .inr (hvalid f hf))
    (.inr ⟨hlen, hfit⟩)
  obtain ⟨_, s, hrun, hs⟩ := h.exists_ok fun _ => id
  exact ⟨s, hrun, hs⟩

def cat : File := ⟨[117, 115, 101, 114, 47, 95, 99, 97, 116], [[1, 2], [3]], by decide⟩

theorem mkfs_wellFormed_cat : ∃ s, main [cat] blank = .ok ((), s) ∧ WellFormed [cat] s := by
  obtain ⟨s, hrun, -⟩ := main_ok (show [cat].length + 1 < NINODES by decide) (by decide)
    (by decide +kernel) (by decide +kernel)
  exact ⟨s, hrun, (mkfs_wellFormed (by decide) hrun).mpr (by decide)⟩

theorem contents_empty (h : ∀ f ∈ files, f.chunks = []) {i : Nat} (hi : i ≠ ROOTINO) :
    contents files i = [] := by
  have hfiles : ∀ k c, withFiles k files c i = c i := by
    induction files with
    | nil => exact fun _ _ => rfl
    | cons f fs ih =>
      intro k c
      rw [withFiles, ih fun g hg => h g (mem_cons_of_mem _ hg)]
      simp only [withFile, h f mem_cons_self, flatten_nil, append_nil,
        update_eq_self, update_of_ne hi]
  rw [contents, hfiles, rootOnly, update_of_ne hi]

theorem total_empty (h : ∀ f ∈ files, f.chunks = []) :
    total (contents files) = cost (blocks (16 * (files.length + 2))) := by
  rw [← length_contents_root]
  refine Finset.sum_eq_single_of_mem ROOTINO (by decide) fun i _ hi => ?_
  rw [contents_empty h hi]
  decide

def fullBlock : List File :=
  (finRange 62).map fun k => ⟨[UInt8.ofNat (k.val + 128)], [], by decide +revert⟩

/-- The size of the root directory covers a block that it does not have. -/
theorem root_missing_block : (fullBlock.map File.shortname).Nodup ∧ ∃ s,
    main fullBlock blank = .ok ((), s) ∧ 1 < blocks (dinodeAt sb s.img ROOTINO).size ∧
      (dinodeAt sb s.img ROOTINO).addr s.img 1 = 0 := by
  refine ⟨by decide +kernel, ?_⟩
  have hempty : ∀ f ∈ fullBlock, f.chunks = [] := by simp [fullBlock]
  have hlen : (contents fullBlock ROOTINO).length = BSIZE := length_contents_root fullBlock
  have hmax : ∀ i < NINODES, (contents fullBlock i).length ≤ MAXFILE * BSIZE := by
    intro i _
    rcases eq_or_ne i ROOTINO with rfl | hi
    · rw [hlen]
      decide
    · rw [contents_empty hempty hi]
      exact Nat.zero_le _
  obtain ⟨s, hrun, hs⟩ := main_ok (show fullBlock.length + 1 < NINODES by decide)
    (by decide +kernel) hmax (by rw [total_empty hempty]; decide)
  exact ⟨s, hrun, hs.missing (by decide)⟩

end Xv6.Mkfs
