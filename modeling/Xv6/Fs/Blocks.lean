import Xv6.Fs.Inode
import Xv6.Lib.Alloc

/-! The block allocator: what `balloc` and `bfree` do to the free map, the inodes and the data
blocks, and the slots of the inodes that refer to blocks. -/

namespace Xv6.Fs

open Function

variable {E : String → Prop} {sb : Superblock} {s : State}

theorem wp_bread (b : Nat) {Q : Block → State → Prop} : wp E (bread b) s Q ↔ Q (s.disk b) s :=
  Iff.rfl

theorem wp_bmod (b : Nat) (f : Block → Block) {Q : Unit → State → Prop} :
    wp E (bmod b f) s Q ↔ Q () { s with disk := update s.disk b (f (s.disk b)) } :=
  Iff.rfl

theorem wp_getInode (ip : Ip) {Q : Inode → State → Prop} :
    wp E (getInode ip) s Q ↔ Q (s.itable ip) s :=
  Iff.rfl

theorem wp_modInode (ip : Ip) (f : Inode → Inode) {Q : Unit → State → Prop} :
    wp E (modInode ip f) s Q ↔
      Q () { s with itable := update s.itable ip (f (s.itable ip)) } :=
  Iff.rfl

/-- A free block has been marked and cleared. -/
structure Grab (sb : Superblock) (disk disk' : Disk) (b : Nat) : Prop where
  lt : b < sb.size
  free : bit sb disk b = false
  zero : disk' b = Block.zero
  data : ∀ x, sb.nmeta ≤ x → x ≠ b → disk' x = disk x
  bits : ∀ c < sb.size, bit sb disk' c = update (bit sb disk) b true c
  inodes : ∀ i < sb.ninodes, dinodeAt sb disk' i = dinodeAt sb disk i

/-- The mark of a block has been cleared. -/
structure Drop (sb : Superblock) (disk disk' : Disk) (b : Nat) : Prop where
  data : ∀ x, sb.nmeta ≤ x → disk' x = disk x
  bits : bit sb disk' = update (bit sb disk) b false
  inodes : ∀ i < sb.ninodes, dinodeAt sb disk' i = dinodeAt sb disk i

theorem bblock_add (sb : Superblock) (j : Nat) {bi : Nat} (h : bi < BPB) :
    sb.bblock (j * BPB + bi) = sb.bblock (j * BPB) := by
  simp only [Superblock.bblock, BPB, BSIZE] at *
  omega

theorem ballocBit_spec {j bi : Nat} (hbi : bi < BPB) (hlt : j * BPB + bi < sb.size)
    (hmeta : ∀ b < sb.nmeta, bit sb s.disk b = true) :
    wp E (ballocBit sb (j * BPB) bi) s fun r s' =>
      match r with
      | some b => s'.itable = s.itable ∧ Grab sb s.disk s'.disk b
      | none => s' = s ∧ bit sb s.disk (j * BPB + bi) = true := by
  have hblock := bblock_add sb j hbi
  have hmod : (j * BPB + bi) % BPB = bi := by
    simp only [BPB, BSIZE] at *
    omega
  have hbit8 : (j * BPB + bi) % 8 = bi % 8 := by
    simp only [BPB, BSIZE] at *
    omega
  have hset := bit_set sb s.disk (j * BPB + bi)
  have hbit : bit sb s.disk (j * BPB + bi) =
      ((s.disk (sb.bblock (j * BPB))).byte (bi / 8)).toNat.testBit (bi % 8) := by
    rw [bit, hblock, hmod, hbit8]
  rw [hblock, hmod, hbit8] at hset
  simp only [ballocBit, wp_bind, wp_bread]
  split
  · rename_i hfree
    rw [and_shift_eq_zero, ← hbit] at hfree
    have hdata : sb.nmeta ≤ j * BPB + bi := by
      by_contra hlo
      rw [hmeta _ (by omega)] at hfree
      cases hfree
    simp only [bzero, wp_bind, wp_bmod, wp_pure, true_and]
    have hne : ∀ c < sb.size, sb.bblock c ≠ j * BPB + bi := fun c hc => by
      have := Superblock.bblock_lt hc
      omega
    refine ⟨hlt, hfree, update_self .., fun x hx hxb => ?_, fun c hc => ?_, fun i hi => ?_⟩
    · rw [update_of_ne hxb, update_of_ne]
      have := Superblock.bblock_lt hlt
      omega
    · rw [bit_update_ne _ (hne c hc), hset]
    · have := Superblock.iblock_lt_nmeta hi
      rw [dinodeAt_update_ne _ (by omega), dinodeAt_update_ne _ (Superblock.iblock_ne_bblock hi _)]
  · rename_i hused
    rw [and_shift_eq_zero, ← hbit, Bool.not_eq_false] at hused
    exact ⟨rfl, hused⟩

theorem balloc_spec (hmeta : ∀ b < sb.nmeta, bit sb s.disk b = true) :
    wp E (balloc sb) s fun b s' => s'.itable = s.itable ∧
      (b ≠ 0 ∧ Grab sb s.disk s'.disk b ∨
        b = 0 ∧ s' = s ∧ ∀ c < sb.size, bit sb s.disk c = true) := by
  have hinner : ∀ j, wp E (Prog.search (ballocBit sb (j * BPB)) 0 (min BPB (sb.size - j * BPB)))
      s fun r s' =>
        match r with
        | some b => s'.itable = s.itable ∧ Grab sb s.disk s'.disk b
        | none => s' = s ∧ ∀ c < sb.size, c / BPB = j → bit sb s.disk c = true := by
    intro j
    refine (wp_search (Q := fun b t => t.itable = s.itable ∧ Grab sb s.disk t.disk b)
      (fun k t => t = s ∧ ∀ bi < k, bit sb s.disk (j * BPB + bi) = true)
      ⟨rfl, by omega⟩ fun bi t _ hbi ⟨ht, hbits⟩ => ?_).mono fun r t ht => ?_
    · subst ht
      refine (ballocBit_spec (by omega) (by omega) hmeta).mono fun r t' hr => ?_
      cases r with
      | some b => exact hr
      | none =>
        refine ⟨hr.1, fun k hk => ?_⟩
        rcases Nat.lt_succ_iff_lt_or_eq.mp hk with hk | rfl
        · exact hbits k hk
        · exact hr.2
    · cases r with
      | some b => exact ht
      | none =>
        refine ⟨ht.1, fun c hc hcj => ?_⟩
        simp only [BPB, BSIZE] at *
        have := ht.2 (c - j * 8192) (by omega)
        rwa [show j * 8192 + (c - j * 8192) = c by omega] at this
  refine ((wp_search (Q := fun b t => t.itable = s.itable ∧ Grab sb s.disk t.disk b)
    (fun k t => t = s ∧ ∀ c < sb.size, c / BPB < k → bit sb s.disk c = true)
    ⟨rfl, fun c _ h => absurd h (Nat.not_lt_zero _)⟩ fun j t _ _ ⟨ht, hbits⟩ => ?_)).bind
      fun r t hr => ?_
  · subst ht
    refine (hinner j).mono fun r t' hr => ?_
    cases r with
    | some b => exact hr
    | none =>
      refine ⟨hr.1, fun c hc hcj => ?_⟩
      rcases Nat.lt_succ_iff_lt_or_eq.mp hcj with hcj | hcj
      · exact hbits c hc hcj
      · exact hr.2 c hc hcj
  · rw [wp_pure]
    cases r with
    | some b =>
      refine ⟨hr.1, .inl ⟨?_, hr.2⟩⟩
      -- Block 0 is not a data block, so its bit is set and it is not handed out.
      rintro rfl
      have := hr.2.free
      rw [hmeta 0 sb.nmeta_pos] at this
      cases this
    | none =>
      obtain ⟨rfl, hbits⟩ := hr
      refine ⟨rfl, .inr ⟨rfl, rfl, fun c hc => hbits c hc ?_⟩⟩
      simp only [BPB, BSIZE]
      omega

theorem bfree_spec {b : Nat} (hb : b < sb.size) (hused : bit sb s.disk b = true) :
    wp E (bfree sb b) s fun _ s' => s'.itable = s.itable ∧ Drop sb s.disk s'.disk b := by
  have hclear := bit_clear sb s.disk b
  have hmod : b % BPB % 8 = b % 8 := by
    simp only [BPB, BSIZE]
    omega
  simp only [bfree, wp_bind, wp_bread, hmod]
  rw [if_neg (by rw [and_shift_eq_zero, Bool.not_eq_false]; exact hused)]
  refine ⟨rfl, fun x hx => update_of_ne ?_ _ _, hclear, fun i hi =>
    dinodeAt_update_ne _ (Superblock.iblock_ne_bblock hi b)⟩
  have := Superblock.bblock_lt hb
  omega

end Xv6.Fs
