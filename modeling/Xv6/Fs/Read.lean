import Xv6.Fs.Blocks
import Xv6.Fs.Slots

/-! Reading: on an inode without holes `bmap` only looks up the address of a block, and `readi`
returns the bytes of the file and changes nothing. -/

namespace Xv6.Block

theorem length_bytes (b : Block) (off m : Nat) : (b.bytes off m).length = m := by simp [bytes]

theorem getElem_bytes (b : Block) {off m i : Nat} (h : i < (b.bytes off m).length) :
    (b.bytes off m)[i] = b.byte (off + i) := by simp [bytes]

theorem byte_setBytes (b : Block) {off : Nat} {bs : List UInt8} (h : off + bs.length ≤ BSIZE)
    (i : Nat) : (b.setBytes off bs).byte i =
      if off ≤ i ∧ i < off + bs.length then bs.getD (i - off) 0 else b.byte i := by
  unfold setBytes
  rw [byte_ofBytes]
  by_cases hi : i < BSIZE
  · rw [if_pos hi]
  · rw [if_neg hi, if_neg (by omega), byte, dif_neg hi]

end Xv6.Block

namespace Xv6.Fs

open Function List Dinode

variable {E : String → Prop} {sb : Superblock} {s : State} {ip : Ip} {d : Dinode} {bn off n : Nat}

/-- `bmap` of a block that is there looks its address up. -/
theorem bmap_there (hd : (s.itable ip).d = d) (hbn : bn < MAXFILE)
    (ha : d.addr s.disk bn ≠ 0) :
    wp E (bmap sb ip bn) s fun a s' => s' = s ∧ a = d.addr s.disk bn := by
  have hload : ∀ k, d.addrs k ≠ 0 →
      wp E (loadAddr sb ip k) s fun a s' => s' = s ∧ a = d.addrs k := by
    intro k hk
    simp only [loadAddr, wp_bind, wp_getInode, hd, if_neg hk]
    exact ⟨rfl, rfl⟩
  unfold bmap
  by_cases hlt : bn < NDIRECT
  · rw [addr_direct hlt] at ha ⊢
    rw [if_pos hlt]
    exact hload bn ha
  have hind : d.addrs NDIRECT ≠ 0 := by
    intro h0
    refine ha (slot_none ?_ (.inl h0))
    rw [slotOf, if_neg hlt]
    omega
  rw [addr_indirect hind (by omega) hbn] at ha ⊢
  rw [if_neg hlt, if_pos (by simp only [MAXFILE] at hbn; omega)]
  refine (hload NDIRECT hind).bind ?_
  rintro a s' ⟨hs, haddr⟩
  subst hs haddr
  rw [if_neg hind]
  simp only [wp_bind, wp_bread, if_neg ha]
  exact ⟨rfl, rfl⟩

theorem bytes_block (d : Dinode) (disk : Disk) {m : Nat} (hm : off % BSIZE + m ≤ BSIZE)
    (hsize : off + m ≤ d.size) :
    (disk (d.addr disk (off / BSIZE))).bytes (off % BSIZE) m =
      ((d.content disk).drop off).take m := by
  apply ext_getElem
  · rw [Block.length_bytes, length_take, length_drop, length_content]
    omega
  intro j hj _
  rw [Block.length_bytes] at hj
  rw [Block.getElem_bytes, getElem_take, getElem_drop]
  simp only [content, getElem_map, getElem_range, byte]
  have hblock : (off + j) / BSIZE = off / BSIZE := by
    simp only [BSIZE] at *
    omega
  have hoff : (off + j) % BSIZE = off % BSIZE + j := by
    simp only [BSIZE] at *
    omega
  rw [hblock, hoff]

theorem readiLoop_spec {room : Nat} {out : List UInt8} (hd : (s.itable ip).d = d)
    (hthere : d.There s.disk (off + n)) (hsize : off + n ≤ d.size)
    (hroom : out.length + n ≤ room) :
    wp E (readiLoop sb ip room off n out) s fun r s' => s' = s ∧
      r = (((out.length + n : Nat) : Int), out ++ ((d.content s.disk).drop off).take n) := by
  induction n using Nat.strong_induction_on generalizing off out with
  | _ n ih =>
    unfold readiLoop
    by_cases hn : n = 0
    · subst hn
      rw [dif_pos rfl]
      exact ⟨rfl, by simp⟩
    have hmod : off % BSIZE < BSIZE := Nat.mod_lt _ (by decide)
    have hblock : off / BSIZE < blocks (off + n) := lt_blocks (by omega)
    have haddr := hthere.addr _ hblock
    rw [dif_neg hn]
    refine (bmap_there hd ?_ haddr).bind fun a s' ⟨hs, ha⟩ => ?_
    · have := blocks_le hthere.le
      omega
    subst hs ha
    rw [if_neg haddr]
    simp only [wp_bind, wp_bread]
    -- the bytes up to the end of the block, then the rest
    generalize hm : min n (BSIZE - off % BSIZE) = m
    have hbytes := bytes_block d s'.disk (show off % BSIZE + m ≤ BSIZE by omega) (by omega)
    rw [if_neg (by omega), hbytes]
    refine (ih (n - m) (by omega) (hthere.mono (by omega)) (by omega) ?_).mono
      fun r t ⟨ht, hr⟩ => ⟨ht, ?_⟩
    · rw [length_append, length_take, length_drop, length_content]
      omega
    · rw [hr, length_append, length_take, length_drop, length_content,
        append_assoc]
      congr 2
      · omega
      · rw [← drop_drop, ← take_add, Nat.add_sub_cancel' (by omega)]

/-- `readi` returns the bytes of the file from `off` on. -/
theorem readi_spec {room : Nat} (hd : (s.itable ip).d = d)
    (hthere : d.There s.disk (min (off + n) d.size)) (hn : off + n < 2 ^ 32)
    (hroom : min n (d.size - off) ≤ room) :
    wp E (readi sb ip room off n) s fun r s' => s' = s ∧
      r = (((min n (d.size - off) : Nat) : Int), ((d.content s.disk).drop off).take n) := by
  have hlen : (d.content s.disk).length = d.size := length_content
  simp only [readi, wp_bind, wp_getInode, hd, Nat.mod_eq_of_lt hn]
  by_cases hgt : off > d.size
  · rw [if_pos (.inl hgt), drop_of_length_le (by omega), take_nil,
      show min n (d.size - off) = 0 by omega]
    exact ⟨rfl, rfl⟩
  rw [if_neg (by omega)]
  split_ifs
  · refine (readiLoop_spec hd (hthere.mono (by omega)) (by omega) (by simp; omega)).mono
      fun r t ⟨ht, hr⟩ => ⟨ht, ?_⟩
    have htake : ∀ m, d.size - off ≤ m →
        ((d.content s.disk).drop off).take m = (d.content s.disk).drop off := fun m hm =>
      take_of_length_le (by rw [length_drop, hlen]; exact hm)
    rw [hr, htake _ le_rfl, htake _ (by omega), length_nil, nil_append]
    congr 2
    omega
  · refine (readiLoop_spec hd (hthere.mono (by omega)) (by omega) (by simp; omega)).mono
      fun r t ⟨ht, hr⟩ => ⟨ht, ?_⟩
    rw [hr, length_nil, nil_append]
    congr 2
    omega

end Xv6.Fs
