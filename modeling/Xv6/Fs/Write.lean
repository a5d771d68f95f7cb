import Xv6.Fs.Grow
import Xv6.Fs.Read

/-! What `writei` does to a file: the bytes that it stores, and that everything else in the file and
in all other files stays. -/

namespace Xv6.Fs

open Function List Dinode

namespace Dinode

def reshape (d : Dinode) (addrs : Nat → Nat) (size : Nat) : Dinode := { d with addrs, size }

theorem byte_congr {d d' : Dinode} {disk disk' : Disk} {x : Nat}
    (ha : d'.addr disk' (x / BSIZE) = d.addr disk (x / BSIZE))
    (hb : disk' (d.addr disk (x / BSIZE)) = disk (d.addr disk (x / BSIZE))) :
    d'.byte disk' x = d.byte disk x := by rw [byte, ha, hb, byte]

end Dinode

/-- The bytes `src` have been stored at `off` in file `i`, which may have got blocks for them; all
its other bytes and all other files are as they were. -/
structure Stored (sb : Superblock) (i : Nat) (D : Nat → Dinode) (disk : Disk) (D' : Nat → Dinode)
    (disk' : Disk) (off : Nat) (src : List UInt8) : Prop where
  owned : Owned sb D' disk'
  same : ∀ m ≠ i, D' m = D m
  fields : ∃ addrs size, D' i = (D i).reshape addrs size ∧ ∀ k, NDIRECT < k →
    addrs k = (D i).addrs k
  keep : ∀ p, slot D disk p ≠ 0 → slot D' disk' p = slot D disk p
  others : ∀ p, p.1 ≠ i → slot D' disk' p = slot D disk p
  there : ∀ j < src.length, (D' i).addr disk' ((off + j) / BSIZE) ≠ 0
  inside : ∀ j c, src[j]? = some c → (D' i).byte disk' (off + j) = c
  outside : ∀ x, x < off ∨ off + src.length ≤ x → (D i).addr disk (x / BSIZE) ≠ 0 →
    (D' i).byte disk' x = (D i).byte disk x
  files : ∀ m ≠ i, ∀ x, (D m).addr disk (x / BSIZE) ≠ 0 → (D m).byte disk' x = (D m).byte disk x

section stored

variable {sb : Superblock} {i off : Nat} {D D' D'' : Nat → Dinode} {disk disk' disk'' : Disk}
  {src src' : List UInt8}

theorem addr_eq_slot (D : Nat → Dinode) (disk : Disk) (m bn : Nat) :
    (D m).addr disk bn = slot D disk (m, slotOf bn) := rfl

theorem Stored.addr_keep (h : Stored sb i D disk D' disk' off src) {m bn : Nat}
    (ha : (D m).addr disk bn ≠ 0) : (D' m).addr disk' bn = (D m).addr disk bn :=
  h.keep (m, slotOf bn) ha

theorem Grown.stored (h : Grown sb i D disk D' disk') : Stored sb i D disk D' disk' off [] := by
  refine ⟨h.owned, h.same, ?_, h.keep, h.others, nofun, nofun, fun x _ ha => ?_,
    fun m hm x ha => ?_⟩
  · obtain ⟨addrs, hd, hk⟩ := h.fields
    exact ⟨addrs, (D i).size, hd, hk⟩
  · exact byte_congr (h.addr_keep ha).1 (h.addr_keep ha).2
  · have hkeep := (h.addr_keep ha).1
    rw [h.same m hm] at hkeep
    exact byte_congr hkeep (h.addr_keep ha).2

theorem Stored.trans (h : Stored sb i D disk D' disk' off src)
    (h' : Stored sb i D' disk' D'' disk'' (off + src.length) src') :
    Stored sb i D disk D'' disk'' off (src ++ src') := by
  refine ⟨h'.owned, fun m hm => (h'.same m hm).trans (h.same m hm), ?_, fun p hp => ?_,
    fun p hp => (h'.others p hp).trans (h.others p hp), fun j hj => ?_, fun j c hc => ?_,
    fun x hx ha => ?_, fun m hm x ha => ?_⟩
  · obtain ⟨addrs, size, hd, hk⟩ := h.fields
    obtain ⟨addrs', size', hd', hk'⟩ := h'.fields
    refine ⟨addrs', size', ?_, fun k hlt => ?_⟩
    · rw [hd', hd]
      rfl
    · rw [hk' k hlt, hd]
      exact hk k hlt
  · rw [h'.keep p (by rwa [h.keep p hp]), h.keep p hp]
  · by_cases hlt : j < src.length
    · rw [h'.addr_keep (h.there j hlt)]
      exact h.there j hlt
    · have := h'.there (j - src.length) (by rw [length_append] at hj; omega)
      rwa [show off + src.length + (j - src.length) = off + j by omega] at this
  · by_cases hlt : j < src.length
    · rw [List.getElem?_append_left hlt] at hc
      rw [h'.outside _ (.inl (by omega)) (h.there j hlt)]
      exact h.inside j c hc
    · rw [List.getElem?_append_right (by omega)] at hc
      have := h'.inside (j - src.length) c hc
      rwa [show off + src.length + (j - src.length) = off + j by omega] at this
  · rw [length_append] at hx
    rw [h'.outside x (by omega) (by rwa [h.addr_keep ha]), h.outside x (by omega) ha]
  · have ha' : (D' m).addr disk' (x / BSIZE) ≠ 0 := by rwa [h.addr_keep ha]
    have := h'.files m hm x ha'
    rw [h.same m hm] at this
    rw [this, h.files m hm x ha]

theorem Grown.store (h : Grown sb i D disk D' disk') {a : Nat} (ha : a ≠ 0)
    (haddr : a = (D' i).addr disk' (off / BSIZE)) (hfit : off % BSIZE + src.length ≤ BSIZE) :
    Stored sb i D disk D' (update disk' a ((disk' a).setBytes (off % BSIZE) src)) off src := by
  have hslot : slot D' (update disk' a ((disk' a).setBytes (off % BSIZE) src)) = slot D' disk' := by
    refine slot_congr fun m hm => update_of_ne (fun he => ?_) _ _
    exact Track.ne_indirect h.owned (p := (i, slotOf (off / BSIZE))) (slotOf_ne _) m hm
      (he.trans haddr)
  have hrange := h.owned.range (i, slotOf (off / BSIZE)) (by rw [← addr_eq_slot, ← haddr]; exact ha)
  rw [← addr_eq_slot, ← haddr] at hrange
  -- another block of some file is not this one
  have hother : ∀ m bn, (m, bn) ≠ (i, off / BSIZE) → (D' m).addr disk' bn ≠ 0 →
      (D' m).addr disk' bn ≠ a := by
    intro m bn hne h0 he
    have := h.owned.unique (m, slotOf bn) (i, slotOf (off / BSIZE)) h0 (he.trans haddr)
    obtain ⟨rfl, hs⟩ := Prod.mk.inj this
    exact hne (by rw [slotOf_inj hs])
  have hs : Stored sb i D disk D' disk' off [] := h.stored
  have haddr' : ∀ m bn, (D' m).addr (update disk' a ((disk' a).setBytes (off % BSIZE) src)) bn =
      (D' m).addr disk' bn := fun m bn => congrFun hslot (m, slotOf bn)
  refine ⟨?_, h.same, hs.fields, fun p hp => ?_, fun p hp => ?_, fun j hj => ?_, fun j c hc => ?_,
    fun x hx h0 => ?_, fun m hm x h0 => ?_⟩
  · rw [Owned, hslot]
    refine h.owned.congr (fun c hc => bit_update_ne _ ?_) fun _ => rfl
    have := Superblock.bblock_lt hc
    omega
  · rw [hslot, h.keep p hp]
  · rw [hslot, h.others p hp]
  · have hdiv : (off + j) / BSIZE = off / BSIZE := by
      simp only [BSIZE] at *
      omega
    rw [haddr', hdiv, ← haddr]
    exact ha
  · have hj : j < src.length := (List.getElem?_eq_some_iff.mp hc).1
    have hdiv : (off + j) / BSIZE = off / BSIZE := by
      simp only [BSIZE] at *
      omega
    have hmod : (off + j) % BSIZE = off % BSIZE + j := by
      simp only [BSIZE] at *
      omega
    rw [byte, haddr', hdiv, ← haddr, update_self, hmod, Block.byte_setBytes _ hfit,
      if_pos ⟨Nat.le_add_right _ _, by omega⟩, Nat.add_sub_cancel_left, getD_eq_getElem?_getD, hc]
    rfl
  · rw [← hs.outside x (by simp; omega) h0, byte, byte, haddr']
    by_cases hbn : x / BSIZE = off / BSIZE
    · rw [hbn, ← haddr, update_self, Block.byte_setBytes _ hfit, if_neg]
      simp only [BSIZE] at *
      omega
    · rw [update_of_ne]
      refine hother i _ (by simp [hbn]) ?_
      rw [hs.addr_keep h0]
      exact h0
  · have hm' := h.same m hm
    rw [← hs.files m hm x h0]
    refine byte_congr ?_ ?_
    · rw [← hm', haddr']
    · rw [update_of_ne]
      rw [← hm']
      refine hother m _ (by simp [hm]) ?_
      rw [hs.addr_keep h0]
      exact h0

theorem Owned.inode_update (h : Owned sb D disk) {p : Nat × Nat} (hp : slot D disk p ≠ 0)
    (blk : Block) {j : Nat} (hj : j < sb.ninodes) :
    dinodeAt sb (update disk' (slot D disk p) blk) j = dinodeAt sb disk' j := by
  refine dinodeAt_update_ne _ fun he => ?_
  have h1 := Superblock.iblock_lt_nmeta hj
  have h2 := (h.range p hp).1
  omega

end stored

section writei

variable {E : String → Prop} {sb : Superblock} {s : State} {ip : Ip} {i off : Nat}
  {D : Nat → Dinode} {src : List UInt8} {readable tot : Nat}

/-- The loop of `writei` has stored `src` up to `w` and counts `tot'` bytes of it: all that is
stored, unless the copy has failed inside of a block. Only a full disk or a failed copy ends it
early. -/
structure Looped (sb : Superblock) (i : Nat) (D : Nat → Dinode) (s : State) (ip : Ip)
    (src : List UInt8) (readable off tot : Nat) (D' : Nat → Dinode) (s' : State)
    (off' tot' w : Nat) : Prop where
  le : tot ≤ tot'
  stored_le : tot' ≤ w ∧ w ≤ src.length
  offset : off' + tot = off + tot'
  junk : w = tot' ∨ w = readable ∧ readable < src.length
  early : tot' < src.length → readable < src.length ∨ ∀ c < sb.size, bit sb s'.disk c = true
  oneBlock : tot < src.length → off % BSIZE + (src.length - tot) ≤ BSIZE → src.length ≤ readable →
    tot' = src.length ∧ (D i).need s.disk (slotOf (off / BSIZE)) ≤ freeBlocks sb s.disk ∨
    tot' = tot ∧ freeBlocks sb s.disk < (D i).need s.disk (slotOf (off / BSIZE))
  stored : Stored sb i D s.disk D' s'.disk off ((src.take w).drop tot)
  size : (D' i).size = (D i).size
  itable : s'.itable = update s.itable ip { s.itable ip with d := D' i }
  inodes : ∀ j < sb.ninodes, dinodeAt sb s'.disk j = dinodeAt sb s.disk j

theorem Grown.size {D' : Nat → Dinode} {disk disk' : Disk} (h : Grown sb i D disk D' disk') :
    (D' i).size = (D i).size := by
  obtain ⟨addrs, hd, -⟩ := h.fields
  rw [hd, withAddrs_size]

theorem drop_take_self (src : List UInt8) (tot : Nat) : (src.take tot).drop tot = [] := by
  rw [drop_eq_nil_iff, length_take]
  omega

theorem drop_take_append (src : List UInt8) {tot m w : Nat} (h : tot + m ≤ w) :
    (src.drop tot).take m ++ (src.take w).drop (tot + m) = (src.take w).drop tot := by
  rw [drop_take, drop_take, show w - tot = m + (w - (tot + m)) by omega, take_add,
    drop_drop]

theorem writeiLoop_spec (h : Owned sb D s.disk) (hd : (s.itable ip).d = D i)
    (htot : tot ≤ src.length) (hread : tot ≤ readable)
    (hmax : off + (src.length - tot) ≤ MAXFILE * BSIZE) :
    wp E (writeiLoop sb ip src readable off tot) s fun r s' => ∃ D' w,
      Looped sb i D s ip src readable off tot D' s' r.1 r.2 w := by
  induction hn : src.length - tot using Nat.strong_induction_on generalizing s D off tot with
  | _ n ih =>
    unfold writeiLoop
    split
    case isFalse hge =>
      obtain rfl : tot = src.length := by omega
      refine ⟨D, src.length, le_rfl, ⟨le_rfl, le_rfl⟩, rfl, .inl rfl, fun hlt => absurd hlt hge,
        fun hlt => absurd hlt hge, ?_, rfl, ?_, fun _ _ => rfl⟩
      · rw [drop_take_self]
        exact (Grown.refl h).stored
      · rw [← hd, update_eq_self]
    case isTrue hlt =>
    have hmod : off % BSIZE < BSIZE := Nat.mod_lt _ (by decide)
    have hbn : off / BSIZE < MAXFILE := Nat.div_lt_of_lt_mul (by rw [mul_comm]; omega)
    refine (bmap_spec h hd hbn).bind fun a s1 ⟨D1, h1⟩ => ?_
    split
    case isTrue h0 =>
      refine ⟨D1, tot, le_rfl, ⟨le_rfl, htot⟩, rfl, .inl rfl, fun _ => .inr (h1.full h0),
        fun _ _ _ => .inr ⟨rfl, h1.short.mp h0⟩, ?_, h1.grown.size, h1.itable,
        h1.grown.inodes⟩
      rw [drop_take_self]
      exact h1.grown.stored
    case isFalse h0 =>
    have hslot : slot D1 s1.disk (i, slotOf (off / BSIZE)) ≠ 0 := by
      rw [← h1.result]
      exact h0
    have hinodes : ∀ blk, ∀ j < sb.ninodes, dinodeAt sb (update s1.disk a blk) j =
        dinodeAt sb s.disk j := by
      intro blk j hj
      rw [h1.result, h1.grown.owned.inode_update hslot blk hj, h1.grown.inodes j hj]
    dsimp only
    generalize hm : min (src.length - tot) (BSIZE - off % BSIZE) = m
    split
    case isTrue hshort =>
      -- the copy fails inside of this block
      rw [wp_bind, wp_bmod, wp_pure]
      refine ⟨D1, readable, le_rfl, ⟨hread, by omega⟩, rfl, .inr ⟨rfl, by omega⟩,
        fun _ => .inl (by omega), fun _ _ _ => by omega, h1.grown.store h0 h1.result ?_,
        h1.grown.size, h1.itable, hinodes _⟩
      rw [length_drop, length_take]
      omega
    case isFalse hcopy =>
    rw [wp_bind, wp_bmod]
    have hlen : ((src.drop tot).take m).length = m := by
      rw [length_take, length_drop]
      omega
    have hst : Stored sb i D s.disk D1 (update s1.disk a ((s1.disk a).setBytes (off % BSIZE)
        ((src.drop tot).take m))) off ((src.drop tot).take m) :=
      h1.grown.store h0 h1.result (by rw [hlen]; omega)
    generalize hs1 : State.mk (update s1.disk a ((s1.disk a).setBytes (off % BSIZE)
      ((src.drop tot).take m))) s1.itable = s1'
    have hdisk : update s1.disk a ((s1.disk a).setBytes (off % BSIZE) ((src.drop tot).take m)) =
        s1'.disk := by rw [← hs1]
    have hitable : s1'.itable = s1.itable := by rw [← hs1]
    rw [hdisk] at hst
    have hsub : off + m + (src.length - (tot + m)) ≤ MAXFILE * BSIZE := by omega
    refine (ih (n - m) (by omega) hst.owned (hitable ▸ h1.inode) (by omega) (by omega) hsub
      (by omega)).mono fun r s2 ⟨D2, w, h2⟩ => ⟨D2, w, ?_⟩
    have hw : tot + m ≤ w := le_trans h2.le h2.stored_le.1
    refine ⟨by have := h2.le; omega, h2.stored_le, by have := h2.offset; omega, h2.junk, h2.early,
      fun _ hone _ => ?_, ?_, h2.size.trans h1.grown.size, ?_, fun j hj => ?_⟩
    · have hshort := mt h1.short.mpr h0
      have := h2.le
      have := h2.stored_le
      omega
    · have h2s := h2.stored
      rw [show off + m = off + ((src.drop tot).take m).length by rw [hlen]] at h2s
      have := hst.trans h2s
      rwa [drop_take_append src hw] at this
    · rw [h2.itable, hitable, h1.itable, update_self, update_idem]
    · rw [h2.inodes j hj, ← hdisk, hinodes _ j hj]

end writei

/-- The state between operations: `D` has the inodes of the disk, the valid entries of the inode
table are copies of them, and every block is free, or in one place, or metadata. -/
structure Consistent (sb : Superblock) (s : State) (D : Nat → Dinode) : Prop where
  owned : Owned sb D s.disk
  stored : ∀ i < sb.ninodes, dinodeAt sb s.disk i = D i
  beyond : ∀ i, sb.ninodes ≤ i → D i = zero
  cached : ∀ ip, 0 < (s.itable ip).ref → (s.itable ip).valid = true →
    (s.itable ip).inum < sb.ninodes ∧ (s.itable ip).d = D (s.itable ip).inum
  unique : ∀ ip jp, 0 < (s.itable ip).ref → 0 < (s.itable jp).ref →
    (s.itable ip).inum = (s.itable jp).inum → ip = jp

theorem Dinode.zero_fits : zero.Fits :=
  ⟨by decide, by decide, by decide, by decide, by decide, fun _ => Nat.two_pow_pos 32,
    fun _ _ => rfl⟩

theorem Consistent.fits {sb : Superblock} {s : State} {D : Nat → Dinode} (h : Consistent sb s D)
    (i : Nat) : (D i).Fits := by
  by_cases hi : i < sb.ninodes
  · rw [← h.stored i hi]
    exact Block.dinode_fits _ _
  · rw [h.beyond i (Nat.le_of_not_lt hi)]
    exact zero_fits

section iupdate

variable {E : String → Prop} {sb : Superblock} {s : State} {ip : Ip} {i off : Nat}
  {D D' : Nat → Dinode} {disk disk' disk'' : Disk} {src : List UInt8}

theorem Stored.congr (h : Stored sb i D disk D' disk' off src) {D'' : Nat → Dinode}
    (hdata : ∀ x, sb.nmeta ≤ x → disk'' x = disk' x)
    (hbits : ∀ c < sb.size, bit sb disk'' c = bit sb disk' c) (hsame : ∀ m ≠ i, D'' m = D' m)
    (hi : ∃ size, D'' i = (D' i).reshape (D' i).addrs size) :
    Stored sb i D disk D'' disk'' off src := by
  obtain ⟨size, hi⟩ := hi
  have haddrs : ∀ m, (D'' m).addrs = (D' m).addrs := by
    intro m
    by_cases hm : m = i
    · rw [hm, hi]
      rfl
    · rw [hsame m hm]
  have hslot : slot D'' disk'' = slot D' disk' := by
    funext ⟨m, k⟩
    have hind : (D' m).addrs NDIRECT ≠ 0 → disk'' ((D' m).addrs NDIRECT) =
        disk' ((D' m).addrs NDIRECT) := by
      intro hne
      have := h.owned.range (m, NDIRECT) (by rwa [slot_indirect])
      rw [slot_indirect] at this
      exact hdata _ this.1
    show (D'' m).slot disk'' k = (D' m).slot disk' k
    rw [← Dinode.slot_congr hind, Dinode.slot, Dinode.slot, haddrs m]
  have hblock : ∀ p, slot D' disk' p ≠ 0 → disk'' (slot D' disk' p) = disk' (slot D' disk' p) :=
    fun p hp => hdata _ (h.owned.range p hp).1
  have haddr : ∀ m bn, (D'' m).addr disk'' bn = (D' m).addr disk' bn := fun m bn =>
    congrFun hslot (m, slotOf bn)
  have hbyte : ∀ m x, (D' m).addr disk' (x / BSIZE) ≠ 0 →
      (D'' m).byte disk'' x = (D' m).byte disk' x := fun m x hx =>
    byte_congr (haddr m _) (hblock (m, slotOf (x / BSIZE)) hx)
  refine ⟨?_, fun m hm => (hsame m hm).trans (h.same m hm), ?_, fun p hp => ?_, fun p hp => ?_,
    fun j hj => ?_, fun j c hc => ?_, fun x hx ha => ?_, fun m hm x ha => ?_⟩
  · rw [Owned, hslot]
    exact h.owned.congr hbits fun _ => rfl
  · obtain ⟨addrs, size', hd, hk⟩ := h.fields
    refine ⟨addrs, size, ?_, hk⟩
    rw [hi, hd]
    rfl
  · rw [hslot, h.keep p hp]
  · rw [hslot, h.others p hp]
  · rw [haddr]
    exact h.there j hj
  · have hj : j < src.length := (List.getElem?_eq_some_iff.mp hc).1
    rw [hbyte i _ (h.there j hj), h.inside j c hc]
  · rw [hbyte i x (by rwa [h.addr_keep ha]), h.outside x hx ha]
  · have := hbyte m x (by rwa [h.addr_keep ha])
    rw [hsame m hm, h.same m hm] at this
    rw [this, h.files m hm x ha]

theorem Stored.fits (h : Stored sb i D disk D' disk' off src) (hD : (D i).Fits)
    (hsize : (D' i).size < 2 ^ 32) : (D' i).Fits := by
  obtain ⟨addrs, size, hd, hk⟩ := h.fields
  have hrest : ∀ k, NDIRECT < k → (D' i).addrs k = 0 := by
    intro k hlt
    rw [hd]
    exact (hk k hlt).trans (hD.rest k hlt)
  refine ⟨?_, ?_, ?_, ?_, hsize, fun k => ?_, hrest⟩
  · rw [hd]
    exact hD.type
  · rw [hd]
    exact hD.major
  · rw [hd]
    exact hD.minor
  · rw [hd]
    exact hD.nlink
  · by_cases hle : k ≤ NDIRECT
    · by_cases h0 : (D' i).addrs k = 0
      · rw [h0]
        decide
      · have hslot : slot D' disk' (i, k) = (D' i).addrs k := slot_addrs hle
        have h1 := h.owned.range (i, k) (by rwa [hslot])
        have h2 := sb.size_lt
        rw [hslot] at h1
        omega
    · rw [hrest k (by omega)]
      decide

/-- An inode has been copied to its place on the disk. -/
structure Copied (sb : Superblock) (disk disk' : Disk) (i : Nat) (d : Dinode) : Prop where
  data : ∀ x, sb.nmeta ≤ x → disk' x = disk x
  bits : ∀ c, bit sb disk' c = bit sb disk c
  inodes : dinodeAt sb disk' = update (dinodeAt sb disk) i d

theorem iupdate_spec {d : Dinode} (hinum : (s.itable ip).inum = i) (hi : i < sb.ninodes)
    (hd : (s.itable ip).d = d) (hfits : d.Fits) :
    wp E (iupdate sb ip) s fun _ s' => s'.itable = s.itable ∧ Copied sb s.disk s'.disk i d := by
  rw [iupdate, wp_bind, wp_getInode, wp_bmod, hinum, hd]
  refine ⟨rfl, fun x hx => update_of_ne ?_ _ _,
    fun c => bit_update_ne _ (Superblock.iblock_ne_bblock hi c).symm, dinodeAt_store hfits i⟩
  have := Superblock.iblock_lt_nmeta hi
  omega

theorem Consistent.store {s' : State} (h : Consistent sb s D) (href : 0 < (s.itable ip).ref)
    (hinum : (s.itable ip).inum = i) (hi : i < sb.ninodes) (howned : Owned sb D' s'.disk)
    (hsame : ∀ m ≠ i, D' m = D m)
    (hitable : s'.itable = update s.itable ip { s.itable ip with d := D' i })
    (hinodes : ∀ j < sb.ninodes, dinodeAt sb s'.disk j = update (dinodeAt sb s.disk) i (D' i) j) :
    Consistent sb s' D' := by
  have hinum' : ∀ jp, (s'.itable jp).inum = (s.itable jp).inum := by
    intro jp
    rw [hitable]
    by_cases hj : jp = ip
    · rw [hj, update_self]
    · rw [update_of_ne hj]
  have href' : ∀ jp, (s'.itable jp).ref = (s.itable jp).ref := by
    intro jp
    rw [hitable]
    by_cases hj : jp = ip
    · rw [hj, update_self]
    · rw [update_of_ne hj]
  refine ⟨howned, fun j hj => ?_, fun j hj => ?_, fun jp hr hv => ?_, fun jp kp hr hr' he => ?_⟩
  · rw [hinodes j hj]
    by_cases hji : j = i
    · rw [hji, update_self]
    · rw [update_of_ne hji, hsame j hji, h.stored j hj]
  · rw [hsame j (by omega), h.beyond j hj]
  · rw [href'] at hr
    rw [hinum']
    by_cases hj : jp = ip
    · rw [hj, hinum, hitable, update_self]
      exact ⟨hi, rfl⟩
    · rw [hitable, update_of_ne hj] at hv ⊢
      obtain ⟨hlt, hd⟩ := h.cached jp hr hv
      refine ⟨hlt, ?_⟩
      rw [hsame _ fun he => hj (h.unique jp ip hr href (he.trans hinum.symm)), hd]
  · rw [href'] at hr hr'
    rw [hinum', hinum'] at he
    exact h.unique jp kp hr hr' he

end iupdate

section written

variable {E : String → Prop} {sb : Superblock} {s : State} {ip : Ip} {i off : Nat}
  {D : Nat → Dinode} {src : List UInt8} {readable : Nat}

/-- `writei` has stored `src` up to `w` in file `i` at `off` and returns `tot`: all that is stored,
unless the copy has failed inside of a block. What it returns is below the size of the file. -/
structure Written (sb : Superblock) (i : Nat) (D : Nat → Dinode) (s : State) (ip : Ip)
    (src : List UInt8) (readable off : Nat) (D' : Nat → Dinode) (s' : State) (tot w : Nat) :
    Prop where
  consistent : Consistent sb s' D'
  stored_le : tot ≤ w ∧ w ≤ src.length
  junk : w = tot ∨ w = readable ∧ readable < src.length
  early : tot < src.length → readable < src.length ∨ ∀ c < sb.size, bit sb s'.disk c = true
  oneBlock : 0 < src.length → off % BSIZE + src.length ≤ BSIZE → src.length ≤ readable →
    tot = src.length ∧ (D i).need s.disk (slotOf (off / BSIZE)) ≤ freeBlocks sb s.disk ∨
    tot = 0 ∧ freeBlocks sb s.disk < (D i).need s.disk (slotOf (off / BSIZE))
  stored : Stored sb i D s.disk D' s'.disk off (src.take w)
  size : (D' i).size = max (D i).size (off + tot)
  itable : s'.itable = update s.itable ip { s.itable ip with d := D' i }

theorem Looped.finish {D1 : Nat → Dinode} {s1 s2 : State} {tot w : Nat} (h : Consistent sb s D)
    (href : 0 < (s.itable ip).ref) (hinum : (s.itable ip).inum = i) (hi : i < sb.ninodes)
    (hsize : max (D i).size (off + tot) < 2 ^ 32)
    (h1 : Looped sb i D s ip src readable off 0 D1 s1 (off + tot) tot w)
    (hdisk : s2.disk = s1.disk) (hitable : s2.itable = update s.itable ip { s.itable ip with
      d := (D1 i).reshape (D1 i).addrs (max (D i).size (off + tot)) }) :
    wp E (iupdate sb ip) s2 fun _ s' => ∃ D',
      Written sb i D s ip src readable off D' s' tot w := by
  generalize hd : (D1 i).reshape (D1 i).addrs (max (D i).size (off + tot)) = d at hitable
  have hst := h1.stored
  rw [drop_zero] at hst
  have hfits : d.Fits := by
    have hst2 : Stored sb i D s.disk (update D1 i d) s1.disk off (src.take w) := by
      refine hst.congr (fun _ _ => rfl) (fun _ _ => rfl) (fun m hm => update_of_ne hm _ _)
        ⟨max (D i).size (off + tot), ?_⟩
      rw [update_self, ← hd]
    have := hst2.fits (h.fits i) (by rw [update_self, ← hd]; exact hsize)
    rwa [update_self] at this
  refine (iupdate_spec (by rw [hitable, update_self]; exact hinum) hi
    (by rw [hitable, update_self]) hfits).mono fun _ s3 ⟨hit3, h3⟩ => ⟨update D1 i d, ?_⟩
  have hst3 : Stored sb i D s.disk (update D1 i d) s3.disk off (src.take w) := by
    refine hst.congr (fun x hx => ?_) (fun c _ => ?_) (fun m hm => update_of_ne hm _ _)
      ⟨max (D i).size (off + tot), ?_⟩
    · rw [h3.data x hx, hdisk]
    · rw [h3.bits c, hdisk]
    · rw [update_self, ← hd]
  have hitable3 : s3.itable = update s.itable ip { s.itable ip with d := update D1 i d i } := by
    rw [hit3, hitable, update_self]
  refine ⟨h.store href hinum hi hst3.owned hst3.same hitable3 fun j hj => ?_, h1.stored_le, h1.junk,
    fun hlt => ?_, h1.oneBlock, hst3, by rw [update_self, ← hd]; rfl, hitable3⟩
  · rw [h3.inodes, update_self, hdisk]
    by_cases hji : j = i
    · rw [hji, update_self, update_self]
    · rw [update_of_ne hji, update_of_ne hji, h1.inodes j hj]
  · refine (h1.early hlt).imp_right fun hfull c hc => ?_
    rw [h3.bits c, hdisk, hfull c hc]

theorem writei_spec (h : Consistent sb s D) (href : 0 < (s.itable ip).ref)
    (hvalid : (s.itable ip).valid = true) (hinum : (s.itable ip).inum = i)
    (hsize : (D i).size ≤ MAXFILE * BSIZE) (hlen : src.length < 2 ^ 32) :
    wp E (writei sb ip src readable off) s fun r s' =>
      r = -1 ∧ s' = s ∧ ((D i).size < off ∨ MAXFILE * BSIZE < off + src.length) ∨
      off ≤ (D i).size ∧ off + src.length ≤ MAXFILE * BSIZE ∧ ∃ (tot : Nat) (D' : _) (w : Nat),
        r = (tot : Int) ∧ Written sb i D s ip src readable off D' s' tot w := by
  obtain ⟨hi, hd⟩ := h.cached ip href hvalid
  rw [hinum] at hi hd
  have hmax : MAXFILE * BSIZE < 2 ^ 31 := by decide
  rw [writei, wp_bind, wp_getInode, hd]
  dsimp only
  -- a sum that wraps around comes out below `off`, which is small
  by_cases hbad : (D i).size < off ∨ MAXFILE * BSIZE < off + src.length
  · split
    · exact .inl ⟨rfl, rfl, hbad⟩
    · rename_i h1
      rw [if_pos (by omega)]
      exact .inl ⟨rfl, rfl, hbad⟩
  have hsum : (off + src.length) % 2 ^ 32 = off + src.length := Nat.mod_eq_of_lt (by omega)
  rw [hsum, if_neg (by omega), if_neg (by omega)]
  refine (writeiLoop_spec h.owned hd (Nat.zero_le _) (Nat.zero_le _) (by omega)).bind
    fun r s1 ⟨D1, w, h1⟩ => ?_
  obtain ⟨off', tot⟩ := r
  have hoff : off' = off + tot := by
    have := h1.offset
    omega
  subst hoff
  have hlt : max (D i).size (off + tot) < 2 ^ 32 := by
    have := h1.stored_le
    omega
  have hpost : ∀ s2, s2.disk = s1.disk → s2.itable = update s.itable ip { s.itable ip with
      d := (D1 i).reshape (D1 i).addrs (max (D i).size (off + tot)) } →
      wp E (iupdate sb ip >>= fun _ => pure (tot : Int)) s2 fun r s' =>
        r = -1 ∧ s' = s ∧ ((D i).size < off ∨ MAXFILE * BSIZE < off + src.length) ∨
        off ≤ (D i).size ∧ off + src.length ≤ MAXFILE * BSIZE ∧ ∃ (tot : Nat) (D' : _) (w : Nat),
          r = (tot : Int) ∧ Written sb i D s ip src readable off D' s' tot w :=
    fun s2 hdisk hitable => (h1.finish h href hinum hi hlt hdisk hitable).bind fun _ s' ⟨D', h'⟩ =>
      .inr ⟨by omega, by omega, tot, D', w, rfl, h'⟩
  dsimp only
  split
  · rw [wp_bind, modDinode, wp_modInode]
    refine hpost _ rfl ?_
    rw [h1.itable, update_self, update_idem, Nat.max_eq_right (by omega)]
    rfl
  · refine hpost s1 rfl ?_
    rw [h1.itable, Nat.max_eq_left (by omega), ← h1.size]
    rfl

end written

end Xv6.Fs
