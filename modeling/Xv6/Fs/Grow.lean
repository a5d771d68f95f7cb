import Xv6.Fs.Blocks
import Xv6.Fs.Slots

/-! What `bmap` does to an inode: at most it puts fresh blocks into empty slots. `D` has the inodes
as they are in memory; what is on the disk may be older. -/

namespace Xv6.Fs

open Function Dinode

def Dinode.withAddrs (d : Dinode) (addrs : Nat → Nat) : Dinode := { d with addrs }

@[simp] theorem Dinode.withAddrs_addrs (d : Dinode) (addrs : Nat → Nat) :
    (d.withAddrs addrs).addrs = addrs := rfl

@[simp] theorem Dinode.withAddrs_size (d : Dinode) (addrs : Nat → Nat) :
    (d.withAddrs addrs).size = d.size := rfl

abbrev Owned (sb : Superblock) (D : Nat → Dinode) (disk : Disk) : Prop :=
  Tracks sb.nmeta sb.size (bit sb disk) (slot D disk)

/-- Inode `i` may have got blocks in slots that were empty; nothing else has changed. -/
structure Grown (sb : Superblock) (i : Nat) (D : Nat → Dinode) (disk : Disk) (D' : Nat → Dinode)
    (disk' : Disk) : Prop where
  owned : Owned sb D' disk'
  same : ∀ m ≠ i, D' m = D m
  fields : ∃ addrs, D' i = (D i).withAddrs addrs ∧ ∀ k, NDIRECT < k → addrs k = (D i).addrs k
  keep : ∀ p, slot D disk p ≠ 0 → slot D' disk' p = slot D disk p
  others : ∀ p, p.1 ≠ i → slot D' disk' p = slot D disk p
  data : ∀ p, p.2 ≠ NDIRECT → slot D disk p ≠ 0 → disk' (slot D disk p) = disk (slot D disk p)
  blank : ∀ k ≠ NDIRECT, slot D disk (i, k) = 0 → slot D' disk' (i, k) ≠ 0 →
    disk' (slot D' disk' (i, k)) = Block.zero
  inodes : ∀ j < sb.ninodes, dinodeAt sb disk' j = dinodeAt sb disk j

namespace Grown

variable {sb : Superblock} {i : Nat} {D D' D'' : Nat → Dinode} {disk disk' disk'' : Disk}

theorem refl (h : Owned sb D disk) : Grown sb i D disk D disk :=
  ⟨h, fun _ _ => rfl, ⟨(D i).addrs, rfl, fun _ _ => rfl⟩, fun _ _ => rfl, fun _ _ => rfl,
    fun _ _ _ => rfl, fun _ _ h0 h1 => absurd h0 h1, fun _ _ => rfl⟩

theorem trans (h : Grown sb i D disk D' disk') (h' : Grown sb i D' disk' D'' disk'') :
    Grown sb i D disk D'' disk'' := by
  refine ⟨h'.owned, fun m hm => (h'.same m hm).trans (h.same m hm), ?_, fun p hp => ?_,
    fun p hp => (h'.others p hp).trans (h.others p hp), fun p hk hp => ?_, fun k hk h0 h1 => ?_,
    fun j hj => (h'.inodes j hj).trans (h.inodes j hj)⟩
  · obtain ⟨addrs, hd, ha⟩ := h.fields
    obtain ⟨addrs', hd', ha'⟩ := h'.fields
    refine ⟨addrs', ?_, fun k hk => ?_⟩
    · rw [hd', hd]
      rfl
    · rw [ha' k hk, hd, withAddrs_addrs, ha k hk]
  · have hp' := h.keep p hp
    rw [h'.keep p (hp' ▸ hp), hp']
  · have hp' := h.keep p hp
    have := h'.data p hk (hp' ▸ hp)
    rw [hp'] at this
    rw [this, h.data p hk hp]
  · by_cases hmid : slot D' disk' (i, k) = 0
    · exact h'.blank k hk hmid h1
    · rw [h'.keep _ hmid, h'.data _ hk hmid, h.blank k hk h0 hmid]

theorem addr_keep (h : Grown sb i D disk D' disk') {m bn : Nat} (ha : (D m).addr disk bn ≠ 0) :
    (D' m).addr disk' bn = (D m).addr disk bn ∧
      disk' ((D m).addr disk bn) = disk ((D m).addr disk bn) :=
  ⟨h.keep (m, slotOf bn) ha, h.data (m, slotOf bn) (slotOf_ne bn) ha⟩

end Grown

section alloc

variable {E : String → Prop} {sb : Superblock} {s : State} {ip : Ip} {i k b : Nat}
  {D : Nat → Dinode} {disk disk' : Disk}

theorem Owned.meta_used (h : Owned sb D disk) : ∀ b < sb.nmeta, bit sb disk b = true := fun b hb =>
  (h.marked b (lt_of_lt_of_le hb sb.nmeta_le)).mpr (.inl hb)

theorem Grab.ne_slot (hg : Grab sb disk disk' b) (h : Owned sb D disk) (p : Nat × Nat) :
    slot D disk p ≠ b := h.ne_of_free hg.lt hg.free p

theorem Grab.data_slot (hg : Grab sb disk disk' b) (h : Owned sb D disk) {p : Nat × Nat}
    (hp : slot D disk p ≠ 0) : disk' (slot D disk p) = disk (slot D disk p) :=
  hg.data _ (h.range p hp).1 (hg.ne_slot h p)

theorem slot_indirect (D : Nat → Dinode) (disk : Disk) (m : Nat) :
    slot D disk (m, NDIRECT) = (D m).addrs NDIRECT := slot_addrs le_rfl

theorem Grab.slot_eq (hg : Grab sb disk disk' b) (h : Owned sb D disk) :
    slot D disk' = slot D disk := by
  refine slot_congr fun m hm => ?_
  have := hg.data_slot h (p := (m, NDIRECT)) (by rwa [slot_indirect])
  rwa [slot_indirect] at this

theorem Grab.grown {D' : Nat → Dinode} {disk'' : Disk} (hg : Grab sb disk disk' b)
    (h : Owned sb D disk) (hempty : slot D disk (i, k) = 0)
    (hslot : slot D' disk'' = update (slot D disk) (i, k) b) (hsame : ∀ m ≠ i, D' m = D m)
    (hfields : ∃ addrs, D' i = (D i).withAddrs addrs ∧ ∀ k, NDIRECT < k → addrs k = (D i).addrs k)
    (hdisk : ∀ x, (∀ m, x = (D m).addrs NDIRECT → x = 0) → disk'' x = disk' x)
    (hbits : ∀ c < sb.size, bit sb disk'' c = bit sb disk' c)
    (hinodes : ∀ j < sb.ninodes, dinodeAt sb disk'' j = dinodeAt sb disk' j) :
    Grown sb i D disk D' disk'' := by
  have hpos : b ≠ 0 := by
    have h1 := h.lo_le_of_free hg.lt hg.free
    have h2 := h.pos
    omega
  have hblank : disk'' b = Block.zero := by
    rw [hdisk b fun m hm => ?_, hg.zero]
    exact absurd (hm.trans (slot_indirect D disk m).symm).symm (hg.ne_slot h _)
  refine ⟨?_, hsame, hfields, fun p hp => ?_, fun p hp => ?_, fun p hk hp => ?_,
    fun m hm h0 h1 => ?_, fun j hj => (hinodes j hj).trans (hg.inodes j hj)⟩
  · rw [Owned, hslot]
    exact (h.take hg.lt hg.free hempty).congr
      (fun c hc => (hbits c hc).trans (hg.bits c hc)) fun _ => rfl
  · rw [hslot, update_of_ne]
    rintro rfl
    exact hp hempty
  · rw [hslot, update_of_ne]
    rintro rfl
    exact hp rfl
  · rw [hdisk _ fun m hm => ?_, hg.data_slot h hp]
    by_contra hne
    exact Track.ne_indirect h hk m (hm ▸ hne) hm.symm
  · rw [hslot] at h1 ⊢
    by_cases hmk : m = k
    · rw [hmk, update_self, hblank]
    · rw [update_of_ne (by simp [hmk])] at h1
      exact absurd h0 h1

def Dinode.need (d : Dinode) (disk : Disk) (k : Nat) : Nat :=
  if d.slot disk k ≠ 0 then 0 else if k ≤ NDIRECT ∨ d.addrs NDIRECT ≠ 0 then 1 else 2

theorem Dinode.need_there {d : Dinode} (h : d.slot disk k ≠ 0) : d.need disk k = 0 := by
  rw [need, if_pos h]

theorem Dinode.need_one {d : Dinode} (h : d.slot disk k = 0)
    (hind : k ≤ NDIRECT ∨ d.addrs NDIRECT ≠ 0) : d.need disk k = 1 := by
  rw [need, if_neg (not_not.mpr h), if_pos hind]

theorem Dinode.need_two {d : Dinode} (h : d.slot disk k = 0) (hk : NDIRECT < k)
    (hind : d.addrs NDIRECT = 0) : d.need disk k = 2 := by
  rw [need, if_neg (not_not.mpr h), if_neg (by omega)]

abbrev freeBlocks (sb : Superblock) (disk : Disk) : Nat := freeUnits sb.size (bit sb disk)

theorem freeBlocks_eq_zero (h : ∀ c < sb.size, bit sb disk c = true) : freeBlocks sb disk = 0 := by
  by_contra hne
  obtain ⟨b, hb, hfree⟩ := exists_of_freeUnits_pos (pos_of_ne_zero hne)
  rw [h b hb] at hfree
  cases hfree

theorem Grab.freeBlocks (hg : Grab sb disk disk' b) :
    Fs.freeBlocks sb disk' + 1 = Fs.freeBlocks sb disk := by
  rw [Fs.freeBlocks, freeUnits_congr hg.bits, freeUnits_mark hg.lt hg.free]

/-- What `bmap` has done: inode `i` has grown, and `a` is the content of its slot `k`, which stays
empty exactly when there are too few free blocks. -/
structure Looked (sb : Superblock) (i k : Nat) (D : Nat → Dinode) (s : State) (ip : Ip)
    (D' : Nat → Dinode) (s' : State) (a : Nat) : Prop where
  grown : Grown sb i D s.disk D' s'.disk
  itable : s'.itable = update s.itable ip { s.itable ip with d := D' i }
  result : a = slot D' s'.disk (i, k)
  full : a = 0 → ∀ c < sb.size, bit sb s'.disk c = true
  short : a = 0 ↔ freeBlocks sb s.disk < (D i).need s.disk k
  spent : a ≠ 0 → freeBlocks sb s'.disk + (D i).need s.disk k = freeBlocks sb s.disk
  only : ∀ m ≠ k, m ≠ NDIRECT → slot D' s'.disk (i, m) = slot D s.disk (i, m)

theorem Looked.of_there {a : Nat} (h : Owned sb D s.disk) (hd : (s.itable ip).d = D i)
    (ha : a = slot D s.disk (i, k)) (hne : a ≠ 0) : Looked sb i k D s ip D s a := by
  have hneed : (D i).need s.disk k = 0 := need_there (by rwa [ha] at hne)
  refine ⟨Grown.refl h, ?_, ha, fun h0 => absurd h0 hne, ?_, fun _ => ?_, fun _ _ _ => rfl⟩
  · rw [← hd, update_eq_self]
  · rw [hneed]
    exact ⟨fun h0 => absurd h0 hne, fun hlt => absurd hlt (Nat.not_lt_zero _)⟩
  · rw [hneed, Nat.add_zero]

theorem Looked.of_full (h : Owned sb D s.disk) (hd : (s.itable ip).d = D i)
    (h0 : slot D s.disk (i, k) = 0) (hfull : ∀ c < sb.size, bit sb s.disk c = true) :
    Looked sb i k D s ip D s 0 := by
  refine ⟨Grown.refl h, ?_, h0.symm, fun _ => hfull, ?_, fun hne => absurd rfl hne,
    fun _ _ _ => rfl⟩
  · rw [← hd, update_eq_self]
  · have hempty : (D i).slot s.disk k = 0 := h0
    rw [freeBlocks_eq_zero hfull, need, if_neg (not_not.mpr hempty)]
    split <;> simp

theorem Looked.inode {D' : Nat → Dinode} {s' : State} {a : Nat}
    (h : Looked sb i k D s ip D' s' a) : (s'.itable ip).d = D' i := by
  rw [h.itable, update_self]

theorem loadAddr_spec (h : Owned sb D s.disk) (hd : (s.itable ip).d = D i) (hk : k ≤ NDIRECT) :
    wp E (loadAddr sb ip k) s fun a s' => ∃ D', Looked sb i k D s ip D' s' a := by
  have hslot : slot D s.disk (i, k) = (D i).addrs k := slot_addrs hk
  rw [loadAddr, wp_bind, wp_getInode, hd]
  dsimp only
  split
  case isFalse hne =>
    exact ⟨D, Looked.of_there h hd hslot.symm hne⟩
  case isTrue hzero =>
  refine (balloc_spec h.meta_used).bind fun b s1 ⟨hit, hb⟩ => ?_
  rcases hb with ⟨hb, hg⟩ | ⟨rfl, rfl, hfull⟩
  · rw [if_neg hb]
    have hneed : (D i).need s.disk k = 1 := need_one (hslot.trans hzero) (.inl hk)
    have hfree := hg.freeBlocks
    have hnew : slot (update D i ((D i).withAddrs (update (D i).addrs k b))) s1.disk =
        update (slot D s.disk) (i, k) b := by
      rw [← hg.slot_eq h]
      refine slot_update (slot_setAddr hk fun hkn => ⟨?_, hg.zero⟩)
      exact hkn ▸ hzero
    refine ⟨update D i ((D i).withAddrs (update (D i).addrs k b)), ?_, ?_, ?_, ?_, ?_, ?_, ?_⟩
    · refine hg.grown h (hslot.trans hzero) hnew (fun m hm => update_of_ne hm _ _)
        ⟨_, update_self .., fun m hm => update_of_ne (by omega) _ _⟩ (fun _ _ => rfl)
        (fun _ _ => rfl) fun _ _ => rfl
    · show update s1.itable ip _ = _
      rw [hit, update_self, ← hd]
      rfl
    · show b = slot _ s1.disk (i, k)
      rw [hnew, update_self]
    · exact fun h0 => absurd h0 hb
    · rw [hneed]
      exact ⟨fun h0 => absurd h0 hb, fun hlt => by omega⟩
    · intro _
      rw [hneed]
      exact hfree
    · intro m hm _
      rw [hnew, update_of_ne (by simp [hm])]
  · rw [if_pos rfl]
    exact ⟨D, Looked.of_full h hd (hslot.trans hzero) hfull⟩

theorem Looked.need_indirect {D1 : Nat → Dinode} {s1 : State} {c : Nat}
    (h : Looked sb i NDIRECT D s ip D1 s1 c) (hc : c ≠ 0) (hk : NDIRECT < k) :
    (D i).need s.disk k = (D i).need s.disk NDIRECT + (D1 i).need s1.disk k := by
  have hind : (D1 i).addrs NDIRECT ≠ 0 := by
    have := h.result
    rw [slot_indirect] at this
    rwa [← this]
  have hslot : (D1 i).slot s1.disk k = (D i).slot s.disk k := h.only k (by omega) (by omega)
  have hself : (D i).slot s.disk NDIRECT = (D i).addrs NDIRECT := slot_indirect D s.disk i
  by_cases h0 : (D i).addrs NDIRECT = 0
  · have hempty : (D i).slot s.disk k = 0 := slot_none hk (.inl h0)
    rw [need_two hempty hk h0, need_one (hself.trans h0) (.inl le_rfl),
      need_one (hslot.trans hempty) (.inr hind)]
  · rw [need_there (k := NDIRECT) (by rwa [hself]), zero_add, need, need,
      hslot, if_pos (Or.inr h0), if_pos (Or.inr hind)]

theorem Looked.trans {D1 D2 : Nat → Dinode} {s1 s2 : State} {a c : Nat}
    (h : Looked sb i NDIRECT D s ip D1 s1 c) (hc : c ≠ 0) (hk : NDIRECT < k)
    (h' : Looked sb i k D1 s1 ip D2 s2 a) : Looked sb i k D s ip D2 s2 a := by
  have hneed := h.need_indirect hc hk
  have hspent := h.spent hc
  refine ⟨h.grown.trans h'.grown, ?_, h'.result, h'.full, ?_, fun ha => ?_, fun m hm hn => ?_⟩
  · rw [h'.itable, h.itable, update_self, update_idem]
  · rw [h'.short]
    omega
  · have := h'.spent ha
    omega
  · rw [h'.only m hm hn, h.only m hn hn]

theorem loadEntry_spec {j : Nat} (h : Owned sb D s.disk) (hd : (s.itable ip).d = D i)
    (hind : (D i).addrs NDIRECT ≠ 0) (hj : j < NINDIRECT) :
    wp E (do
      let a ← bread ((D i).addrs NDIRECT)
      if a.word j = 0 then do
        let addr ← balloc sb
        if addr = 0 then pure 0
        else do
          bmod ((D i).addrs NDIRECT) fun a => a.setWord j addr
          pure addr
      else pure (a.word j)) s fun a s' => ∃ D', Looked sb i (NDIRECT + 1 + j) D s ip D' s' a := by
  have hslot : slot D s.disk (i, NDIRECT + 1 + j) = (s.disk ((D i).addrs NDIRECT)).word j :=
    slot_word hind hj
  rw [wp_bind, wp_bread]
  split
  case isFalse hne =>
    exact ⟨D, Looked.of_there h hd hslot.symm hne⟩
  case isTrue hzero =>
  refine (balloc_spec h.meta_used).bind fun b s1 ⟨hit, hb⟩ => ?_
  rcases hb with ⟨hb, hg⟩ | ⟨rfl, rfl, hfull⟩
  · rw [if_neg hb, wp_bind, wp_bmod]
    have hlt : b < 2 ^ 32 := by
      have h1 := hg.lt
      have h2 := sb.size_lt
      omega
    have hsl := hg.slot_eq h
    have h1 : Tracks sb.nmeta sb.size (bit sb s.disk) (slot D s1.disk) := hsl ▸ h
    have hrange := h.range (i, NDIRECT) (by rwa [slot_indirect])
    rw [slot_indirect] at hrange
    have hnew : slot D (update s1.disk ((D i).addrs NDIRECT)
        ((s1.disk ((D i).addrs NDIRECT)).setWord j b)) =
        update (slot D s.disk) (i, NDIRECT + 1 + j) b := by
      rw [Track.slot_setWord h1 hind hj hlt, hsl]
    have hneed : (D i).need s.disk (NDIRECT + 1 + j) = 1 :=
      need_one (hslot.trans hzero) (.inr hind)
    have hfree := hg.freeBlocks
    have hbits : ∀ blk, ∀ c < sb.size, bit sb (update s1.disk ((D i).addrs NDIRECT) blk) c =
        bit sb s1.disk c := by
      intro blk c hc
      have := Superblock.bblock_lt hc
      exact bit_update_ne _ (by omega)
    refine ⟨D, ?_, ?_, ?_, fun h0 => absurd h0 hb, ?_, fun _ => ?_, fun m hm _ => ?_⟩
    · refine hg.grown h (hslot.trans hzero) hnew (fun _ _ => rfl) ⟨(D i).addrs, rfl, fun _ _ => rfl⟩
        (fun x hx => update_of_ne (fun he => ?_) _ _) (hbits _)
        fun m hm => dinodeAt_update_ne _ ?_
      · exact hind (he ▸ hx i he)
      · have := Superblock.iblock_lt_nmeta hm
        omega
    · rw [hit, ← hd, update_eq_self]
    · show b = slot D (update s1.disk _ _) _
      rw [hnew, update_self]
    · rw [hneed]
      exact ⟨fun h0 => absurd h0 hb, fun hlt => by omega⟩
    · rw [hneed, freeBlocks, freeUnits_congr (hbits _)]
      exact hfree
    · show slot D (update s1.disk _ _) _ = _
      rw [hnew, update_of_ne (by simp [hm])]
  · rw [if_pos rfl]
    exact ⟨D, Looked.of_full h hd (hslot.trans hzero) hfull⟩

/-- `bmap` returns the address of a block of the file, with a fresh block if there was none; 0 when
the disk is full. -/
theorem bmap_spec {bn : Nat} (h : Owned sb D s.disk) (hd : (s.itable ip).d = D i)
    (hbn : bn < MAXFILE) :
    wp E (bmap sb ip bn) s fun a s' => ∃ D', Looked sb i (slotOf bn) D s ip D' s' a := by
  unfold bmap
  by_cases hlt : bn < NDIRECT
  · rw [if_pos hlt, slotOf, if_pos hlt]
    exact loadAddr_spec h hd (le_of_lt hlt)
  have hj : bn - NDIRECT < NINDIRECT := by
    simp only [MAXFILE] at hbn
    omega
  have hslotOf : slotOf bn = NDIRECT + 1 + (bn - NDIRECT) := by
    rw [slotOf, if_neg hlt]
    omega
  rw [if_neg hlt, if_pos hj, hslotOf]
  refine (loadAddr_spec h hd le_rfl).bind ?_
  rintro a s1 ⟨D1, h1⟩
  have hres := h1.result
  rw [slot_indirect] at hres
  split
  case isTrue h0 =>
    -- no block for the indirect block
    have hempty : (D1 i).addrs NDIRECT = 0 := by rw [← hres, h0]
    refine ⟨D1, h1.grown, h1.itable, (slot_none (by omega) (.inl hempty)).symm,
      fun _ => h1.full h0, ?_, fun hne => absurd rfl hne, fun m _ hm => h1.only m hm hm⟩
    have hbefore : (D i).addrs NDIRECT = 0 := by
      by_contra hne
      have := h1.grown.keep (i, NDIRECT) (by rwa [slot_indirect])
      rw [slot_indirect, slot_indirect] at this
      exact hne (this ▸ hempty)
    rw [need_two (slot_none (by omega) (.inl hbefore)) (by omega) hbefore]
    have hshort := h1.short.mp h0
    rw [need_one ((slot_indirect D s.disk i).trans hbefore) (.inl le_rfl)] at hshort
    exact ⟨fun _ => by omega, fun _ => rfl⟩
  case isFalse hne =>
    subst hres
    refine (loadEntry_spec h1.grown.owned h1.inode hne hj).mono ?_
    rintro a s2 ⟨D2, h2⟩
    exact ⟨D2, h1.trans hne (by omega) h2⟩

end alloc

end Xv6.Fs
