import Xv6.Fs.Write

/-! `itrunc`: the blocks of a file go back to the free map, and no other block changes hands. -/

namespace Xv6.Fs

open Function

/-- The slots when those of inode `i` that `K` marks are empty. -/
def without (σ : Nat × Nat → Nat) (i : Nat) (K : Nat → Bool) (p : Nat × Nat) : Nat :=
  if p.1 = i ∧ K p.2 = true then 0 else σ p

/-- The blocks in the slots of inode `i` that `K` marks have been freed. -/
structure Freed (sb : Superblock) (σ : Nat × Nat → Nat) (i : Nat) (K : Nat → Bool)
    (disk disk' : Disk) : Prop where
  tracks : Tracks sb.nmeta sb.size (bit sb disk') (without σ i K)
  data : ∀ x, sb.nmeta ≤ x → disk' x = disk x
  bits : ∀ c, bit sb disk' c = true ↔
    bit sb disk c = true ∧ ∀ k, K k = true → σ (i, k) ≠ 0 → σ (i, k) ≠ c
  inodes : ∀ j < sb.ninodes, dinodeAt sb disk' j = dinodeAt sb disk j

section freed

variable {E : String → Prop} {sb : Superblock} {s : State} {σ : Nat × Nat → Nat} {i m : Nat}
  {K K' : Nat → Bool} {disk disk' : Disk}

theorem without_none (σ : Nat × Nat → Nat) (i : Nat) : without σ i (fun _ => false) = σ := by
  funext p
  exact if_neg (by simp)

theorem without_update (σ : Nat × Nat → Nat) (i : Nat) (K : Nat → Bool) (m : Nat) :
    without σ i (update K m true) = update (without σ i K) (i, m) 0 := by
  funext ⟨j, k⟩
  by_cases hk : (j, k) = (i, m)
  · obtain ⟨rfl, rfl⟩ := Prod.mk.inj hk
    rw [update_self, without, if_pos ⟨rfl, update_self ..⟩]
  · rw [update_of_ne hk, without, without]
    by_cases hkm : k = m
    · have hji : j ≠ i := by
        rintro rfl
        exact hk (by rw [hkm])
      rw [if_neg fun h => hji h.1, if_neg fun h => hji h.1]
    · simp [update_of_ne hkm]

namespace Freed

theorem start (h : Tracks sb.nmeta sb.size (bit sb disk) σ) :
    Freed sb σ i (fun _ => false) disk disk :=
  ⟨by rwa [without_none], fun _ _ => rfl, fun _ => by simp, fun _ _ => rfl⟩

theorem congr (h : Freed sb σ i K disk disk') (hK : ∀ k, σ (i, k) ≠ 0 → K' k = K k) :
    Freed sb σ i K' disk disk' := by
  have hwithout : without σ i K' = without σ i K := by
    funext ⟨j, k⟩
    unfold without
    by_cases hj : j = i
    · subst hj
      by_cases h0 : σ (j, k) = 0
      · rw [h0, ite_self, ite_self]
      · dsimp only
        rw [hK k h0]
    · rw [if_neg fun h => hj h.1, if_neg fun h => hj h.1]
  refine ⟨by rw [hwithout]; exact h.tracks, h.data, fun c => ?_, h.inodes⟩
  rw [h.bits c]
  refine and_congr_right fun _ => forall_congr' fun k => ?_
  constructor
  · intro hk hK' h0
    exact hk (by rw [← hK k h0]; exact hK') h0
  · intro hk hK' h0
    exact hk (by rw [hK k h0]; exact hK') h0

theorem skip (h : Freed sb σ i K disk disk') (h0 : σ (i, m) = 0) :
    Freed sb σ i (update K m true) disk disk' := by
  refine h.congr fun k hk => update_of_ne ?_ _ _
  rintro rfl
  exact hk h0

theorem bfree (h : Freed sb σ i K disk s.disk) (hm : K m = false) (hne : σ (i, m) ≠ 0) :
    wp E (Fs.bfree sb (σ (i, m))) s fun _ s' => s'.itable = s.itable ∧
      Freed sb σ i (update K m true) disk s'.disk := by
  have hslot : without σ i K (i, m) = σ (i, m) := if_neg (by simp [hm])
  have hne' : without σ i K (i, m) ≠ 0 := by rwa [hslot]
  have hrange := h.tracks.range _ hne'
  have hused := h.tracks.used_slot hne'
  rw [hslot] at hrange hused
  refine (bfree_spec hrange.2 hused).mono fun _ s' ⟨hit, hdrop⟩ => ⟨hit, ?_, fun x hx => ?_,
    fun c => ?_, fun j hj => ?_⟩
  · have := h.tracks.release hne'
    rw [hslot] at this
    rw [without_update, hdrop.bits]
    exact this
  · rw [hdrop.data x hx, h.data x hx]
  · rw [hdrop.bits]
    by_cases hc : c = σ (i, m)
    · rw [hc, update_self]
      exact ⟨nofun, fun h => absurd rfl (h.2 m (update_self ..) hne)⟩
    rw [update_of_ne hc, h.bits c]
    refine and_congr_right fun _ => ⟨fun hall k hk h0 => ?_, fun hall k hk h0 => hall k ?_ h0⟩
    · by_cases hkm : k = m
      · rw [hkm]
        exact Ne.symm hc
      · rw [update_of_ne hkm] at hk
        exact hall k hk h0
    · by_cases hkm : k = m
      · rw [hkm, update_self]
      · rw [update_of_ne hkm]
        exact hk
  · rw [hdrop.inodes j hj, h.inodes j hj]

end Freed

end freed

namespace Dinode

def emptied (d : Dinode) : Dinode := d.reshape (fun _ => 0) 0

theorem slot_empty {d : Dinode} (h : d.addrs = fun _ => 0) (disk : Disk) (k : Nat) :
    d.slot disk k = 0 := by
  by_cases hk : k ≤ NDIRECT
  · rw [slot_addrs hk, h]
  · exact slot_none (by omega) (.inl (by rw [h]))

end Dinode

/-- Inode `i` has no blocks any more and is `d` now; nothing else has changed. -/
structure Emptied (sb : Superblock) (i : Nat) (D : Nat → Dinode) (disk : Disk) (d : Dinode)
    (disk' : Disk) : Prop where
  owned : Owned sb (update D i d) disk'
  data : ∀ x, sb.nmeta ≤ x → disk' x = disk x
  bits : ∀ c, bit sb disk' c = true ↔
    bit sb disk c = true ∧ ∀ k, slot D disk (i, k) ≠ 0 → slot D disk (i, k) ≠ c
  inodes : ∀ j < sb.ninodes, dinodeAt sb disk' j = update (dinodeAt sb disk) i d j

section itrunc

variable {E : String → Prop} {sb : Superblock} {s : State} {ip : Ip} {i : Nat} {D : Nat → Dinode}
  {disk disk' disk'' : Disk} {d : Dinode}

theorem slot_emptied (h : Owned sb D disk) (hd : d.addrs = fun _ => 0)
    (hdata : ∀ x, sb.nmeta ≤ x → disk' x = disk x) :
    slot (update D i d) disk' = without (slot D disk) i fun _ => true := by
  funext ⟨j, k⟩
  show (update D i d j).slot disk' k = if j = i ∧ true = true then 0 else (D j).slot disk k
  by_cases hj : j = i
  · rw [hj, update_self, if_pos ⟨rfl, rfl⟩, Dinode.slot_empty hd]
  · rw [update_of_ne hj, if_neg fun h => hj h.1]
    refine Dinode.slot_congr (fun h0 => hdata _ ?_) k
    have := h.range (j, NDIRECT) (by rwa [slot_indirect])
    rw [slot_indirect] at this
    exact this.1

theorem Freed.emptied (h : Owned sb D disk)
    (hf : Freed sb (slot D disk) i (fun _ => true) disk disk')
    (hc : Copied sb disk' disk'' i d) (hd : d.addrs = fun _ => 0) :
    Emptied sb i D disk d disk'' := by
  have hdata : ∀ x, sb.nmeta ≤ x → disk'' x = disk x := fun x hx =>
    (hc.data x hx).trans (hf.data x hx)
  refine ⟨?_, hdata, fun c => ?_, fun j hj => ?_⟩
  · rw [Owned, slot_emptied h hd hdata]
    exact hf.tracks.congr (fun c _ => hc.bits c) fun _ => rfl
  · rw [hc.bits, hf.bits]
    simp
  · rw [hc.inodes]
    by_cases hji : j = i
    · rw [hji, update_self, update_self]
    · rw [update_of_ne hji, update_of_ne hji, hf.inodes j hj]

theorem Emptied.copied (h : Owned sb D disk) {d' : Dinode} (he : Emptied sb i D disk d disk')
    (hc : Copied sb disk' disk'' i d') (hd : d.addrs = fun _ => 0) (hd' : d'.addrs = fun _ => 0) :
    Emptied sb i D disk d' disk'' := by
  have hdata : ∀ x, sb.nmeta ≤ x → disk'' x = disk x := fun x hx =>
    (hc.data x hx).trans (he.data x hx)
  refine ⟨?_, hdata, fun c => by rw [hc.bits, he.bits], fun j hj => ?_⟩
  · have := he.owned
    rw [Owned, slot_emptied h hd he.data] at this
    rw [Owned, slot_emptied h hd' hdata]
    exact this.congr (fun c _ => hc.bits c) fun _ => rfl
  · rw [hc.inodes]
    by_cases hji : j = i
    · rw [hji, update_self, update_self]
    · rw [update_of_ne hji, update_of_ne hji, he.inodes j hj, update_of_ne hji]

theorem itruncDirect_spec (h : Owned sb D s.disk) (hd : (s.itable ip).d = D i) :
    wp E (Prog.loop (fun k => do
      let addr := (← getInode ip).d.addrs k
      if addr ≠ 0 then do
        bfree sb addr
        modDinode ip fun d => { d with addrs := update d.addrs k 0 }
      else pure ()) 0 NDIRECT) s fun _ s' =>
        Freed sb (slot D s.disk) i (fun m => decide (m < NDIRECT)) s.disk s'.disk ∧
        s'.itable = update s.itable ip { s.itable ip with
          d := (D i).withAddrs fun m => if m < NDIRECT then 0 else (D i).addrs m } := by
  refine wp_loop (fun k (t : State) =>
    Freed sb (slot D s.disk) i (fun m => decide (m < k)) s.disk t.disk ∧
    t.itable = update s.itable ip { s.itable ip with
      d := (D i).withAddrs fun m => if m < k then 0 else (D i).addrs m }) ⟨?_, ?_⟩
    fun k t _ hk ⟨hf, hit⟩ => ?_
  · exact (Freed.start h).congr fun k _ => by simp
  · simp only [not_lt_zero, if_false]
    rw [show (D i).withAddrs (fun m => (D i).addrs m) = D i from rfl, ← hd, update_eq_self]
  have hslot : slot D s.disk (i, k) = (D i).addrs k := Dinode.slot_addrs (by omega)
  have hnext : ∀ m, slot D s.disk (i, m) ≠ 0 → decide (m < k + 1) =
      update (fun m => decide (m < k)) k true m := by
    intro m _
    by_cases hm : m = k
    · simp [hm]
    · rw [update_of_ne hm, decide_eq_decide]
      omega
  have haddrs : update (fun m => if m < k then 0 else (D i).addrs m) k 0 =
      fun m => if m < k + 1 then 0 else (D i).addrs m := by
    funext m
    by_cases hm : m = k
    · rw [hm, update_self, if_pos (by omega)]
    · rw [update_of_ne hm]
      exact if_congr (by omega) rfl rfl
  rw [wp_bind, wp_getInode, hit, update_self]
  dsimp only [Dinode.withAddrs_addrs]
  rw [if_neg (lt_irrefl k), ← hslot]
  split
  · rename_i hne
    refine (hf.bfree (by simp) hne).bind fun _ t' ⟨hit', hf'⟩ => ⟨hf'.congr hnext, ?_⟩
    show update t'.itable ip _ = _
    rw [hit', hit, update_self, update_idem, ← haddrs]
    rfl
  · rename_i h0
    rw [not_not] at h0
    have hself : update (fun m => if m < k then 0 else (D i).addrs m) k 0 =
        fun m => if m < k then 0 else (D i).addrs m := by
      rw [update_eq_self_iff, if_neg (lt_irrefl k), ← hslot, h0]
    refine ⟨(hf.skip h0).congr hnext, ?_⟩
    rw [hit, ← haddrs, hself]

theorem itruncIndirect_spec {σ : Nat × Nat → Nat} {a : Block}
    (h : Freed sb σ i (fun m => decide (m < NDIRECT)) disk s.disk)
    (ha : ∀ j < NINDIRECT, σ (i, NDIRECT + 1 + j) = a.word j) :
    wp E (Prog.loop (fun j => if a.word j ≠ 0 then bfree sb (a.word j) else pure ()) 0 NINDIRECT) s
      fun _ s' => s'.itable = s.itable ∧ Freed sb σ i
        (fun m => decide (m < NDIRECT ∨ NDIRECT < m ∧ m ≤ NDIRECT + NINDIRECT)) disk s'.disk := by
  have hloop := wp_loop (E := E) (s := s)
    (f := fun j => if a.word j ≠ 0 then bfree sb (a.word j) else pure ()) (i := 0) (n := NINDIRECT)
    (fun j (t : State) => t.itable = s.itable ∧ Freed sb σ i
      (fun m => decide (m < NDIRECT ∨ NDIRECT < m ∧ m ≤ NDIRECT + j)) disk t.disk)
    ⟨rfl, h.congr fun k _ => ?_⟩ fun j t _ hj ⟨hit, hf⟩ => ?_
  · simpa only [zero_add] using hloop
  · rw [decide_eq_decide]
    omega
  have hnext : ∀ m, σ (i, m) ≠ 0 →
      decide (m < NDIRECT ∨ NDIRECT < m ∧ m ≤ NDIRECT + (j + 1)) =
      update (fun m => decide (m < NDIRECT ∨ NDIRECT < m ∧ m ≤ NDIRECT + j)) (NDIRECT + 1 + j)
        true m := by
    intro m _
    by_cases hm : m = NDIRECT + 1 + j
    · rw [hm, update_self, decide_eq_true_eq]
      omega
    · rw [update_of_ne hm, decide_eq_decide]
      omega
  rw [← ha j (by omega)]
  split
  · rename_i hne
    refine (hf.bfree ?_ hne).mono fun _ t' ⟨hit', hf'⟩ => ⟨hit'.trans hit, hf'.congr hnext⟩
    rw [decide_eq_false_iff_not]
    omega
  · rename_i h0
    exact ⟨hit, (hf.skip (not_not.mp h0)).congr hnext⟩

theorem itrunc_spec (h : Owned sb D s.disk) (hd : (s.itable ip).d = D i) (hfits : (D i).Fits)
    (hinum : (s.itable ip).inum = i) (hi : i < sb.ninodes) :
    wp E (itrunc sb ip) s fun _ s' => Emptied sb i D s.disk (D i).emptied s'.disk ∧
      s'.itable = update s.itable ip { s.itable ip with d := (D i).emptied } := by
  have hempty : ∀ k, NDIRECT + NINDIRECT < k → slot D s.disk (i, k) = 0 := fun k hk =>
    Dinode.slot_none (by omega) (.inr hk)
  have hfits' : (D i).emptied.Fits := ⟨hfits.type, hfits.major, hfits.minor, hfits.nlink,
    Nat.two_pow_pos 32, fun _ => Nat.two_pow_pos 32, fun _ _ => rfl⟩
  -- once all slots are empty, the inode goes to the disk
  have hend : ∀ t : State, Freed sb (slot D s.disk) i (fun _ => true) s.disk t.disk →
      (∃ addrs, t.itable = update s.itable ip { s.itable ip with d := (D i).withAddrs addrs } ∧
        addrs = fun _ => 0) →
      wp E (modDinode ip (fun d => { d with size := 0 }) >>= fun _ => iupdate sb ip) t fun _ s' =>
        Emptied sb i D s.disk (D i).emptied s'.disk ∧
        s'.itable = update s.itable ip { s.itable ip with d := (D i).emptied } := by
    rintro t hf ⟨addrs, hit, rfl⟩
    rw [wp_bind, modDinode, wp_modInode, hit, update_self, update_idem]
    refine (iupdate_spec (d := (D i).emptied) ?_ hi ?_ hfits').mono
      fun _ s' h' => ⟨hf.emptied h h'.2 rfl, h'.1⟩
    · dsimp only
      rw [update_self]
      exact hinum
    · dsimp only
      rw [update_self]
      rfl
  unfold itrunc
  refine (itruncDirect_spec h hd).bind ?_
  rintro _ s1 ⟨hf1, hit1⟩
  rw [wp_bind, wp_getInode, hit1, update_self]
  dsimp only [Dinode.withAddrs_addrs]
  rw [if_neg (lt_irrefl NDIRECT)]
  split
  · rename_i hne
    have hind := slot_indirect D s.disk i
    have hrange := h.range (i, NDIRECT) (by rwa [hind])
    rw [hind] at hrange
    rw [wp_bind, wp_bread, hf1.data _ hrange.1, wp_bind]
    refine (itruncIndirect_spec hf1 fun j hj => Dinode.slot_word hne hj).mono ?_
    rintro _ s2 ⟨hit2, hf2⟩
    have hbfree := hf2.bfree (E := E) (m := NDIRECT) (by decide) (by rwa [hind])
    rw [hind] at hbfree
    rw [wp_bind]
    refine hbfree.mono ?_
    rintro _ s3 ⟨hit3, hf3⟩
    rw [wp_bind, modDinode, wp_modInode, hit3, hit2, hit1, update_self, update_idem]
    refine hend _ (hf3.congr fun k hk => ?_) ⟨_, rfl, ?_⟩
    · by_cases hkn : k = NDIRECT
      · rw [hkn, update_self]
      · rw [update_of_ne hkn, eq_comm, decide_eq_true_eq]
        have := mt (hempty k) hk
        omega
    · funext k
      dsimp only [Dinode.withAddrs_addrs]
      by_cases hkn : k = NDIRECT
      · rw [hkn, update_self]
      · rw [update_of_ne hkn]
        split
        · rfl
        · exact hfits.rest k (by omega)
  · rename_i h0
    rw [not_not] at h0
    refine hend s1 (hf1.congr fun k hk => ?_) ⟨_, hit1, ?_⟩
    · rw [eq_comm, decide_eq_true_eq]
      by_contra hge
      by_cases hkn : k = NDIRECT
      · exact hk (by rw [hkn, slot_indirect, h0])
      · exact hk (Dinode.slot_none (by omega) (.inl h0))
    · funext k
      split
      · rfl
      · by_cases hkn : k = NDIRECT
        · rw [hkn, h0]
        · exact hfits.rest k (by omega)

end itrunc

end Xv6.Fs
