import Xv6.Fs.Refs

/-! `ireclaim` at boot: the inodes that a crash has left with a type but without a link go back to
the free ones, with their blocks. -/

namespace Xv6.Fs

open Function

variable {E : String → Prop} {sb : Superblock} {s t t' : State} {D : Nat → Dinode} {n : Nat}

def Dinode.Orphan (d : Dinode) : Prop := d.type ≠ 0 ∧ d.nlink = 0

instance (d : Dinode) : Decidable d.Orphan := inferInstanceAs (Decidable (_ ∧ _))

theorem Dinode.not_orphan_freed (d : Dinode) : ¬d.freed.Orphan := fun h => h.1 rfl

def Lost (s : State) (D : Nat → Dinode) (i : Nat) : Prop :=
  0 < i ∧ (D i).Orphan ∧ ∀ ip, 0 < (s.itable ip).ref → (s.itable ip).inum ≠ i

instance (s : State) (D : Nat → Dinode) (i : Nat) : Decidable (Lost s D i) :=
  inferInstanceAs (Decidable (_ ∧ _ ∧ _))

/-- The inodes when the lost ones below `n` have been freed. -/
def reclaimed (s : State) (D : Nat → Dinode) (n i : Nat) : Dinode :=
  if i < n ∧ Lost s D i then (D i).freed else D i

theorem reclaimed_ge {i : Nat} (h : n ≤ i) : reclaimed s D n i = D i := if_neg (by omega)

theorem reclaimed_succ_ne {i : Nat} (h : i ≠ n) : reclaimed s D (n + 1) i = reclaimed s D n i :=
  if_congr (and_congr_left fun _ => by omega) rfl rfl

theorem reclaimed_succ_lost (hl : Lost s D n) :
    reclaimed s D (n + 1) = update (reclaimed s D n) n (D n).freed := by
  funext i
  by_cases hi : i = n
  · rw [hi, update_self, reclaimed, if_pos ⟨Nat.lt_succ_self n, hl⟩]
  · rw [update_of_ne hi, reclaimed_succ_ne hi]

theorem reclaimed_succ_not (hl : ¬Lost s D n) : reclaimed s D (n + 1) = reclaimed s D n := by
  funext i
  by_cases hi : i = n
  · rw [hi, reclaimed_ge le_rfl, reclaimed, if_neg fun h => hl h.2]
  · exact reclaimed_succ_ne hi

theorem Owned.slot_eq {disk disk' : Disk} (h : Owned sb D disk)
    (hdata : ∀ x, sb.nmeta ≤ x → disk' x = disk x) : slot D disk' = slot D disk := by
  refine slot_congr fun m hm => hdata _ ?_
  have := h.range (m, NDIRECT) (by rwa [slot_indirect])
  rw [slot_indirect] at this
  exact this.1

/-- `ireclaim` has come to inode `n`. -/
structure Reclaimed (sb : Superblock) (D : Nat → Dinode) (s : State) (n : Nat) (t : State) :
    Prop where
  consistent : Consistent sb t (reclaimed s D n)
  data : ∀ x, sb.nmeta ≤ x → t.disk x = s.disk x
  bits : ∀ c, bit sb t.disk c = true ↔ bit sb s.disk c = true ∧
    ¬∃ i k, i < n ∧ Lost s D i ∧ slot D s.disk (i, k) ≠ 0 ∧ slot D s.disk (i, k) = c
  ref : ∀ ip, (t.itable ip).ref = (s.itable ip).ref
  inum : ∀ ip, 0 < (s.itable ip).ref → (t.itable ip).inum = (s.itable ip).inum

theorem Reclaimed.start (h : Consistent sb s D) : Reclaimed sb D s 1 s := by
  have hnone : reclaimed s D 1 = D := funext fun i => if_neg fun hl => by have := hl.2.1; omega
  refine ⟨by rwa [hnone], fun _ _ => rfl, fun c => ?_, fun _ => rfl, fun _ _ => rfl⟩
  refine (and_iff_left ?_).symm
  rintro ⟨i, k, h1, h2, -⟩
  have := h2.1
  omega

theorem Reclaimed.skip (h : Reclaimed sb D s n t) (hl : ¬Lost s D n)
    (hc : Consistent sb t' (reclaimed s D n)) (hdisk : t'.disk = t.disk)
    (href : ∀ ip, (t'.itable ip).ref = (t.itable ip).ref)
    (hinum : ∀ ip, 0 < (t.itable ip).ref → (t'.itable ip).inum = (t.itable ip).inum) :
    Reclaimed sb D s (n + 1) t' := by
  refine ⟨by rw [reclaimed_succ_not hl]; exact hc, fun x hx => by rw [hdisk, h.data x hx],
    fun c => ?_, fun ip => (href ip).trans (h.ref ip),
    fun ip hr => (hinum ip (by rwa [h.ref ip])).trans (h.inum ip hr)⟩
  rw [hdisk, h.bits c]
  refine and_congr_right fun _ => not_congr (exists_congr fun i => exists_congr fun k => ?_)
  constructor
  · rintro ⟨h1, h2⟩
    exact ⟨by omega, h2⟩
  · rintro ⟨h1, h2, h3⟩
    refine ⟨?_, h2, h3⟩
    by_contra hge
    obtain rfl : i = n := by omega
    exact hl h2

theorem Reclaimed.last (h : Reclaimed sb D s n t) (hl : Lost s D n) (howned : Owned sb D s.disk)
    (hc : Consistent sb t' (update (reclaimed s D n) n (D n).freed))
    (hdisk : Emptied sb n (reclaimed s D n) t.disk (D n).freed t'.disk)
    (href : ∀ ip, (t'.itable ip).ref = (t.itable ip).ref)
    (hinum : ∀ ip, 0 < (t.itable ip).ref → (t'.itable ip).inum = (t.itable ip).inum) :
    Reclaimed sb D s (n + 1) t' := by
  have hslot : ∀ k, slot (reclaimed s D n) t.disk (n, k) = slot D s.disk (n, k) := by
    intro k
    rw [← howned.slot_eq h.data]
    show (reclaimed s D n n).slot _ _ = (D n).slot _ _
    rw [reclaimed_ge le_rfl]
  refine ⟨by rw [reclaimed_succ_lost hl]; exact hc,
    fun x hx => (hdisk.data x hx).trans (h.data x hx), fun c => ?_,
    fun ip => (href ip).trans (h.ref ip),
    fun ip hr => (hinum ip (by rwa [h.ref ip])).trans (h.inum ip hr)⟩
  rw [hdisk.bits c, h.bits c, and_assoc]
  refine and_congr_right fun _ => ?_
  simp only [hslot]
  constructor
  · rintro ⟨hbelow, hat⟩ ⟨i, k, h1, h2, h3, h4⟩
    rcases Nat.lt_succ_iff_lt_or_eq.mp h1 with hlt | rfl
    · exact hbelow ⟨i, k, hlt, h2, h3, h4⟩
    · exact hat k h3 h4
  · intro hall
    refine ⟨?_, fun k h3 h4 => hall ⟨n, k, Nat.lt_succ_self n, hl, h3, h4⟩⟩
    rintro ⟨i, k, h1, h2⟩
    exact hall ⟨i, k, by omega, h2⟩

/-- One pass of `ireclaim`. If the reference that it takes to an orphan is the only one, then
dropping it frees the inode. -/
theorem ireclaim_pass (h : Reclaimed sb D s n t) (hn : 0 < n) (hlt : n < sb.ninodes)
    (howned : Owned sb D s.disk)
    (hroom : Lost s D n → (∀ jp, (s.itable jp).ref ≠ 0) → E "iget: no inodes") :
    wp E (do
      let data ← bread (sb.iblock n)
      let dip := data.dinode (64 * (n % IPB))
      if dip.type ≠ 0 ∧ dip.nlink = 0 then do
        let ip ← iget n
        ilock sb ip
        iput sb ip
      else pure ()) t fun _ t' => Reclaimed sb D s (n + 1) t' := by
  have hDn : reclaimed s D n n = D n := reclaimed_ge le_rfl
  have hread : (t.disk (sb.iblock n)).dinode (64 * (n % IPB)) = D n := by
    rw [← hDn]
    exact h.consistent.stored n hlt
  rw [wp_bind, wp_bread, hread]
  by_cases ho : (D n).type ≠ 0 ∧ (D n).nlink = 0
  case neg =>
    rw [if_neg ho]
    exact h.skip (fun hl => ho hl.2.1) h.consistent rfl (fun _ => rfl) fun _ _ => rfl
  rw [if_pos ho]
  refine (iget_got fun hall => ?_).bind fun ip t1 hg => ?_
  · refine hroom ⟨hn, ho, fun jp hr => ?_⟩ fun jp => ?_
    · rw [← h.inum jp hr]
      exact (hall jp).2
    · have := (hall jp).1
      rw [h.ref jp] at this
      omega
  have h1 := hg.consistent h.consistent
  have href1 := hg.ref
  refine (ilock_locked h1 (by omega) hg.inum hlt (by rw [hDn]; exact ho.1)).bind fun _ t2 hl => ?_
  have h2 := hl.consistent h1 hg.inum hlt
  have href2 := hl.ref.trans href1
  have hinum2 : (t2.itable ip).inum = n := by rw [hl.inum, hg.inum]
  have hdisk2 : t2.disk = t.disk := hl.disk.trans hg.disk
  have hothers2 : ∀ jp ≠ ip, t2.itable jp = t.itable jp := fun jp hj =>
    (hl.others jp hj).trans (hg.others jp hj)
  rcases Nat.eq_zero_or_pos (t.itable ip).ref with h0 | hpos
  · -- no entry in use has the inode
    have hlost : Lost s D n := by
      refine ⟨hn, ho, fun jp hr => ?_⟩
      rw [← h.inum jp hr]
      exact (hg.new h0).2 jp (by rwa [h.ref jp])
    refine (iput_last h2 (by omega) hl.valid hinum2 (by rw [hDn]; exact ho.2)).mono
      fun _ t3 hlast => ?_
    have h3 := hlast.consistent h2 (by omega) hinum2 hlt
    have hemptied := hlast.disk
    rw [hdisk2, hDn] at hemptied
    rw [hDn] at h3
    refine h.last hlost howned h3 hemptied (fun jp => ?_) fun jp hr => ?_
    · by_cases hj : jp = ip
      · rw [hj, hlast.ref, h0]
      · rw [hlast.others jp hj, hothers2 jp hj]
    · have hj : jp ≠ ip := by
        rintro rfl
        omega
      rw [hlast.others jp hj, hothers2 jp hj]
  · have hlost : ¬Lost s D n := fun hlost => by
      have hr : 0 < (s.itable ip).ref := by rwa [← h.ref ip]
      exact hlost.2.2 ip hr (by rw [← h.inum ip hr]; exact (hg.old hpos).1)
    refine (iput_dropped (by omega)).mono fun _ t3 hdrop => ?_
    refine h.skip hlost (hdrop.consistent h2) (hdrop.disk.trans hdisk2) (fun jp => ?_)
      fun jp _ => ?_
    · by_cases hj : jp = ip
      · rw [hj, hdrop.ref]
        omega
      · rw [hdrop.others jp hj, hothers2 jp hj]
    · by_cases hj : jp = ip
      · rw [hj, hdrop.inum, hinum2, (hg.old hpos).1]
      · rw [hdrop.others jp hj, hothers2 jp hj]

theorem ireclaim_run (h : Consistent sb s D)
    (hroom : (∃ i < sb.ninodes, Lost s D i) → ∃ jp, (s.itable jp).ref = 0) :
    ∃ s', ireclaim sb s = .ok ((), s') ∧ Reclaimed sb D s sb.ninodes s' := by
  have hrun : wp (fun _ => False) (ireclaim sb) s fun _ s' => Reclaimed sb D s sb.ninodes s' := by
    have := wp_loop (E := fun _ => False) (s := s) (i := 1) (n := sb.ninodes - 1)
      (fun n t => Reclaimed sb D s n t) (Reclaimed.start h) fun n t hn hlt ht =>
        ireclaim_pass ht hn (by omega) h.owned fun hl hall => ?_
    · rwa [show 1 + (sb.ninodes - 1) = sb.ninodes by have := sb.root_lt; omega] at this
    · obtain ⟨jp, h0⟩ := hroom ⟨n, by omega, hl⟩
      exact hall jp h0
  obtain ⟨_, s', hs', h'⟩ := hrun.exists_ok fun _ => id
  exact ⟨s', hs', h'⟩

/-- The blocks that `bfree` and `iupdate` hand to `log_write` when the inode `i` is freed. -/
def FreeLogs (sb : Superblock) (D : Nat → Dinode) (disk : Disk) (i : Nat) (blocks : Finset Nat) :
    Prop :=
  sb.iblock i ∈ blocks ∧
    ∀ k, slot D disk (i, k) ≠ 0 → sb.bblock (slot D disk (i, k)) ∈ blocks

theorem Consistent.freeLogs (h : Consistent sb s D)
    (hlog : (sb.size + BPB - 1) / BPB + 1 < LOGBLOCKS) (i : Nat) :
    ∃ blocks, FreeLogs sb D s.disk i blocks ∧ blocks.card < LOGBLOCKS := by
  refine ⟨insert (sb.iblock i)
    ((Finset.range ((sb.size + BPB - 1) / BPB)).image (· + sb.bmapstart)),
    ⟨Finset.mem_insert_self _ _, fun k hk => Finset.mem_insert_of_mem ?_⟩, ?_⟩
  · have hlt := (h.owned.range (i, k) hk).2
    refine Finset.mem_image.mpr ⟨_, Finset.mem_range.mpr ?_, rfl⟩
    simp only [BPB, BSIZE] at *
    omega
  · have hinsert := Finset.card_insert_le (sb.iblock i)
      ((Finset.range ((sb.size + BPB - 1) / BPB)).image (· + sb.bmapstart))
    have himage := Finset.card_image_le (s := Finset.range ((sb.size + BPB - 1) / BPB))
      (f := (· + sb.bmapstart))
    rw [Finset.card_range] at himage
    omega

/-- `ireclaim` frees the orphans that the inode table does not refer to, with exactly their blocks;
all else stays. Each is freed in a transaction of its own, and on a disk with so few blocks in the
free map none of these is too big: `log_write`, which the model leaves out, panics when it is called
with `LOGBLOCKS` blocks in the transaction. -/
theorem ireclaim_frees_lost (h : Consistent sb s D)
    (hlog : (sb.size + BPB - 1) / BPB + 1 < LOGBLOCKS)
    (hroom : (∃ i < sb.ninodes, Lost s D i) → ∃ jp, (s.itable jp).ref = 0) :
    ∃ s', ireclaim sb s = .ok ((), s') ∧
      (∀ i, 0 < i → i < sb.ninodes → (dinodeAt sb s'.disk i).Orphan →
        ∃ ip, 0 < (s.itable ip).ref ∧ (s.itable ip).inum = i) ∧
      (∀ c, bit sb s'.disk c = true ↔ bit sb s.disk c = true ∧
        ¬∃ i k, i < sb.ninodes ∧ Lost s D i ∧ slot D s.disk (i, k) ≠ 0 ∧
          slot D s.disk (i, k) = c) ∧
      (∀ i < sb.ninodes, ¬Lost s D i → dinodeAt sb s'.disk i = dinodeAt sb s.disk i ∧
        ∀ k, (D i).slot s'.disk k = (D i).slot s.disk k ∧
          ((D i).slot s.disk k ≠ 0 →
            s'.disk ((D i).slot s.disk k) = s.disk ((D i).slot s.disk k))) ∧
      (∀ ip, (s'.itable ip).ref = (s.itable ip).ref) ∧
      (∀ i, Lost s D i → ∃ blocks, FreeLogs sb D s.disk i blocks ∧ blocks.card < LOGBLOCKS) ∧
      ∃ D', Consistent sb s' D' := by
  obtain ⟨s', hs', h'⟩ := ireclaim_run h hroom
  refine ⟨s', hs', fun i hi hlt ho => ?_, h'.bits,
    fun i hlt hno => ⟨?_, fun k => ⟨?_, fun hne => ?_⟩⟩,
    h'.ref, fun i _ => h.freeLogs hlog i, _, h'.consistent⟩
  · rw [h'.consistent.stored i hlt, reclaimed] at ho
    split at ho
    · exact absurd ho (Dinode.not_orphan_freed _)
    · rename_i hno
      by_contra hnone
      exact hno ⟨hlt, hi, ho, fun ip hr he => hnone ⟨ip, hr, he⟩⟩
  · rw [h'.consistent.stored i hlt, h.stored i hlt, reclaimed, if_neg fun hh => hno hh.2]
  · exact congrFun (h.owned.slot_eq h'.data) (i, k)
  · exact h'.data _ (h.owned.range (i, k) hne).1

def tiny : Superblock where
  size := 10
  nblocks := 5
  ninodes := 4
  inodestart := 2
  bmapstart := 3
  inodes_lt := by decide
  bmap_lt := by decide
  size_lt := by decide
  root_lt := by decide
  ninodes_le := by decide

/-- The root with `nlink` links, and a file with one block and no link. -/
def tinyInodes (nlink i : Nat) : Dinode :=
  if i = 1 then ⟨T_DIR, 0, 0, nlink, 0, fun _ => 0⟩
  else if i = 2 then ⟨T_FILE, 0, 0, 0, 1024, update (fun _ => 0) 0 5⟩
  else Dinode.zero

def storeInode (sb : Superblock) (disk : Disk) (i : Nat) (d : Dinode) : Disk :=
  update disk (sb.iblock i) ((disk (sb.iblock i)).setDinode (64 * (i % IPB)) d)

def tinyDisk (nlink : Nat) : Disk :=
  let inodes := storeInode tiny (storeInode tiny (fun _ => Block.zero) 1 (tinyInodes nlink 1)) 2
    (tinyInodes nlink 2)
  update inodes (tiny.bblock 0) ((inodes (tiny.bblock 0)).setNum 0 1 63)

/-- The disk with one inode in the table. -/
def tinyState (nlink : Nat) (e : Inode) : State :=
  ⟨tinyDisk nlink, fun ip => if ip = 0 then e else ⟨0, 0, false, Dinode.zero⟩⟩

/-- The state in which `ireclaim` runs: the first process has the root as its directory. -/
def tinyBoot (nlink : Nat) : State := tinyState nlink ⟨1, 1, false, Dinode.zero⟩

theorem dinodeAt_zero (sb : Superblock) (i : Nat) :
    dinodeAt sb (fun _ => Block.zero) i = Dinode.zero := by
  simp only [dinodeAt, Block.dinode, Block.num_zero, ite_self]
  rfl

theorem tinyInodes_fits {nlink : Nat} (h : nlink < 2 ^ 16) (i : Nat) :
    (tinyInodes nlink i).Fits := by
  unfold tinyInodes
  split
  · refine ⟨?_, Nat.two_pow_pos 16, Nat.two_pow_pos 16, h, Nat.two_pow_pos 32,
      fun _ => Nat.two_pow_pos 32, fun _ _ => rfl⟩
    norm_num
  split
  · refine ⟨by decide, by decide, by decide, by decide, by decide, fun k => ?_, fun k hk => ?_⟩
    · by_cases h0 : k = 0
      · simp [h0]
      · simp [h0]
    · have h0 : k ≠ 0 := by
        simp only [NDIRECT] at hk
        omega
      simp [h0]
  · exact Dinode.zero_fits

theorem tiny_stored {nlink : Nat} (h : nlink < 2 ^ 16) :
    ∀ i < tiny.ninodes, dinodeAt tiny (tinyDisk nlink) i = tinyInodes nlink i := by
  intro i hi
  unfold tinyDisk
  rw [dinodeAt_update_ne _ (Superblock.iblock_ne_bblock hi 0), storeInode,
    dinodeAt_store (tinyInodes_fits h 2), storeInode, dinodeAt_store (tinyInodes_fits h 1)]
  have hlt : i < 4 := hi
  obtain rfl | rfl | rfl | rfl : i = 0 ∨ i = 1 ∨ i = 2 ∨ i = 3 := by omega
  · simp [dinodeAt_zero, tinyInodes]
  · simp
  · simp
  · simp [dinodeAt_zero, tinyInodes]

theorem tiny_bit (nlink : Nat) {c : Nat} (hc : c < 10) :
    bit tiny (tinyDisk nlink) c = decide (c < 6) := by
  have hstore : bit tiny (tinyDisk nlink) c = if c / 8 = 0 / 8 then (63).testBit (c % 8) else
      bit tiny (storeInode tiny (storeInode tiny (fun _ => Block.zero) 1 (tinyInodes nlink 1)) 2
        (tinyInodes nlink 2)) c := bit_store (by decide) c
  rw [hstore]
  split
  · rename_i h8
    have hlt : c < 8 := by omega
    clear hstore h8 hc
    decide +revert
  rename_i h8
  have hblock : tiny.bblock c = 3 := by
    simp only [Superblock.bblock, tiny, BPB, BSIZE]
    omega
  have h1 : tiny.iblock 1 = 2 := rfl
  have h2 : tiny.iblock 2 = 2 := rfl
  rw [bit, hblock, storeInode, h2, update_of_ne (by decide), storeInode, h1,
    update_of_ne (by decide), Block.byte_zero]
  simp
  omega

theorem tiny_slot (nlink : Nat) (p : Nat × Nat) :
    slot (tinyInodes nlink) (tinyDisk nlink) p = if p = (2, 0) then 5 else 0 := by
  obtain ⟨i, k⟩ := p
  show (tinyInodes nlink i).slot (tinyDisk nlink) k = _
  by_cases h1 : i = 2
  · subst h1
    by_cases hk : k ≤ NDIRECT
    · rw [Dinode.slot_addrs hk]
      by_cases h0 : k = 0
      · simp [h0, tinyInodes]
      · simp [h0, tinyInodes]
    · have h0 : k ≠ 0 := by
        simp only [NDIRECT] at hk
        omega
      rw [Dinode.slot_none (by omega) (.inl (by simp [tinyInodes])), if_neg (by simp [h0])]
  · rw [if_neg (by simp [h1])]
    refine Dinode.slot_empty ?_ _ _
    unfold tinyInodes
    split
    · rfl
    · rfl

theorem tinyState_ref {nlink : Nat} {e : Inode} {ip : Ip}
    (h : 0 < ((tinyState nlink e).itable ip).ref) : ip = 0 := by
  by_contra hne
  simp only [tinyState, if_neg hne] at h
  exact absurd h (lt_irrefl 0)

theorem tiny_consistent {nlink : Nat} {e : Inode} (h : nlink < 2 ^ 16)
    (he : e.valid = true → e.inum < tiny.ninodes ∧ e.d = tinyInodes nlink e.inum) :
    Consistent tiny (tinyState nlink e) (tinyInodes nlink) := by
  refine ⟨⟨by decide, fun p hp => ?_, fun p q hp hpq => ?_, fun b hb => ?_⟩, tiny_stored h,
    fun i hi => ?_, fun ip hr hv => ?_, fun ip jp hr hr' _ => ?_⟩
  · rw [tinyState, tiny_slot] at hp ⊢
    split at hp
    · rw [if_pos ‹_›]
      decide
    · exact absurd rfl hp
  · rw [tinyState, tiny_slot] at hp hpq
    rw [tiny_slot] at hpq
    split at hp
    · rw [if_pos ‹_›] at hpq
      by_contra hne
      rw [if_neg (by rintro rfl; exact hne ‹_›)] at hpq
      cases hpq
    · exact absurd rfl hp
  · rw [tinyState, tiny_bit nlink hb, decide_eq_true_eq]
    simp only [tiny_slot]
    have hmeta : tiny.nmeta = 5 := rfl
    rw [hmeta]
    constructor
    · intro hlt
      by_cases h5 : b < 5
      · exact .inl h5
      · exact .inr ⟨(2, 0), by simp, by rw [if_pos rfl]; omega⟩
    · rintro (hlt | ⟨p, hp, he⟩)
      · omega
      · split at he
        · omega
        · simp_all
  · have : 4 ≤ i := hi
    rw [tinyInodes, if_neg (by omega), if_neg (by omega)]
  · rw [tinyState_ref hr] at hv ⊢
    exact he hv
  · rw [tinyState_ref hr, tinyState_ref hr']

/-- An orphan whose block goes back. -/
theorem ireclaim_frees_lost_tiny : ∃ s', ireclaim tiny (tinyBoot 1) = .ok ((), s') ∧
    bit tiny (tinyBoot 1).disk 5 = true ∧ bit tiny s'.disk 5 = false ∧
    ¬(dinodeAt tiny s'.disk 2).Orphan := by
  have hlost : Lost (tinyBoot 1) (tinyInodes 1) 2 :=
    ⟨by decide, ⟨by decide, by decide⟩, fun ip hr => by rw [tinyState_ref hr]; decide⟩
  have hc : Consistent tiny (tinyBoot 1) (tinyInodes 1) := tiny_consistent (by decide) nofun
  obtain ⟨s', hs', hnone, hbits, -⟩ := ireclaim_frees_lost hc (by decide) fun _ => ⟨1, rfl⟩
  refine ⟨s', hs', tiny_bit 1 (by decide), ?_, fun ho => ?_⟩
  · rw [← Bool.not_eq_true, hbits 5]
    exact fun hb => hb.2 ⟨2, 0, by decide, hlost, by rw [tinyBoot, tinyState, tiny_slot]; decide,
      by rw [tinyBoot, tinyState, tiny_slot, if_pos rfl]⟩
  · obtain ⟨ip, hr, hi⟩ := hnone 2 (by decide) (by decide) ho
    exact hlost.2.2 ip hr hi

/-- A root without links would stay: the first process has it as its directory. -/
theorem ireclaim_root_stays : Consistent tiny (tinyBoot 0) (tinyInodes 0) ∧
    (dinodeAt tiny (tinyBoot 0).disk ROOTINO).Orphan ∧
    ∃ s', ireclaim tiny (tinyBoot 0) = .ok ((), s') ∧
      (dinodeAt tiny s'.disk ROOTINO).Orphan := by
  have hc : Consistent tiny (tinyBoot 0) (tinyInodes 0) := tiny_consistent (by decide) nofun
  have horphan : (tinyInodes 0 ROOTINO).Orphan := ⟨by decide, by decide⟩
  obtain ⟨s', hs', h'⟩ := ireclaim_run hc fun _ => ⟨1, rfl⟩
  refine ⟨hc, ?_, s', hs', ?_⟩
  · rw [hc.stored ROOTINO (by decide)]
    exact horphan
  · rw [h'.consistent.stored ROOTINO (by decide), reclaimed, if_neg]
    · exact horphan
    · exact fun hl => hl.2.2.2 0 (by decide) rfl

end Xv6.Fs
