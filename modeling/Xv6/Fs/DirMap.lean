import Xv6.Fs.Dir
import Xv6.Fs.Reclaim
import Xv6.Lib.Rows

/-! A directory as a finite map from names to inode numbers: `dirlookup` reads the map, `dirlink`
and the clearing of an entry in `sys_unlink` change it in one place. -/

namespace Xv6.Fs

open Function List Dinode

/-- A name as it is compared: its first `DIRSIZ` bytes up to the NUL. -/
def dirKey (name : List UInt8) : List UInt8 := strncpy name DIRSIZ

def entryRow (de : List UInt8) : Option (List UInt8 × Nat) :=
  if direntInum de = 0 then none else some (dirKey (de.drop 2), direntInum de)

def Dinode.row (d : Dinode) (disk : Disk) (j : Nat) : Option (List UInt8 × Nat) :=
  if 16 * (j + 1) ≤ d.size then entryRow (d.entry disk j) else none

/-- The directory `dp`, which the table has in memory, holds the map `m`. -/
structure IsDir (sb : Superblock) (dp : Ip) (m : List UInt8 → Option Nat) (s : State)
    (D : Nat → Dinode) : Prop where
  consistent : Consistent sb s D
  ref : 0 < (s.itable dp).ref
  valid : (s.itable dp).valid = true
  type : (s.itable dp).d.type = T_DIR
  whole : (s.itable dp).d.size % 16 = 0
  full : (s.itable dp).d.Full s.disk
  maps : Stores ((s.itable dp).d.row s.disk) m

def Crammed (sb : Superblock) (d : Dinode) (disk : Disk) : Prop :=
  (∀ j, 16 * (j + 1) ≤ d.size → d.row disk j ≠ none) ∧
  (MAXFILE * BSIZE < d.size + 16 ∨
    freeBlocks sb disk < d.need disk (slotOf (d.size / BSIZE)))

section lookup

variable {E : String → Prop} {sb : Superblock} {s : State} {dp : Ip} {D : Nat → Dinode}
  {m : List UInt8 → Option Nat} {d : Dinode} {disk : Disk} {j : Nat} {name : List UInt8}

theorem namecmp_key (p q : List UInt8) : namecmp p q = 0 ↔ dirKey p = dirKey q := strncmp_eq_zero

theorem Dinode.row_lt (h : d.row disk j ≠ none) : 16 * (j + 1) ≤ d.size := by
  by_contra hlt
  exact h (if_neg hlt)

theorem Dinode.row_eq (h : 16 * (j + 1) ≤ d.size) : d.row disk j = entryRow (d.entry disk j) :=
  if_pos h

theorem entryRow_eq_some {de : List UInt8} {n : Nat} :
    entryRow de = some (dirKey name, n) ↔ Named name de ∧ direntInum de = n := by
  unfold entryRow Named
  rw [namecmp_key]
  split_ifs with h0
  · exact ⟨nofun, fun h => absurd h0 h.1.1⟩
  · rw [Option.some.injEq, Prod.mk.injEq]
    exact ⟨fun h => ⟨⟨h0, h.1.symm⟩, h.2⟩, fun h => ⟨h.1.2.symm, h.2⟩⟩

theorem IsDir.there (h : IsDir sb dp m s D) (hj : 16 * (j + 1) ≤ (s.itable dp).d.size) :
    (s.itable dp).d.There s.disk (16 * (j + 1)) := h.full.mono hj

theorem dirscan_row (h : IsDir sb dp m s D) :
    wp E (dirscan sb dp name) s fun r s' => s' = s ∧
      match r with
      | some (n, off) => ∃ j, off = 16 * j ∧
          (s.itable dp).d.row s.disk j = some (dirKey name, n)
      | none => ∀ j n, (s.itable dp).d.row s.disk j ≠ some (dirKey name, n) := by
  have hwhole := h.whole
  rw [dirscan, wp_bind, wp_getInode]
  refine (wp_search (Q := fun a s' => s' = s ∧ ∃ j, a.2 = 16 * j ∧
      (s.itable dp).d.row s.disk j = some (dirKey name, a.1))
    (fun k s' => s' = s ∧ ∀ j < k, ∀ n, (s.itable dp).d.row s.disk j ≠ some (dirKey name, n))
    ⟨rfl, fun j hj => absurd hj (Nat.not_lt_zero j)⟩ ?_).mono
    fun r s' hr => ?_
  · rintro k s' _ hk ⟨rfl, hbelow⟩
    have hlt : 16 * (k + 1) ≤ (s'.itable dp).d.size := by omega
    refine (readi_entry rfl (h.there hlt) hlt).bind ?_
    rintro r s'' ⟨hs, hr⟩
    subst hs hr
    dsimp only
    rw [if_neg (by decide)]
    have hnext : ¬Named name ((s''.itable dp).d.entry s''.disk k) →
        ∀ j < k + 1, ∀ n, (s''.itable dp).d.row s''.disk j ≠ some (dirKey name, n) := by
      intro hnot j hj n hrow
      rcases Nat.lt_succ_iff_lt_or_eq.mp hj with hj | rfl
      · exact hbelow j hj n hrow
      · rw [row_eq hlt, entryRow_eq_some] at hrow
        exact hnot hrow.1
    by_cases hzero : direntInum ((s''.itable dp).d.entry s''.disk k) = 0
    · rw [if_pos hzero]
      exact ⟨rfl, hnext fun hn => hn.1 hzero⟩
    rw [if_neg hzero]
    split
    · rename_i hcmp
      refine ⟨rfl, k, rfl, ?_⟩
      rw [row_eq hlt, entryRow_eq_some]
      exact ⟨⟨hzero, hcmp⟩, rfl⟩
    · rename_i hcmp
      exact ⟨rfl, hnext fun hn => hcmp hn.2⟩
  · cases r with
    | some a => exact hr
    | none =>
      refine ⟨hr.1, fun j n hrow => hr.2 j ?_ n hrow⟩
      have := row_lt (by rw [hrow]; simp)
      omega

theorem dirlookup_map (h : IsDir sb dp m s D)
    (hE : (∀ jp, 0 < (s.itable jp).ref) → E "iget: no inodes") :
    wp E (dirlookup sb dp name) s fun r s' =>
      match r with
      | some (ip, off) => ∃ j n, off = 16 * j ∧
          (s.itable dp).d.row s.disk j = some (dirKey name, n) ∧ m (dirKey name) = some n ∧
          Got s n ip s'
      | none => s' = s ∧ m (dirKey name) = none := by
  rw [dirlookup, wp_bind, wp_getInode, if_neg (by simpa using h.type)]
  refine (dirscan_row h).bind ?_
  rintro r s' ⟨hs, hr⟩
  subst hs
  cases r with
  | none => exact ⟨rfl, h.maps.absent hr⟩
  | some a =>
    obtain ⟨n, off⟩ := a
    obtain ⟨j, hoff, hrow⟩ := hr
    refine (iget_got fun hall => hE fun jp => (hall jp).1).bind fun ip s'' hg => ?_
    exact ⟨j, n, hoff, hrow, h.maps.lookup hrow, hg⟩

theorem Got.keep {s' : State} {n : Nat} {ip jp : Ip} (hg : Got s n ip s')
    (hr : 0 < (s.itable jp).ref) : (s'.itable jp).inum = (s.itable jp).inum ∧
      (s.itable jp).ref ≤ (s'.itable jp).ref ∧ (s'.itable jp).valid = (s.itable jp).valid ∧
      (s'.itable jp).d = (s.itable jp).d := by
  by_cases hj : jp = ip
  · subst hj
    obtain ⟨hinum, hvalid, hd⟩ := hg.old hr
    rw [hg.inum, hinum, hg.ref, hvalid, hd]
    exact ⟨rfl, Nat.le_succ _, rfl, rfl⟩
  · rw [hg.others jp hj]
    exact ⟨rfl, le_rfl, rfl, rfl⟩

theorem IsDir.got {s' : State} {n : Nat} {ip : Ip} (h : IsDir sb dp m s D) (hg : Got s n ip s') :
    IsDir sb dp m s' D := by
  obtain ⟨-, href, hvalid, hd⟩ := hg.keep h.ref
  refine ⟨hg.consistent h.consistent, lt_of_lt_of_le h.ref href, hvalid.trans h.valid, ?_, ?_, ?_,
    ?_⟩
  all_goals rw [hd]
  · exact h.type
  · exact h.whole
  · rw [hg.disk]
    exact h.full
  · rw [hg.disk]
    exact h.maps

end lookup

section entries

variable {d d' : Dinode} {disk disk' : Disk} {j k : Nat} {de : List UInt8}

theorem Dinode.entry_eq_map (h : 16 * (j + 1) ≤ d.size) :
    d.entry disk j = (range 16).map fun x => d.byte disk (16 * j + x) := by
  apply ext_getElem
  · simp only [entry, length_take, length_drop, length_content, length_map,
      length_range]
    omega
  · intro x h1 h2
    simp [entry, content]

theorem Dinode.entry_congr (h : 16 * (j + 1) ≤ d.size) (h' : 16 * (j + 1) ≤ d'.size)
    (hb : ∀ x < 16, d'.byte disk' (16 * j + x) = d.byte disk (16 * j + x)) :
    d'.entry disk' j = d.entry disk j := by
  rw [entry_eq_map h, entry_eq_map h']
  exact map_congr_left fun x hx => hb x (mem_range.mp hx)

theorem Dinode.entry_stored (h : 16 * (j + 1) ≤ d.size) (hlen : de.length = 16)
    (hb : ∀ x c, de[x]? = some c → d.byte disk (16 * j + x) = c) : d.entry disk j = de := by
  rw [entry_eq_map h]
  apply ext_getElem
  · rw [length_map, length_range, hlen]
  · intro x h1 h2
    rw [getElem_map, getElem_range]
    exact hb x _ (getElem?_eq_getElem h2)

end entries

section link

variable {E : String → Prop} {sb : Superblock} {s s' : State} {dp : Ip} {D D' : Nat → Dinode}
  {m m' : List UInt8 → Option Nat} {k : Nat} {name de : List UInt8}

theorem emptySlot_spec (h : IsDir sb dp m s D) :
    wp E (emptySlot sb dp) s fun off s' => s' = s ∧ ∃ k, off = 16 * k ∧
      16 * k ≤ (s.itable dp).d.size ∧ (s.itable dp).d.row s.disk k = none ∧
      (16 * k = (s.itable dp).d.size → ∀ j, 16 * (j + 1) ≤ (s.itable dp).d.size →
        (s.itable dp).d.row s.disk j ≠ none) := by
  have hwhole := h.whole
  rw [emptySlot, wp_bind, wp_getInode]
  refine (wp_search (Q := fun off s' => s' = s ∧ ∃ k, off = 16 * k ∧
      16 * (k + 1) ≤ (s.itable dp).d.size ∧ (s.itable dp).d.row s.disk k = none)
    (fun k s' => s' = s ∧ ∀ j < k, (s.itable dp).d.row s.disk j ≠ none)
    ⟨rfl, fun j hj => absurd hj (Nat.not_lt_zero j)⟩ fun k s' _ hk ⟨hs, hbelow⟩ => ?_).bind
    fun r s' hr => ?_
  · subst hs
    have hlt : 16 * (k + 1) ≤ (s'.itable dp).d.size := by omega
    refine (readi_entry rfl (h.there hlt) hlt).bind fun r s'' ⟨hs, hr⟩ => ?_
    subst hs hr
    dsimp only
    rw [if_neg (by decide)]
    split
    · rename_i hzero
      refine ⟨rfl, k, rfl, hlt, ?_⟩
      rw [row_eq hlt, entryRow, if_pos hzero]
    · rename_i hzero
      refine ⟨rfl, fun j hj => ?_⟩
      rcases Nat.lt_succ_iff_lt_or_eq.mp hj with hj | rfl
      · exact hbelow j hj
      · rw [row_eq hlt, entryRow, if_neg hzero]
        exact nofun
  · rw [wp_pure]
    cases r with
    | some off =>
      obtain ⟨hs, k, hoff, hlt, hrow⟩ := hr
      exact ⟨hs, k, hoff, by omega, hrow, fun he => absurd he (by omega)⟩
    | none =>
      refine ⟨hr.1, _, rfl, by omega, if_neg (by omega), fun _ j hj => hr.2 j (by omega)⟩

theorem IsDir.stored {off : Nat} {src : List UInt8} (h : IsDir sb dp m s D)
    (hc : Consistent sb s' D')
    (hst : Stored sb (s.itable dp).inum D s.disk D' s'.disk off src)
    (hit : s'.itable = update s.itable dp { s.itable dp with d := D' (s.itable dp).inum })
    (hwhole : (D' (s.itable dp).inum).size % 16 = 0)
    (hfull : (D' (s.itable dp).inum).Full s'.disk)
    (hmaps : Stores ((D' (s.itable dp).inum).row s'.disk) m') : IsDir sb dp m' s' D' := by
  have hd := (h.consistent.cached dp h.ref h.valid).2
  obtain ⟨addrs, size, hfields, -⟩ := hst.fields
  refine ⟨hc, ?_, ?_, ?_, ?_, ?_, ?_⟩
  all_goals rw [hit, update_self]
  · exact h.ref
  · exact h.valid
  · dsimp only
    rw [hfields, ← hd]
    exact h.type
  · exact hwhole
  · exact hfull
  · exact hmaps

def Stuck (sb : Superblock) (d : Dinode) (disk : Disk) (k : Nat) : Prop :=
  MAXFILE * BSIZE < 16 * k + 16 ∨ freeBlocks sb disk < d.need disk (slotOf (16 * k / BSIZE))

theorem IsDir.not_stuck (h : IsDir sb dp m s D) (hk : 16 * (k + 1) ≤ (s.itable dp).d.size) :
    ¬Stuck sb (s.itable dp).d s.disk k := by
  have hle := h.full.le
  rintro (hlt | hlt)
  · omega
  · have haddr := h.full.addr (16 * k / BSIZE) (Dinode.lt_blocks (by omega))
    rw [need_there haddr] at hlt
    exact absurd hlt (Nat.not_lt_zero _)

theorem Stored.full {i off : Nat} {src : List UInt8} {disk disk' : Disk}
    (hst : Stored sb i D disk D' disk' off src) (hfull : (D i).Full disk)
    (hle : (D' i).size ≤ MAXFILE * BSIZE)
    (hnew : ∀ bn, (D i).size ≤ bn * BSIZE → bn * BSIZE < (D' i).size →
      (D' i).addr disk' bn ≠ 0) : (D' i).Full disk' := by
  refine ⟨hle, fun bn hbn => ?_⟩
  rw [lt_blocks_iff] at hbn
  by_cases hold : bn * BSIZE < (D i).size
  · have haddr := hfull.addr bn (lt_blocks_iff.mpr hold)
    rw [hst.addr_keep haddr]
    exact haddr
  · exact hnew bn (Nat.le_of_not_lt hold) hbn

theorem Stored.row {i : Nat} {disk disk' : Disk} (hst : Stored sb i D disk D' disk' (16 * k) de)
    (hfull : (D i).Full disk) (hwhole : (D i).size % 16 = 0) (hk : 16 * k ≤ (D i).size)
    (hlen : de.length = 16) (hsize : (D' i).size = max (D i).size (16 * k + 16)) :
    (D' i).row disk' = update ((D i).row disk) k (entryRow de) := by
  funext j
  by_cases hj : j = k
  · subst hj
    rw [update_self, row_eq (by omega), entry_stored (by omega) hlen hst.inside]
  · rw [update_of_ne hj]
    by_cases hlt : 16 * (j + 1) ≤ (D i).size
    · rw [row_eq hlt, row_eq (by omega),
        entry_congr hlt (by omega) fun x hx => ?_]
      refine hst.outside _ (by omega) (hfull.addr _ (Dinode.lt_blocks (by omega)))
    · rw [Dinode.row, Dinode.row, if_neg hlt, if_neg (by omega)]

theorem Stored.row_nil {i off : Nat} {disk disk' : Disk} (hst : Stored sb i D disk D' disk' off [])
    (hfull : (D i).Full disk) (hsize : (D' i).size = (D i).size) :
    (D' i).row disk' = (D i).row disk := by
  funext j
  by_cases hlt : 16 * (j + 1) ≤ (D i).size
  · rw [row_eq hlt, row_eq (by omega),
      entry_congr hlt (by omega) fun x hx => ?_]
    exact hst.outside _ (by rw [length_nil]; omega)
      (hfull.addr _ (Dinode.lt_blocks (by omega)))
  · rw [Dinode.row, Dinode.row, if_neg hlt, if_neg (by omega)]

/-- Nothing has changed but the inode at `dp` and its copy, and that not in its type and links. -/
structure Beside (dp : Ip) (s : State) (D : Nat → Dinode) (s' : State) (D' : Nat → Dinode) :
    Prop where
  inodes : ∀ i ≠ (s.itable dp).inum, D' i = D i
  nlink : (D' (s.itable dp).inum).nlink = (D (s.itable dp).inum).nlink
  itable : s'.itable = update s.itable dp { s.itable dp with d := D' (s.itable dp).inum }

theorem writeEntry_spec (h : IsDir sb dp m s D) (hk : 16 * k ≤ (s.itable dp).d.size)
    (hlen : de.length = 16)
    (hmaps : Stores (update ((s.itable dp).d.row s.disk) k (entryRow de)) m') :
    wp E (writei sb dp de 16 (16 * k)) s fun r s' =>
      r = 16 ∧ ¬Stuck sb (s.itable dp).d s.disk k ∧
        (∃ D', IsDir sb dp m' s' D' ∧ Beside dp s D s' D') ∨
      r ≠ 16 ∧ Stuck sb (s.itable dp).d s.disk k ∧ ∃ D', IsDir sb dp m s' D' := by
  have hd := (h.consistent.cached dp h.ref h.valid).2
  have hwhole := h.whole
  have hfull := h.full
  have hle := h.full.le
  refine (writei_spec h.consistent h.ref h.valid rfl (hd ▸ hle) (by omega)).mono fun r s' hr => ?_
  rw [hlen, ← hd] at hr
  rcases hr with ⟨rfl, rfl, hbad⟩ | ⟨-, hmax, tot, D', w, rfl, hw⟩
  · exact .inr ⟨by decide, .inl (by omega), D, h⟩
  have hst := hw.stored
  have hsize := hw.size
  have hwtot : w = tot := by
    have := hw.junk
    omega
  have hone := hw.oneBlock (by omega) (by rw [hlen]; simp only [BSIZE]; omega) (by omega)
  rw [hwtot] at hst
  rw [hlen, ← hd] at hone
  rcases hone with ⟨htot, hneed⟩ | ⟨htot, hneed⟩
  · left
    rw [htot, take_of_length_le (by omega)] at hst
    rw [htot] at hsize
    refine ⟨by rw [htot]; rfl, ?_, D', h.stored hw.consistent hst hw.itable ?_ ?_ ?_,
      hst.same, ?_, hw.itable⟩
    · rintro (hlt | hlt) <;> omega
    · rw [hsize, ← hd]
      omega
    · refine hst.full (hd ▸ hfull) (by rw [hsize, ← hd]; omega) fun bn h1 h2 => ?_
      have hthere := hst.there 0 (by omega)
      rw [add_zero] at hthere
      rw [hsize] at h2
      rw [← hd] at h1 h2
      rwa [show bn = 16 * k / BSIZE by simp only [BSIZE] at *; omega]
    · rw [hst.row (hd ▸ hfull) (hd ▸ hwhole) (hd ▸ hk) hlen hsize, ← hd]
      exact hmaps
    · obtain ⟨addrs, size, hfields, -⟩ := hst.fields
      rw [hfields]
      rfl
  · right
    rw [htot, take_zero] at hst
    rw [htot, add_zero, ← hd, Nat.max_eq_left hk] at hsize
    refine ⟨by rw [htot]; decide, .inr hneed, D', h.stored hw.consistent hst hw.itable ?_ ?_ ?_⟩
    · rw [hsize]
      exact hwhole
    · exact hst.full (hd ▸ hfull) (by omega) fun bn h1 h2 => absurd h2 (by rw [← hd] at h1; omega)
    · rw [hst.row_nil (hd ▸ hfull) (by rw [hsize, hd]), ← hd]
      exact h.maps

theorem IsDir.dropped {ip : Ip} (h : IsDir sb dp m s D) (hdrop : Dropped s ip s')
    (hr : ip = dp → 1 < (s.itable dp).ref) : IsDir sb dp m s' D := by
  have hkeep : 0 < (s'.itable dp).ref ∧ (s'.itable dp).valid = (s.itable dp).valid ∧
      (s'.itable dp).d = (s.itable dp).d := by
    by_cases hj : dp = ip
    · subst hj
      have := hr rfl
      rw [hdrop.ref, hdrop.valid, hdrop.dinode]
      exact ⟨by omega, rfl, rfl⟩
    · rw [hdrop.others dp hj]
      exact ⟨h.ref, rfl, rfl⟩
  refine ⟨hdrop.consistent h.consistent, hkeep.1, hkeep.2.1.trans h.valid, ?_, ?_, ?_, ?_⟩
  all_goals rw [hkeep.2.2]
  · exact h.type
  · exact h.whole
  · rw [hdrop.disk]
    exact h.full
  · rw [hdrop.disk]
    exact h.maps

/-- A reference that `iget` has just taken is dropped without further effect: the inode is in use
elsewhere or has not been read. -/
theorem Got.iput {n : Nat} {ip : Ip} (hg : Got s n ip s') :
    wp E (iput sb ip) s' fun _ s'' => Dropped s' ip s'' := by
  refine iput_dropped fun ⟨href, hvalid, _⟩ => ?_
  rw [hg.ref] at href
  rw [(hg.new (by omega)).1] at hvalid
  cases hvalid

theorem entryRow_dirent {inum : Nat} (h0 : 0 < inum) (hlt : inum < 2 ^ 16) :
    entryRow (dirent inum name) = some (dirKey name, inum) := by
  rw [entryRow, direntInum_dirent hlt, if_neg (by omega), drop_dirent, dirKey, strncpy_strncpy,
    dirKey]

/-- `dirlink` adds the name, unless it is there already or there is no room. -/
theorem dirlink_map {inum : Nat} (h : IsDir sb dp m s D) (h0 : 0 < inum) (hlt : inum < 2 ^ 16)
    (hE : (∀ jp, 0 < (s.itable jp).ref) → E "iget: no inodes") :
    wp E (dirlink sb dp name inum) s fun r s' =>
      r = 0 ∧ m (dirKey name) = none ∧ ¬Crammed sb (s.itable dp).d s.disk ∧
        (∃ D', IsDir sb dp (update m (dirKey name) (some inum)) s' D' ∧ Beside dp s D s' D') ∨
      r = -1 ∧ (m (dirKey name) ≠ none ∨ Crammed sb (s.itable dp).d s.disk) ∧
        ∃ D', IsDir sb dp m s' D' := by
  refine (dirlookup_map h hE).bind fun r s1 hr => ?_
  cases r with
  | some a =>
    obtain ⟨ip, off⟩ := a
    obtain ⟨j, n, -, -, hm, hg⟩ := hr
    refine hg.iput.bind fun _ s2 hdrop => .inr ⟨rfl, .inl (by rw [hm]; exact nofun), D, ?_⟩
    refine (h.got hg).dropped hdrop ?_
    rintro rfl
    have := h.ref
    rw [hg.ref]
    omega
  | none =>
    obtain ⟨rfl, hm⟩ := hr
    refine (emptySlot_spec h).bind fun off s2 ⟨hs, k, hoff, hk, hrow, hend⟩ => ?_
    subst hs hoff
    have hput : Stores (update ((s2.itable dp).d.row s2.disk) k (entryRow (dirent inum name)))
        (update m (dirKey name) (some inum)) := by
      rw [entryRow_dirent h0 hlt]
      exact h.maps.put hrow hm
    refine (writeEntry_spec h hk (length_dirent inum name) hput).bind fun r s3 hr => ?_
    rcases hr with ⟨rfl, hnot, hdir⟩ | ⟨hne, hstuck, hdir⟩
    · rw [if_neg (by decide)]
      refine .inl ⟨rfl, hm, fun hcram => ?_, hdir⟩
      by_cases hlast : 16 * k = (s2.itable dp).d.size
      · refine hnot (hcram.2.imp (fun hmax => ?_) fun hfree => ?_)
        · omega
        · rwa [hlast]
      · have hwhole := h.whole
        exact hcram.1 k (by omega) hrow
    · rw [if_pos hne]
      refine .inr ⟨rfl, .inr ?_, hdir⟩
      have hlast : 16 * k = (s2.itable dp).d.size := by
        by_contra hlast
        have hwhole := h.whole
        exact h.not_stuck (by omega) hstuck
      refine ⟨hend hlast, ?_⟩
      rw [← hlast]
      exact hstuck

/-- What `sys_unlink` does to the directory: the entry of the name is cleared. -/
def unlinkEntry (sb : Superblock) (dp : Ip) (name : List UInt8) : Prog State Bool := do
  match ← dirlookup sb dp name with
  | none => pure false
  | some (_, off) => do
    let r ← writei sb dp (replicate 16 0) 16 off
    if r ≠ 16 then Prog.panic "unlink: writei" else pure true

theorem unlinkEntry_map (h : IsDir sb dp m s D)
    (hE : (∀ jp, 0 < (s.itable jp).ref) → E "iget: no inodes") :
    wp E (unlinkEntry sb dp name) s fun r s' =>
      r = true ∧ m (dirKey name) ≠ none ∧
        (∃ D', IsDir sb dp (update m (dirKey name) none) s' D') ∨
      r = false ∧ m (dirKey name) = none ∧ ∃ D', IsDir sb dp m s' D' := by
  refine (dirlookup_map h hE).bind fun r s1 hr => ?_
  cases r with
  | none =>
    obtain ⟨rfl, hm⟩ := hr
    exact .inr ⟨rfl, hm, D, h⟩
  | some a =>
    obtain ⟨ip, off⟩ := a
    obtain ⟨j, n, hoff, hrow, hm, hg⟩ := hr
    subst hoff
    have h1 := h.got hg
    obtain ⟨-, -, -, hd⟩ := hg.keep h.ref
    have hlt : 16 * (j + 1) ≤ (s1.itable dp).d.size := by
      rw [hd]
      exact row_lt (by rw [hrow]; exact nofun)
    rw [← hd, ← hg.disk] at hrow
    refine (writeEntry_spec h1 (by omega) (length_replicate ..) (h1.maps.clear hrow)).bind
      fun r s2 hr => ?_
    rcases hr with ⟨rfl, -, D', hdir, -⟩ | ⟨-, hstuck, -⟩
    · rw [if_neg (by decide)]
      exact .inl ⟨rfl, by rw [hm]; exact nofun, D', hdir⟩
    · exact absurd hstuck (h1.not_stuck hlt)

end link

/-- An operation on a directory and what came of it. -/
inductive DirEvent where
  | lookup (name : List UInt8) (found : Option Nat)
  | link (name : List UInt8) (inum : Nat) (done : Bool)
  | remove (name : List UInt8) (done : Bool)

def DirEvent.after (m : List UInt8 → Option Nat) : DirEvent → List UInt8 → Option Nat
  | .link name inum true => update m (dirKey name) (some inum)
  | .remove name true => update m (dirKey name) none
  | _ => m

/-- One operation on the directory `dp`. -/
inductive DirStep (sb : Superblock) (dp : Ip) : State → DirEvent → State → Prop
  | lookup {s s' : State} {name : List UInt8} {r : Option (Ip × Nat)}
      (h : dirlookup sb dp name s = .ok (r, s')) :
      DirStep sb dp s (.lookup name (r.map fun a => (s'.itable a.1).inum)) s'
  | link {s s' : State} {name : List UInt8} {inum : Nat} {r : Int} (h0 : 0 < inum)
      (hlt : inum < 2 ^ 16) (h : dirlink sb dp name inum s = .ok (r, s')) :
      DirStep sb dp s (.link name inum (decide (r = 0))) s'
  | remove {s s' : State} {name : List UInt8} {r : Bool}
      (h : unlinkEntry sb dp name s = .ok (r, s')) : DirStep sb dp s (.remove name r) s'

/-- What the rest of the kernel may do between two operations: anything that leaves the file of the
directory and a reference to it alone. -/
structure Elsewhere (sb : Superblock) (dp : Ip) (s s' : State) : Prop where
  consistent : (∃ D, Consistent sb s D) → ∃ D, Consistent sb s' D
  ref : 0 < (s'.itable dp).ref
  valid : (s'.itable dp).valid = true
  type : (s'.itable dp).d.type = (s.itable dp).d.type
  size : (s'.itable dp).d.size = (s.itable dp).d.size
  addrs : (s'.itable dp).d.addrs = (s.itable dp).d.addrs
  data : ∀ k, (s.itable dp).d.slot s.disk k ≠ 0 →
    s'.disk ((s.itable dp).d.slot s.disk k) = s.disk ((s.itable dp).d.slot s.disk k)

/-- A sequence of operations on the directory, with the rest of the kernel at work in between. -/
inductive DirRun (sb : Superblock) (dp : Ip) (s : State) : List DirEvent → State → Prop
  | start : DirRun sb dp s [] s
  | step {es : List DirEvent} {t t' : State} {e : DirEvent} (h : DirRun sb dp s es t)
      (hs : DirStep sb dp t e t') : DirRun sb dp s (es ++ [e]) t'
  | other {es : List DirEvent} {t t' : State} (h : DirRun sb dp s es t)
      (ho : Elsewhere sb dp t t') : DirRun sb dp s es t'

def DirEvent.Right (sb : Superblock) (dp : Ip) (s : State) (m : List UInt8 → Option Nat) :
    DirEvent → Prop
  | .lookup name found => found = m (dirKey name)
  | .link name _ done => done = true ↔
      m (dirKey name) = none ∧ ¬Crammed sb (s.itable dp).d s.disk
  | .remove name done => done = true ↔ m (dirKey name) ≠ none

section run

variable {sb : Superblock} {s s' t : State} {dp : Ip} {D : Nat → Dinode}
  {m : List UInt8 → Option Nat} {e : DirEvent} {es : List DirEvent}

def TableFull (s : State) (msg : String) : Prop :=
  msg = "iget: no inodes" ∧ ∀ ip, 0 < (s.itable ip).ref

theorem IsDir.step (h : IsDir sb dp m s D) (hs : DirStep sb dp s e s') :
    e.Right sb dp s m ∧ ∃ D', IsDir sb dp (e.after m) s' D' := by
  cases hs with
  | lookup hrun =>
    rename_i name r
    have hspec := (dirlookup_map (E := fun _ => True) h fun _ => trivial).of_ok hrun
    cases r with
    | none =>
      obtain ⟨rfl, hm⟩ := hspec
      exact ⟨hm.symm, D, h⟩
    | some a =>
      obtain ⟨j, n, -, -, hm, hg⟩ := hspec
      refine ⟨?_, D, h.got hg⟩
      show some (s'.itable a.1).inum = m (dirKey name)
      rw [hm, hg.inum]
  | link h0 hlt hrun =>
    have hspec := (dirlink_map (E := fun _ => True) h h0 hlt fun _ => trivial).of_ok hrun
    rcases hspec with ⟨rfl, hm, hroom, D', hdir, -⟩ | ⟨rfl, hfail, hdir⟩
    · exact ⟨⟨fun _ => ⟨hm, hroom⟩, fun _ => rfl⟩, D', hdir⟩
    · refine ⟨⟨nofun, fun hok => ?_⟩, hdir⟩
      exact absurd hok fun ⟨hm, hroom⟩ => hfail.elim (fun h => h hm) hroom
  | remove hrun =>
    have hspec := (unlinkEntry_map (E := fun _ => True) h fun _ => trivial).of_ok hrun
    rcases hspec with ⟨rfl, hm, hdir⟩ | ⟨rfl, hm, hdir⟩
    · exact ⟨⟨fun _ => hm, fun _ => rfl⟩, hdir⟩
    · exact ⟨⟨nofun, fun hne => absurd hm hne⟩, hdir⟩

theorem IsDir.elsewhere (h : IsDir sb dp m s D) (ho : Elsewhere sb dp s s') :
    ∃ D', IsDir sb dp m s' D' := by
  obtain ⟨D', hc⟩ := ho.consistent ⟨D, h.consistent⟩
  have hslot : ∀ k, (s'.itable dp).d.slot s'.disk k = (s.itable dp).d.slot s.disk k := by
    intro k
    have hind : (s.itable dp).d.slot s.disk NDIRECT = (s.itable dp).d.addrs NDIRECT :=
      slot_addrs le_rfl
    have hdata := ho.data NDIRECT
    rw [hind] at hdata
    rw [← Dinode.slot_congr hdata k, Dinode.slot, Dinode.slot, ho.addrs]
  have hbyte : ∀ x < (s.itable dp).d.size,
      (s'.itable dp).d.byte s'.disk x = (s.itable dp).d.byte s.disk x := fun x hx =>
    byte_congr (hslot _) (ho.data _ (h.full.addr _ (Dinode.lt_blocks hx)))
  have hrow : (s'.itable dp).d.row s'.disk = (s.itable dp).d.row s.disk := by
    funext j
    unfold Dinode.row entry
    rw [ho.size, content_congr ho.size hbyte]
  refine ⟨D', hc, ho.ref, ho.valid, ho.type.trans h.type, ?_, ⟨?_, fun bn hbn => ?_⟩, ?_⟩
  · rw [ho.size]
    exact h.whole
  · rw [ho.size]
    exact h.full.le
  · rw [ho.size] at hbn
    rw [addr, hslot]
    exact h.full.addr bn hbn
  · rw [hrow]
    exact h.maps

theorem IsDir.run (h : IsDir sb dp m s D) (hrun : DirRun sb dp s es t) :
    ∃ D', IsDir sb dp (es.foldl DirEvent.after m) t D' := by
  induction hrun with
  | start => exact ⟨D, h⟩
  | step _ hs ih =>
    obtain ⟨D', h'⟩ := ih
    rw [foldl_append]
    exact (h'.step hs).2
  | other _ ho ih =>
    obtain ⟨D', h'⟩ := ih
    exact h'.elsewhere ho

theorem IsDir.names_differ (h : IsDir sb dp m s D) {j k : Nat}
    (hj : (s.itable dp).d.row s.disk j ≠ none) (hk : (s.itable dp).d.row s.disk k ≠ none)
    (hne : j ≠ k) : namecmp (((s.itable dp).d.entry s.disk j).drop 2)
      (((s.itable dp).d.entry s.disk k).drop 2) ≠ 0 := by
  have hrow : ∀ {l}, (s.itable dp).d.row s.disk l ≠ none → (s.itable dp).d.row s.disk l =
      some (dirKey (((s.itable dp).d.entry s.disk l).drop 2),
        direntInum ((s.itable dp).d.entry s.disk l)) := by
    intro l hl
    have hlt := row_lt hl
    rw [row_eq hlt, entryRow] at hl ⊢
    split at hl
    · exact absurd rfl hl
    · rw [if_neg ‹_›]
  intro hcmp
  have hj' := hrow hj
  rw [(namecmp_key _ _).mp hcmp] at hj'
  exact hne (h.maps.unique j k _ _ _ hj' (hrow hk))

/-- A directory is a finite map, whatever is done to it: every operation has the result that the map
calls for, and does to the map what it should. -/
theorem directory_is_map (h : IsDir sb dp m s D) (hrun : DirRun sb dp s es t) :
    (∀ e t', DirStep sb dp t e t' → e.Right sb dp t (es.foldl DirEvent.after m)) ∧
    (∀ name inum, 0 < inum → inum < 2 ^ 16 →
      wp (TableFull t) (dirlookup sb dp name) t (fun _ _ => True) ∧
      wp (TableFull t) (dirlink sb dp name inum) t (fun _ _ => True) ∧
      wp (TableFull t) (unlinkEntry sb dp name) t (fun _ _ => True)) ∧
    (∀ j k, j ≠ k → (t.itable dp).d.row t.disk j ≠ none → (t.itable dp).d.row t.disk k ≠ none →
      namecmp (((t.itable dp).d.entry t.disk j).drop 2)
        (((t.itable dp).d.entry t.disk k).drop 2) ≠ 0) ∧
    Stores ((t.itable dp).d.row t.disk) (es.foldl DirEvent.after m) := by
  obtain ⟨D', h'⟩ := h.run hrun
  have hE : (∀ jp, 0 < (t.itable jp).ref) → TableFull t "iget: no inodes" := fun hall => ⟨rfl, hall⟩
  refine ⟨fun e t' hs => (h'.step hs).1, fun name inum h0 hlt => ⟨?_, ?_, ?_⟩,
    fun j k hne hj hk => h'.names_differ hj hk hne, h'.maps⟩
  · exact (dirlookup_map h' hE).mono fun _ _ _ => trivial
  · exact (dirlink_map h' h0 hlt hE).mono fun _ _ _ => trivial
  · exact (unlinkEntry_map h' hE).mono fun _ _ _ => trivial

def tinyRoot : State := tinyState 1 ⟨1, 1, true, tinyInodes 1 1⟩

theorem tinyRoot_isDir : IsDir tiny 0 (fun _ => none) tinyRoot (tinyInodes 1) := by
  have hc : Consistent tiny tinyRoot (tinyInodes 1) :=
    tiny_consistent (by decide) fun _ => ⟨by decide, rfl⟩
  have hrow : ∀ j, (tinyRoot.itable 0).d.row tinyRoot.disk j = none := fun j => by
    refine if_neg ?_
    show ¬16 * (j + 1) ≤ 0
    omega
  refine ⟨hc, Nat.one_pos, rfl, rfl, rfl, ⟨Nat.zero_le _, fun bn hbn => ?_⟩, ?_, fun key v => ?_⟩
  · exact absurd hbn (Nat.not_lt_zero bn)
  · intro j k key v w hj
    rw [hrow j] at hj
    cases hj
  · refine ⟨nofun, fun ⟨j, hj⟩ => ?_⟩
    rw [hrow j] at hj
    cases hj

/-- An empty directory takes a new entry. -/
theorem tinyRoot_link (name : List UInt8) {inum : Nat} (h0 : 0 < inum) (hlt : inum < 2 ^ 16) :
    ∃ t D', dirlink tiny 0 name inum tinyRoot = .ok (0, t) ∧
      IsDir tiny 0 (update (fun _ => none) (dirKey name) (some inum)) t D' ∧
      Beside 0 tinyRoot (tinyInodes 1) t D' := by
  have hlink : wp (fun _ => False) (dirlink tiny 0 name inum) tinyRoot _ :=
    dirlink_map tinyRoot_isDir h0 hlt fun hall => absurd (hall 1) (by decide)
  obtain ⟨r, t, hrun, hr⟩ := hlink.exists_ok fun _ => id
  rcases hr with ⟨rfl, -, -, D', hdir⟩ | ⟨-, hfail, -⟩
  · exact ⟨t, D', hrun, hdir⟩
  exfalso
  have hfree : 0 < freeBlocks tiny tinyRoot.disk :=
    freeUnits_pos (b := 6) (by decide) (tiny_bit 1 (by decide))
  have hneed : (tinyRoot.itable 0).d.need tinyRoot.disk (slotOf 0) = 1 :=
    need_one rfl (.inl (by decide))
  rcases hfail with hne | ⟨-, hmax | hlt⟩
  · exact hne rfl
  · exact absurd hmax (by decide)
  · have hlt' : freeBlocks tiny tinyRoot.disk < 1 := hneed ▸ hlt
    omega

/-- A new entry of an empty directory is found. -/
theorem directory_is_map_tiny : ∃ t, DirRun tiny 0 tinyRoot [.link [97] 2 true] t ∧
    ∀ found t', DirStep tiny 0 t (.lookup [97] found) t' → found = some 2 := by
  obtain ⟨t, -, hrun, -⟩ := tinyRoot_link [97] (show 0 < 2 by decide) (by decide)
  have hone : DirRun tiny 0 tinyRoot [.link [97] 2 true] t :=
    .step .start (DirStep.link (by decide) (by decide) hrun)
  exact ⟨t, hone, fun found t' hs => (directory_is_map tinyRoot_isDir hone).1 _ t' hs⟩

end run

end Xv6.Fs
