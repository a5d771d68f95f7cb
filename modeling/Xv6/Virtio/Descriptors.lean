import Xv6.Virtio.Machine

/-! How `alloc3_desc` and `free_chain` change the set of free descriptors. -/

namespace Xv6.Virtio

open Function List

variable {β : Type} {d₀ d d' : Disk β} {idx : List Nat} {i : Nat}

/-- `d'` differs from `d` only in which descriptors are free and in descriptors that were free. -/
structure Untouched (d d' : Disk β) : Prop where
  avail : d'.avail = d.avail
  used : d'.used = d.used
  usedIdx : d'.usedIdx = d.usedIdx
  info : d'.info = d.info
  desc : ∀ i, d.free i = false → d'.desc i = d.desc i

theorem Untouched.refl (d : Disk β) : Untouched d d := ⟨rfl, rfl, rfl, rfl, fun _ _ => rfl⟩

/-- The descriptors `idx` have been taken from those that are free in `d₀`. -/
structure Taken (d₀ d : Disk β) (idx : List Nat) : Prop extends Untouched d₀ d where
  nodup : idx.Nodup
  lt : ∀ i ∈ idx, i < NUM ∧ d₀.free i = true
  free : ∀ i, d.free i = true ↔ d₀.free i = true ∧ i ∉ idx

theorem allocDesc_some (h : d.allocDesc = some (i, d')) :
    i < NUM ∧ d.free i = true ∧ d' = { d with free := update d.free i false } := by
  obtain ⟨j, hj, he⟩ := Option.map_eq_some_iff.mp h
  cases he
  exact ⟨mem_range.mp (mem_of_find?_eq_some hj), find?_some hj, rfl⟩

theorem Taken.allocDesc (ht : Taken d₀ d idx) (h : d.allocDesc = some (i, d')) :
    Taken d₀ d' (idx ++ [i]) := by
  obtain ⟨hlt, hfree, rfl⟩ := allocDesc_some h
  obtain ⟨hfree₀, hmem⟩ := (ht.free i).mp hfree
  refine ⟨⟨ht.avail, ht.used, ht.usedIdx, ht.info, ht.desc⟩, ?_, ?_, fun j => ?_⟩
  · simpa [nodup_append, ht.nodup] using fun a ha => ne_of_mem_of_not_mem ha hmem
  · intro j hj
    rcases mem_append.mp hj with hj | hj
    · exact ht.lt j hj
    · rw [mem_singleton.mp hj]
      exact ⟨hlt, hfree₀⟩
  · by_cases hj : j = i
    · simp [hj]
    · simp [ht.free, hj]

/-- The disk after `free_desc` of a descriptor in use. -/
def Disk.freed (d : Disk β) (i : Nat) : Disk β :=
  { d with desc := update d.desc i Desc.zero, free := update d.free i true }

theorem freed_free (d : Disk β) (i j : Nat) :
    (d.freed i).free j = if j = i then true else d.free j := update_apply ..

theorem freed_desc (d : Disk β) (i j : Nat) :
    (d.freed i).desc j = if j = i then Desc.zero else d.desc j := update_apply ..

theorem freeDesc_of_used (hlt : i < NUM) (hfree : d.free i = false) :
    d.freeDesc i = .ok (d.freed i) := by
  rw [Disk.freeDesc, if_neg (by omega), if_neg (by simp [hfree])]
  rfl

theorem freeDesc_ok (h : d.freeDesc i = .ok d') :
    i < NUM ∧ d.free i = false ∧ d' = d.freed i := by
  unfold Disk.freeDesc at h
  split_ifs at h with hlt hfree
  cases h
  exact ⟨by omega, by simpa using hfree, rfl⟩

theorem Taken.freeDescs (ht : Taken d₀ d idx) :
    ∃ d', d.freeDescs idx = .ok d' ∧ Untouched d₀ d' ∧ ∀ i, d'.free i = d₀.free i := by
  induction idx generalizing d with
  | nil => exact ⟨d, rfl, ht.toUntouched, fun i => Bool.eq_iff_iff.mpr (by simpa using ht.free i)⟩
  | cons i idx ih =>
    obtain ⟨hlt, hfree₀⟩ := ht.lt i mem_cons_self
    have hfree : d.free i = false := by simpa using ht.free i
    have hi := (nodup_cons.mp ht.nodup).1
    have ht' : Taken d₀ (d.freed i) idx := by
      refine ⟨⟨ht.avail, ht.used, ht.usedIdx, ht.info, fun j hj => ?_⟩,
        (nodup_cons.mp ht.nodup).2, fun j hj => ht.lt j (mem_cons_of_mem i hj),
        fun j => ?_⟩
      · have hji : j ≠ i := by
          rintro rfl
          rw [hfree₀] at hj
          cases hj
        exact (update_of_ne hji ..).trans (ht.desc j hj)
      · by_cases hj : j = i
        · simp [freed_free, hj, hfree₀, hi]
        · simp [freed_free, ht.free, hj]
    obtain ⟨d', hd', hrest⟩ := ih ht'
    refine ⟨d', ?_, hrest⟩
    rw [Disk.freeDescs, freeDesc_of_used hlt hfree]
    exact hd'

theorem Taken.allocDescs (ht : Taken d₀ d idx) (n : Nat) :
    (∃ idx' d', d.allocDescs idx n = .ok (some idx', d') ∧ idx'.length = idx.length + n ∧
      Taken d₀ d' idx') ∨
    ∃ d', d.allocDescs idx n = .ok (none, d') ∧ Untouched d₀ d' ∧ ∀ i, d'.free i = d₀.free i := by
  induction n generalizing d idx with
  | zero => exact .inl ⟨idx, d, rfl, rfl, ht⟩
  | succ n ih =>
    cases ha : d.allocDesc with
    | none =>
      obtain ⟨d', hd', hrest⟩ := ht.freeDescs
      exact .inr ⟨d', by simp [Disk.allocDescs, ha, hd', Except.map], hrest⟩
    | some x =>
      obtain ⟨i, d'⟩ := x
      simp only [Disk.allocDescs, ha]
      rcases ih (ht.allocDesc ha) with ⟨idx', d'', hs, hlen, ht'⟩ | hnone
      · refine .inl ⟨idx', d'', hs, ?_, ht'⟩
        rw [hlen, length_append, length_singleton]
        omega
      · exact .inr hnone

theorem alloc3Desc_cases (d : Disk β) :
    (∃ i j k d', d.alloc3Desc = .ok (some [i, j, k], d') ∧ Taken d d' [i, j, k]) ∨
    ∃ d', d.alloc3Desc = .ok (none, d') ∧ Untouched d d' ∧ ∀ i, d'.free i = d.free i := by
  have ht : Taken d d [] := ⟨.refl d, nodup_nil, nofun, fun i => by simp⟩
  rcases ht.allocDescs 3 with ⟨idx, d', hs, hlen, ht'⟩ | hnone
  · obtain ⟨i, j, k, rfl⟩ := length_eq_three.mp hlen
    exact .inl ⟨i, j, k, d', hs, ht'⟩
  · exact .inr hnone

def Disk.inUse (d : Disk β) : Finset Nat := (Finset.range NUM).filter fun i => d.free i = false

/-- The loop of `free_chain` ends, since it panics at a descriptor that it has freed before. -/
theorem freeChain_ne_none (d : Disk β) (i : Nat) {fuel : Nat} (h : d.inUse.card < fuel) :
    d.freeChain fuel i ≠ none := by
  induction fuel generalizing d i with
  | zero => exact absurd h (Nat.not_lt_zero _)
  | succ fuel ih =>
    rw [Disk.freeChain]
    cases hf : d.freeDesc i with
    | error msg => simp
    | ok d' =>
      obtain ⟨hlt, hfree, rfl⟩ := freeDesc_ok hf
      -- The descriptor is in use before and not after.
      have hcard : (d.freed i).inUse.card < d.inUse.card := by
        refine Finset.card_lt_card (Finset.ssubset_iff_of_subset ?_ |>.mpr ⟨i, ?_, ?_⟩)
        · intro j hj
          simp only [Disk.inUse, freed_free, Finset.mem_filter] at hj ⊢
          by_cases hji : j = i
          · simp [hji] at hj
          · simpa [hji] using hj
        · simp [Disk.inUse, hlt, hfree]
        · simp [Disk.inUse, freed_free]
      simp only
      split
      · exact ih _ _ (by omega)
      · simp

/-- `free_chain` ends on every table, also where the chain is a cycle: it comes to the end of the
chain, or `free_desc` panics at a descriptor that is free. -/
theorem freeChain_ends (d : Disk β) (i : Nat) : d.freeChain (NUM + 1) i ≠ none :=
  freeChain_ne_none d i (Nat.lt_succ_of_le ((Finset.card_filter_le _ _).trans (by simp)))

/-- A chain of three descriptors in use. -/
structure Chain (d : Disk β) (i j k : Nat) : Prop where
  lt : i < NUM ∧ j < NUM ∧ k < NUM
  ne : i ≠ j ∧ i ≠ k ∧ j ≠ k
  used : d.free i = false ∧ d.free j = false ∧ d.free k = false
  head : (d.desc i).flags &&& VRING_DESC_F_NEXT ≠ 0 ∧ (d.desc i).next = j
  data : (d.desc j).flags &&& VRING_DESC_F_NEXT ≠ 0 ∧ (d.desc j).next = k
  last : (d.desc k).flags &&& VRING_DESC_F_NEXT = 0

theorem Chain.freeChain {j k fuel : Nat} (h : Chain d i j k) (hfuel : 3 ≤ fuel) :
    d.freeChain fuel i = some (.ok (((d.freed i).freed j).freed k)) := by
  obtain ⟨fuel, rfl⟩ := Nat.exists_eq_add_of_le' hfuel
  obtain ⟨hij, hik, hjk⟩ := h.ne
  have hj : (d.freed i).free j = false := by simp [freed_free, hij.symm, h.used.2.1]
  have hk : ((d.freed i).freed j).free k = false := by
    simp [freed_free, hik.symm, hjk.symm, h.used.2.2]
  have hdj : (d.freed i).desc j = d.desc j := by simp [freed_desc, hij.symm]
  have hdk : ((d.freed i).freed j).desc k = d.desc k := by simp [freed_desc, hik.symm, hjk.symm]
  rw [Disk.freeChain, freeDesc_of_used h.lt.1 h.used.1]
  simp only
  rw [if_pos h.head.1, h.head.2, Disk.freeChain, freeDesc_of_used h.lt.2.1 hj]
  simp only
  rw [hdj, if_pos h.data.1, h.data.2, Disk.freeChain, freeDesc_of_used h.lt.2.2 hk]
  simp only
  rw [hdk, if_neg (by simp [h.last])]

end Xv6.Virtio
