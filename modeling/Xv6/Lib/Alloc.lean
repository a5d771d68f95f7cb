import Mathlib

/-! An allocator that marks the units in use, and the slots that refer to the units it has handed
out. A slot that holds `0` refers to nothing. -/

namespace Xv6

open Function

variable {ι : Type*} {lo n : Nat} {used : Nat → Bool} {slot : ι → Nat}

/-- Below `n`, exactly the units below `lo` and those that a slot refers to are marked, and no two
slots refer to one unit. -/
structure Tracks (lo n : Nat) (used : Nat → Bool) (slot : ι → Nat) : Prop where
  pos : 0 < lo
  range : ∀ p, slot p ≠ 0 → lo ≤ slot p ∧ slot p < n
  unique : ∀ p q, slot p ≠ 0 → slot p = slot q → p = q
  marked : ∀ b < n, used b = true ↔ b < lo ∨ ∃ p, slot p ≠ 0 ∧ slot p = b

/-- How many of the units below `n` are not marked. -/
def freeUnits (n : Nat) (used : Nat → Bool) : Nat := {b ∈ Finset.range n | used b = false}.card

theorem freeUnits_pos {b : Nat} (hb : b < n) (hfree : used b = false) : 0 < freeUnits n used :=
  Finset.card_pos.mpr ⟨b, by simp [hb, hfree]⟩

theorem exists_of_freeUnits_pos (h : 0 < freeUnits n used) : ∃ b < n, used b = false := by
  obtain ⟨b, hb⟩ := Finset.card_pos.mp h
  exact ⟨b, by simpa using hb⟩

theorem freeUnits_congr {used' : Nat → Bool} (h : ∀ b < n, used' b = used b) :
    freeUnits n used' = freeUnits n used := by
  unfold freeUnits
  congr 1
  refine Finset.filter_congr fun b hb => ?_
  rw [h b (Finset.mem_range.mp hb)]

theorem freeUnits_mark {b : Nat} (hb : b < n) (hfree : used b = false) :
    freeUnits n (update used b true) + 1 = freeUnits n used := by
  have hmem : b ∈ ({c ∈ Finset.range n | used c = false} : Finset Nat) := by simp [hb, hfree]
  have herase : ({c ∈ Finset.range n | update used b true c = false} : Finset Nat) =
      ({c ∈ Finset.range n | used c = false} : Finset Nat).erase b := by
    ext c
    rcases eq_or_ne c b with rfl | hc
    · simp
    · simp [hc]
  rw [freeUnits, herase, Finset.card_erase_add_one hmem, freeUnits]

namespace Tracks

theorem congr {used' : Nat → Bool} {slot' : ι → Nat} (h : Tracks lo n used slot)
    (hu : ∀ b < n, used' b = used b) (hs : ∀ p, slot' p = slot p) : Tracks lo n used' slot' := by
  have hslot : slot' = slot := funext hs
  subst hslot
  exact ⟨h.pos, h.range, h.unique, fun b hb => by rw [hu b hb, h.marked b hb]⟩

theorem used_slot (h : Tracks lo n used slot) {p : ι} (hp : slot p ≠ 0) :
    used (slot p) = true :=
  (h.marked _ (h.range p hp).2).mpr (.inr ⟨p, hp, rfl⟩)

theorem lo_le_of_free (h : Tracks lo n used slot) {b : Nat} (hb : b < n) (hfree : used b = false) :
    lo ≤ b := by
  by_contra hlo
  rw [(h.marked b hb).mpr (.inl (by omega))] at hfree
  cases hfree

theorem ne_of_free (h : Tracks lo n used slot) {b : Nat} (hb : b < n) (hfree : used b = false)
    (p : ι) : slot p ≠ b := by
  intro hp
  have hpos : slot p ≠ 0 := by
    have := h.lo_le_of_free hb hfree
    have := h.pos
    omega
  rw [(h.marked b hb).mpr (.inr ⟨p, hpos, hp⟩)] at hfree
  cases hfree

variable [DecidableEq ι]

theorem take (h : Tracks lo n used slot) {b : Nat} {p : ι} (hb : b < n) (hfree : used b = false)
    (hp : slot p = 0) : Tracks lo n (update used b true) (update slot p b) := by
  have hlo := h.lo_le_of_free hb hfree
  have hne := h.ne_of_free hb hfree
  have hpos := h.pos
  refine ⟨h.pos, fun q hq => ?_, fun q r hq hqr => ?_, fun c hc => ?_⟩
  · rcases eq_or_ne q p with rfl | hqp
    · simpa using ⟨hlo, hb⟩
    · rw [update_of_ne hqp] at hq ⊢
      exact h.range q hq
  · by_cases hqp : q = p <;> by_cases hrp : r = p
    · rw [hqp, hrp]
    · rw [hqp, update_self, update_of_ne hrp] at hqr
      exact absurd hqr.symm (hne r)
    · rw [hrp, update_self, update_of_ne hqp] at hqr
      exact absurd hqr (hne q)
    · rw [update_of_ne hqp] at hq hqr
      rw [update_of_ne hrp] at hqr
      exact h.unique q r hq hqr
  · rcases eq_or_ne c b with rfl | hcb
    · simp only [update_self, true_iff]
      exact .inr ⟨p, by rw [update_self]; omega, update_self ..⟩
    rw [update_of_ne hcb, h.marked c hc]
    refine or_congr Iff.rfl ⟨fun ⟨q, hq, hqc⟩ => ⟨q, ?_⟩, fun ⟨q, hq, hqc⟩ => ⟨q, ?_⟩⟩
    · rw [update_of_ne (by rintro rfl; exact hq hp)]
      exact ⟨hq, hqc⟩
    · have hqp : q ≠ p := by
        rintro rfl
        exact hcb (by rw [← hqc, update_self])
      rw [update_of_ne hqp] at hq hqc
      exact ⟨hq, hqc⟩

theorem release (h : Tracks lo n used slot) {p : ι} (hp : slot p ≠ 0) :
    Tracks lo n (update used (slot p) false) (update slot p 0) := by
  have hne : ∀ q, update slot p 0 q ≠ 0 → q ≠ p := by
    rintro q hq rfl
    exact hq (update_self ..)
  refine ⟨h.pos, fun q hq => ?_, fun q r hq hqr => ?_, fun c hc => ?_⟩
  · have hqp := hne q hq
    rw [update_of_ne hqp] at hq ⊢
    exact h.range q hq
  · have hqp := hne q hq
    have hr := hne r (hqr ▸ hq)
    rw [update_of_ne hqp] at hq hqr
    rw [update_of_ne hr] at hqr
    exact h.unique q r hq hqr
  · rcases eq_or_ne c (slot p) with rfl | hcb
    · have hlo := (h.range p hp).1
      simp only [update_self, Bool.false_eq_true, false_iff, not_or, not_lt, not_exists, not_and]
      refine ⟨hlo, fun q hq hqp => ?_⟩
      have hqp' := hne q hq
      rw [update_of_ne hqp'] at hq hqp
      exact hqp' (h.unique q p hq hqp)
    · rw [update_of_ne hcb, h.marked c hc]
      refine or_congr Iff.rfl ⟨fun ⟨q, hq, hqc⟩ => ⟨q, ?_⟩, fun ⟨q, hq, hqc⟩ => ⟨q, ?_⟩⟩
      · rw [update_of_ne (by rintro rfl; exact hcb hqc.symm)]
        exact ⟨hq, hqc⟩
      · have hqp := hne q hq
        rw [update_of_ne hqp] at hq hqc
        exact ⟨hq, hqc⟩

end Tracks

end Xv6
