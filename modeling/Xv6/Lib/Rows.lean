import Mathlib

/-! A finite map kept as a table of rows, in no order and with rows that are free. -/

namespace Xv6

open Function

variable {ι κ ν : Type*}

/-- The rows hold the map `m`, each key in one row. -/
structure Stores (rows : ι → Option (κ × ν)) (m : κ → Option ν) : Prop where
  unique : ∀ j k key v w, rows j = some (key, v) → rows k = some (key, w) → j = k
  holds : ∀ key v, m key = some v ↔ ∃ j, rows j = some (key, v)

namespace Stores

variable {rows : ι → Option (κ × ν)} {m : κ → Option ν} {j k : ι} {key : κ} {v : ν}

theorem lookup (h : Stores rows m) (hj : rows j = some (key, v)) : m key = some v :=
  (h.holds key v).mpr ⟨j, hj⟩

theorem absent (h : Stores rows m) (hnone : ∀ j v, rows j ≠ some (key, v)) : m key = none := by
  cases hm : m key with
  | none => rfl
  | some v =>
    obtain ⟨j, hj⟩ := (h.holds key v).mp hm
    exact absurd hj (hnone j v)

theorem ne_of_absent (h : Stores rows m) (hnone : m key = none) (j : ι) (v : ν) :
    rows j ≠ some (key, v) := by
  intro hj
  rw [h.lookup hj] at hnone
  cases hnone

variable [DecidableEq ι] [DecidableEq κ]

theorem put (h : Stores rows m) (hk : rows k = none) (hnew : m key = none) :
    Stores (update rows k (some (key, v))) (update m key (some v)) := by
  refine ⟨fun i j key' w w' hi hj => ?_, fun key' w => ?_⟩
  · by_cases hik : i = k <;> by_cases hjk : j = k
    · rw [hik, hjk]
    · rw [hik, update_self, Option.some.injEq, Prod.mk.injEq] at hi
      rw [update_of_ne hjk, ← hi.1] at hj
      exact absurd hj (h.ne_of_absent hnew j w')
    · rw [hjk, update_self, Option.some.injEq, Prod.mk.injEq] at hj
      rw [update_of_ne hik, ← hj.1] at hi
      exact absurd hi (h.ne_of_absent hnew i w)
    · rw [update_of_ne hik] at hi
      rw [update_of_ne hjk] at hj
      exact h.unique i j key' w w' hi hj
  · by_cases hkey : key' = key
    · rw [hkey, update_self, Option.some.injEq]
      constructor
      · rintro rfl
        exact ⟨k, update_self ..⟩
      · rintro ⟨j, hj⟩
        by_cases hjk : j = k
        · rw [hjk, update_self, Option.some.injEq, Prod.mk.injEq] at hj
          exact hj.2
        · rw [update_of_ne hjk] at hj
          exact absurd hj (h.ne_of_absent hnew j w)
    · rw [update_of_ne hkey, h.holds key' w]
      refine exists_congr fun j => ?_
      by_cases hjk : j = k
      · rw [hjk, update_self, hk, Option.some.injEq, Prod.mk.injEq]
        exact ⟨nofun, fun he => absurd he.1.symm hkey⟩
      · rw [update_of_ne hjk]

theorem clear (h : Stores rows m) (hk : rows k = some (key, v)) :
    Stores (update rows k none) (update m key none) := by
  have hne : ∀ j key' w, update rows k none j = some (key', w) → j ≠ k := by
    rintro j key' w hj rfl
    rw [update_self] at hj
    cases hj
  refine ⟨fun i j key' w w' hi hj => ?_, fun key' w => ?_⟩
  · have hik := hne i key' w hi
    have hjk := hne j key' w' hj
    rw [update_of_ne hik] at hi
    rw [update_of_ne hjk] at hj
    exact h.unique i j key' w w' hi hj
  by_cases hkey : key' = key
  · rw [hkey, update_self]
    refine ⟨nofun, fun ⟨j, hj⟩ => ?_⟩
    have hjk := hne j key w hj
    rw [update_of_ne hjk] at hj
    exact absurd (h.unique j k key w v hj hk) hjk
  · rw [update_of_ne hkey, h.holds key' w]
    refine exists_congr fun j => ?_
    by_cases hjk : j = k
    · rw [hjk, update_self, hk, Option.some.injEq, Prod.mk.injEq]
      exact ⟨fun he => absurd he.1.symm hkey, nofun⟩
    · rw [update_of_ne hjk]

end Stores

end Xv6
