import Mathlib

/-! Rings of `N` slots under indices that wrap at a multiple `W` of `N`. -/

namespace Xv6

open Function

variable {α : Type*} {N W : Nat}

/-- What the `n` slots from index `lo` on hold. -/
def slots (N : Nat) (buf : Nat → α) (lo n : Nat) : List α :=
  (List.range n).map fun k => buf ((lo + k) % N)

@[simp] theorem length_slots (buf : Nat → α) (lo n : Nat) : (slots N buf lo n).length = n := by
  simp [slots]

@[simp] theorem slots_zero (buf : Nat → α) (lo : Nat) : slots N buf lo 0 = [] := rfl

theorem slots_succ (buf : Nat → α) (lo n : Nat) :
    slots N buf lo (n + 1) = slots N buf lo n ++ [buf ((lo + n) % N)] := by
  simp [slots, List.range_succ]

theorem slots_cons (buf : Nat → α) (lo n : Nat) :
    slots N buf lo (n + 1) = buf (lo % N) :: slots N buf (lo + 1) n := by
  simp [slots, List.range_succ_eq_map, Function.comp_def, add_assoc, add_comm 1]

theorem slots_append (buf : Nat → α) (lo m n : Nat) :
    slots N buf lo (m + n) = slots N buf lo m ++ slots N buf (lo + m) n := by
  simp [slots, List.range_add, Function.comp_def, add_assoc]

theorem mod_mod_add (hW : N ∣ W) (lo k : Nat) : (lo % W + k) % N = (lo + k) % N :=
  Nat.ModEq.add_right k (Nat.mod_mod_of_dvd lo hW)

theorem slots_mod (hW : N ∣ W) (buf : Nat → α) (lo n : Nat) :
    slots N buf (lo % W) n = slots N buf lo n := by
  simp [slots, mod_mod_add hW]

theorem slots_update {n m : Nat} (hn : n ≤ m) (hm : m < N) (buf : Nat → α) (lo : Nat) (x : α) :
    slots N (update buf ((lo + m) % N) x) lo n = slots N buf lo n := by
  refine List.map_congr_left fun k hk => update_of_ne (fun he => ?_) ..
  have hk := List.mem_range.mp hk
  have : k ≡ m [MOD N] := Nat.ModEq.add_left_cancel' lo he
  rw [Nat.ModEq, Nat.mod_eq_of_lt (by omega), Nat.mod_eq_of_lt hm] at this
  omega

theorem slots_push {n : Nat} (hn : n < N) (buf : Nat → α) (lo : Nat) (x : α) :
    slots N (update buf ((lo + n) % N) x) lo (n + 1) = slots N buf lo n ++ [x] := by
  rw [slots_succ, slots_update (le_refl n) hn, update_self]

/-- `hi - lo`, as indices that wrap at `W`. -/
def wsub (W hi lo : Nat) : Nat := (hi + (W - lo)) % W

theorem wsub_lt (hW : 0 < W) (hi lo : Nat) : wsub W hi lo < W := Nat.mod_lt _ hW

theorem add_wsub {hi lo : Nat} (hhi : hi < W) (hlo : lo < W) : (lo + wsub W hi lo) % W = hi := by
  rw [wsub, Nat.add_mod_mod, show lo + (hi + (W - lo)) = hi + W by omega, Nat.add_mod_right,
    Nat.mod_eq_of_lt hhi]

theorem add_wsub_mod {hi lo : Nat} (hW : N ∣ W) (hhi : hi < W) (hlo : lo < W) :
    (lo + wsub W hi lo) % N = hi % N := by
  rw [← Nat.mod_mod_of_dvd _ hW, add_wsub hhi hlo]

theorem wsub_add {lo n : Nat} (hlo : lo < W) (hn : n < W) : wsub W ((lo + n) % W) lo = n := by
  rw [wsub, Nat.mod_add_mod, show lo + n + (W - lo) = n + W by omega, Nat.add_mod_right,
    Nat.mod_eq_of_lt hn]

theorem wsub_eq_zero {hi lo : Nat} (hhi : hi < W) (hlo : lo < W) : wsub W hi lo = 0 ↔ hi = lo := by
  refine ⟨fun h => ?_, ?_⟩
  · have := add_wsub hhi hlo
    rwa [h, add_zero, Nat.mod_eq_of_lt hlo, eq_comm] at this
  · rintro rfl
    simpa [Nat.mod_eq_of_lt hhi] using wsub_add (n := 0) hhi (by omega)

theorem wsub_succ {hi lo : Nat} (hhi : hi < W) (hlo : lo < W) (h : wsub W hi lo + 1 < W) :
    wsub W ((hi + 1) % W) lo = wsub W hi lo + 1 := by
  have := wsub_add hlo h
  rwa [← add_assoc, ← Nat.mod_add_mod, add_wsub hhi hlo] at this

theorem wsub_pred {hi lo : Nat} (hhi : hi < W) (hlo : lo < W) (h : hi ≠ lo) :
    wsub W hi ((lo + 1) % W) + 1 = wsub W hi lo := by
  obtain ⟨n, hn⟩ := Nat.exists_eq_add_one_of_ne_zero (mt (wsub_eq_zero hhi hlo).mp h)
  have hlt := wsub_lt (W := W) (by omega) hi lo
  have hhi' : ((lo + 1) % W + n) % W = hi := by
    rw [Nat.mod_add_mod, add_assoc, add_comm 1, ← hn, add_wsub hhi hlo]
  rw [hn, ← hhi', wsub_add (Nat.mod_lt _ (by omega)) (by omega)]

theorem inc_dec {i : Nat} (hi : i < W) : ((i + 1) % W + (W - 1)) % W = i := by
  rw [Nat.mod_add_mod, show i + 1 + (W - 1) = i + W by omega, Nat.add_mod_right,
    Nat.mod_eq_of_lt hi]

end Xv6
