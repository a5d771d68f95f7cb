import Mathlib

/-! Memory as a function from addresses: stores of runs of values, and the digits of a number that
holds several of them. -/

namespace Xv6

section digits

variable {b w c i j : Nat}

/-- The digit `i` of `w` to base `b` is replaced by `c`. -/
def setDigit (b w i c : Nat) : Nat := w - w / b ^ i % b * b ^ i + c * b ^ i

theorem eq_digits (b w i : Nat) :
    w = (b * (w / b ^ i / b) + w / b ^ i % b) * b ^ i + w % b ^ i := by
  rw [Nat.div_add_mod, Nat.div_add_mod']

theorem setDigit_eq (b w i c : Nat) :
    setDigit b w i c = (b * (w / b ^ i / b) + c) * b ^ i + w % b ^ i := by
  have h := eq_digits b w i
  rw [add_mul] at h
  rw [setDigit, add_mul]
  generalize w % b ^ i = r at *
  omega

theorem setDigit_same (hb : 0 < b) (hc : c < b) : setDigit b w i c / b ^ i % b = c := by
  have hpos : 0 < b ^ i := Nat.pow_pos hb
  rw [setDigit_eq, add_comm, Nat.add_mul_div_right _ _ hpos,
    Nat.div_eq_of_lt (Nat.mod_lt _ hpos), zero_add, Nat.mul_add_mod, Nat.mod_eq_of_lt hc]

theorem setDigit_below (h : j < i) : setDigit b w i c / b ^ j % b = w / b ^ j % b := by
  obtain ⟨n, rfl⟩ : ∃ n, i = j + 1 + n := ⟨i - (j + 1), by omega⟩
  have hdvd : b ^ (j + 1) ∣ b ^ (j + 1 + n) := pow_dvd_pow b (Nat.le_add_right _ _)
  have hmod : setDigit b w (j + 1 + n) c % b ^ (j + 1) = w % b ^ (j + 1) := by
    rw [setDigit_eq]
    nth_rewrite 3 [eq_digits b w (j + 1 + n)]
    rw [Nat.add_mod, Nat.mod_eq_zero_of_dvd (Dvd.dvd.mul_left hdvd _), Nat.add_mod (_ * _),
      Nat.mod_eq_zero_of_dvd (Dvd.dvd.mul_left hdvd _)]
  rw [← Nat.mod_mul_right_div_self, ← Nat.mod_mul_right_div_self, ← pow_succ, hmod]

theorem setDigit_above (hc : c < b) (h : i < j) : setDigit b w i c / b ^ j % b = w / b ^ j % b := by
  obtain ⟨n, rfl⟩ : ∃ n, j = i + 1 + n := ⟨j - (i + 1), by omega⟩
  have hpos : 0 < b ^ i := Nat.pow_pos (Nat.lt_of_le_of_lt (Nat.zero_le c) hc)
  have hdiv : setDigit b w i c / b ^ i / b = w / b ^ i / b := by
    rw [setDigit_eq, add_comm, Nat.add_mul_div_right _ _ hpos,
      Nat.div_eq_of_lt (Nat.mod_lt _ hpos), zero_add, Nat.mul_add_div (by omega),
      Nat.div_eq_of_lt hc, add_zero]
  rw [show b ^ (i + 1 + n) = b ^ i * b * b ^ n by ring, ← Nat.div_div_eq_div_mul,
    ← Nat.div_div_eq_div_mul, hdiv, ← Nat.div_div_eq_div_mul, ← Nat.div_div_eq_div_mul]

theorem digit_setDigit (hc : c < b) :
    setDigit b w i c / b ^ j % b = if j = i then c else w / b ^ j % b := by
  split
  case isTrue h =>
    subst h
    exact setDigit_same (Nat.lt_of_le_of_lt (Nat.zero_le c) hc) hc
  case isFalse h =>
    rcases Nat.lt_or_gt_of_ne h with h | h
    · exact setDigit_below h
    · exact setDigit_above hc h

end digits

section put

variable {α : Type} {m : Nat → α} {a x : Nat} {bs : List α}

/-- Memory `m` after a store of `bs` from the address `a` on. -/
def put (m : Nat → α) (a : Nat) (bs : List α) : Nat → α := fun x =>
  if a ≤ x then bs[x - a]?.getD (m x) else m x

theorem put_inside (i : Nat) (h : i < bs.length) : put m a bs (a + i) = bs[i] := by
  rw [put, if_pos (Nat.le_add_right _ _), Nat.add_sub_cancel_left, List.getElem?_eq_getElem h]
  rfl

theorem put_outside (h : x < a ∨ a + bs.length ≤ x) : put m a bs x = m x := by
  unfold put
  split
  · rw [List.getElem?_eq_none (by omega)]
    rfl
  · rfl

@[simp] theorem put_nil (m : Nat → α) (a : Nat) : put m a [] = m := by
  funext x
  exact put_outside (lt_or_ge x a)

theorem put_head (m : Nat → α) (a : Nat) (b : α) (bs : List α) : put m a (b :: bs) a = b :=
  @put_inside _ m a (b :: bs) 0 (Nat.zero_lt_succ _)

theorem put_cons (m : Nat → α) (a : Nat) (b : α) (bs : List α) :
    put m a (b :: bs) = put (put m a [b]) (a + 1) bs := by
  funext x
  by_cases hx : a < x
  · obtain ⟨i, rfl⟩ : ∃ i, x = a + 1 + i := ⟨x - (a + 1), by omega⟩
    have hone : put m a [b] (a + 1 + i) = m (a + 1 + i) :=
      put_outside (.inr (by rw [List.length_singleton]; omega))
    rw [put, put, hone, if_pos (by omega), if_pos (by omega),
      show a + 1 + i - a = a + 1 + i - (a + 1) + 1 by omega, List.getElem?_cons_succ]
  · rw [put_outside (a := a + 1) (by omega)]
    by_cases he : x = a
    · subst he
      exact (put_head m x b bs).trans (put_head m x b []).symm
    · rw [put_outside (by omega), put_outside (by omega)]

theorem put_congr {m' : Nat → α} (h : m' x = m x) : put m' a bs x = put m a bs x := by
  rw [put, put, h]

theorem put_add (m : Nat → α) (d a : Nat) (bs : List α) (x : Nat) :
    put m (d + a) bs (d + x) = put (fun i => m (d + i)) a bs x := by
  simp [put, Nat.add_sub_add_left]

theorem put_append (m : Nat → α) (a : Nat) (bs cs : List α) :
    put (put m a bs) (a + bs.length) cs = put m a (bs ++ cs) := by
  induction bs generalizing m a with
  | nil => rw [put_nil, List.length_nil, add_zero, List.nil_append]
  | cons b bs ih =>
    rw [put_cons m a b bs, List.cons_append, put_cons m a b (bs ++ cs), ← ih, List.length_cons,
      show a + (bs.length + 1) = a + 1 + bs.length by omega]

end put

end Xv6
