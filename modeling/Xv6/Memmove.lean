import Mathlib

/-! `memmove` of the kernel, `string.c`, and of the user library, `ulib.c`. The memory is the byte
at each address. -/

namespace Xv6

open Function

variable {α : Type}

/-- `while(n-- > 0) *d++ = *s++;` -/
def copyUp (mem : Int → α) (d s : Int) : Nat → Int → α
  | 0 => mem
  | n + 1 => copyUp (update mem d (mem s)) (d + 1) (s + 1) n

/-- `while(n-- > 0) *--d = *--s;` -/
def copyDown (mem : Int → α) (d s : Int) : Nat → Int → α
  | 0 => mem
  | n + 1 => copyDown (update mem (d - 1) (mem (s - 1))) (d - 1) (s - 1) n

def Kstring.memmove (mem : Int → α) (dst src : Int) (n : Nat) : Int → α :=
  if n = 0 then mem
  else if src < dst ∧ src + n > dst then copyDown mem (dst + n) (src + n) n
  else copyUp mem dst src n

/-- `n` is an `int` here, and the loops do nothing when it is negative. -/
def Ulib.memmove (mem : Int → α) (dst src n : Int) : Int → α :=
  if src > dst then copyUp mem dst src n.toNat
  else copyDown mem (dst + n) (src + n) n.toNat

/-- The memory after the range of `n` bytes at `src` has been copied to `dst` at once. -/
def moved (mem : Int → α) (dst src n : Int) : Int → α := fun a =>
  if dst ≤ a ∧ a < dst + n then mem (src + (a - dst)) else mem a

variable {mem : Int → α} {d s : Int} {n : Nat}

-- The bytes still to be read lie above the ones written, or the ranges are disjoint.
theorem copyUp_eq (h : d ≤ s ∨ s + n ≤ d) : copyUp mem d s n = moved mem d s n := by
  induction n generalizing mem d s with
  | zero =>
    funext a
    rw [copyUp, moved, if_neg (by omega)]
  | succ n ih =>
    rw [copyUp, ih (by omega)]
    funext a
    simp only [moved, update_apply]
    split_ifs <;> first | omega | (congr 1 <;> omega)

theorem copyDown_eq (h : s ≤ d) : copyDown mem (d + n) (s + n) n = moved mem d s n := by
  induction n generalizing mem with
  | zero =>
    funext a
    rw [copyDown, moved, if_neg (by omega)]
  | succ n ih =>
    have hd : d + (n + 1 : Nat) - 1 = d + n := by omega
    have hs : s + (n + 1 : Nat) - 1 = s + n := by omega
    rw [copyDown, hd, hs, ih]
    funext a
    simp only [moved, update_apply]
    split_ifs <;> first | omega | (congr 1 <;> omega)

/-- Whatever the overlap, the destination gets the old bytes of the source, and the rest stays. -/
theorem memmove_moved (mem : Int → α) (dst src : Int) :
    (∀ n : Nat, Kstring.memmove mem dst src n = moved mem dst src n) ∧
      ∀ n : Int, Ulib.memmove mem dst src n = moved mem dst src n := by
  constructor
  · intro n
    unfold Kstring.memmove
    split_ifs with h0 hover
    · subst h0
      exact copyUp_eq (n := 0) (by omega)
    · exact copyDown_eq (by omega)
    · exact copyUp_eq (by omega)
  · intro n
    unfold Ulib.memmove
    rcases Int.le_total 0 n with hn | hn
    · obtain ⟨n, rfl⟩ := Int.eq_ofNat_of_zero_le hn
      split_ifs with h
      · exact copyUp_eq (by omega)
      · exact copyDown_eq (by omega)
    · have : moved mem dst src n = mem := by
        funext a
        rw [moved, if_neg (by omega)]
      rw [Int.toNat_of_nonpos hn, this]
      split_ifs <;> rfl

end Xv6
