import Mathlib

/-! `printint` of the kernel, `printk.c`, and of the user library, `printf.c`. The characters in
`buf` stand last first, as the loop at the end puts them out; `none` is an access outside `buf` or
`digits`. -/

namespace Xv6

/-- `do { buf[i++] = digits[x % base]; } while ((x /= base) != 0);` with `room` places left in
`buf`, and the places left after it. -/
def digitLoop (digits : List Char) (base : Nat) : Nat → Nat → List Char → Option (List Char × Nat)
  | 0, _, _ => none
  | room + 1, x, buf => do
    let c ← digits[x % base]?
    if x / base ≠ 0 then digitLoop digits base room (x / base) (c :: buf)
    else return (c :: buf, room)

/-- What the two versions of `printint` do from `i = 0` on. -/
def putDigits (digits : List Char) (base : Nat) (neg : Bool) (x : BitVec 64) :
    Option (List Char) := do
  let (buf, room) ← digitLoop digits base 20 x.toNat []
  if neg then
    if room = 0 then none else return '-' :: buf
  else return buf

def Printk.digits : List Char := "0123456789abcdef".toList

def Printk.printint (xx : BitVec 64) (base : Nat) (sign : Bool) : Option (List Char) :=
  -- `sign` is assigned in the test
  let sign := sign && xx.slt 0
  putDigits digits base sign (if sign then -xx else xx)

def Printf.digits : List Char := "0123456789ABCDEF".toList

def Printf.printint (xx : BitVec 64) (base : Nat) (sgn : Bool) : Option (List Char) :=
  if sgn && xx.slt 0 then putDigits digits base true (-xx) else putDigits digits base false xx

/-- The number that an argument stands for. -/
def argument (sign : Bool) (xx : BitVec 64) : Int := if sign then xx.toInt else xx.toNat

def numeral (base : Nat) (v : Int) : List Char :=
  if v < 0 then '-' :: Nat.toDigits base v.natAbs else Nat.toDigits base v.natAbs

def digitValue (c : Char) : Nat := if c.isDigit then c.toNat - 48 else c.toLower.toNat - 87

/-- The number that a text stands for. -/
def parse (base : Nat) : List Char → Int
  | '-' :: text => -(text.foldl (fun n c => base * n + digitValue c) 0 : Nat)
  | text => (text.foldl (fun n c => base * n + digitValue c) 0 : Nat)

theorem toDigits_head {base : Nat} (hb : 1 < base) (n : Nat) : ∃ d l,
    Nat.toDigits base n = d.digitChar :: l ∧ d < base ∧ (d = 0 → n = 0) := by
  induction n using Nat.strong_induction_on with
  | _ n ih =>
    rw [Nat.toDigits_eq_if hb]
    by_cases hn : n < base
    · exact ⟨n, [], if_pos hn, hn, id⟩
    · obtain ⟨d, l, hl, hlt, hzero⟩ := ih (n / base) (Nat.div_lt_self (by omega) hb)
      have hpos := Nat.div_pos (Nat.le_of_not_lt hn) (by omega)
      exact ⟨d, l ++ [(n % base).digitChar], by simp [hn, hl], hlt, by omega⟩

section

-- `digits` has the characters `f '0'`, `f '1'` and so on, which stand for their places.
variable {digits : List Char} {f : Char → Char} {base : Nat} (hb : 1 < base)
  (hd : ∀ d < base, digits[d]? = some (f d.digitChar) ∧ digitValue (f d.digitChar) = d ∧
    f d.digitChar ≠ '-')

include hb hd

-- Each round puts the last digit of `x` before the ones that are there.
theorem digitLoop_eq {room x : Nat} {buf : List Char}
    (hroom : (Nat.toDigits base x).length ≤ room) :
    digitLoop digits base room x buf = some ((Nat.toDigits base x).map f ++ buf,
      room - (Nat.toDigits base x).length) := by
  induction room generalizing x buf with
  | zero => exact absurd (List.length_eq_zero_iff.mp (Nat.le_zero.mp hroom)) Nat.toDigits_ne_nil
  | succ room ih =>
    rw [Nat.toDigits_eq_if hb] at hroom ⊢
    simp only [digitLoop, (hd _ (Nat.mod_lt x (by omega))).1, Option.bind_eq_bind, Option.bind_some]
    by_cases hx : x < base
    · rw [if_neg (by rw [Nat.div_eq_of_lt hx]; simp), if_pos hx, Nat.mod_eq_of_lt hx]
      rfl
    · rw [if_neg hx] at hroom ⊢
      rw [if_pos (Nat.ne_of_gt (Nat.div_pos (by omega) (by omega))), ih (by simpa using hroom)]
      simp

theorem putDigits_eq (hf : f '-' = '-') {v : Int} {x : BitVec 64} (hx : v.natAbs = x.toNat)
    (hlen : (numeral base v).length ≤ 20) :
    putDigits digits base (decide (v < 0)) x = some ((numeral base v).map f) := by
  unfold numeral at hlen ⊢
  split_ifs at hlen with hv
  · rw [hx, List.length_cons] at hlen
    rw [putDigits, digitLoop_eq hb hd (by omega), if_pos hv, hx]
    have hroom : 20 - (Nat.toDigits base x.toNat).length ≠ 0 := by omega
    simp [hv, hf, hroom]
  · rw [hx] at hlen
    rw [putDigits, digitLoop_eq hb hd hlen, if_neg hv, hx]
    simp [hv]

theorem foldl_digits (n : Nat) :
    ((Nat.toDigits base n).map f).foldl (fun n c => base * n + digitValue c) 0 = n := by
  induction n using Nat.strong_induction_on with
  | _ n ih =>
    rw [Nat.toDigits_eq_if hb]
    by_cases hn : n < base
    · simp [hn, (hd n hn).2.1]
    · rw [if_neg hn, List.map_append, List.foldl_append, ih _ (Nat.div_lt_self (by omega) hb)]
      simp [(hd _ (Nat.mod_lt n (by omega))).2.1, Nat.div_add_mod]

theorem parse_numeral (hf : f '-' = '-') (v : Int) :
    parse base ((numeral base v).map f) = v := by
  have hfold := foldl_digits hb hd v.natAbs
  unfold numeral
  by_cases hv : v < 0
  · rw [if_pos hv, List.map_cons, hf, parse, hfold]
    omega
  · obtain ⟨d, l, hl, hlt, -⟩ := toDigits_head hb v.natAbs
    rw [if_neg hv]
    rw [hl, List.map_cons] at hfold ⊢
    rw [parse, hfold]
    · omega
    · exact fun text h => (hd d hlt).2.2 (List.cons.inj h).1

end

theorem argument_neg (sign : Bool) (xx : BitVec 64) :
    (sign && xx.slt 0) = decide (argument sign xx < 0) ∧
      (argument sign xx).natAbs = (if sign && xx.slt 0 then -xx else xx).toNat ∧
      argument sign xx < 10 ^ 20 ∧ -10 ^ 19 < argument sign xx := by
  have := xx.isLt
  cases sign with
  | false => simp [argument]; omega
  | true =>
    have hint := xx.toInt_eq_toNat_cond
    by_cases h : xx.toInt < 0 <;> simp [argument, BitVec.slt, h] <;> split_ifs at hint <;> omega

theorem length_numeral {base : Nat} (hb : 10 ≤ base) {v : Int} (hle : v < 10 ^ 20)
    (hge : -10 ^ 19 < v) : (numeral base v).length ≤ 20 := by
  have hlen : ∀ k, 0 < k → v.natAbs < 10 ^ k → (Nat.toDigits base v.natAbs).length ≤ k :=
    fun k hk hv => (Nat.length_toDigits_le_iff (by omega) hk).mpr
      (Nat.lt_of_lt_of_le hv (Nat.pow_le_pow_left hb k))
  unfold numeral
  split_ifs with hv
  · exact Nat.succ_le_succ (hlen 19 (by decide) (by omega))
  · exact hlen 20 (by decide) (by omega)

/-- The text is the numeral of the argument, it fits in `buf`, and it can be read back. -/
theorem printint_numeral (xx : BitVec 64) {base : Nat} {sign : Bool}
    (h : base = 10 ∨ base = 16 ∧ sign = false) :
    let v := argument sign xx
    let text := numeral base v
    Printk.printint xx base sign = some text ∧
      Printf.printint xx base sign = some (text.map Char.toUpper) ∧ text.length ≤ 20 ∧
      ((Nat.toDigits base v.natAbs).head? = some '0' → v = 0) ∧
      parse base text = v ∧ parse base (text.map Char.toUpper) = v := by
  intro v text
  have hb : 1 < base := by omega
  obtain ⟨hneg, habs, hle, hge⟩ := argument_neg sign xx
  have hlen : text.length ≤ 20 := length_numeral (by omega) hle hge
  have hk : ∀ d < base, Printk.digits[d]? = some (id d.digitChar) ∧
      digitValue (id d.digitChar) = d ∧ id d.digitChar ≠ '-' := by
    rcases h with rfl | ⟨rfl, -⟩ <;> decide +kernel
  have hu : ∀ d < base, Printf.digits[d]? = some d.digitChar.toUpper ∧
      digitValue d.digitChar.toUpper = d ∧ d.digitChar.toUpper ≠ '-' := by
    rcases h with rfl | ⟨rfl, -⟩ <;> decide +kernel
  refine ⟨?_, ?_, hlen, fun hhead => ?_, ?_, parse_numeral hb hu rfl v⟩
  · have := putDigits_eq hb hk rfl habs hlen
    rwa [List.map_id, ← hneg] at this
  · rw [← putDigits_eq hb hu rfl habs hlen, ← hneg, Printf.printint]
    cases sign && xx.slt 0 <;> rfl
  · obtain ⟨d, l, hl, hlt, hzero⟩ := toDigits_head hb v.natAbs
    rw [hl] at hhead
    have hd := (hk d hlt).2.1
    rw [id, Option.some.inj hhead] at hd
    exact Int.natAbs_eq_zero.mp (hzero hd.symm)
  · have := parse_numeral hb hk rfl v
    rwa [List.map_id] at this

theorem printint_numeral_min :
    Printk.printint (BitVec.ofInt 64 (-2 ^ 63)) 10 true = some "-9223372036854775808".toList :=
  (printint_numeral _ (.inl rfl)).1.trans (by decide +kernel)

end Xv6
