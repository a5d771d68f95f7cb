import Mathlib

/-! The matcher of `grep.c` and what the patterns mean. A string is its characters before the NUL.
-/

namespace Xv6.Grep

open Language

abbrev Text := List Char

/-- `c` is a character of the pattern and `x` one of the text. -/
def same (c x : Char) : Bool := x = c || c = '.'

/-- `matchhere`, with the rest of the pattern, is tried after each prefix that `c*` can take. -/
def matchstar (c : Char) (matchhere : Text → Bool) : Text → Bool
  | [] => matchhere []
  | x :: text => matchhere (x :: text) || same c x && matchstar c matchhere text

def matchhere : Text → Text → Bool
  | [], _ => true
  | c :: '*' :: re, text => matchstar c (matchhere re) text
  | ['$'], text => text.isEmpty
  | _ :: _, [] => false
  | c :: re, x :: text => same c x && matchhere re text

/-- The loop of `match`, which looks at the empty string too. -/
def matchFrom (re : Text) : Text → Bool
  | [] => matchhere re []
  | x :: text => matchhere re (x :: text) || matchFrom re text

/-- `match`, which is a keyword here. -/
def matchText : Text → Text → Bool
  | '^' :: re, text => matchhere re text
  | re, text => matchFrom re text

inductive Item
  | star (c : Char)
  | one (c : Char)

/-- The pattern without its leading `^`, and whether it has one. -/
def anchor : Text → Text × Bool
  | '^' :: re => (re, true)
  | re => (re, false)

/-- The items of a pattern without its `^`, and whether it ends in the item `$`. -/
def items : Text → List Item × Bool
  | [] => ([], false)
  | c :: '*' :: re => (.star c :: (items re).1, (items re).2)
  | ['$'] => ([], true)
  | c :: re => (.one c :: (items re).1, (items re).2)

/-- The words of one item without a `*`: any one character for `.`, else the character itself. -/
def char (c : Char) : Language Char := {w | if c = '.' then w.length = 1 else w = [c]}

def Item.lang : Item → Language Char
  | .star c => KStar.kstar (char c)
  | .one c => char c

def lang (l : List Item) : Language Char := (l.map Item.lang).prod

/-- `text` starts with a word of the pattern, which is all of it if the pattern ends in `$`. -/
def Starts (p : List Item × Bool) (text : Text) : Prop :=
  ∃ w post, text = w ++ post ∧ w ∈ lang p.1 ∧ (p.2 → post = [])

variable {c : Char} {re text : Text} {l : List Item} {dollar : Bool}

theorem mem_char {w : Text} : w ∈ char c ↔ ∃ x, same c x ∧ w = [x] := by
  change (if c = '.' then w.length = 1 else w = [c]) ↔ _
  split
  next hc => simp [same, hc, List.length_eq_one_iff]
  next hc => simp [same, hc]

theorem starts_one : Starts (.one c :: l, dollar) text ↔
    ∃ x rest, text = x :: rest ∧ same c x ∧ Starts (l, dollar) rest := by
  constructor
  · rintro ⟨_, post, rfl, hw, hpost⟩
    obtain ⟨_, hchar, w, hw', rfl⟩ := mem_mul.mp hw
    obtain ⟨x, hx, rfl⟩ := mem_char.mp hchar
    exact ⟨x, w ++ post, rfl, hx, w, post, rfl, hw', hpost⟩
  · rintro ⟨x, _, rfl, hx, w, post, rfl, hw, hpost⟩
    exact ⟨x :: w, post, rfl, mem_mul.mpr ⟨[x], mem_char.mpr ⟨x, hx, rfl⟩, w, hw, rfl⟩, hpost⟩

theorem starts_star : Starts (.star c :: l, dollar) text ↔ Starts (l, dollar) text ∨
    ∃ x rest, text = x :: rest ∧ same c x ∧ Starts (.star c :: l, dollar) rest := by
  have hlang : lang (.star c :: l) = lang l + lang (.one c :: .star c :: l) := by
    have := one_add_self_mul_kstar_eq_kstar (char c)
    simp only [lang, List.map_cons, List.prod_cons, Item.lang]
    nth_rewrite 1 [← this]
    rw [add_mul, one_mul, mul_assoc]
  rw [← starts_one]
  simp only [Starts, hlang, mem_add]
  grind

theorem matchstar_iff (h : ∀ text, matchhere re text ↔ Starts (l, dollar) text) :
    matchstar c (matchhere re) text ↔ Starts (.star c :: l, dollar) text := by
  induction text with
  | nil =>
    rw [starts_star, matchstar, h]
    simp
  | cons x text ih =>
    rw [starts_star, matchstar, Bool.or_eq_true, h, Bool.and_eq_true, ih]
    simp

theorem matchhere_iff : matchhere re text ↔ Starts (items re) text := by
  fun_induction items re generalizing text with
  | case1 => simp [matchhere, Starts, lang]
  | case2 c re ih => exact matchstar_iff fun _ => ih
  | case3 => cases text <;> simp [matchhere, Starts, lang]
  | case4 c re hstar hdollar ih =>
    rw [starts_one]
    cases text with
    | nil => simp [matchhere]
    | cons x text => simp [matchhere, ih]

theorem matchFrom_iff : matchFrom re text ↔
    ∃ pre rest, text = pre ++ rest ∧ Starts (items re) rest := by
  induction text with
  | nil => simp [matchFrom, matchhere_iff]
  | cons x text ih =>
    rw [matchFrom, Bool.or_eq_true, matchhere_iff, ih]
    constructor
    · rintro (h | ⟨pre, rest, rfl, h⟩)
      · exact ⟨[], _, rfl, h⟩
      · exact ⟨x :: pre, rest, rfl, h⟩
    · rintro ⟨_ | ⟨y, pre⟩, rest, he, h⟩
      · exact .inl (he ▸ h)
      · cases he
        exact .inr ⟨pre, rest, rfl, h⟩

/-- `match` finds a substring in the language of the items, at the ends that `^` and `$` ask for. -/
theorem matchText_iff (re text : Text) : matchText re text ↔ ∃ pre w post,
    text = pre ++ (w ++ post) ∧ w ∈ lang (items (anchor re).1).1 ∧
      ((anchor re).2 → pre = []) ∧ ((items (anchor re).1).2 → post = []) := by
  fun_cases matchText re text with
  | case1 re =>
    rw [matchhere_iff]
    constructor
    · rintro ⟨w, post, he, hw, hpost⟩
      exact ⟨[], w, post, he, hw, fun _ => rfl, hpost⟩
    · rintro ⟨pre, w, post, he, hw, hpre, hpost⟩
      obtain rfl := hpre rfl
      exact ⟨w, post, he, hw, hpost⟩
  | case2 =>
    have hanchor : anchor re = (re, false) := by
      rw [anchor]
      assumption
    rw [matchFrom_iff, hanchor]
    constructor
    · rintro ⟨pre, _, rfl, w, post, rfl, hw, hpost⟩
      exact ⟨pre, w, post, rfl, hw, nofun, hpost⟩
    · rintro ⟨pre, w, post, rfl, hw, -, hpost⟩
      exact ⟨pre, w ++ post, rfl, w, post, rfl, hw, hpost⟩

/-- `a.*c$` matches `xabbc`, which ends in a word of `a.*c`, and does not match `xabcb`. -/
theorem matchText_iff_dotStar :
    (∃ pre w, ['x', 'a', 'b', 'b', 'c'] = pre ++ w ∧
      w ∈ lang [.one 'a', .star '.', .one 'c']) ∧
    ¬∃ pre w, ['x', 'a', 'b', 'c', 'b'] = pre ++ w ∧
      w ∈ lang [.one 'a', .star '.', .one 'c'] := by
  constructor
  · obtain ⟨pre, w, post, he, hw, -, hpost⟩ :=
      (matchText_iff ['a', '.', '*', 'c', '$'] ['x', 'a', 'b', 'b', 'c']).mp (by decide)
    obtain rfl := hpost rfl
    exact ⟨pre, w, by rwa [List.append_nil] at he, hw⟩
  · rintro ⟨pre, w, he, hw⟩
    have hmatch : ¬matchText ['a', '.', '*', 'c', '$'] ['x', 'a', 'b', 'c', 'b'] := by decide
    refine hmatch ((matchText_iff _ _).mpr ⟨pre, w, [], ?_, hw, by simp [anchor], fun _ => rfl⟩)
    rw [List.append_nil, he]

end Xv6.Grep
