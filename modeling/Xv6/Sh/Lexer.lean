import Xv6.Sh.Parser

/-! The input as a list of tokens, cut by `gettoken`: what `peek` and `gettoken` see of it. -/

namespace Xv6.Sh

/-- A word, or a symbol as `gettoken` returns it. -/
inductive Tok
  | sym (c : Char)
  | word (w : Text)
  deriving DecidableEq

def tokOf (ret : Char) (w : Text) : Tok := if ret = 'a' then .word w else .sym ret

def singles : Text := ['|', '(', ')', ';', '&', '<']

variable {s r w : Text} {c ret : Char}

theorem forall_mem_of_all {P : Char → Prop} [DecidablePred P]
    (h : s.all (fun c => decide (P c)) = true) : ∀ c ∈ s, P c :=
  fun c hc => of_decide_eq_true (List.all_eq_true.mp h c hc)

theorem length_skip_le (s : Text) : (skip s).length ≤ s.length :=
  (List.dropWhile_suffix _).length_le

theorem skip_head (hs : skip s = c :: r) : c ∉ whitespace := by
  have h := List.head?_dropWhile_not (fun c => decide (c ∈ whitespace)) s
  unfold skip at hs
  rw [hs] at h
  simpa using h

theorem skip_cons (h : c ∉ whitespace) : skip (c :: s) = c :: s := by simp [skip, h]

theorem skip_skip (s : Text) : skip (skip s) = skip s := by
  cases hs : skip s with
  | nil => rfl
  | cons c r => exact skip_cons (skip_head hs)

/-- What `gettoken` does at a character. -/
inductive Cut : Text → Char → Text → Text → Prop
  | finish : Cut [] '\x00' [] []
  | nul {cs} : Cut ('\x00' :: cs) '\x00' [] ('\x00' :: cs)
  | single {c cs} (h : c ∈ singles) : Cut (c :: cs) c [c] (skip cs)
  | append {cs} : Cut ('>' :: '>' :: cs) '+' ['>', '>'] (skip cs)
  | trunc {cs} (h : cs.head? ≠ some '>') : Cut ('>' :: cs) '>' ['>'] (skip cs)
  | word {c cs} (h : inWord c = true) (h0 : c ≠ '\x00') :
      Cut (c :: cs) 'a' (c :: cs.takeWhile inWord) (skip (cs.dropWhile inWord))

theorem gettoken_cut (s : Text) :
    Cut (skip s) (gettoken s).1 (gettoken s).2.1 (gettoken s).2.2 := by
  unfold gettoken
  cases hs : skip s with
  | nil => exact .finish
  | cons c cs =>
    dsimp only
    have hc := skip_head hs
    by_cases h0 : c = '\x00'
    · rw [if_pos h0, h0]
      exact .nul
    rw [if_neg h0]
    by_cases h1 : c = '|' ∨ c = '(' ∨ c = ')' ∨ c = ';' ∨ c = '&' ∨ c = '<'
    · rw [if_pos h1]
      exact .single (by simpa [singles] using h1)
    rw [if_neg h1]
    split_ifs with h2
    · rw [h2]
      split
      · exact .append
      · rename_i hne
        refine .trunc fun he => ?_
        cases cs with
        | nil => cases he
        | cons d cs => exact hne cs (by rw [Option.some.inj he])
    · have hw : inWord c = true := by
        simp only [not_or] at h1
        simp [inWord, hc, symbols, h1, h2]
      rw [List.takeWhile_cons, List.dropWhile_cons, if_pos hw, if_pos hw]
      exact .word hw h0

theorem Cut.shorter (h : Cut s ret w r) (h0 : ret ≠ '\x00') : r.length < s.length := by
  have hskip : ∀ cs : Text, (skip cs).length < cs.length + 1 := fun cs =>
    Nat.lt_succ_of_le (length_skip_le cs)
  cases h with
  | finish => exact absurd rfl h0
  | nul => exact absurd rfl h0
  | single => exact hskip _
  | append => exact Nat.lt_succ_of_lt (hskip _)
  | trunc => exact hskip _
  | @word c cs =>
    exact Nat.lt_of_lt_of_le (hskip _) (Nat.succ_le_succ (List.dropWhile_suffix _).length_le)

theorem gettoken_shorter (h : (gettoken s).1 ≠ '\x00') : (gettoken s).2.2.length < s.length :=
  Nat.lt_of_lt_of_le ((gettoken_cut s).shorter h) (length_skip_le s)

def lex (s : Text) : List Tok :=
  if skip s = [] then []
  else if _h : (gettoken s).1 = '\x00' then [.sym '\x00']
  else tokOf (gettoken s).1 (gettoken s).2.1 :: lex (gettoken s).2.2
termination_by s.length
decreasing_by exact gettoken_shorter _h

theorem gettoken_skip (s : Text) : gettoken (skip s) = gettoken s := by
  unfold gettoken
  rw [skip_skip]

@[simp] theorem lex_skip (s : Text) : lex (skip s) = lex s := by
  rw [lex.eq_def (skip s), lex.eq_def s, skip_skip]
  simp [gettoken_skip]

theorem lex_nil (h : skip s = []) : lex s = [] := by rw [lex, if_pos h]

/-- What `peek` and `gettoken` find at a text, with its tokens. -/
inductive At : Text → Char → Text → Text → List Tok → Prop
  | finish : At [] '\x00' [] [] []
  | nul {cs} : At ('\x00' :: cs) '\x00' [] ('\x00' :: cs) [.sym '\x00']
  | single {c cs r} (hc : c ∈ singles) : At (c :: cs) c [c] r (.sym c :: lex r)
  | append {cs r} : At ('>' :: cs) '+' ['>', '>'] r (.sym '+' :: lex r)
  | trunc {cs r} : At ('>' :: cs) '>' ['>'] r (.sym '>' :: lex r)
  | word {c cs w r} (hc : inWord c = true) (h0 : c ≠ '\x00') :
    At (c :: cs) 'a' w r (.word w :: lex r)

theorem at_lex (s : Text) :
    At (skip s) (gettoken s).1 (gettoken s).2.1 (gettoken s).2.2 (lex s) := by
  have hcut := gettoken_cut s
  rw [lex.eq_def]
  generalize skip s = u, (gettoken s).1 = ret, (gettoken s).2.1 = w, (gettoken s).2.2 = r at hcut
  cases hcut with
  | finish => exact .finish
  | nul => exact .nul
  | single h =>
    have : ∀ c ∈ singles, c ≠ '\x00' ∧ c ≠ 'a' := forall_mem_of_all (by decide)
    rw [if_neg (List.cons_ne_nil _ _), dif_neg (this _ h).1, tokOf, if_neg (this _ h).2]
    exact .single h
  | append => exact .append
  | trunc => exact .trunc
  | word h h0 => exact .word h h0

theorem peek_eq (s toks : Text) :
    peek s toks = (skip s, (skip s).head?.any fun c => c ≠ '\x00' ∧ c ∈ toks) := by
  unfold peek
  split <;> simp [*]

theorem inWord_not_mem (h : inWord c = true) : c ∉ symbols := by
  simp only [inWord, decide_eq_true_eq] at h
  exact h.2

theorem ne_of_single (h : c ∈ singles) : c ≠ '\x00' ∧ c ≠ '>' ∧ c ≠ '+' ∧ c ∈ symbols := by
  have : ∀ c ∈ singles, c ≠ '\x00' ∧ c ≠ '>' ∧ c ≠ '+' ∧ c ∈ symbols :=
    forall_mem_of_all (by decide)
  exact this c h

theorem peek_singles {toks : Text} (ht : ∀ x ∈ toks, x ∈ singles) :
    (peek s toks).2 = true ↔ ∃ x ∈ toks, (lex s).head? = some (.sym x) := by
  have hat := at_lex s
  rw [peek_eq]
  generalize skip s = u, (gettoken s).1 = ret, (gettoken s).2.1 = w, (gettoken s).2.2 = r,
    lex s = ts at hat
  have hgt : '>' ∉ toks := fun h => absurd (ht _ h) (by decide)
  have hplus : '+' ∉ toks := fun h => absurd (ht _ h) (by decide)
  have h0 : '\x00' ∉ toks := fun h => absurd (ht _ h) (by decide)
  cases hat with
  | finish => simp
  | nul => simp [h0]
  | single hc => simp [(ne_of_single hc).1, eq_comm]
  | append => simp [hgt, hplus]
  | trunc => simp [hgt]
  | word hc _ =>
    have : ∀ x ∈ toks, x ∈ symbols := fun x hx => (ne_of_single (ht x hx)).2.2.2
    simp only [List.head?_cons, Option.any_some, decide_eq_true_eq, Option.some.injEq, reduceCtorEq,
      and_false, exists_false, iff_false, not_and]
    exact fun _ h => inWord_not_mem hc (this _ h)

def redirs : Text := ['<', '>', '+']

theorem peek_redirs :
    (peek s ['<', '>']).2 = true ↔ ∃ x ∈ redirs, (lex s).head? = some (.sym x) := by
  have hat := at_lex s
  rw [peek_eq]
  generalize skip s = u, (gettoken s).1 = ret, (gettoken s).2.1 = w, (gettoken s).2.2 = r,
    lex s = ts at hat
  cases hat with
  | finish => simp
  | nul => simp [redirs]
  | single hc =>
    have : ∀ c ∈ singles, (c ≠ '\x00' ∧ c ∈ ['<', '>']) ↔ c ∈ redirs :=
      forall_mem_of_all (by decide)
    simp only [List.head?_cons, Option.any_some, decide_eq_true_eq, Option.some.injEq,
      Tok.sym.injEq, this _ hc, exists_eq_right']
  | append => simp [redirs]
  | trunc => simp [redirs]
  | word hc _ =>
    have : ∀ x ∈ ['<', '>'], x ∈ symbols := forall_mem_of_all (by decide)
    simp only [List.head?_cons, Option.any_some, decide_eq_true_eq, Option.some.injEq, reduceCtorEq,
      and_false, exists_false, iff_false, not_and]
    exact fun _ h => inWord_not_mem hc (this _ h)

theorem gettoken_sym {k : Char} {ts : List Tok} (h : lex s = .sym k :: ts) (h0 : k ≠ '\x00') :
    ∃ w s', gettoken s = (k, w, s') ∧ lex s' = ts := by
  have hat := at_lex s
  rw [h] at hat
  refine ⟨(gettoken s).2.1, (gettoken s).2.2, ?_⟩
  generalize gettoken s = g, skip s = u at hat
  obtain ⟨ret, v, r⟩ := g
  dsimp only at hat
  cases hat with
  | nul => exact absurd rfl h0
  | single => exact ⟨rfl, rfl⟩
  | append => exact ⟨rfl, rfl⟩
  | trunc => exact ⟨rfl, rfl⟩

theorem gettoken_word {ts : List Tok} (h : lex s = .word w :: ts) :
    ∃ s', gettoken s = ('a', w, s') ∧ lex s' = ts := by
  have hat := at_lex s
  rw [h] at hat
  refine ⟨(gettoken s).2.2, ?_⟩
  generalize gettoken s = g, skip s = u at hat
  obtain ⟨ret, v, r⟩ := g
  dsimp only at hat
  cases hat with
  | word => exact ⟨rfl, rfl⟩

theorem lex_of_word (h : (gettoken s).1 = 'a') :
    ∃ w s', gettoken s = ('a', w, s') ∧ lex s = .word w :: lex s' := by
  have hat := at_lex s
  refine ⟨(gettoken s).2.1, (gettoken s).2.2, Prod.ext h rfl, ?_⟩
  generalize gettoken s = g, skip s = u, lex s = ts at hat h
  obtain ⟨ret, v, r⟩ := g
  dsimp only at hat h
  subst h
  cases hat with
  | single hc => exact absurd hc (by decide)
  | word => rfl

theorem gettoken_end (h : lex s = [] ∨ ∃ ts, lex s = .sym '\x00' :: ts) :
    ∃ w s', gettoken s = ('\x00', w, s') ∧ lex s' = lex s := by
  have hat := at_lex s
  have hskip := lex_skip s
  refine ⟨(gettoken s).2.1, (gettoken s).2.2, ?_⟩
  generalize gettoken s = g, lex s = ts, skip s = u at *
  obtain ⟨ret, v, r⟩ := g
  dsimp only at hat
  cases hat with
  | finish => exact ⟨rfl, hskip⟩
  | nul => exact ⟨rfl, hskip⟩
  | single hc => simp [(ne_of_single hc).1] at h
  | append => simp at h
  | trunc => simp at h
  | word => simp at h

theorem lex_sym {k : Char} {ts : List Tok} (h : lex s = .sym k :: ts) :
    k = '\x00' ∨ k ∈ singles ∨ k ∈ redirs := by
  have hat := at_lex s
  rw [h] at hat
  generalize skip s = u, (gettoken s).1 = ret, (gettoken s).2.1 = w, (gettoken s).2.2 = r at hat
  cases hat with
  | nul => exact .inl rfl
  | single hc => exact .inr (.inl hc)
  | append => exact .inr (.inr (by decide))
  | trunc => exact .inr (.inr (by decide))

theorem skip_eq_nil : skip s = [] ↔ lex s = [] := by
  have hat := at_lex s
  generalize skip s = u, (gettoken s).1 = ret, (gettoken s).2.1 = w, (gettoken s).2.2 = r,
    lex s = ts at hat
  cases hat <;> simp

end Xv6.Sh
