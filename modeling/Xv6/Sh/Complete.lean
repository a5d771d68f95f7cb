import Xv6.Sh.Sound

/-! Tokens that have a derivation are parsed to its tree. -/

namespace Xv6.Sh

open List

variable {s s' : Text} {c c' : Cmd} {ts rest : List Tok} {n : Nat}

def Follow (xs : Text) (rest : List Tok) : Prop :=
  rest = [] ∨ ∃ x ∈ xs, rest.head? = some (.sym x)

theorem Follow.mono {xs ys : Text} (h : Follow xs rest) (hsub : ∀ x ∈ xs, x ∈ ys) :
    Follow ys rest := h.imp_right fun ⟨x, hx, he⟩ => ⟨x, hsub x hx, he⟩

theorem Follow.head_ne {xs : Text} {y : Char} (h : Follow xs rest) (hy : y ∉ xs) :
    rest.head? ≠ some (.sym y) := by
  rintro he
  rcases h with rfl | ⟨x, hx, hx'⟩
  · cases he
  · rw [hx'] at he
    cases he
    exact hy hx

theorem Redirs.parse (h : Redirs c ts c') (hn : ts.length < n) (hs : lex s = ts ++ rest)
    (hrest : ∀ x ∈ redirs, rest.head? ≠ some (.sym x)) :
    ∃ s', parseredirs n c s = .ok (c', s') ∧ lex s' = rest := by
  induction h generalizing n s with
  | @nil c =>
    obtain ⟨n, rfl⟩ := Nat.exists_eq_succ_of_ne_zero (Nat.ne_of_gt hn)
    rw [nil_append] at hs
    rcases parseredirs_cases n c s with
      ⟨-, heq⟩ | ⟨k, hk, w, s₁, hlex, -⟩ | ⟨k, hk, _, _, hlex, -, -⟩
    · exact ⟨skip s, heq, by rw [lex_skip, hs]⟩
    · exact absurd (by rw [← hs, hlex, head?_cons]) (hrest k hk)
    · exact absurd (by rw [← hs, hlex, head?_cons]) (hrest k hk)
  | @cons c k w ts c' hk h ih =>
    obtain ⟨n, rfl⟩ := Nat.exists_eq_succ_of_ne_zero (Nat.ne_of_gt (Nat.zero_lt_of_lt hn))
    rw [length_cons, length_cons] at hn
    rcases parseredirs_cases n c s with
      ⟨hne, -⟩ | ⟨k', -, w', s₁, hlex, heq⟩ | ⟨k', -, ts', _, hlex, hne, -⟩
    · exact absurd (by rw [hs]; rfl) (hne k hk)
    · rw [hs] at hlex
      simp only [cons_append, cons.injEq, Tok.sym.injEq, Tok.word.injEq] at hlex
      obtain ⟨rfl, rfl, hts⟩ := hlex
      rw [heq]
      exact ih (by omega) hts.symm
    · rw [hs] at hlex
      exact absurd (by rw [← (cons.inj hlex).2]; rfl) (hne w)

theorem Args.argc_le (h : Args c ts c') (hc : c.IsExec) : c.argc ≤ c'.argc := by
  induction h with
  | nil => exact Nat.le_refl _
  | @cons c w ts c₁ ts' c' hr h ih =>
    have hadd := hc.addArg w
    have := ih (hr.isExec hadd.1)
    rw [hr.argc, hadd.2] at this
    omega

def afterExec : Text := ['|', ')', '&', ';']

theorem Follow.ends (h : Follow afterExec rest) : Ends rest :=
  (h.mono (forall_mem_of_all (by decide)) : Follow ['|', ')', '&', ';', '\x00'] rest)

theorem Args.head_ne (h : Args c ts c') (hrest : Follow afterExec rest) :
    ∀ x ∈ redirs, (ts ++ rest).head? ≠ some (.sym x) := by
  have hredirs : ∀ x ∈ redirs, x ∉ afterExec := forall_mem_of_all (by decide)
  intro x hx
  cases h with
  | nil => exact hrest.head_ne (hredirs x hx)
  | cons => simp

theorem Args.parse (h : Args c ts c') (hc : c.IsExec) (hmax : c'.argc < MAXARGS)
    (hn : ts.length < n) (hs : lex s = ts ++ rest) (hrest : Follow afterExec rest) :
    ∃ s', parseargs n c.argc c s = .ok (c', s') ∧ lex s' = rest := by
  induction h generalizing n s with
  | @nil c =>
    obtain ⟨n, rfl⟩ := Nat.exists_eq_succ_of_ne_zero (Nat.ne_of_gt hn)
    rw [nil_append] at hs
    rcases parseargs_cases n c.argc c s with
      ⟨-, s₁, hs₁, heq⟩ | ⟨w, s₁, hlex, -⟩ | ⟨_, -, hends, -⟩
    · exact ⟨s₁, heq, hs₁.trans hs⟩
    · rcases hrest with rfl | ⟨x, -, hx⟩
      · rw [hs] at hlex
        cases hlex
      · rw [← hs, hlex] at hx
        cases hx
    · exact absurd (hs ▸ hrest.ends) hends
  | @cons c w ts c₁ ts' c' hr h ih =>
    obtain ⟨n, rfl⟩ := Nat.exists_eq_succ_of_ne_zero (Nat.ne_of_gt (Nat.zero_lt_of_lt hn))
    rw [length_cons, length_append] at hn
    rw [cons_append, append_assoc] at hs
    rcases parseargs_cases n c.argc c s with
      ⟨hends, -⟩ | ⟨w', s₁, hlex, heq⟩ | ⟨_, ⟨x, hx⟩, -⟩
    · rw [hs] at hends
      rcases hends with he | ⟨x, -, he⟩
      · cases he
      · cases he
    · rw [hs] at hlex
      simp only [cons.injEq, Tok.word.injEq] at hlex
      obtain ⟨rfl, hts⟩ := hlex
      have hadd := hc.addArg w
      have hexec := hr.isExec hadd.1
      have hargc : c.argc + 1 = c₁.argc := by rw [hr.argc, hadd.2]
      have hle := h.argc_le hexec
      obtain ⟨s₂, hredirs, hs₂⟩ := hr.parse (n := n) (by omega) hts.symm (h.head_ne hrest)
      obtain ⟨s₃, hargs, hs₃⟩ := ih hexec hmax (n := n) (by omega) hs₂
      refine ⟨s₃, ?_, hs₃⟩
      rw [heq, if_neg (by omega), hredirs, hargc]
      exact hargs
    · rw [hs] at hx
      cases hx

/-- The loop of `parseline` takes all ampersands. -/
theorem parseback_complete (k : Nat) (hn : k < n) (hs : lex s = replicate k (.sym '&') ++ rest)
    (hrest : rest.head? ≠ some (.sym '&')) :
    ∃ s', parseback n c s = .ok (Cmd.back^[k] c, s') ∧ lex s' = rest := by
  induction k generalizing n s c with
  | zero =>
    obtain ⟨n, rfl⟩ := Nat.exists_eq_succ_of_ne_zero (Nat.ne_of_gt hn)
    rw [replicate_zero, nil_append] at hs
    rcases parseback_cases n c s with ⟨-, heq⟩ | ⟨s₁, hlex, -⟩
    · exact ⟨skip s, heq, by rw [lex_skip, hs]⟩
    · exact absurd (by rw [← hs, hlex, head?_cons]) hrest
  | succ k ih =>
    obtain ⟨n, rfl⟩ := Nat.exists_eq_succ_of_ne_zero (Nat.ne_of_gt (Nat.zero_lt_of_lt hn))
    rw [replicate_succ, cons_append] at hs
    rcases parseback_cases n c s with ⟨hne, -⟩ | ⟨s₁, hlex, heq⟩
    · exact absurd (by rw [hs, head?_cons]) hne
    · rw [hs] at hlex
      rw [heq]
      exact ih (by omega) (cons.inj hlex).2.symm

/-- Every text that starts with the tokens `ts` is parsed to `c` by `parse`, where one of the
symbols `xs` follows. -/
def Parses (parse : Nat → Text → Except Stop (Cmd × Text)) (xs : Text) (ts : List Tok) (c : Cmd) :
    Prop :=
  ∃ N, ∀ n s rest, N ≤ n → lex s = ts ++ rest → Follow xs rest →
    ∃ s', parse n s = .ok (c, s') ∧ lex s' = rest

def Complete : NT → List Tok → Cmd → Prop
  | .line, ts, c => Parses parseline [')'] ts c
  | .backs, ts, c => ∃ k ts₀ c₀, ts = ts₀ ++ replicate k (.sym '&') ∧ c = Cmd.back^[k] c₀ ∧
      Parses parsepipe [')', '&', ';'] ts₀ c₀
  | .pipe, ts, c => Parses parsepipe [')', '&', ';'] ts c
  | .exec, ts, c => Parses parseexec afterExec ts c

theorem symbol_take {x : Char} (hx : x ∈ singles) (h : lex s = .sym x :: ts) :
    ∃ w s', peek s [x] = (skip s, true) ∧ gettoken (skip s) = (x, w, s') ∧ lex s' = ts := by
  rcases symbol_cases hx s with ⟨w, s', ts', hlex, hs', hpeek, hget⟩ | ⟨hne, -⟩
  · rw [h] at hlex
    exact ⟨w, s', hpeek, hget, hs'.trans (cons.inj hlex).2.symm⟩
  · exact absurd (by rw [h, head?_cons]) hne

theorem symbol_none {x : Char} (hx : x ∈ singles) (h : (lex s).head? ≠ some (.sym x)) :
    peek s [x] = (skip s, false) := by
  rcases symbol_cases hx s with ⟨w, s', ts', hlex, -⟩ | ⟨-, hpeek⟩
  · exact absurd (by rw [hlex, head?_cons]) h
  · exact hpeek

theorem Parses.block {ts' : List Tok} (h : Parses parseline [')'] ts c) (hr : Redirs c ts' c') :
    Parses parseexec afterExec (.sym '(' :: (ts ++ .sym ')' :: ts')) c' := by
  obtain ⟨N, h⟩ := h
  refine ⟨N + ts'.length + 3, fun n s rest hn hs hrest => ?_⟩
  obtain ⟨n, rfl⟩ := Nat.exists_eq_add_of_le' (Nat.le_trans (by omega : 2 ≤ _) hn)
  rw [cons_append, append_assoc, cons_append] at hs
  have hskip : lex (skip s) = _ := (lex_skip s).trans hs
  obtain ⟨_, _, hpeek, -, -⟩ := symbol_take (by decide) hs
  obtain ⟨w, s₁, hpeek', hget, hs₁⟩ := symbol_take (by decide) hskip
  obtain ⟨s₂, hline, hs₂⟩ := h n s₁ _ (by omega) hs₁ (.inr ⟨')', by decide, rfl⟩)
  obtain ⟨w', s₃, hpeek₂, hget₂, hs₃⟩ := symbol_take (by decide) hs₂
  have hredirs : ∀ x ∈ redirs, rest.head? ≠ some (.sym x) := by
    have : ∀ x ∈ redirs, x ∉ afterExec := forall_mem_of_all (by decide)
    exact fun x hx => hrest.head_ne (this x hx)
  obtain ⟨s₄, hparse, hs₄⟩ := hr.parse (n := n) (by omega) hs₃ hredirs
  refine ⟨s₄, ?_, hs₄⟩
  rw [parseexec_eq, hpeek, if_pos rfl, parseblock_eq]
  simp only [hpeek', hget, Bool.not_true, Bool.false_eq_true, if_false, hline]
  change (if _ then _ else _) = _
  simp only [hpeek₂, hget₂, Bool.not_true, Bool.false_eq_true, if_false]
  exact hparse

theorem Parses.simple {ts' : List Tok} {c₁ : Cmd} (hr : Redirs (.exec []) ts c₁)
    (ha : Args c₁ ts' c') (hmax : c'.argc < MAXARGS) :
    Parses parseexec afterExec (ts ++ ts') c' := by
  refine ⟨ts.length + ts'.length + 2, fun n s rest hn hs hrest => ?_⟩
  obtain ⟨n, rfl⟩ := Nat.exists_eq_add_of_le' (Nat.le_trans (by omega : 1 ≤ _) hn)
  have hne : (lex s).head? ≠ some (.sym '(') := by
    rw [hs, append_assoc]
    cases hr with
    | nil =>
      cases ha with
      | nil => exact hrest.head_ne (by decide)
      | cons => simp
    | cons hk =>
      have : ∀ x ∈ redirs, x ≠ '(' := forall_mem_of_all (by decide)
      simpa using this _ hk
  rw [append_assoc, ← lex_skip] at hs
  have hexec := hr.isExec trivial
  have hargc : c₁.argc = 0 := hr.argc
  obtain ⟨s₁, hredirs, hs₁⟩ := hr.parse (n := n) (by omega) hs (ha.head_ne hrest)
  obtain ⟨s₂, hargs, hs₂⟩ := ha.parse hexec hmax (n := n) (by omega) hs₁ hrest
  refine ⟨s₂, ?_, hs₂⟩
  rw [parseexec_eq, symbol_none (by decide) hne, if_neg Bool.false_ne_true, hredirs]
  rw [hargc] at hargs
  exact hargs

theorem Parses.exec (h : Parses parseexec afterExec ts c) :
    Parses parsepipe [')', '&', ';'] ts c := by
  obtain ⟨N, h⟩ := h
  refine ⟨N + 1, fun n s rest hn hs hrest => ?_⟩
  obtain ⟨n, rfl⟩ := Nat.exists_eq_add_of_le' (Nat.le_trans (by omega : 1 ≤ _) hn)
  obtain ⟨s₁, hexec, hs₁⟩ := h n s rest (by omega) hs (hrest.mono (forall_mem_of_all (by decide)))
  refine ⟨skip s₁, ?_, by rw [lex_skip, hs₁]⟩
  have hpeek := symbol_none (s := s₁) (x := '|') (by decide) (hs₁ ▸ hrest.head_ne (by decide))
  rw [parsepipe_eq, hexec]
  change (if _ then _ else _) = _
  rw [hpeek, if_neg Bool.false_ne_true]

theorem Parses.pipe {ts' : List Tok} (h : Parses parseexec afterExec ts c)
    (h' : Parses parsepipe [')', '&', ';'] ts' c') :
    Parses parsepipe [')', '&', ';'] (ts ++ .sym '|' :: ts') (.pipe c c') := by
  obtain ⟨N, h⟩ := h
  obtain ⟨N', h'⟩ := h'
  refine ⟨N + N' + 1, fun n s rest hn hs hrest => ?_⟩
  obtain ⟨n, rfl⟩ := Nat.exists_eq_add_of_le' (Nat.le_trans (by omega : 1 ≤ _) hn)
  rw [append_assoc, cons_append] at hs
  obtain ⟨s₁, hexec, hs₁⟩ := h n s _ (by omega) hs (.inr ⟨'|', by decide, rfl⟩)
  obtain ⟨w, s₂, hpeek, hget, hs₂⟩ := symbol_take (by decide) hs₁
  obtain ⟨s₃, hpipe, hs₃⟩ := h' n s₂ rest (by omega) hs₂ hrest
  refine ⟨s₃, ?_, hs₃⟩
  rw [parsepipe_eq, hexec]
  change (if _ then _ else _) = _
  rw [hpeek, if_pos rfl, hget, hpipe]
  rfl

theorem Parses.backs (h : Parses parsepipe [')', '&', ';'] ts c) (k : Nat) :
    ∃ N, ∀ n s rest, N ≤ n → lex s = ts ++ (replicate k (.sym '&') ++ rest) →
      Follow [')', ';'] rest → ∃ s₁ s₂, parsepipe n s = .ok (c, s₁) ∧
        parseback n c s₁ = .ok (Cmd.back^[k] c, s₂) ∧ lex s₂ = rest := by
  obtain ⟨N, h⟩ := h
  refine ⟨N + k + 1, fun n s rest hn hs hrest => ?_⟩
  have hfollow : Follow [')', '&', ';'] (replicate k (.sym '&') ++ rest) := by
    cases k with
    | zero => exact hrest.mono (forall_mem_of_all (by decide))
    | succ k => exact .inr ⟨'&', by decide, rfl⟩
  obtain ⟨s₁, hpipe, hs₁⟩ := h n s _ (by omega) hs hfollow
  obtain ⟨s₂, hback, hs₂⟩ :=
    parseback_complete (n := n) k (by omega) hs₁ (hrest.head_ne (by decide))
  exact ⟨s₁, s₂, hpipe, hback, hs₂⟩

theorem Parses.line (h : Parses parsepipe [')', '&', ';'] ts c) (k : Nat) :
    Parses parseline [')'] (ts ++ replicate k (.sym '&')) (Cmd.back^[k] c) := by
  obtain ⟨N, h⟩ := h.backs k
  refine ⟨N + 1, fun n s rest hn hs hrest => ?_⟩
  obtain ⟨n, rfl⟩ := Nat.exists_eq_add_of_le' (Nat.le_trans (by omega : 1 ≤ _) hn)
  rw [append_assoc] at hs
  obtain ⟨s₁, s₂, hpipe, hback, hs₂⟩ :=
    h n s rest (by omega) hs (hrest.mono (forall_mem_of_all (by decide)))
  refine ⟨skip s₂, ?_, by rw [lex_skip, hs₂]⟩
  have hpeek := symbol_none (s := s₂) (x := ';') (by decide) (hs₂ ▸ hrest.head_ne (by decide))
  rw [parseline_eq, hpipe]
  change (parseback n c s₁ >>= _) = _
  rw [hback]
  change (if _ then _ else _) = _
  rw [hpeek, if_neg Bool.false_ne_true]

theorem Parses.list {ts' : List Tok} (h : Parses parsepipe [')', '&', ';'] ts c) (k : Nat)
    (h' : Parses parseline [')'] ts' c') :
    Parses parseline [')'] (ts ++ replicate k (.sym '&') ++ .sym ';' :: ts')
      (.list (Cmd.back^[k] c) c') := by
  obtain ⟨N, h⟩ := h.backs k
  obtain ⟨N', h'⟩ := h'
  refine ⟨N + N' + 1, fun n s rest hn hs hrest => ?_⟩
  obtain ⟨n, rfl⟩ := Nat.exists_eq_add_of_le' (Nat.le_trans (by omega : 1 ≤ _) hn)
  rw [append_assoc, append_assoc, cons_append] at hs
  obtain ⟨s₁, s₂, hpipe, hback, hs₂⟩ := h n s _ (by omega) hs (.inr ⟨';', by decide, rfl⟩)
  obtain ⟨w, s₃, hpeek, hget, hs₃⟩ := symbol_take (by decide) hs₂
  obtain ⟨s₄, hline, hs₄⟩ := h' n s₃ rest (by omega) hs₃ hrest
  refine ⟨s₄, ?_, hs₄⟩
  rw [parseline_eq, hpipe]
  change (parseback n c s₁ >>= _) = _
  rw [hback]
  change (if _ then _ else _) = _
  rw [hpeek, if_pos rfl, hget, hline]
  rfl

/-- What derives is parsed. -/
theorem Derives.complete {nt : NT} (h : Derives nt ts c) : Complete nt ts c := by
  induction h with
  | block _ hr ih => exact Parses.block ih hr
  | simple hr ha hmax => exact Parses.simple hr ha hmax
  | exec _ ih => exact Parses.exec ih
  | pipe _ _ ih ih' => exact Parses.pipe ih ih'
  | backs n _ ih => exact ⟨n, _, _, rfl, rfl, ih⟩
  | line _ ih =>
    obtain ⟨k, ts₀, c₀, rfl, rfl, hp⟩ := ih
    exact Parses.line hp k
  | list _ _ ih ih' =>
    obtain ⟨k, ts₀, c₀, rfl, rfl, hp⟩ := ih
    exact Parses.list hp k ih'

end Xv6.Sh
