import Xv6.Sh.Lexer

/-! The grammar of the shell, with the tree of each derivation:

    line ::= pipe '&'* [';' line]
    pipe ::= exec ['|' pipe]
    exec ::= '(' line ')' redir* | redir* (word redir*)*

and what each function of the parser does, by the tokens that it finds. -/

namespace Xv6.Sh

/-- Redirections around a command, the first innermost. -/
inductive Redirs : Cmd → List Tok → Cmd → Prop
  | nil {c} : Redirs c [] c
  | cons {c k w ts c'} (hk : k ∈ redirs) (h : Redirs (redirOf k c w) ts c') :
      Redirs c (.sym k :: .word w :: ts) c'

/-- Words for the `execcmd` inside of a command, each with redirections behind it. -/
inductive Args : Cmd → List Tok → Cmd → Prop
  | nil {c} : Args c [] c
  | cons {c w ts c₁ ts' c'} (h : Redirs (c.addArg w) ts c₁) (h' : Args c₁ ts' c') :
      Args c (.word w :: (ts ++ ts')) c'

/-- The arguments of the `execcmd` inside of redirections. -/
def Cmd.argc : Cmd → Nat
  | .exec argv => argv.length
  | .redir cmd _ _ _ => cmd.argc
  | _ => 0

inductive NT
  | line
  | backs
  | pipe
  | exec

/-- The tokens derive from a symbol of the grammar, with this tree. -/
inductive Derives : NT → List Tok → Cmd → Prop
  | block {ts c ts' c'} (h : Derives .line ts c) (hr : Redirs c ts' c') :
      Derives .exec (.sym '(' :: (ts ++ .sym ')' :: ts')) c'
  | simple {ts c ts' c'} (hr : Redirs (.exec []) ts c) (ha : Args c ts' c')
      (hn : c'.argc < MAXARGS) : Derives .exec (ts ++ ts') c'
  | exec {ts c} (h : Derives .exec ts c) : Derives .pipe ts c
  | pipe {ts c ts' c'} (h : Derives .exec ts c) (h' : Derives .pipe ts' c') :
      Derives .pipe (ts ++ .sym '|' :: ts') (.pipe c c')
  | backs {ts c} (n : Nat) (h : Derives .pipe ts c) :
      Derives .backs (ts ++ List.replicate n (.sym '&')) (Cmd.back^[n] c)
  | line {ts c} (h : Derives .backs ts c) : Derives .line ts c
  | list {ts c ts' c'} (h : Derives .backs ts c) (h' : Derives .line ts' c') :
      Derives .line (ts ++ .sym ';' :: ts') (.list c c')

variable {s s' : Text} {c c' cmd : Cmd} {ts : List Tok} {n : Nat}

theorem symbol_cases {x : Char} (hx : x ∈ singles) (s : Text) :
    (∃ w s' ts, lex s = .sym x :: ts ∧ lex s' = ts ∧ peek s [x] = (skip s, true) ∧
      gettoken (skip s) = (x, w, s')) ∨
    ((lex s).head? ≠ some (.sym x) ∧ peek s [x] = (skip s, false)) := by
  have hpeek := @peek_singles s [x] fun y hy => List.mem_singleton.mp hy ▸ hx
  simp only [List.mem_singleton, exists_eq_left] at hpeek
  have hfst : peek s [x] = (skip s, (peek s [x]).2) := by rw [peek_eq]
  by_cases h : (lex s).head? = some (.sym x)
  · obtain ⟨ts, hts⟩ := List.head?_eq_some_iff.mp h
    obtain ⟨w, s', hget, hs'⟩ := gettoken_sym hts (ne_of_single hx).1
    rw [hpeek.mpr h] at hfst
    exact .inl ⟨w, s', ts, hts, hs', hfst, by rw [gettoken_skip, hget]⟩
  · rw [Bool.eq_false_iff.mpr (mt hpeek.mp h)] at hfst
    exact .inr ⟨h, hfst⟩

theorem parseredirs_cases (n : Nat) (cmd : Cmd) (s : Text) :
    ((∀ x ∈ redirs, (lex s).head? ≠ some (.sym x)) ∧
      parseredirs (n + 1) cmd s = .ok (cmd, skip s)) ∨
    (∃ k ∈ redirs, ∃ w s', lex s = .sym k :: .word w :: lex s' ∧
      parseredirs (n + 1) cmd s = parseredirs n (redirOf k cmd w) s') ∨
    (∃ k ∈ redirs, ∃ ts msg, lex s = .sym k :: ts ∧ (∀ w, ts.head? ≠ some (.word w)) ∧
      parseredirs (n + 1) cmd s = .error (.panic msg)) := by
  have hfst : peek s ['<', '>'] = (skip s, (peek s ['<', '>']).2) := by rw [peek_eq]
  by_cases h : ∃ x ∈ redirs, (lex s).head? = some (.sym x)
  swap
  · refine .inl ⟨by simpa using h, ?_⟩
    rw [Bool.eq_false_iff.mpr (mt peek_redirs.mp h)] at hfst
    rw [parseredirs, hfst]
    rfl
  rw [peek_redirs.mpr h] at hfst
  obtain ⟨k, hk, hhead⟩ := h
  obtain ⟨ts, hts⟩ := List.head?_eq_some_iff.mp hhead
  have h0 : ∀ k ∈ redirs, k ≠ '\x00' := forall_mem_of_all (by decide)
  obtain ⟨w, s₁, hget, hs₁⟩ := gettoken_sym hts (h0 k hk)
  rw [← gettoken_skip] at hget
  have hdef : parseredirs (n + 1) cmd s =
      if (gettoken s₁).1 ≠ 'a' then .error (.panic "missing file for redirection")
      else parseredirs n (redirOf k cmd (gettoken s₁).2.1) (gettoken s₁).2.2 := by
    rw [parseredirs, hfst]
    simp [hget]
  right
  by_cases hw : ∃ w, ts.head? = some (.word w)
  · obtain ⟨w', hw⟩ := hw
    obtain ⟨ts', rfl⟩ := List.head?_eq_some_iff.mp hw
    obtain ⟨s₂, hget', hs₂⟩ := gettoken_word hs₁
    refine .inl ⟨k, hk, w', s₂, by rw [hts, hs₂], ?_⟩
    rw [hdef, hget', if_neg (not_not.mpr rfl)]
  · refine .inr ⟨k, hk, ts, "missing file for redirection", hts, by simpa using hw, ?_⟩
    rw [hdef, if_pos]
    intro ha
    obtain ⟨w', s₂, -, hlex⟩ := lex_of_word ha
    exact hw ⟨w', by rw [← hs₁, hlex, List.head?_cons]⟩

def Ends (ts : List Tok) : Prop :=
  ts = [] ∨ ∃ x ∈ ['|', ')', '&', ';', '\x00'], ts.head? = some (.sym x)

/-- The loop of `parseexec` finds the end of the command, an argument, or a symbol that cannot be
there. -/
theorem parseargs_cases (n argc : Nat) (ret : Cmd) (s : Text) :
    (Ends (lex s) ∧ ∃ s', lex s' = lex s ∧ parseargs (n + 1) argc ret s = .ok (ret, s')) ∨
    (∃ w s', lex s = .word w :: lex s' ∧ parseargs (n + 1) argc ret s =
      if argc + 1 ≥ MAXARGS then .error (.panic "too many args")
      else parseredirs n (ret.addArg w) s' >>= fun x => parseargs n (argc + 1) x.1 x.2) ∨
    (∃ msg, (∃ x, (lex s).head? = some (.sym x)) ∧ ¬ Ends (lex s) ∧
      parseargs (n + 1) argc ret s = .error (.panic msg)) := by
  have hsingles : ∀ x ∈ ['|', ')', '&', ';'], x ∈ singles := forall_mem_of_all (by decide)
  have hfst : peek s ['|', ')', '&', ';'] = (skip s, (peek s ['|', ')', '&', ';']).2) := by
    rw [peek_eq]
  by_cases h : ∃ x ∈ ['|', ')', '&', ';'], (lex s).head? = some (.sym x)
  · rw [(peek_singles hsingles).mpr h] at hfst
    obtain ⟨x, hx, hhead⟩ := h
    refine .inl ⟨.inr ⟨x, ?_, hhead⟩, skip s, lex_skip s, ?_⟩
    · have : ∀ x ∈ ['|', ')', '&', ';'], x ∈ ['|', ')', '&', ';', '\x00'] :=
        forall_mem_of_all (by decide)
      exact this x hx
    · rw [parseargs, hfst]
      rfl
  rw [Bool.eq_false_iff.mpr (mt (peek_singles hsingles).mp h)] at hfst
  have hdef : parseargs (n + 1) argc ret s =
      if (gettoken s).1 = '\x00' then .ok (ret, (gettoken s).2.2)
      else if (gettoken s).1 ≠ 'a' then .error (.panic "syntax")
      else if argc + 1 ≥ MAXARGS then .error (.panic "too many args")
      else parseredirs n (ret.addArg (gettoken s).2.1) (gettoken s).2.2 >>= fun x =>
        parseargs n (argc + 1) x.1 x.2 := by
    rw [parseargs, hfst]
    simp [gettoken_skip]
  cases hlex : lex s with
  | nil =>
    obtain ⟨w, s', hget, hs'⟩ := gettoken_end (.inl hlex)
    refine .inl ⟨.inl rfl, s', hs'.trans hlex, ?_⟩
    rw [hdef, hget, if_pos rfl]
  | cons t ts =>
    cases t with
    | word w =>
      obtain ⟨s', hget, hs'⟩ := gettoken_word hlex
      refine .inr (.inl ⟨w, s', by rw [hs'], ?_⟩)
      have h0 : 'a' ≠ '\x00' := by decide
      rw [hdef, hget, if_neg h0, if_neg (not_not.mpr rfl)]
    | sym x =>
      by_cases hx : x = '\x00'
      · obtain ⟨w, s', hget, hs'⟩ := gettoken_end (.inr ⟨ts, hx ▸ hlex⟩)
        refine .inl ⟨.inr ⟨x, by simp [hx], rfl⟩, s', hs'.trans hlex, ?_⟩
        rw [hdef, hget, if_pos rfl]
      obtain ⟨w, s', hget, -⟩ := gettoken_sym hlex hx
      have hxa : x ≠ 'a' := by
        have : ∀ x, x ∈ singles ∨ x ∈ redirs → x ≠ 'a' := by
          rintro x (hx | hx) rfl
          · exact absurd hx (by decide)
          · exact absurd hx (by decide)
        exact this x ((lex_sym hlex).resolve_left hx)
      refine .inr (.inr ⟨"syntax", ⟨x, rfl⟩, ?_, ?_⟩)
      · rintro (he | ⟨y, hy, hhead⟩)
        · cases he
        · obtain rfl : x = y := by simpa using hhead
          have hcases : ∀ x ∈ ['|', ')', '&', ';', '\x00'],
              x = '\x00' ∨ x ∈ ['|', ')', '&', ';'] := forall_mem_of_all (by decide)
          rcases hcases x hy with h0 | hmem
          · exact hx h0
          · exact h ⟨x, hmem, by rw [hlex, List.head?_cons]⟩
      · rw [hdef, hget, if_neg hx, if_pos hxa]

theorem parseback_cases (n : Nat) (cmd : Cmd) (s : Text) :
    ((lex s).head? ≠ some (.sym '&') ∧ parseback (n + 1) cmd s = .ok (cmd, skip s)) ∨
    ∃ s', lex s = .sym '&' :: lex s' ∧ parseback (n + 1) cmd s = parseback n (.back cmd) s' := by
  rcases symbol_cases (x := '&') (by decide) s with
    ⟨w, s', ts, hlex, hs', hpeek, hget⟩ | ⟨hne, hpeek⟩
  · refine .inr ⟨s', by rw [hlex, hs'], ?_⟩
    rw [parseback, hpeek]
    simp [hget]
  · refine .inl ⟨hne, ?_⟩
    rw [parseback, hpeek]
    rfl

end Xv6.Sh
