import Xv6.Sh.Complete

/-! Printing commands in the syntax of the shell, and the theorem about its parser. -/

namespace Xv6.Sh

open List

def Word (w : Text) : Prop := w ≠ [] ∧ ∀ c ∈ w, inWord c = true ∧ c ≠ '\x00'

def redirSym (mode fd : Nat) : Option Char :=
  if mode = O_RDONLY ∧ fd = 0 then some '<'
  else if mode = O_WRONLY ||| O_CREATE ||| O_TRUNC ∧ fd = 1 then some '>'
  else if mode = O_WRONLY ||| O_CREATE ∧ fd = 1 then some '+'
  else none

def Cmd.Writable : Cmd → Prop
  | .exec argv => argv.length < MAXARGS ∧ ∀ w ∈ argv, Word w
  | .redir cmd file mode fd => cmd.Writable ∧ Word file ∧ (redirSym mode fd).isSome
  | .pipe left right => left.Writable ∧ right.Writable
  | .list left right => left.Writable ∧ right.Writable
  | .back cmd => cmd.Writable

def paren (ts : List Tok) : List Tok := .sym '(' :: (ts ++ [.sym ')'])

def Cmd.print : Cmd → NT → List Tok
  | .exec argv, _ => argv.map .word
  | .redir cmd file mode fd, _ =>
    cmd.print .exec ++ [.sym ((redirSym mode fd).getD '<'), .word file]
  | .pipe left right, nt =>
    let ts := left.print .exec ++ .sym '|' :: right.print .pipe
    match nt with
    | .exec => paren ts
    | _ => ts
  | .back cmd, nt =>
    let ts := cmd.print .backs ++ [.sym '&']
    match nt with
    | .exec | .pipe => paren ts
    | _ => ts
  | .list left right, nt =>
    let ts := left.print .backs ++ .sym ';' :: right.print .line
    match nt with
    | .line => ts
    | _ => paren ts

def Tok.render : Tok → Text
  | .sym c => (if c = '+' then ['>', '>'] else [c]) ++ [' ']
  | .word w => w ++ [' ']

def render (ts : List Tok) : Text := ts.flatMap Tok.render

variable {c c' : Cmd} {ts : List Tok} {w : Text} {k : Char}

theorem Redirs.snoc (h : Redirs c ts c') (hk : k ∈ redirs) (w : Text) :
    Redirs c (ts ++ [.sym k, .word w]) (redirOf k c' w) := by
  induction h with
  | nil => exact .cons hk .nil
  | cons hk' _ ih => exact .cons hk' ih

theorem Args.snoc_redir (h : Args c ts c') (hk : k ∈ redirs) (w : Text) (hne : ts ≠ []) :
    Args c (ts ++ [.sym k, .word w]) (redirOf k c' w) := by
  induction h with
  | nil => exact absurd rfl hne
  | @cons c v ts c₁ ts' c' hr h ih =>
    cases h with
    | nil =>
      have := Args.cons (hr.snoc hk w) .nil
      simpa using this
    | cons hr' h' =>
      have := Args.cons hr (ih (cons_ne_nil _ _))
      simpa using this

theorem Derives.redir (h : Derives .exec ts c) (hk : k ∈ redirs) (w : Text) :
    Derives .exec (ts ++ [.sym k, .word w]) (redirOf k c w) := by
  cases h with
  | block h hr =>
    have := Derives.block h (hr.snoc hk w)
    simpa using this
  | @simple ts c₁ ts' _ hr ha hn =>
    have hn' : (redirOf k c w).argc < MAXARGS := by rwa [redirOf_argc]
    by_cases hts : ts' = []
    · subst hts
      cases ha
      have := Derives.simple (hr.snoc hk w) .nil hn'
      simpa using this
    · have := Derives.simple hr (ha.snoc_redir hk w hts) hn'
      simpa using this

theorem Derives.ofExec (h : Derives .exec ts c) : ∀ nt, Derives nt ts c
  | .exec => h
  | .pipe => .exec h
  | .backs => by simpa using Derives.backs 0 (.exec h)
  | .line => by simpa using Derives.line (.backs 0 (.exec h))

theorem Derives.ofPipe (h : Derives .pipe ts c) : Derives .backs ts c := by
  simpa using Derives.backs 0 h

theorem Derives.paren (h : Derives .line ts c) (nt : NT) : Derives nt (paren ts) c :=
  (Derives.block h .nil).ofExec nt

theorem Derives.back (h : Derives .backs ts c) : Derives .backs (ts ++ [.sym '&']) (.back c) := by
  cases h with
  | @backs ts c n h =>
    have := Derives.backs (n + 1) h
    rwa [replicate_succ', ← append_assoc, Function.iterate_succ_apply'] at this

theorem args_words (argv l : List Text) : Args (.exec l) (argv.map .word) (.exec (l ++ argv)) := by
  induction argv generalizing l with
  | nil => simpa using Args.nil
  | cons w argv ih =>
    have := Args.cons (c := .exec l) (w := w) .nil (ih (l ++ [w]))
    simpa using this

theorem redirOf_redirSym {mode fd : Nat} (h : redirSym mode fd = some k) (c : Cmd) (w : Text) :
    k ∈ redirs ∧ redirOf k c w = .redir c w mode fd := by
  unfold redirSym at h
  split at h
  · cases h
    rename_i hm
    exact ⟨by decide, by rw [hm.1, hm.2]; rfl⟩
  split at h
  · cases h
    rename_i hm
    exact ⟨by decide, by rw [hm.1, hm.2]; rfl⟩
  split at h
  · cases h
    rename_i hm
    exact ⟨by decide, by rw [hm.1, hm.2]; rfl⟩
  · cases h

theorem Cmd.Writable.derives (h : c.Writable) : ∀ nt, Derives nt (c.print nt) c := by
  induction c with
  | exec argv =>
    have hargs := args_words argv []
    rw [nil_append] at hargs
    exact (Derives.simple .nil hargs h.1).ofExec
  | redir cmd file mode fd ih =>
    obtain ⟨hcmd, -, hsym⟩ := h
    obtain ⟨k, hk⟩ := Option.isSome_iff_exists.mp hsym
    obtain ⟨hmem, hredir⟩ := redirOf_redirSym hk cmd file
    have := (ih hcmd .exec).redir hmem file
    rw [hredir] at this
    have hprint : ∀ nt, (Cmd.redir cmd file mode fd).print nt =
        cmd.print .exec ++ [.sym k, .word file] := fun nt => by simp [Cmd.print, hk]
    exact fun nt => hprint nt ▸ this.ofExec nt
  | pipe left right ihl ihr =>
    have hp := Derives.pipe (ihl h.1 .exec) (ihr h.2 .pipe)
    intro nt
    cases nt with
    | exec => exact (Derives.line hp.ofPipe).paren .exec
    | pipe => exact hp
    | backs => exact hp.ofPipe
    | line => exact .line hp.ofPipe
  | back cmd ih =>
    have hb := (ih h .backs).back
    intro nt
    cases nt with
    | exec => exact (Derives.line hb).paren .exec
    | pipe => exact (Derives.line hb).paren .pipe
    | backs => exact hb
    | line => exact .line hb
  | list left right ihl ihr =>
    have hl := Derives.list (ihl h.1 .backs) (ihr h.2 .line)
    intro nt
    cases nt with
    | exec => exact hl.paren .exec
    | pipe => exact hl.paren .pipe
    | backs => exact hl.paren .backs
    | line => exact hl

def Tok.Good : Tok → Prop
  | .sym c => c ∈ singles ∨ c ∈ redirs
  | .word w => Word w

theorem lex_cons {s : Text} {ret : Char} {r : Text} (hget : gettoken s = (ret, w, r))
    (h0 : ret ≠ '\x00') : lex s = tokOf ret w :: lex r := by
  have hne : skip s ≠ [] := fun he => by
    rw [gettoken, he] at hget
    exact h0 (Prod.mk.inj hget).1.symm
  rw [lex.eq_def, if_neg hne, hget, dif_neg h0]

theorem lex_blank (s : Text) : lex (' ' :: s) = lex s := by
  rw [← lex_skip, ← lex_skip s]
  rfl

theorem gettoken_inWord (cs : Text) (hk : inWord k = true) (h0 : k ≠ '\x00') :
    gettoken (k :: cs) = ('a', k :: cs.takeWhile inWord, skip (cs.dropWhile inWord)) := by
  have hspace : k ∉ whitespace := by
    simp only [inWord, decide_eq_true_eq] at hk
    exact hk.1
  have hcut := gettoken_cut (k :: cs)
  rw [skip_cons hspace] at hcut
  generalize gettoken (k :: cs) = g at hcut
  obtain ⟨ret, w, r⟩ := g
  dsimp only at hcut
  cases hcut with
  | nul => exact absurd rfl h0
  | single hc => exact absurd (ne_of_single hc).2.2.2 (inWord_not_mem hk)
  | append => exact absurd (by decide) (inWord_not_mem hk)
  | trunc => exact absurd (by decide) (inWord_not_mem hk)
  | word => rfl

theorem gettoken_single {cs : Text} (hk : k ∈ singles) :
    gettoken (k :: cs) = (k, [k], skip cs) := by
  have hsingles : ∀ k ∈ singles, k ∉ whitespace ∧ inWord k = false := forall_mem_of_all (by decide)
  have hcut := gettoken_cut (k :: cs)
  rw [skip_cons (hsingles k hk).1] at hcut
  generalize gettoken (k :: cs) = g at hcut
  obtain ⟨ret, w, r⟩ := g
  dsimp only at hcut
  cases hcut with
  | nul => exact absurd rfl (ne_of_single hk).1
  | single => rfl
  | append => exact absurd rfl (ne_of_single hk).2.1
  | trunc => exact absurd rfl (ne_of_single hk).2.1
  | word hc => exact absurd hc (by rw [(hsingles k hk).2]; decide)

theorem lex_render_tok {t : Tok} (h : t.Good) (s : Text) : lex (t.render ++ s) = t :: lex s := by
  have hblank : inWord ' ' = false := by decide
  cases t with
  | word w =>
    obtain ⟨hne, hw⟩ := h
    cases w with
    | nil => exact absurd rfl hne
    | cons c cs =>
      obtain ⟨hc, hcs⟩ := forall_mem_cons.mp hw
      have hword : ∀ x ∈ cs, inWord x = true := fun x hx => (hcs x hx).1
      have hget := gettoken_inWord (cs ++ (' ' :: s)) hc.1 hc.2
      rw [takeWhile_append_of_pos hword, dropWhile_append_of_pos hword,
        takeWhile_cons_of_neg (by simp [hblank]), dropWhile_cons_of_neg (by simp [hblank]),
        append_nil] at hget
      have hrender : (Tok.word (c :: cs)).render ++ s = c :: (cs ++ (' ' :: s)) := by
        simp [Tok.render]
      rw [hrender, lex_cons hget (by decide), lex_skip, lex_blank]
      rfl
  | sym c =>
    by_cases hsingle : c ∈ singles
    · have hne := ne_of_single hsingle
      have hrender : (Tok.sym c).render ++ s = c :: ' ' :: s := by simp [Tok.render, hne.2.2.1]
      have ha : c ≠ 'a' := by
        have : ∀ c ∈ singles, c ≠ 'a' := forall_mem_of_all (by decide)
        exact this c hsingle
      rw [hrender, lex_cons (gettoken_single hsingle) hne.1, lex_skip, lex_blank, tokOf, if_neg ha]
    · have hredirs : ∀ c ∈ redirs, c ∉ singles → c = '>' ∨ c = '+' := forall_mem_of_all (by decide)
      rcases hredirs c (h.resolve_left hsingle) hsingle with rfl | rfl
      · have hget : gettoken ('>' :: ' ' :: s) = ('>', ['>'], skip (' ' :: s)) := rfl
        exact (lex_cons hget (by decide)).trans (by rw [lex_skip, lex_blank]; rfl)
      · have hget : gettoken ('>' :: '>' :: ' ' :: s) = ('+', ['>', '>'], skip (' ' :: s)) := rfl
        exact (lex_cons hget (by decide)).trans (by rw [lex_skip, lex_blank]; rfl)

theorem lex_render (h : ∀ t ∈ ts, t.Good) : lex (render ts) = ts := by
  induction ts with
  | nil => exact lex_nil rfl
  | cons t ts ih =>
    obtain ⟨ht, hts⟩ := forall_mem_cons.mp h
    rw [render, flatMap_cons, lex_render_tok ht]
    exact congrArg _ (ih hts)

theorem good_paren (h : ∀ t ∈ ts, t.Good) : ∀ t ∈ paren ts, t.Good := by
  refine forall_mem_cons.mpr ⟨.inl (by decide), forall_mem_append.mpr ⟨h, ?_⟩⟩
  exact forall_mem_singleton.mpr (.inl (by decide))

theorem Cmd.Writable.good (h : c.Writable) : ∀ nt, ∀ t ∈ c.print nt, t.Good := by
  induction c with
  | exec argv =>
    intro nt t ht
    obtain ⟨w, hw, rfl⟩ := mem_map.mp ht
    exact h.2 w hw
  | redir cmd file mode fd ih =>
    obtain ⟨hcmd, hfile, hsym⟩ := h
    obtain ⟨k, hk⟩ := Option.isSome_iff_exists.mp hsym
    intro nt
    rw [Cmd.print, hk]
    refine forall_mem_append.mpr ⟨ih hcmd .exec, ?_⟩
    have hgood : (Tok.sym k).Good := .inr (redirOf_redirSym hk cmd file).1
    exact forall_mem_cons.mpr ⟨hgood, forall_mem_singleton.mpr hfile⟩
  | pipe left right ihl ihr =>
    have hts : ∀ t ∈ left.print .exec ++ .sym '|' :: right.print .pipe, t.Good :=
      forall_mem_append.mpr ⟨ihl h.1 .exec,
        forall_mem_cons.mpr ⟨.inl (by decide), ihr h.2 .pipe⟩⟩
    intro nt
    cases nt with
    | exec => exact good_paren hts
    | _ => exact hts
  | back cmd ih =>
    have hts : ∀ t ∈ cmd.print .backs ++ [.sym '&'], t.Good :=
      forall_mem_append.mpr ⟨ih h .backs, forall_mem_singleton.mpr (.inl (by decide))⟩
    intro nt
    cases nt with
    | exec => exact good_paren hts
    | pipe => exact good_paren hts
    | _ => exact hts
  | list left right ihl ihr =>
    have hts : ∀ t ∈ left.print .backs ++ .sym ';' :: right.print .line, t.Good :=
      forall_mem_append.mpr ⟨ihl h.1 .backs,
        forall_mem_cons.mpr ⟨.inl (by decide), ihr h.2 .line⟩⟩
    intro nt
    cases nt with
    | line => exact hts
    | _ => exact good_paren hts

theorem Tok.Good.render_ne {t : Tok} (h : t.Good) : ∀ x ∈ t.render, x ≠ '\x00' := by
  cases t with
  | word w =>
    refine forall_mem_append.mpr ⟨fun x hx => (h.2 x hx).2, ?_⟩
    exact forall_mem_singleton.mpr (by decide)
  | sym c =>
    have hne : ∀ c, c ∈ singles ∨ c ∈ redirs → c ≠ '\x00' := by
      rintro c (hc | hc) rfl
      · exact absurd hc (by decide)
      · exact absurd hc (by decide)
    refine forall_mem_append.mpr ⟨?_, forall_mem_singleton.mpr (by decide)⟩
    split
    · exact forall_mem_of_all (by decide)
    · exact forall_mem_singleton.mpr (hne c h)

def cstring (buf : Text) : Text := buf.takeWhile (· ≠ '\x00')

theorem cstring_render (h : ∀ t ∈ ts, t.Good) : cstring (render ts) = render ts := by
  refine takeWhile_eq_self_iff.mpr fun x hx => ?_
  obtain ⟨t, ht, hx⟩ := mem_flatMap.mp hx
  simpa using (h t ht).render_ne x hx

theorem parsecmd_eq (n : Nat) (buf : Text) : parsecmd n buf =
    (parseline n (cstring buf) >>= fun x =>
      if skip x.2 ≠ [] then .error (.panic "syntax") else .ok x.1) := by
  have hpeek : ∀ s, (peek s []).1 = skip s := fun s => by rw [peek_eq]
  simp only [← hpeek]
  rfl

theorem parsecmd_sound {n : Nat} {buf : Text} (h : parsecmd n buf = .ok c) :
    Derives .line (lex (cstring buf)) c := by
  rw [parsecmd_eq] at h
  obtain ⟨⟨c', s⟩, hline, h⟩ := bind_eq_ok h
  obtain ⟨ts, hts, hd⟩ := (sound n).line hline
  split at h
  · cases h
  · rename_i hskip
    cases h
    rw [hts, skip_eq_nil.mp (not_not.mp hskip), append_nil]
    exact hd

theorem parsecmd_complete {buf : Text} (h : Derives .line (lex (cstring buf)) c) :
    ∃ N, ∀ n, N ≤ n → parsecmd n buf = .ok c := by
  obtain ⟨N, hN⟩ := h.complete
  refine ⟨N, fun n hn => ?_⟩
  obtain ⟨s, hline, hs⟩ := hN n (cstring buf) [] hn (append_nil _).symm (.inl rfl)
  rw [parsecmd_eq, hline]
  exact if_neg (not_not.mpr (skip_eq_nil.mpr hs))

/-- The parser of the shell. On every buffer it ends, with a tree or with `panic`; it returns a tree
if and only if the tokens of the whole string derive from `line` with that tree; and a command that
can be written, printed and parsed, comes back. -/
theorem parsecmd_grammar :
    (∀ buf, ∃ N, ∀ n, N ≤ n →
      (∃ c, parsecmd n buf = .ok c) ∨ ∃ msg, parsecmd n buf = .error (.panic msg)) ∧
    (∀ buf c, (∃ N, ∀ n, N ≤ n → parsecmd n buf = .ok c) ↔ Derives .line (lex (cstring buf)) c) ∧
    (∀ buf c n, parsecmd n buf = .ok c → Derives .line (lex (cstring buf)) c) ∧
    ∀ c : Cmd, c.Writable → ∃ N, ∀ n, N ≤ n → parsecmd n (render (c.print .line)) = .ok c := by
  refine ⟨fun buf => ⟨4 * (lex (cstring buf)).length + 4, fun n hn => ?_⟩, fun buf c => ?_,
    fun buf c n h => parsecmd_sound h, fun c hc => ?_⟩
  · have hdone : Done (parsecmd n buf) := by
      rw [parsecmd_eq]
      refine ((ample n).line hn).bind fun x _ => ?_
      split
      · nofun
      · nofun
    cases hr : parsecmd n buf with
    | ok c => exact .inl ⟨c, rfl⟩
    | error e =>
      cases e with
      | fuel => exact absurd hr hdone
      | panic msg => exact .inr ⟨msg, rfl⟩
  · exact ⟨fun ⟨N, h⟩ => parsecmd_sound (h N le_rfl), parsecmd_complete⟩
  · have hgood := hc.good .line
    refine parsecmd_complete ?_
    rw [cstring_render hgood, lex_render hgood]
    exact hc.derives .line

def blockCmd : Cmd :=
  .pipe (.redir (.redir (.exec [['a'], ['b']]) ['i'] O_RDONLY 0) ['o'] 0x601 1)
    (.redir (.list (.back (.exec [['c']])) (.exec [])) ['p'] 0x201 1)

theorem parsecmd_grammar_block :
    render (blockCmd.print .line) = "a b < i > o | ( c & ; ) >> p ".toList ∧
    parsecmd 50 (render (blockCmd.print .line)) = .ok blockCmd ∧ blockCmd.Writable ∧
    ∃ N, ∀ n, N ≤ n → parsecmd n (render (blockCmd.print .line)) = .ok blockCmd := by
  have hw : blockCmd.Writable := by
    simp only [blockCmd, Cmd.Writable, Word, forall_mem_cons, not_mem_nil,
      false_imp_iff, implies_true]
    decide
  exact ⟨by decide, by decide, hw, parsecmd_grammar.2.2.2 blockCmd hw⟩

end Xv6.Sh
