import Xv6.Sh.Grammar

/-! The parser ends on every text, and a tree that it returns is that of a derivation. -/

namespace Xv6.Sh

open List

variable {α β : Type} {s s' : Text} {c c' cmd : Cmd} {ts : List Tok} {n : Nat}

theorem bind_eq_ok {x : Except Stop α} {f : α → Except Stop β} {b : β}
    (h : x >>= f = .ok b) : ∃ a, x = .ok a ∧ f a = .ok b := by
  cases x with
  | error e => cases h
  | ok a => exact ⟨a, rfl, h⟩

theorem parseline_eq (n : Nat) (s : Text) : parseline (n + 1) s =
    (parsepipe n s >>= fun x => parseback n x.1 x.2 >>= fun y =>
      if (peek y.2 [';']).2 then
        parseline n (gettoken (peek y.2 [';']).1).2.2 >>= fun z => .ok (.list y.1 z.1, z.2)
      else .ok (y.1, (peek y.2 [';']).1)) := by
  rw [parseline]
  rfl

theorem parsepipe_eq (n : Nat) (s : Text) : parsepipe (n + 1) s =
    (parseexec n s >>= fun x =>
      if (peek x.2 ['|']).2 then
        parsepipe n (gettoken (peek x.2 ['|']).1).2.2 >>= fun z => .ok (.pipe x.1 z.1, z.2)
      else .ok (x.1, (peek x.2 ['|']).1)) := by
  rw [parsepipe]
  rfl

theorem parseexec_eq (n : Nat) (s : Text) : parseexec (n + 1) s =
    if (peek s ['(']).2 then parseblock n (peek s ['(']).1
    else parseredirs n (.exec []) (peek s ['(']).1 >>= fun x => parseargs n 0 x.1 x.2 := by
  rw [parseexec]

theorem parseblock_eq (n : Nat) (s : Text) : parseblock (n + 1) s =
    if !(peek s ['(']).2 then .error (.panic "parseblock")
    else parseline n (gettoken (peek s ['(']).1).2.2 >>= fun x =>
      if !(peek x.2 [')']).2 then .error (.panic "syntax - missing )")
      else parseredirs n x.1 (gettoken (peek x.2 [')']).1).2.2 := by
  rw [parseblock]

/-- The redirections that `parseredirs` has found. -/
theorem parseredirs_sound (h : parseredirs n c s = .ok (c', s')) :
    ∃ ts, lex s = ts ++ lex s' ∧ Redirs c ts c' := by
  induction n generalizing c s with
  | zero => cases h
  | succ n ih =>
    rcases parseredirs_cases n c s with
      ⟨-, heq⟩ | ⟨k, hk, w, s₁, hlex, heq⟩ | ⟨_, _, _, msg, -, -, heq⟩
    · rw [heq] at h
      cases h
      exact ⟨[], by rw [nil_append, lex_skip], .nil⟩
    · rw [heq] at h
      obtain ⟨ts, hts, hr⟩ := ih h
      exact ⟨_ :: _ :: ts, by rw [hlex, hts]; rfl, .cons hk hr⟩
    · rw [heq] at h
      cases h

theorem redirOf_argc (k : Char) (c : Cmd) (w : Text) : (redirOf k c w).argc = c.argc := by
  unfold redirOf
  split_ifs <;> rfl

theorem Redirs.argc (h : Redirs c ts c') : c'.argc = c.argc := by
  induction h with
  | nil => rfl
  | cons _ _ ih => rw [ih, redirOf_argc]

/-- A command that is an `execcmd` inside of redirections. -/
def Cmd.IsExec : Cmd → Prop
  | .exec _ => True
  | .redir cmd _ _ _ => cmd.IsExec
  | _ => False

theorem Cmd.IsExec.addArg (h : c.IsExec) (w : Text) :
    (c.addArg w).IsExec ∧ (c.addArg w).argc = c.argc + 1 := by
  induction c with
  | exec argv => exact ⟨trivial, by simp [Cmd.addArg, Cmd.argc]⟩
  | redir cmd file mode fd ih => exact ih h
  | pipe => cases h
  | list => cases h
  | back => cases h

theorem Redirs.isExec (h : Redirs c ts c') (hc : c.IsExec) : c'.IsExec := by
  induction h with
  | nil => exact hc
  | cons _ _ ih =>
    refine ih ?_
    unfold redirOf
    split_ifs <;> exact hc

/-- The arguments that the loop of `parseexec` has found. -/
theorem parseargs_sound (hc : c.IsExec) (hn : c.argc < MAXARGS)
    (h : parseargs n c.argc c s = .ok (c', s')) :
    ∃ ts, lex s = ts ++ lex s' ∧ Args c ts c' ∧ c'.argc < MAXARGS := by
  induction n generalizing c s with
  | zero => cases h
  | succ n ih =>
    rcases parseargs_cases n c.argc c s with
      ⟨-, s₁, hs₁, heq⟩ | ⟨w, s₁, hlex, heq⟩ | ⟨msg, -, -, heq⟩
    · rw [heq] at h
      cases h
      exact ⟨[], by rw [nil_append, hs₁], .nil, hn⟩
    · rw [heq] at h
      by_cases hmax : c.argc + 1 ≥ MAXARGS
      · rw [if_pos hmax] at h
        cases h
      rw [if_neg hmax] at h
      obtain ⟨⟨c₁, s₂⟩, hredirs, h⟩ := bind_eq_ok h
      obtain ⟨ts, hts, hr⟩ := parseredirs_sound hredirs
      have hadd := hc.addArg w
      have hargc : c.argc + 1 = c₁.argc := by rw [hr.argc, hadd.2]
      rw [hargc] at h hmax
      obtain ⟨ts', hts', ha, hlt⟩ := ih (hr.isExec hadd.1) (Nat.lt_of_not_le hmax) h
      refine ⟨.word w :: (ts ++ ts'), ?_, .cons hr ha, hlt⟩
      rw [hlex, hts, hts', cons_append, append_assoc]
    · rw [heq] at h
      cases h

/-- The ampersands that the loop of `parseline` has found. -/
theorem parseback_sound (h : parseback n c s = .ok (c', s')) :
    ∃ k, lex s = replicate k (.sym '&') ++ lex s' ∧ c' = Cmd.back^[k] c := by
  induction n generalizing c s with
  | zero => cases h
  | succ n ih =>
    rcases parseback_cases n c s with ⟨-, heq⟩ | ⟨s₁, hlex, heq⟩
    · rw [heq] at h
      cases h
      exact ⟨0, by simp, rfl⟩
    · rw [heq] at h
      obtain ⟨k, hk, rfl⟩ := ih h
      exact ⟨k + 1, by rw [hlex, hk]; rfl, rfl⟩

/-- What the four functions of the parser return with `n` rounds has a derivation. -/
structure Sound (n : Nat) : Prop where
  line : ∀ {s c s'}, parseline n s = .ok (c, s') → ∃ ts, lex s = ts ++ lex s' ∧ Derives .line ts c
  pipe : ∀ {s c s'}, parsepipe n s = .ok (c, s') → ∃ ts, lex s = ts ++ lex s' ∧ Derives .pipe ts c
  exec : ∀ {s c s'}, parseexec n s = .ok (c, s') → ∃ ts, lex s = ts ++ lex s' ∧ Derives .exec ts c
  block : ∀ {s c s'}, parseblock n s = .ok (c, s') →
    ∃ ts, lex s = ts ++ lex s' ∧ Derives .exec ts c

theorem sound (n : Nat) : Sound n := by
  induction n with
  | zero =>
    constructor <;> (intro _ _ _ h; cases h)
  | succ n ih =>
    refine ⟨fun {s c s'} h => ?_, fun {s c s'} h => ?_, fun {s c s'} h => ?_, fun {s c s'} h => ?_⟩
    · rw [parseline_eq] at h
      obtain ⟨⟨c₁, s₁⟩, hpipe, h⟩ := bind_eq_ok h
      obtain ⟨⟨c₂, s₂⟩, hback, h⟩ := bind_eq_ok h
      obtain ⟨ts, hts, hd⟩ := ih.pipe hpipe
      obtain ⟨k, hk, rfl⟩ := parseback_sound hback
      rcases symbol_cases (x := ';') (by decide) s₂ with
        ⟨w, s₃, ts₃, hlex, hs₃, hpeek, hget⟩ | ⟨-, hpeek⟩
      · rw [hpeek, if_pos rfl, hget] at h
        obtain ⟨⟨c₃, s₄⟩, hline, h⟩ := bind_eq_ok h
        cases h
        obtain ⟨ts', hts', hd'⟩ := ih.line hline
        refine ⟨_, ?_, .list (.backs k hd) hd'⟩
        rw [hts, hk, hlex, ← hs₃, hts']
        simp
      · rw [hpeek, if_neg Bool.false_ne_true] at h
        cases h
        refine ⟨_, ?_, .line (.backs k hd)⟩
        rw [hts, hk, lex_skip, append_assoc]
    · rw [parsepipe_eq] at h
      obtain ⟨⟨c₁, s₁⟩, hexec, h⟩ := bind_eq_ok h
      obtain ⟨ts, hts, hd⟩ := ih.exec hexec
      rcases symbol_cases (x := '|') (by decide) s₁ with
        ⟨w, s₃, ts₃, hlex, hs₃, hpeek, hget⟩ | ⟨-, hpeek⟩
      · rw [hpeek, if_pos rfl, hget] at h
        obtain ⟨⟨c₃, s₄⟩, hpipe, h⟩ := bind_eq_ok h
        cases h
        obtain ⟨ts', hts', hd'⟩ := ih.pipe hpipe
        refine ⟨_, ?_, .pipe hd hd'⟩
        rw [hts, hlex, ← hs₃, hts']
        simp
      · rw [hpeek, if_neg Bool.false_ne_true] at h
        cases h
        exact ⟨ts, by rw [hts, lex_skip], .exec hd⟩
    · rw [parseexec_eq] at h
      have hpeek : (peek s ['(']).1 = skip s := by rw [peek_eq]
      rw [hpeek] at h
      split at h
      · obtain ⟨ts, hts, hd⟩ := ih.block h
        exact ⟨ts, by rw [← lex_skip, hts], hd⟩
      · obtain ⟨⟨c₁, s₁⟩, hredirs, h⟩ := bind_eq_ok h
        obtain ⟨ts, hts, hr⟩ := parseredirs_sound hredirs
        have hargc : 0 = c₁.argc := hr.argc.symm
        rw [hargc] at h
        obtain ⟨ts', hts', ha, hlt⟩ :=
          parseargs_sound (hr.isExec trivial) (by rw [← hargc]; decide) h
        refine ⟨ts ++ ts', ?_, .simple hr ha hlt⟩
        rw [← lex_skip, hts, hts', append_assoc]
    · rw [parseblock_eq] at h
      rcases symbol_cases (x := '(') (by decide) s with
        ⟨w, s₁, ts₁, hlex, hs₁, hpeek, hget⟩ | ⟨-, hpeek⟩
      swap
      · rw [hpeek] at h
        cases h
      simp only [hpeek, hget, Bool.not_true, Bool.false_eq_true, if_false] at h
      obtain ⟨⟨c₁, s₂⟩, hline, h⟩ := bind_eq_ok h
      obtain ⟨ts, hts, hd⟩ := ih.line hline
      rcases symbol_cases (x := ')') (by decide) s₂ with
        ⟨w', s₃, ts₃, hlex', hs₃, hpeek', hget'⟩ | ⟨-, hpeek'⟩
      swap
      · rw [hpeek'] at h
        cases h
      simp only [hpeek', hget', Bool.not_true, Bool.false_eq_true, if_false] at h
      obtain ⟨ts', hts', hr⟩ := parseredirs_sound h
      refine ⟨_, ?_, .block hd hr⟩
      rw [hlex, ← hs₁, hts, hlex', ← hs₃, hts']
      simp

def Done (x : Except Stop α) : Prop := x ≠ .error .fuel

theorem Done.bind {x : Except Stop α} {f : α → Except Stop β} (hx : Done x)
    (hf : ∀ a, x = .ok a → Done (f a)) : Done (x >>= f) := by
  cases x with
  | error e =>
    intro h
    cases h
    exact hx rfl
  | ok a => exact hf a rfl

theorem parseredirs_done (hn : (lex s).length < n) : Done (parseredirs n c s) := by
  induction n generalizing c s with
  | zero => omega
  | succ n ih =>
    rcases parseredirs_cases n c s with
      ⟨-, heq⟩ | ⟨k, hk, w, s₁, hlex, heq⟩ | ⟨_, _, _, msg, -, -, heq⟩
    · rw [heq]
      nofun
    · rw [heq]
      rw [hlex, length_cons, length_cons] at hn
      exact ih (by omega)
    · rw [heq]
      nofun

theorem parseargs_done {argc : Nat} (hn : (lex s).length < n) : Done (parseargs n argc c s) := by
  induction n generalizing c s argc with
  | zero => omega
  | succ n ih =>
    rcases parseargs_cases n argc c s with
      ⟨-, s₁, -, heq⟩ | ⟨w, s₁, hlex, heq⟩ | ⟨msg, -, -, heq⟩
    · rw [heq]
      nofun
    · rw [heq]
      rw [hlex, length_cons] at hn
      split
      · nofun
      · refine (parseredirs_done (by omega)).bind fun ⟨c₁, s₂⟩ h => ih ?_
        obtain ⟨ts, hts, -⟩ := parseredirs_sound h
        rw [hts, length_append] at hn
        dsimp only
        omega
    · rw [heq]
      nofun

theorem parseback_done (hn : (lex s).length < n) : Done (parseback n c s) := by
  induction n generalizing c s with
  | zero => omega
  | succ n ih =>
    rcases parseback_cases n c s with ⟨-, heq⟩ | ⟨s₁, hlex, heq⟩
    · rw [heq]
      nofun
    · rw [heq]
      rw [hlex, length_cons] at hn
      exact ih (by omega)

/-- `n` rounds are enough for texts of few tokens: a recursion that comes back to `parseline` has
taken a token in four calls. -/
structure Ample (n : Nat) : Prop where
  line : ∀ {s}, 4 * (lex s).length + 4 ≤ n → Done (parseline n s)
  pipe : ∀ {s}, 4 * (lex s).length + 3 ≤ n → Done (parsepipe n s)
  exec : ∀ {s}, 4 * (lex s).length + 2 ≤ n → Done (parseexec n s)
  block : ∀ {s}, 4 * (lex s).length + 1 ≤ n → Done (parseblock n s)

theorem ample (n : Nat) : Ample n := by
  induction n with
  | zero => constructor <;> (intro _ h; omega)
  | succ n ih =>
    refine ⟨fun {s} hn => ?_, fun {s} hn => ?_, fun {s} hn => ?_, fun {s} hn => ?_⟩
    · rw [parseline_eq]
      refine (ih.pipe (by omega)).bind fun ⟨c₁, s₁⟩ hpipe => ?_
      obtain ⟨ts, hts, -⟩ := (sound n).pipe hpipe
      rw [hts, length_append] at hn
      refine (parseback_done (by dsimp only; omega)).bind fun ⟨c₂, s₂⟩ hback => ?_
      obtain ⟨k, hk, -⟩ := parseback_sound hback
      rw [hk, length_append] at hn
      rcases symbol_cases (x := ';') (by decide) s₂ with
        ⟨w, s₃, ts₃, hlex, hs₃, hpeek, hget⟩ | ⟨-, hpeek⟩
      · rw [hlex, length_cons, ← hs₃] at hn
        rw [hpeek, if_pos rfl, hget]
        exact (ih.line (by dsimp only; omega)).bind fun _ _ => nofun
      · rw [hpeek, if_neg Bool.false_ne_true]
        nofun
    · rw [parsepipe_eq]
      refine (ih.exec (by omega)).bind fun ⟨c₁, s₁⟩ hexec => ?_
      obtain ⟨ts, hts, -⟩ := (sound n).exec hexec
      rw [hts, length_append] at hn
      rcases symbol_cases (x := '|') (by decide) s₁ with
        ⟨w, s₃, ts₃, hlex, hs₃, hpeek, hget⟩ | ⟨-, hpeek⟩
      · rw [hlex, length_cons, ← hs₃] at hn
        rw [hpeek, if_pos rfl, hget]
        exact (ih.pipe (by dsimp only; omega)).bind fun _ _ => nofun
      · rw [hpeek, if_neg Bool.false_ne_true]
        nofun
    · have hpeek : (peek s ['(']).1 = skip s := by rw [peek_eq]
      rw [← lex_skip] at hn
      rw [parseexec_eq, hpeek]
      split
      · exact ih.block (by omega)
      · refine (parseredirs_done (by omega)).bind fun ⟨c₁, s₁⟩ hredirs => ?_
        obtain ⟨ts, hts, -⟩ := parseredirs_sound hredirs
        rw [hts, length_append] at hn
        exact parseargs_done (by dsimp only; omega)
    · rw [parseblock_eq]
      rcases symbol_cases (x := '(') (by decide) s with
        ⟨w, s₁, ts₁, hlex, hs₁, hpeek, hget⟩ | ⟨-, hpeek⟩
      swap
      · rw [hpeek]
        nofun
      rw [hlex, length_cons, ← hs₁] at hn
      simp only [hpeek, hget, Bool.not_true, Bool.false_eq_true, if_false]
      refine (ih.line (by omega)).bind fun ⟨c₁, s₂⟩ hline => ?_
      obtain ⟨ts, hts, -⟩ := (sound n).line hline
      rw [hts, length_append] at hn
      rcases symbol_cases (x := ')') (by decide) s₂ with
        ⟨w', s₃, ts₃, hlex', hs₃, hpeek', hget'⟩ | ⟨-, hpeek'⟩
      · rw [hlex', length_cons, ← hs₃] at hn
        simp only [hpeek', hget', Bool.not_true, Bool.false_eq_true, if_false]
        exact parseredirs_done (by omega)
      · rw [hpeek']
        nofun

end Xv6.Sh
