import Mathlib

/-! The parser of the shell, `sh.c`. A `char *` into the input is the text from there to its end,
and a word is the text between its two pointers. The loops and the recursion are given `fuel`;
`panic` ends the parse. -/

namespace Xv6.Sh

abbrev Text := List Char

def MAXARGS : Nat := 10

def O_RDONLY : Nat := 0x000
def O_WRONLY : Nat := 0x001
def O_CREATE : Nat := 0x200
def O_TRUNC : Nat := 0x400

/-- `struct cmd` and what it can point to. -/
inductive Cmd
  | exec (argv : List Text)
  | redir (cmd : Cmd) (file : Text) (mode fd : Nat)
  | pipe (left right : Cmd)
  | list (left right : Cmd)
  | back (cmd : Cmd)
  deriving DecidableEq, Repr

/-- The `execcmd` inside of the redirections gets one more argument. -/
def Cmd.addArg (w : Text) : Cmd → Cmd
  | .exec argv => .exec (argv ++ [w])
  | .redir cmd file mode fd => .redir (cmd.addArg w) file mode fd
  | cmd => cmd

/-- Why there is no tree: the loop has not ended, or `panic` was called. -/
inductive Stop
  | fuel
  | panic (msg : String)
  deriving DecidableEq, Repr

def whitespace : Text := [' ', '\t', '\r', '\n', '\x0b']

def symbols : Text := ['<', '|', '>', '&', ';', '(', ')']

/-- `while (s < es && strchr(whitespace, *s)) s++`. -/
def skip (s : Text) : Text := s.dropWhile (· ∈ whitespace)

def inWord (c : Char) : Bool := c ∉ whitespace ∧ c ∉ symbols

/-- `gettoken`: the token, with `a` for a word, `+` for `>>` and `0` for the end; the text between
`*q` and `*eq`; and the new `*ps`. -/
def gettoken (s : Text) : Char × Text × Text :=
  match skip s with
  | [] => ('\x00', [], [])
  | c :: cs =>
    if c = '\x00' then (c, [], c :: cs)
    else if c = '|' ∨ c = '(' ∨ c = ')' ∨ c = ';' ∨ c = '&' ∨ c = '<' then (c, [c], skip cs)
    else if c = '>' then
      match cs with
      | '>' :: cs => ('+', ['>', '>'], skip cs)
      | cs => (c, [c], skip cs)
    else ('a', (c :: cs).takeWhile inWord, skip ((c :: cs).dropWhile inWord))

/-- `peek`: the new `*ps`, and whether a character of `toks` is there. -/
def peek (s : Text) (toks : Text) : Text × Bool :=
  match skip s with
  | [] => ([], false)
  | c :: cs => (c :: cs, c ≠ '\x00' ∧ c ∈ toks)

def redirOf (tok : Char) (cmd : Cmd) (file : Text) : Cmd :=
  if tok = '<' then .redir cmd file O_RDONLY 0
  else if tok = '>' then .redir cmd file (O_WRONLY ||| O_CREATE ||| O_TRUNC) 1
  else if tok = '+' then .redir cmd file (O_WRONLY ||| O_CREATE) 1
  else cmd

def parseredirs : Nat → Cmd → Text → Except Stop (Cmd × Text)
  | 0, _, _ => .error .fuel
  | fuel + 1, cmd, s =>
    let (s, more) := peek s ['<', '>']
    if more then
      let (tok, _, s) := gettoken s
      let (tok', file, s) := gettoken s
      if tok' ≠ 'a' then .error (.panic "missing file for redirection")
      else parseredirs fuel (redirOf tok cmd file) s
    else .ok (cmd, s)

def parseargs : Nat → (argc : Nat) → Cmd → Text → Except Stop (Cmd × Text)
  | 0, _, _, _ => .error .fuel
  | fuel + 1, argc, ret, s =>
    let (s, ends) := peek s ['|', ')', '&', ';']
    if ends then .ok (ret, s)
    else
      let (tok, arg, s) := gettoken s
      if tok = '\x00' then .ok (ret, s)
      else if tok ≠ 'a' then .error (.panic "syntax")
      else if argc + 1 ≥ MAXARGS then .error (.panic "too many args")
      else do
        let (ret, s) ← parseredirs fuel (ret.addArg arg) s
        parseargs fuel (argc + 1) ret s

def parseback : Nat → Cmd → Text → Except Stop (Cmd × Text)
  | 0, _, _ => .error .fuel
  | fuel + 1, cmd, s =>
    let (s, more) := peek s ['&']
    if more then
      let (_, _, s) := gettoken s
      parseback fuel (.back cmd) s
    else .ok (cmd, s)

mutual

def parseline : Nat → Text → Except Stop (Cmd × Text)
  | 0, _ => .error .fuel
  | fuel + 1, s => do
    let (cmd, s) ← parsepipe fuel s
    let (cmd, s) ← parseback fuel cmd s
    let (s, more) := peek s [';']
    if more then
      let (_, _, s) := gettoken s
      let (right, s) ← parseline fuel s
      return (.list cmd right, s)
    else return (cmd, s)

def parsepipe : Nat → Text → Except Stop (Cmd × Text)
  | 0, _ => .error .fuel
  | fuel + 1, s => do
    let (cmd, s) ← parseexec fuel s
    let (s, more) := peek s ['|']
    if more then
      let (_, _, s) := gettoken s
      let (right, s) ← parsepipe fuel s
      return (.pipe cmd right, s)
    else return (cmd, s)

def parseexec : Nat → Text → Except Stop (Cmd × Text)
  | 0, _ => .error .fuel
  | fuel + 1, s => do
    let (s, block) := peek s ['(']
    if block then parseblock fuel s
    else
      let (ret, s) ← parseredirs fuel (.exec []) s
      parseargs fuel 0 ret s

def parseblock : Nat → Text → Except Stop (Cmd × Text)
  | 0, _ => .error .fuel
  | fuel + 1, s =>
    let (s, block) := peek s ['(']
    if !block then .error (.panic "parseblock")
    else do
      let (_, _, s) := gettoken s
      let (cmd, s) ← parseline fuel s
      let (s, closes) := peek s [')']
      if !closes then .error (.panic "syntax - missing )")
      else
        let (_, _, s) := gettoken s
        parseredirs fuel cmd s

end

def parsecmd (fuel : Nat) (buf : Text) : Except Stop Cmd := do
  let s := buf.takeWhile (· ≠ '\x00')
  let (cmd, s) ← parseline fuel s
  let (s, _) := peek s []
  -- The leftovers are printed.
  if s ≠ [] then .error (.panic "syntax")
  else return cmd

end Xv6.Sh
