import Xv6.Tty.Machine

/-! The ring of the console refines the two lists: a character and a read do the same to both. -/

namespace Xv6.Tty

open Function
open Blocking (Console consoleintr killLine ctrlD INPUT_BUF_SIZE)

/-- The ring with `m` committed bytes from index `r` on and `n` bytes behind them that can be
edited. -/
def ringOf (buf : Nat → UInt8) (r m n : Nat) : Console :=
  ⟨buf, r, (r + m) % 2 ^ 32, (r + (m + n)) % 2 ^ 32⟩

/-- The ring is not overfull, a full one has nothing to edit, and what can be edited is part of one
line. -/
structure Ok (buf : Nat → UInt8) (r m n : Nat) : Prop where
  lt : r < 2 ^ 32
  le : m + n ≤ INPUT_BUF_SIZE
  full : m + n = INPUT_BUF_SIZE → n = 0
  noNewline : ∀ c ∈ slots INPUT_BUF_SIZE buf (r + m) n, c ≠ 10

def line (cons : Console) : Line := ⟨unread cons, edit cons⟩

variable {buf : Nat → UInt8} {r m n : Nat} {c : UInt8}

theorem dvd_wrap : INPUT_BUF_SIZE ∣ 2 ^ 32 := by decide

theorem size_lt_wrap : INPUT_BUF_SIZE + 1 < 2 ^ 32 := by decide

namespace Ok

section

variable (h : Ok buf r m n)

include h

theorem sum_lt : m + n + 1 < 2 ^ 32 := by
  have := h.le
  have := size_lt_wrap
  omega

theorem wsub_w : wsub (2 ^ 32) ((r + m) % 2 ^ 32) r = m := by
  have := h.sum_lt
  exact wsub_add h.lt (by omega)

theorem wsub_e : wsub (2 ^ 32) ((r + (m + n)) % 2 ^ 32) r = m + n := by
  have := h.sum_lt
  exact wsub_add h.lt (by omega)

theorem wsub_edit :
    wsub (2 ^ 32) ((r + (m + n)) % 2 ^ 32) ((r + m) % 2 ^ 32) = n := by
  have := h.sum_lt
  rw [← add_assoc, ← Nat.mod_add_mod]
  exact wsub_add (Nat.mod_lt _ (by decide)) (by omega)

theorem unread_eq :
    unread (ringOf buf r m n) = slots INPUT_BUF_SIZE buf r m := by
  simp only [unread, ringOf, h.wsub_w]

theorem edit_eq :
    edit (ringOf buf r m n) = slots INPUT_BUF_SIZE buf (r + m) n := by
  simp only [edit, ringOf, h.wsub_edit, slots_mod dvd_wrap]

theorem line_eq : line (ringOf buf r m n) =
    ⟨slots INPUT_BUF_SIZE buf r m, slots INPUT_BUF_SIZE buf (r + m) n⟩ := by
  rw [line, h.unread_eq, h.edit_eq]

theorem e_eq_w :
    (r + (m + n)) % 2 ^ 32 = (r + m) % 2 ^ 32 ↔ n = 0 := by
  rw [← wsub_eq_zero (Nat.mod_lt _ (by decide)) (Nat.mod_lt _ (by decide)), h.wsub_edit]

theorem r_eq_w :
    (ringOf buf r m n).r = (ringOf buf r m n).w ↔ m = 0 := by
  change r = (r + m) % 2 ^ 32 ↔ m = 0
  rw [eq_comm, ← wsub_eq_zero (Nat.mod_lt _ (by decide)) h.lt, h.wsub_w]

end

theorem dec_e (r m n : Nat) :
    ((r + (m + (n + 1))) % 2 ^ 32 + (2 ^ 32 - 1)) % 2 ^ 32 = (r + (m + n)) % 2 ^ 32 := by
  omega

theorem edit_init (h : Ok buf r m (n + 1)) : Ok buf r m n := by
  refine ⟨h.lt, by have := h.le; omega, fun hf => ?_, fun c hc => h.noNewline c ?_⟩
  · have := h.le
    omega
  · rw [slots_succ]
    exact List.mem_append_left _ hc

theorem last_edit (buf : Nat → UInt8) (r m n : Nat) :
    buf ((r + (m + n)) % 2 ^ 32 % INPUT_BUF_SIZE) = buf ((r + m + n) % INPUT_BUF_SIZE) := by
  rw [Nat.mod_mod_of_dvd _ dvd_wrap, add_assoc]

theorem killLine_eq (h : Ok buf r m n) : killLine (ringOf buf r m n) n = ringOf buf r m 0 := by
  induction n with
  | zero => rfl
  | succ n ih =>
    have hlast : buf ((r + m + n) % INPUT_BUF_SIZE) ≠ 10 := by
      refine h.noNewline _ ?_
      rw [slots_succ]
      exact List.mem_append_right _ List.mem_cons_self
    have hne : (r + (m + (n + 1))) % 2 ^ 32 ≠ (r + m) % 2 ^ 32 := fun he => by
      cases h.e_eq_w.mp he
    rw [killLine]
    simp only [ringOf, dec_e, last_edit]
    rw [if_pos ⟨hne, hlast⟩]
    exact ih h.edit_init

theorem type (buf : Nat → UInt8) (r : Nat) (hlt : m + n < INPUT_BUF_SIZE) (c : UInt8) :
    slots INPUT_BUF_SIZE (update buf ((r + (m + n)) % 2 ^ 32 % INPUT_BUF_SIZE) c) r m =
      slots INPUT_BUF_SIZE buf r m ∧
    slots INPUT_BUF_SIZE (update buf ((r + (m + n)) % 2 ^ 32 % INPUT_BUF_SIZE) c) (r + m) (n + 1) =
      slots INPUT_BUF_SIZE buf (r + m) n ++ [c] := by
  rw [Nat.mod_mod_of_dvd _ dvd_wrap]
  refine ⟨slots_update (by omega) hlt .., ?_⟩
  rw [← add_assoc]
  exact slots_push (by omega) ..

theorem commit (h : Ok buf r m n) (hlt : m + n < INPUT_BUF_SIZE) (buf' : Nat → UInt8) :
    Ok buf' r (m + (n + 1)) 0 :=
  ⟨h.lt, by omega, fun _ => rfl, nofun⟩

theorem append (h : Ok buf r m n) (hlt : m + n + 1 < INPUT_BUF_SIZE) (hc : c ≠ 10) :
    Ok (update buf ((r + (m + n)) % 2 ^ 32 % INPUT_BUF_SIZE) c) r m (n + 1) := by
  refine ⟨h.lt, by omega, by omega, fun x hx => ?_⟩
  rw [(type buf r (by omega) c).2] at hx
  rcases List.mem_append.mp hx with hx | hx
  · exact h.noNewline x hx
  · rw [List.mem_singleton.mp hx]
    exact hc

theorem inc_e (r m n : Nat) :
    ((r + (m + n)) % 2 ^ 32 + 1) % 2 ^ 32 = (r + (m + (n + 1))) % 2 ^ 32 := by
  omega

theorem next (h : Ok buf r (m + 1) n) :
    Ok buf ((r + 1) % 2 ^ 32) m n ∧
    { ringOf buf r (m + 1) n with r := (r + 1) % 2 ^ 32 } = ringOf buf ((r + 1) % 2 ^ 32) m n ∧
    slots INPUT_BUF_SIZE buf ((r + 1) % 2 ^ 32) m = slots INPUT_BUF_SIZE buf (r + 1) m ∧
    slots INPUT_BUF_SIZE buf ((r + 1) % 2 ^ 32 + m) n =
      slots INPUT_BUF_SIZE buf (r + (m + 1)) n := by
  have hedit : slots INPUT_BUF_SIZE buf ((r + 1) % 2 ^ 32 + m) n =
      slots INPUT_BUF_SIZE buf (r + (m + 1)) n := by
    rw [← slots_mod dvd_wrap buf (r + (m + 1)), ← slots_mod dvd_wrap buf (_ + m), Nat.mod_add_mod,
      add_assoc, add_comm 1]
  refine ⟨⟨Nat.mod_lt _ (by decide), by have := h.le; omega, ?_, ?_⟩, ?_,
    slots_mod dvd_wrap .., hedit⟩
  · have := h.le
    omega
  · rw [hedit]
    exact h.noNewline
  · simp only [ringOf, Nat.mod_add_mod]
    rw [show r + 1 + m = r + (m + 1) by omega, show r + 1 + (m + n) = r + (m + 1 + n) by omega]

end Ok

theorem slots_committed (buf : Nat → UInt8) {k : Nat} (hk : k < 2 ^ 32) :
    slots INPUT_BUF_SIZE buf ((r + m) % 2 ^ 32)
      (wsub (2 ^ 32) ((r + (m + k)) % 2 ^ 32) ((r + m) % 2 ^ 32)) =
      slots INPUT_BUF_SIZE buf (r + m) k := by
  have hw : (r + (m + k)) % 2 ^ 32 = ((r + m) % 2 ^ 32 + k) % 2 ^ 32 := by
    rw [Nat.mod_add_mod, add_assoc]
  rw [hw, wsub_add (Nat.mod_lt _ (by decide)) hk, slots_mod dvd_wrap]

theorem ring_key {buf' : Nat → UInt8} {k n' : Nat} (hk : k < 2 ^ 32)
    (hc : (consoleintr (ringOf buf r m n) c).1 = ringOf buf' r (m + k) n') :
    ring.key (ringOf buf r m n) c =
      (ringOf buf' r (m + k) n', slots INPUT_BUF_SIZE buf' (r + m) k) := by
  simp only [ring, hc]
  exact congrArg _ (slots_committed buf' hk)

/-- A character does to the ring what it does to the lists. -/
theorem key_refines (h : Ok buf r m n) (c : UInt8) :
    ∃ buf' m' n' new, ring.key (ringOf buf r m n) c = (ringOf buf' r m' n', new) ∧
      Ok buf' r m' n' ∧ (line (ringOf buf r m n)).key c = (line (ringOf buf' r m' n'), new) := by
  have hlen := h.sum_lt
  -- Nothing is committed.
  have hkeep : ∀ {n'}, (consoleintr (ringOf buf r m n) c).1 = ringOf buf r m n' →
      ring.key (ringOf buf r m n) c = (ringOf buf r m n', []) :=
    fun hc => ring_key (k := 0) (by decide) hc
  rw [h.line_eq, Line.key]
  by_cases hP : c = 16
  · rw [if_pos hP]
    refine ⟨buf, m, n, [], hkeep ?_, h, by rw [h.line_eq]⟩
    simp [consoleintr, hP]
  rw [if_neg hP]
  by_cases hU : c = 21
  · rw [if_pos hU]
    have h₀ : Ok buf r m 0 := ⟨h.lt, by have := h.le; omega, fun _ => rfl, nofun⟩
    refine ⟨buf, m, 0, [], hkeep ?_, h₀, by rw [h₀.line_eq]; rfl⟩
    rw [consoleintr, if_neg hP, if_pos hU]
    exact (congrArg _ h.wsub_edit).trans h.killLine_eq
  rw [if_neg hU]
  by_cases hH : c = 8 ∨ c = 127
  · rw [if_pos hH]
    have hintr : (consoleintr (ringOf buf r m n) c).1 =
        if (r + (m + n)) % 2 ^ 32 ≠ (r + m) % 2 ^ 32 then
          ⟨buf, r, (r + m) % 2 ^ 32, ((r + (m + n)) % 2 ^ 32 + (2 ^ 32 - 1)) % 2 ^ 32⟩
        else ringOf buf r m n := by
      rw [consoleintr, if_neg hP, if_neg hU, if_pos hH]
      rfl
    cases n with
    | zero =>
      refine ⟨buf, m, 0, [], hkeep ?_, h, by rw [h.line_eq]; rfl⟩
      rw [hintr, if_neg (not_not.mpr (h.e_eq_w.mpr rfl))]
    | succ n =>
      refine ⟨buf, m, n, [], hkeep ?_, h.edit_init, ?_⟩
      · rw [hintr, if_pos (fun he => by cases h.e_eq_w.mp he), Ok.dec_e]
        rfl
      · rw [h.edit_init.line_eq, slots_succ, List.dropLast_concat]
  rw [if_neg hH]
  -- `cons.e - cons.r` before the character is stored.
  have hroom : ((ringOf buf r m n).e + (2 ^ 32 - (ringOf buf r m n).r)) % 2 ^ 32 = m + n := h.wsub_e
  simp only [length_slots, List.length_append, List.length_singleton]
  by_cases hacc : c ≠ 0 ∧ m + n < INPUT_BUF_SIZE
  · rw [if_pos hacc]
    generalize hc' : (if c = 13 then 10 else c : UInt8) = c'
    obtain ⟨hunread, hedit⟩ := Ok.type buf r hacc.2 c'
    have hintr : (consoleintr (ringOf buf r m n) c).1 =
        if c' = 10 ∨ c' = ctrlD ∨ m + (n + 1) = INPUT_BUF_SIZE then
          ringOf (update buf ((r + (m + n)) % 2 ^ 32 % INPUT_BUF_SIZE) c') r (m + (n + 1)) 0
        else ringOf (update buf ((r + (m + n)) % 2 ^ 32 % INPUT_BUF_SIZE) c') r m (n + 1) := by
      have hfull : ((r + (m + (n + 1))) % 2 ^ 32 + (2 ^ 32 - r)) % 2 ^ 32 = m + (n + 1) :=
        wsub_add h.lt (by omega)
      rw [consoleintr, if_neg hP, if_neg hU, if_neg hH, hroom, if_pos hacc]
      simp only [hc', ringOf, hfull, Ok.inc_e, add_zero]
      split <;> rfl
    by_cases hcommit : c' = 10 ∨ c' = ctrlD ∨ m + (n + 1) = INPUT_BUF_SIZE
    · rw [if_pos hcommit] at hintr ⊢
      have h' := h.commit hacc.2 (update buf ((r + (m + n)) % 2 ^ 32 % INPUT_BUF_SIZE) c')
      refine ⟨_, _, _, _, ring_key (by omega) hintr, h', ?_⟩
      rw [h'.line_eq, slots_append, hunread, hedit, slots_zero]
    · rw [if_neg hcommit] at hintr ⊢
      simp only [not_or] at hcommit
      have h' := h.append (by omega) hcommit.1
      refine ⟨_, m, n + 1, [], ring_key (k := 0) (by decide) hintr, h', ?_⟩
      rw [h'.line_eq, hunread, hedit]
  · rw [if_neg hacc]
    refine ⟨buf, m, n, [], hkeep ?_, h, by rw [h.line_eq]⟩
    rw [consoleintr, if_neg hP, if_neg hU, if_neg hH, hroom, if_neg hacc]

/-- `consoleread` takes from the ring what it takes from the list. -/
theorem readLoop_refines (killed : Bool) (target k : Nat) (outs : List (Option UInt8))
    (h : Ok buf r m n) : ∃ r' m' outs' o, Ok buf r' m' n ∧
      readLoop killed target k (ringOf buf r m n) outs = (ringOf buf r' m' n, outs', o) ∧
      Line.takeLoop killed target k (slots INPUT_BUF_SIZE buf r m) outs =
        (slots INPUT_BUF_SIZE buf r' m', outs', o) ∧
      slots INPUT_BUF_SIZE buf (r' + m') n = slots INPUT_BUF_SIZE buf (r + m) n := by
  induction k generalizing r m outs with
  | zero => exact ⟨r, m, outs, _, h, rfl, by rw [Line.takeLoop], rfl⟩
  | succ k ih =>
    cases m with
    | zero =>
      refine ⟨r, 0, outs, if killed then .ret (-1) else .sleep (k + 1), h, ?_, ?_, rfl⟩
      · rw [readLoop, if_pos (h.r_eq_w.mpr rfl)]
      · rw [slots_zero, Line.takeLoop]
    | succ m =>
      have hne := mt h.r_eq_w.mp (Nat.succ_ne_zero m)
      obtain ⟨h', hr, hu, he⟩ := h.next
      rw [readLoop, if_neg hne, slots_cons, Line.takeLoop]
      simp only [show (ringOf buf r (m + 1) n).buf = buf from rfl,
        show (ringOf buf r (m + 1) n).r = r from rfl]
      have hr' : (⟨buf, (r + 1) % 2 ^ 32, (ringOf buf r (m + 1) n).w,
          (ringOf buf r (m + 1) n).e⟩ : Console) = ringOf buf ((r + 1) % 2 ^ 32) m n := hr
      by_cases hD : buf (r % INPUT_BUF_SIZE) = ctrlD
      · rw [if_pos hD, if_pos hD]
        by_cases hlt : k + 1 < target
        · rw [if_pos hlt, if_pos hlt]
          refine ⟨r, m + 1, outs, .ret (target - (k + 1 : Nat)), h, ?_, ?_, rfl⟩
          · simp only [ringOf, inc_dec h.lt]
          · rw [slots_cons]
        · rw [if_neg hlt, if_neg hlt, hr']
          exact ⟨_, m, _, _, h', rfl, by rw [hu], he⟩
      · rw [if_neg hD, if_neg hD]
        by_cases hN : buf (r % INPUT_BUF_SIZE) = 10
        · rw [if_pos hN, if_pos hN, hr']
          exact ⟨_, m, _, _, h', rfl, by rw [hu], he⟩
        · rw [if_neg hN, if_neg hN, hr', ← hu]
          obtain ⟨r', m', outs', o, h'', hloop, htake, he'⟩ := ih (outs ++ [some _]) h'
          exact ⟨r', m', outs', o, h'', hloop, htake, he'.trans he⟩

/-- The next read finds the same byte in both. -/
theorem next_refines (h : Ok buf r m n) :
    ring.next (ringOf buf r m n) = (slots INPUT_BUF_SIZE buf r m).head? := by
  simp only [ring]
  cases m with
  | zero => rw [if_pos (h.r_eq_w.mpr rfl), slots_zero, List.head?_nil]
  | succ m =>
    rw [if_neg (mt h.r_eq_w.mp (Nat.succ_ne_zero m)), slots_cons, List.head?_cons]
    rfl

def Sound (cons : Console) : Prop := ∃ buf r m n, Ok buf r m n ∧ cons = ringOf buf r m n

section Simulation

variable {ρ : Type} [DecidableEq ρ] {s s' : State ρ Console}

def State.line (s : State ρ Console) : State ρ Line :=
  ⟨Tty.line s.buf, s.reader, s.calls, s.committed, s.outs, s.returns⟩

theorem take_refines {cons : Console} (h : Sound cons) (killed : Bool) (target k : Nat) :
    ∃ cons' outs o, ring.take killed target k cons = (cons', outs, o) ∧ Sound cons' ∧
      Line.lists.take killed target k (line cons) = (line cons', outs, o) ∧
      Line.lists.next (line cons') = ring.next cons' := by
  obtain ⟨buf, r, m, n, hok, rfl⟩ := h
  obtain ⟨r', m', outs, o, hok', hread, htake, hedit⟩ := readLoop_refines killed target k [] hok
  refine ⟨_, outs, o, hread, ⟨_, _, _, _, hok', rfl⟩, ?_, ?_⟩
  · simp [Line.lists, hok.line_eq, hok'.line_eq, htake, hedit]
  · rw [next_refines hok', hok'.line_eq]
    rfl

theorem enter_refines (h : Sound s.buf) (p : ρ) (rd : Reader) (killed : Bool) :
    Sound (enter ring s p rd killed).buf ∧
      enter Line.lists s.line p rd killed = (enter ring s p rd killed).line := by
  obtain ⟨cons', outs, o, hring, hs, hlist, hnext⟩ := take_refines h killed rd.target rd.n
  simp only [enter, State.line, hring, hlist, hnext]
  cases o with
  | ret _ => exact ⟨hs, rfl⟩
  | sleep _ => exact ⟨hs, rfl⟩

/-- A step over the ring is a step over the lists. -/
theorem step_refines {e : Event ρ} (h : Sound s.buf) (hs : step ring s e = some s') :
    Sound s'.buf ∧ step Line.lists s.line e = some s'.line := by
  cases e with
  | intr c =>
    obtain ⟨buf, r, m, n, hok, hbuf⟩ := h
    obtain ⟨buf', m', n', new, hring, hok', hline⟩ := key_refines hok c
    simp only [step, hbuf, hring] at hs
    cases hs
    refine ⟨⟨_, _, _, _, hok', rfl⟩, ?_⟩
    simp [step, State.line, hbuf, Line.lists, hline]
  | read p k killed =>
    simp only [step] at hs ⊢
    cases hp : s.reader p with
    | some rd => simp [hp] at hs
    | none =>
      simp only [hp] at hs
      cases hs
      have he := enter_refines (s := { s with calls := s.calls + 1 }) h p
        ⟨s.calls, k.toNat, k.toNat⟩ killed
      simp only [State.line, hp]
      exact ⟨he.1, congrArg some he.2⟩
  | resume p killed =>
    obtain ⟨rd, hp, rfl⟩ := Option.map_eq_some_iff.mp hs
    have he := enter_refines h p rd killed
    exact ⟨he.1, Option.map_eq_some_iff.mpr ⟨rd, hp, he.2⟩⟩

theorem enter_edit (l : State ρ Line) (p : ρ) (rd : Reader) (killed : Bool) :
    (enter Line.lists l p rd killed).buf.edit = l.buf.edit ∧
      (enter Line.lists l p rd killed).committed = l.committed := by
  simp only [enter]
  split <;> exact ⟨rfl, rfl⟩

/-- Reads take what is committed and leave alone what can still be edited. -/
theorem read_edit {e : Event ρ} (h : Sound s.buf) (hs : step ring s e = some s')
    (he : ∀ c, e ≠ .intr c) : edit s'.buf = edit s.buf ∧ s'.committed = s.committed := by
  have hline := (step_refines h hs).2
  cases e with
  | intr c => exact absurd rfl (he c)
  | read p k killed =>
    simp only [step] at hline
    cases hp : s.line.reader p with
    | some rd => simp [hp] at hline
    | none =>
      rw [hp] at hline
      have hl := enter_edit { s.line with calls := s.line.calls + 1 } p
        ⟨s.line.calls, k.toNat, k.toNat⟩ killed
      rwa [Option.some.inj hline] at hl
  | resume p killed =>
    obtain ⟨rd, -, hl⟩ := Option.map_eq_some_iff.mp hline
    have := enter_edit s.line p rd killed
    rwa [hl] at this

end Simulation

end Xv6.Tty
