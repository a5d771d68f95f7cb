import Mathlib

/-! Programs that change a state and may stop with a message, and rules for what holds when they
end. -/

namespace Xv6

/-- A program over states `σ`; an error is the message of a panic. -/
abbrev Prog (σ : Type) := StateT σ (Except String)

namespace Prog

variable {σ τ α β : Type}

def panic (msg : String) : Prog σ α := fun _ => .error msg

def on (get : σ → τ) (put : τ → σ → σ) (m : Prog τ α) : Prog σ α := fun s =>
  match m (get s) with
  | .ok (a, t) => .ok (a, put t s)
  | .error msg => .error msg

/-- Run `f i`, `f (i + 1)`, …, `n` times in all. -/
def loop (f : Nat → Prog σ Unit) : Nat → Nat → Prog σ Unit
  | _, 0 => pure ()
  | i, n + 1 => do
    f i
    loop f (i + 1) n

/-- Run `f i`, `f (i + 1)`, …, at most `n` times, until one has a result. -/
def search (f : Nat → Prog σ (Option α)) : Nat → Nat → Prog σ (Option α)
  | _, 0 => pure none
  | i, n + 1 => do
    match ← f i with
    | some a => pure (some a)
    | none => search f (i + 1) n

end Prog

section run

variable {σ τ α β : Type}

theorem run_pure (a : α) (s : σ) : (pure a : Prog σ α) s = .ok (a, s) := rfl

theorem run_bind (m : Prog σ α) (f : α → Prog σ β) (s : σ) :
    (m >>= f) s = m s >>= fun r => f r.1 r.2 := rfl

theorem ok_bind (a : α) (f : α → Except String β) : (Except.ok a >>= f) = f a := rfl

theorem run_on (get : σ → τ) (put : τ → σ → σ) (m : Prog τ α) (s : σ) :
    Prog.on get put m s = m (get s) >>= fun r => .ok (r.1, put r.2 s) := by
  unfold Prog.on
  cases m (get s) with
  | error msg => rfl
  | ok r => rfl

end run

variable {σ τ α β : Type} {E : String → Prop} {s : σ} {Q Q' : α → σ → Prop}

/-- The program ends in a state and with a result that satisfy `Q`, or stops with a message that
satisfies `E`. -/
def wp (E : String → Prop) (m : Prog σ α) (s : σ) (Q : α → σ → Prop) : Prop :=
  match m s with
  | .ok (a, s') => Q a s'
  | .error msg => E msg

theorem wp.mono {m : Prog σ α} (h : wp E m s Q) (hQ : ∀ a s', Q a s' → Q' a s') :
    wp E m s Q' := by
  unfold wp at *
  split at h
  · exact hQ _ _ h
  · exact h

theorem wp.imp {E' : String → Prop} {m : Prog σ α} (h : wp E m s Q) (hE : ∀ msg, E msg → E' msg)
    (hQ : ∀ a s', Q a s' → Q' a s') : wp E' m s Q' := by
  unfold wp at *
  split at h
  · exact hQ _ _ h
  · exact hE _ h

theorem wp_pure (a : α) : wp E (pure a) s Q ↔ Q a s := Iff.rfl

theorem wp_panic (msg : String) : wp E (Prog.panic msg) s Q ↔ E msg := Iff.rfl

theorem wp_bind (m : Prog σ β) (f : β → Prog σ α) :
    wp E (m >>= f) s Q ↔ wp E m s fun b s' => wp E (f b) s' Q := by
  simp only [wp, bind, StateT.bind, Except.bind]
  cases m s with
  | error msg => rfl
  | ok r => rfl

theorem wp_map (f : β → α) (m : Prog σ β) :
    wp E (f <$> m) s Q ↔ wp E m s fun b s' => Q (f b) s' := by
  simp only [wp, Functor.map, StateT.map, bind, Except.bind]
  cases m s with
  | error msg => rfl
  | ok r => rfl

theorem wp_get {Q : σ → σ → Prop} : wp E get s Q ↔ Q s s := Iff.rfl

theorem wp_modify (f : σ → σ) {Q : PUnit → σ → Prop} : wp E (modify f) s Q ↔ Q ⟨⟩ (f s) := Iff.rfl

theorem wp_on {get : σ → τ} {put : τ → σ → σ} {m : Prog τ α} :
    wp E (Prog.on get put m) s Q ↔ wp E m (get s) fun a t => Q a (put t s) := by
  simp only [wp, Prog.on]
  cases m (get s) with
  | error msg => rfl
  | ok r => rfl

theorem wp.bind {m : Prog σ β} {f : β → Prog σ α} {R : β → σ → Prop} (h : wp E m s R)
    (hf : ∀ b s', R b s' → wp E (f b) s' Q) : wp E (m >>= f) s Q :=
  (wp_bind m f).mpr (h.mono hf)

theorem wp_loop {f : Nat → Prog σ Unit} {i n : Nat} (I : Nat → σ → Prop) (h : I i s)
    (hf : ∀ j s, i ≤ j → j < i + n → I j s → wp E (f j) s fun _ => I (j + 1)) :
    wp E (Prog.loop f i n) s fun _ => I (i + n) := by
  induction n generalizing i s with
  | zero => exact h
  | succ n ih =>
    refine (hf i s (Nat.le_refl _) (by omega) h).bind fun _ s' hs' => ?_
    refine (ih hs' fun j s hj hj' => hf j s (by omega) (by omega)).mono fun _ t ht => ?_
    rwa [show i + (n + 1) = i + 1 + n by omega]

theorem wp_search {f : Nat → Prog σ (Option α)} {i n : Nat} (I : Nat → σ → Prop) (h : I i s)
    (hf : ∀ j s, i ≤ j → j < i + n → I j s → wp E (f j) s fun r s' =>
      match r with
      | some a => Q a s'
      | none => I (j + 1) s') :
    wp E (Prog.search f i n) s fun r s' =>
      match r with
      | some a => Q a s'
      | none => I (i + n) s' := by
  induction n generalizing i s with
  | zero => exact h
  | succ n ih =>
    refine (hf i s (Nat.le_refl _) (by omega) h).bind fun r s' hr => ?_
    cases r with
    | some a => exact hr
    | none =>
      refine (ih hr fun j s hj hj' => hf j s (by omega) (by omega)).mono fun r t ht => ?_
      cases r with
      | some a => exact ht
      | none => rwa [show i + (n + 1) = i + 1 + n by omega]

theorem wp.of_ok {m : Prog σ α} {a : α} {s' : σ} (h : wp E m s Q) (hm : m s = .ok (a, s')) :
    Q a s' := by
  rwa [wp, hm] at h

theorem wp.of_error {m : Prog σ α} {msg : String} (h : wp E m s Q) (hm : m s = .error msg) :
    E msg := by
  rwa [wp, hm] at h

theorem wp.exists_ok {m : Prog σ α} (h : wp E m s Q) (hE : ∀ msg, ¬E msg) :
    ∃ a s', m s = .ok (a, s') ∧ Q a s' := by
  cases hm : m s with
  | error msg => exact absurd (h.of_error hm) (hE msg)
  | ok r => exact ⟨r.1, r.2, rfl, h.of_ok hm⟩

theorem ok_of_any {x : Except String α} {p : α → Bool} (h : x.toOption.any p = true) :
    ∃ a, x = .ok a ∧ p a = true := by
  cases x with
  | error msg => cases h
  | ok a => exact ⟨a, rfl, h⟩

end Xv6
