import Mathlib

/-! Runs of a deterministic step function over labelled events, and the induction rules for what
holds in every reached state. -/

namespace Xv6

variable {σ ε : Type*}

instance neZero_two : NeZero 2 := ⟨by decide⟩

theorem guard_eq_some {p : Prop} [Decidable p] {x y : σ} :
    (if p then some x else none) = some y ↔ p ∧ x = y := by
  rw [Option.ite_none_right_eq_some, Option.some.injEq]

/-- The states that `step` reaches from a state that satisfies `init`, by any sequence of events
that are possible in turn. -/
inductive Reachable (init : σ → Prop) (step : σ → ε → Option σ) : σ → Prop
  | start {s : σ} (h : init s) : Reachable init step s
  | next {s s' : σ} (e : ε) (h : Reachable init step s) (hs : step s e = some s') :
      Reachable init step s'

variable {step : σ → ε → Option σ} {init : σ → Prop}

/-- What holds at the start and is kept by every step holds in every reachable state. -/
theorem Reachable.invariant {P : σ → Prop}
    (hinit : ∀ s, init s → P s) (hstep : ∀ s e s', P s → step s e = some s' → P s') {s : σ}
    (h : Reachable init step s) : P s := by
  induction h with
  | start h => exact hinit _ h
  | next e _ hs ih => exact hstep _ e _ ih hs

/-- The steps whose event is allowed in the state in which it happens. -/
def restrict (ok : σ → ε → Prop) [∀ s e, Decidable (ok s e)] (step : σ → ε → Option σ) (s : σ)
    (e : ε) : Option σ :=
  if ok s e then step s e else none

theorem restrict_eq_some {ok : σ → ε → Prop} [∀ s e, Decidable (ok s e)]
    {s s' : σ} {e : ε} : restrict ok step s e = some s' ↔ ok s e ∧ step s e = some s' := by
  simp [restrict]

theorem Reachable.mono {step step' : σ → ε → Option σ} {s : σ}
    (h : Reachable init step s) (hle : ∀ s e s', step s e = some s' → step' s e = some s') :
    Reachable init step' s := by
  induction h with
  | start h => exact .start h
  | next e _ hs ih => exact ih.next e (hle _ e _ hs)

theorem Reachable.of_restrict {ok : σ → ε → Prop}
    [∀ s e, Decidable (ok s e)] {s : σ}
    (h : Reachable init (restrict ok step) s) : Reachable init step s :=
  h.mono fun _ _ _ hs => (restrict_eq_some.mp hs).2

/-- The state after a sequence of events, if all of them are possible in turn. -/
def runEvents (step : σ → ε → Option σ) (s : σ) : List ε → Option σ
  | [] => some s
  | e :: es => (step s e).bind fun s' => runEvents step s' es

theorem Reachable.run {s s' : σ}
    (h : Reachable init step s) (es : List ε) (hr : runEvents step s es = some s') :
    Reachable init step s' := by
  induction es generalizing s with
  | nil =>
    simp only [runEvents, Option.some.injEq] at hr
    exact hr ▸ h
  | cons e es ih =>
    obtain ⟨t, ht, hr⟩ := Option.bind_eq_some_iff.mp hr
    exact ih (h.next e ht) hr

/-- A run that can be evaluated reaches a state with the properties found there. -/
theorem Reachable.exists_run {s : σ} {es : List ε} {P : σ → Prop} [DecidablePred P] (h : init s)
    (hrun : (runEvents step s es).any (fun s => decide (P s)) = true) :
    ∃ s', Reachable init step s' ∧ P s' := by
  obtain ⟨s', hs, hp⟩ := (Option.any_eq_true _ _).mp hrun
  exact ⟨s', (Reachable.start h).run es hs, of_decide_eq_true hp⟩

end Xv6
