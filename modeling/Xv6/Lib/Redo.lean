import Mathlib

/-! Lists of single-cell writes to a store, as a redo log replays them: `replay d ws` is the store
`d` after the writes `ws` in order. Replaying a list over a store in which some of its writes have
already been made gives the same store. -/

namespace Xv6.Redo

open Function

variable {κ β : Type*} [DecidableEq κ]

def replay (d : κ → β) (ws : List (κ × β)) : κ → β :=
  ws.foldl (fun d w => update d w.1 w.2) d

@[simp] theorem replay_nil (d : κ → β) : replay d [] = d := rfl

@[simp] theorem replay_cons (d : κ → β) (w : κ × β) (ws : List (κ × β)) :
    replay d (w :: ws) = replay (update d w.1 w.2) ws := rfl

theorem replay_append (d : κ → β) (ws vs : List (κ × β)) :
    replay d (ws ++ vs) = replay (replay d ws) vs := by
  simp [replay]

theorem replay_other {ws : List (κ × β)} {d : κ → β} {x : κ} (h : ∀ w ∈ ws, w.1 ≠ x) :
    replay d ws x = d x := by
  induction ws generalizing d with
  | nil => rfl
  | cons w ws ih =>
    rw [replay_cons, ih fun w' hw => h w' (List.mem_cons_of_mem _ hw)]
    exact update_of_ne (Ne.symm (h w List.mem_cons_self)) _ _

/-- The value of a cell after a replay depends on the store only where nothing is written. -/
theorem replay_congr {ws : List (κ × β)} {a b : κ → β} {x : κ}
    (h : (∃ w ∈ ws, w.1 = x) ∨ a x = b x) : replay a ws x = replay b ws x := by
  induction ws generalizing a b with
  | nil =>
    rcases h with ⟨w, hw, _⟩ | h
    · simp at hw
    · exact h
  | cons w ws ih =>
    rw [replay_cons, replay_cons]
    apply ih
    by_cases hx : w.1 = x
    · subst hx
      simp
    · rcases h with ⟨w', hw, hwx⟩ | h
      · rcases List.mem_cons.mp hw with rfl | hw
        · exact absurd hwx hx
        · exact .inl ⟨w', hw, hwx⟩
      · simp [update_of_ne (Ne.symm hx), h]

theorem replay_take (d : κ → β) (ws : List (κ × β)) (k : Nat) (x : κ) :
    replay (replay d (ws.take k)) ws x = replay d ws x := by
  apply replay_congr
  by_cases h : ∃ w ∈ ws, w.1 = x
  · exact .inl h
  · refine .inr (replay_other fun w hw hx => h ⟨w, List.mem_of_mem_take hw, hx⟩)

/-- Two replays in a row agree with one of the appended list at any cell where the stores agree. -/
theorem replay_agree {ws : List (κ × β)} {a b : κ → β} {x : κ} (h : a x = b x) :
    replay a ws x = replay b ws x :=
  replay_congr (.inr h)

end Xv6.Redo
