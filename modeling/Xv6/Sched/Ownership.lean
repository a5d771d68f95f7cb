import Xv6.Proc.Wait

/-! What `p->lock` is for: which CPU may run a process, for any CPUs and any processes. A CPU that
is changing to or from a process holds its lock, and a process that is `RUNNING` has exactly one
CPU. -/

namespace Xv6.Sched

open Function
open Wait (ProcState)

def Off (st : ProcState) : Prop := st = .runnable ∨ st = .sleeping ∨ st = .zombie

theorem Off.ne_running {st : ProcState} (h : Off st) : st ≠ .running := by
  rcases h with rfl | rfl | rfl <;> decide

/-- The process that each CPU runs and whether it is `RUNNING`, the `p->lock` that each CPU holds,
and the states of the processes. -/
structure Own (κ ι : Type) where
  runs : κ → Option (ι × Bool)
  plock : κ → Option ι
  state : ι → ProcState

namespace Own

/-- What CPU `c` may do. -/
inductive Step {κ ι : Type} [DecidableEq κ] [DecidableEq ι] (o : Own κ ι) (c : κ) : Own κ ι → Prop
  | stay : Step o c o
  | acquire {q : ι} (hnone : o.plock c = none) (hfree : ∀ c', o.plock c' ≠ some q) :
      Step o c { o with plock := update o.plock c (some q) }
  | release (hruns : ∀ q, o.runs c ≠ some (q, false)) :
      Step o c { o with plock := update o.plock c none }
  | run {q : ι} (hlock : o.plock c = some q) (hruns : o.runs c = none)
      (hstate : o.state q = .runnable) :
      Step o c { o with
        runs := update o.runs c (some (q, true)), state := update o.state q .running }
  | leave {q : ι} {st : ProcState} (hlock : o.plock c = some q)
      (hruns : o.runs c = some (q, true)) (hoff : Off st) :
      Step o c { o with runs := update o.runs c (some (q, false)), state := update o.state q st }
  | drop {q : ι} (hruns : o.runs c = some (q, false)) :
      Step o c { o with runs := update o.runs c none }
  | change {q : ι} {st : ProcState} (hlock : o.plock c = some q) (hstate : o.state q ≠ .running)
      (hst : st ≠ .running) (hoff : Off st ∨ o.runs c ≠ some (q, false)) :
      Step o c { o with state := update o.state q st }

structure Inv {κ ι : Type} (o : Own κ ι) : Prop where
  excl : ∀ c c' q, o.plock c = some q → o.plock c' = some q → c = c'
  running : ∀ c q, o.runs c = some (q, true) → o.state q = .running
  off : ∀ c q, o.runs c = some (q, false) → Off (o.state q) ∧ o.plock c = some q
  unique : ∀ c c' q b b', o.runs c = some (q, b) → o.runs c' = some (q, b') → c = c'
  cpu : ∀ q, o.state q = .running → ∃ c, o.runs c = some (q, true)

section

variable {κ ι : Type} {o : Own κ ι} {c c' : κ} {q : ι} {b : Bool}

theorem Inv.state_of_runs (h : o.Inv) (hruns : o.runs c = some (q, b)) :
    o.state q = .running ∨ Off (o.state q) := by
  cases b with
  | true => exact .inl (h.running c q hruns)
  | false => exact .inr (h.off c q hruns).1

theorem Inv.eq_of_plock (h : o.Inv) (hlock : o.plock c = some q) (hstate : o.state q ≠ .running)
    (hruns : o.runs c' = some (q, b)) : c' = c ∧ b = false := by
  cases b with
  | true => exact absurd (h.running c' q hruns) hstate
  | false => exact ⟨h.excl c' c q (h.off c' q hruns).2 hlock, rfl⟩

end

variable {κ ι : Type} [DecidableEq κ] {o o' : Own κ ι} {c : κ} {q : ι} {st : ProcState}

theorem Inv.acquire (h : o.Inv) (hnone : o.plock c = none) (hfree : ∀ c', o.plock c' ≠ some q) :
    ({ o with plock := update o.plock c (some q) } : Own κ ι).Inv where
  excl c₁ c₂ r h₁ h₂ := by
    by_cases e₁ : c₁ = c <;> by_cases e₂ : c₂ = c
    · rw [e₁, e₂]
    · simp only [e₁, update_self, update_of_ne e₂] at h₁ h₂
      exact absurd (h₂.trans h₁.symm) (hfree c₂)
    · simp only [e₂, update_self, update_of_ne e₁] at h₁ h₂
      exact absurd (h₁.trans h₂.symm) (hfree c₁)
    · simp only [update_of_ne e₁, update_of_ne e₂] at h₁ h₂
      exact h.excl c₁ c₂ r h₁ h₂
  running := h.running
  off c₁ r h₁ := by
    have ⟨hoff, hlock⟩ := h.off c₁ r h₁
    have hne : c₁ ≠ c := fun he => by rw [he, hnone] at hlock; cases hlock
    exact ⟨hoff, (update_of_ne hne _ _).trans hlock⟩
  unique := h.unique
  cpu := h.cpu

theorem Inv.release (h : o.Inv) (hruns : ∀ q, o.runs c ≠ some (q, false)) :
    ({ o with plock := update o.plock c none } : Own κ ι).Inv where
  excl c₁ c₂ r h₁ h₂ := by
    have hold : ∀ c', update o.plock c none c' = some r → o.plock c' = some r := fun c' h' => by
      by_cases e : c' = c
      · rw [e, update_self] at h'; cases h'
      · rwa [update_of_ne e] at h'
    exact h.excl c₁ c₂ r (hold c₁ h₁) (hold c₂ h₂)
  running := h.running
  off c₁ r h₁ := by
    have ⟨hoff, hlock⟩ := h.off c₁ r h₁
    have hne : c₁ ≠ c := fun he => hruns r (he ▸ h₁)
    exact ⟨hoff, (update_of_ne hne _ _).trans hlock⟩
  unique := h.unique
  cpu := h.cpu

variable [DecidableEq ι]

theorem Inv.run (h : o.Inv) (hlock : o.plock c = some q) (hruns : o.runs c = none)
    (hstate : o.state q = .runnable) :
    ({ o with runs := update o.runs c (some (q, true)), state := update o.state q .running } :
      Own κ ι).Inv := by
  have hother : ∀ c' r b, c' ≠ c → o.runs c' = some (r, b) → r ≠ q := by
    rintro c' r b hne h' rfl
    exact hne (h.eq_of_plock hlock (by rw [hstate]; decide) h').1
  have hnew : ∀ c' r b, update o.runs c (some (q, true)) c' = some (r, b) →
      c' = c ∧ r = q ∧ b = true ∨ c' ≠ c ∧ r ≠ q ∧ o.runs c' = some (r, b) := by
    intro c' r b h'
    by_cases e : c' = c
    · rw [e, update_self] at h'
      cases h'
      exact .inl ⟨e, rfl, rfl⟩
    · rw [update_of_ne e] at h'
      exact .inr ⟨e, hother c' r b e h', h'⟩
  refine ⟨h.excl, fun c₁ r h₁ => ?_, fun c₁ r h₁ => ?_, fun c₁ c₂ r b b' h₁ h₂ => ?_,
    fun r hr => ?_⟩ <;> dsimp only at *
  · rcases hnew _ _ _ h₁ with ⟨-, rfl, -⟩ | ⟨-, hne, hold⟩
    · exact update_self ..
    · exact (update_of_ne hne _ _).trans (h.running c₁ r hold)
  · rcases hnew _ _ _ h₁ with ⟨-, -, hb⟩ | ⟨-, hne, hold⟩
    · cases hb
    · have ⟨hoff, hl⟩ := h.off c₁ r hold
      exact ⟨by rwa [update_of_ne hne], hl⟩
  · rcases hnew _ _ _ h₁ with ⟨e₁, hr₁, -⟩ | ⟨-, hn₁, hold₁⟩ <;>
      rcases hnew _ _ _ h₂ with ⟨e₂, hr₂, -⟩ | ⟨-, hn₂, hold₂⟩
    · rw [e₁, e₂]
    · exact absurd hr₁ hn₂
    · exact absurd hr₂ hn₁
    · exact h.unique c₁ c₂ r b b' hold₁ hold₂
  · by_cases e : r = q
    · exact ⟨c, by rw [update_self, e]⟩
    · obtain ⟨c', h'⟩ := h.cpu r (by rwa [update_of_ne e] at hr)
      have hne : c' ≠ c := fun he => by rw [he, hruns] at h'; cases h'
      exact ⟨c', by rwa [update_of_ne hne]⟩

/-- The CPU keeps the process, or drops it, and only that process may change its state. -/
theorem Inv.off_cpu (h : o.Inv) (x : Option (ι × Bool)) (hlock : o.plock c = some q)
    (hruns : ∃ b, o.runs c = some (q, b)) (hx : x = none ∨ x = some (q, false)) (hoff : Off st) :
    ({ o with runs := update o.runs c x, state := update o.state q st } : Own κ ι).Inv := by
  obtain ⟨b₀, hb₀⟩ := hruns
  have hnew : ∀ c' r b, update o.runs c x c' = some (r, b) →
      c' = c ∧ r = q ∧ b = false ∨ c' ≠ c ∧ r ≠ q ∧ o.runs c' = some (r, b) := by
    intro c' r b h'
    by_cases e : c' = c
    · rw [e, update_self] at h'
      rcases hx with rfl | rfl
      · cases h'
      · cases h'
        exact .inl ⟨e, rfl, rfl⟩
    · rw [update_of_ne e] at h'
      refine .inr ⟨e, ?_, h'⟩
      rintro rfl
      exact e (h.unique c' c r b b₀ h' hb₀)
  refine ⟨h.excl, fun c₁ r h₁ => ?_, fun c₁ r h₁ => ?_, fun c₁ c₂ r b b' h₁ h₂ => ?_,
    fun r hr => ?_⟩ <;> dsimp only at *
  · rcases hnew _ _ _ h₁ with ⟨-, -, hb⟩ | ⟨-, hne, hold⟩
    · cases hb
    · exact (update_of_ne hne _ _).trans (h.running c₁ r hold)
  · rcases hnew _ _ _ h₁ with ⟨rfl, rfl, -⟩ | ⟨-, hne, hold⟩
    · exact ⟨by rwa [update_self], hlock⟩
    · have ⟨ho, hl⟩ := h.off c₁ r hold
      exact ⟨by rwa [update_of_ne hne], hl⟩
  · rcases hnew _ _ _ h₁ with ⟨e₁, hr₁, -⟩ | ⟨-, hn₁, hold₁⟩ <;>
      rcases hnew _ _ _ h₂ with ⟨e₂, hr₂, -⟩ | ⟨-, hn₂, hold₂⟩
    · rw [e₁, e₂]
    · exact absurd hr₁ hn₂
    · exact absurd hr₂ hn₁
    · exact h.unique c₁ c₂ r b b' hold₁ hold₂
  · by_cases e : r = q
    · rw [e, update_self] at hr
      exact absurd hr (Off.ne_running hoff)
    · obtain ⟨c', h'⟩ := h.cpu r (by rwa [update_of_ne e] at hr)
      have hne : c' ≠ c := fun he => by
        rw [he, hb₀] at h'
        cases h'
        exact e rfl
      exact ⟨c', by rwa [update_of_ne hne]⟩

omit [DecidableEq κ] in
theorem Inv.change (h : o.Inv) (hlock : o.plock c = some q) (hstate : o.state q ≠ .running)
    (hst : st ≠ .running) (hoff : Off st ∨ o.runs c ≠ some (q, false)) :
    ({ o with state := update o.state q st } : Own κ ι).Inv := by
  refine ⟨h.excl, fun c₁ r h₁ => ?_, fun c₁ r h₁ => ?_, h.unique, fun r hr => ?_⟩ <;>
    dsimp only at *
  · have hne : r ≠ q := by
      rintro rfl
      exact hstate (h.running c₁ r h₁)
    exact (update_of_ne hne _ _).trans (h.running c₁ r h₁)
  · have ⟨ho, hl⟩ := h.off c₁ r h₁
    refine ⟨?_, hl⟩
    by_cases e : r = q
    · subst e
      rw [update_self]
      rcases hoff with hoff | hoff
      · exact hoff
      · rw [h.excl c₁ c r hl hlock] at h₁
        exact absurd h₁ hoff
    · rwa [update_of_ne e]
  · refine h.cpu r ?_
    by_cases e : r = q
    · rw [e, update_self] at hr
      exact absurd hr hst
    · rwa [update_of_ne e] at hr

theorem Inv.step (h : o.Inv) (hstep : o.Step c o') : o'.Inv := by
  cases hstep with
  | stay => exact h
  | acquire hnone hfree => exact h.acquire hnone hfree
  | release hruns => exact h.release hruns
  | run hlock hruns hstate => exact h.run hlock hruns hstate
  | leave hlock hruns hoff => exact h.off_cpu _ hlock ⟨_, hruns⟩ (.inr rfl) hoff
  | @drop q hruns =>
    have ⟨hoff, hlock⟩ := h.off c q hruns
    have := h.off_cpu none hlock ⟨_, hruns⟩ (.inl rfl) hoff
    rwa [update_eq_self] at this
  | change hlock hstate hst hoff => exact h.change hlock hstate hst hoff

end Own

end Xv6.Sched
