import Xv6.Sched.Machine

/-! Why no wakeup is lost: what each CPU knows at the places where it calls `wakeup` or holds
`wait_lock`, and that no other CPU can make it wrong. -/

namespace Xv6.Sched

open Wait (Slot Chan initproc)

/-- Who called `wakeup`: `reparent`, `kexit` of a process, or code that does not hold
`wait_lock`. -/
inductive Site
  | plain
  | reparent
  | exit (p : Slot)
  deriving DecidableEq

/-- What a CPU is doing. -/
inductive Phase
  | idle
  -- with `wait_lock`
  | hold
  -- `kwait` of `p`, with `wait_lock`, has passed the slots below `i`
  | scan (p : Slot) (i : Nat)
  -- `kexit` of `p`, with `wait_lock`, has woken the parent up
  | exiting (p : Slot)
  -- `wakeup(chan)` has passed the slots below `i`
  | wake (chan : Chan) (i : Nat) (site : Site)
  deriving DecidableEq

def Phase.holds : Phase → Bool
  | idle | wake _ _ .plain => false
  | _ => true

/-- The processes that have released `lk` in a call of `sleep(chan, lk)` and were not woken up, who
holds which lock, what the CPUs do, and the process tree. -/
structure Proto (κ : Type) where
  pend : Slot → Chan → Cond → Prop
  holder : Cond → Option κ
  phase : κ → Phase
  parent : Slot → Option Slot
  zombie : Slot → Prop

namespace Proto

variable {κ : Type} {o o' : Proto κ} {c : κ} {p q : Slot}

/-- What CPU `c` knows in a phase. -/
structure Good (o : Proto κ) (c : κ) (ph : Phase) : Prop where
  wake : ∀ chan i site, ph = .wake chan i site → ∀ lk, o.holder lk = some c →
    ∀ q : Slot, q.val < i → ¬o.pend q chan lk
  hold : ph.holds = true → o.holder .wait = some c
  scan : ∀ p i, ph = .scan p i → ∀ q : Slot, q.val < i → o.parent q = some p → ¬o.zombie q
  exiting : ∀ p, ph = .exiting p → ∀ r, o.parent p = some r → ¬o.pend r (.proc r) .wait
  site : ∀ chan i p, ph = .wake chan i (.exit p) → ∀ r, o.parent p = some r → chan = .proc r

theorem Good.idle : o.Good c .idle := ⟨nofun, nofun, nofun, nofun, nofun⟩

theorem Good.plain {chan : Chan} : o.Good c (.wake chan 0 .plain) :=
  ⟨fun _ _ _ h => by cases h; exact fun _ _ q hq => absurd hq (Nat.not_lt_zero _), nofun, nofun,
    nofun, nofun⟩

theorem Good.of_hold (h : o.holder .wait = some c) : o.Good c .hold :=
  ⟨nofun, fun _ => h, nofun, nofun, nofun⟩

theorem Good.of_scan {i : Nat} (h : o.holder .wait = some c)
    (hscan : ∀ q : Slot, q.val < i → o.parent q = some p → ¬o.zombie q) : o.Good c (.scan p i) :=
  ⟨nofun, fun _ => h, fun _ _ hp => by cases hp; exact hscan, nofun, nofun⟩

theorem Good.called {chan : Chan} {st : Site} (h : o.holder .wait = some c)
    (hsite : ∀ p, st = .exit p → ∀ r, o.parent p = some r → chan = .proc r) :
    o.Good c (.wake chan 0 st) := by
  refine ⟨fun _ _ _ he _ _ q hq => ?_, fun _ => h, nofun, nofun, fun _ _ p he r hr => ?_⟩
  · cases he
    exact absurd hq (Nat.not_lt_zero _)
  · cases he
    exact hsite p rfl r hr

theorem Phase.holds_wake (chan chan' : Chan) (i i' : Nat) (st : Site) :
    (Phase.wake chan i st).holds = (Phase.wake chan' i' st).holds := by
  cases st <;> rfl

theorem Good.of_free {ph : Phase} (hh : ph.holds = false) (hfree : ∀ lk, o.holder lk ≠ some c) :
    o.Good c ph := by
  refine ⟨fun _ _ _ _ lk hlk => absurd hlk (hfree lk), fun h => ?_, fun _ _ h => ?_, fun _ h => ?_,
    fun _ _ _ h => ?_⟩ <;> rw [h] at hh <;> cases hh

theorem Good.advance {chan : Chan} {i : Nat} {st : Site} (h : o.Good c (.wake chan i st))
    (hpass : ∀ lk, o.holder lk = some c → ∀ q : Slot, q.val = i → ¬o.pend q chan lk) :
    o.Good c (.wake chan (i + 1) st) := by
  refine ⟨fun _ _ _ he lk hlk q hq => ?_, fun hh => h.hold ?_, nofun, nofun,
    fun _ _ p he r hr => ?_⟩
  · cases he
    rcases Nat.lt_succ_iff_lt_or_eq.mp hq with hlt | heq
    · exact h.wake chan i st rfl lk hlk q hlt
    · exact hpass lk hlk q heq
  · rwa [Phase.holds_wake chan chan i (i + 1) st]
  · cases he
    exact h.site chan i p rfl r hr

/-- A process that sleeps in `kwait` and has a zombie child is about to be woken up by the holder of
`wait_lock`. -/
structure Inv (o : Proto κ) : Prop where
  good : ∀ c, o.Good c (o.phase c)
  child : ∀ p q, o.pend p (.proc p) .wait → o.parent q = some p → o.zombie q →
    ∃ c i site, o.phase c = .wake (.proc p) i site ∧ (o.phase c).holds = true

/-- A step of CPU `c`. -/
structure Step (o : Proto κ) (c : κ) (o' : Proto κ) : Prop where
  other : ∀ c', c' ≠ c → o'.phase c' = o.phase c'
  locks : ∀ c', c' ≠ c → ∀ lk, o'.holder lk = some c' ↔ o.holder lk = some c'
  pend : ∀ q chan lk, o'.pend q chan lk → o.pend q chan lk ∨
    o.holder lk = some c ∧ ∀ p, chan = .proc p → lk = .wait → o.phase c = .scan p NPROC
  zombie : ∀ q, o'.zombie q → o.zombie q ∨ o.phase c = .exiting q
  parent : ∀ q p, o'.parent q = some p → o.parent q = some p ∨ o.holder .wait = some c ∧
    (o'.zombie q → ∃ i site, o'.phase c = .wake (.proc p) i site ∧ (o'.phase c).holds = true)
  good : o'.Good c (o'.phase c)
  -- a call of `wakeup` under `wait_lock` comes to the end of the table
  leave : ∀ chan i site, o.phase c = .wake chan i site → (o.phase c).holds = true →
    (∃ i' site', o'.phase c = .wake chan i' site' ∧ (o'.phase c).holds = true) ∨ NPROC ≤ i

theorem Good.keep (h : o.Inv) (hs : o.Step c o') {c' : κ} (hne : c' ≠ c) :
    o'.Good c' (o.phase c') := by
  have hg := h.good c'
  have hnot : ∀ {lk}, o.holder lk = some c' → o.holder lk ≠ some c := fun h₁ h₂ =>
    hne (Option.some.inj (h₁.symm.trans h₂))
  have hwait : (o.phase c').holds = true → (o.phase c).holds = true → False := fun h₁ h₂ =>
    hnot (hg.hold h₁) ((h.good c).hold h₂)
  have hparent : (o.phase c').holds = true → ∀ q p, o'.parent q = some p → o.parent q = some p := by
    intro hh q p hp
    rcases hs.parent q p hp with hp | ⟨hc, -⟩
    · exact hp
    · exact absurd hc (hnot (hg.hold hh))
  refine ⟨fun chan i site hph lk hlk q hq hp => ?_, fun hh => ?_, fun p i hph q hq hp hz => ?_,
    fun p hph r hr hp => ?_, fun chan i p hph r hr => ?_⟩
  · have hlk' := (hs.locks c' hne lk).mp hlk
    rcases hs.pend q chan lk hp with hp | ⟨hc, -⟩
    · exact hg.wake chan i site hph lk hlk' q hq hp
    · exact hnot hlk' hc
  · exact (hs.locks c' hne .wait).mpr (hg.hold hh)
  · have hh : (o.phase c').holds = true := by rw [hph]; rfl
    rcases hs.zombie q hz with hz | hc
    · exact hg.scan p i hph q hq (hparent hh q p hp) hz
    · exact hwait hh (by rw [hc]; rfl)
  · have hh : (o.phase c').holds = true := by rw [hph]; rfl
    rcases hs.pend r (.proc r) .wait hp with hp | ⟨hc, -⟩
    · exact hg.exiting p hph r (hparent hh p r hr) hp
    · exact hnot (hg.hold hh) hc
  · have hh : (o.phase c').holds = true := by rw [hph]; rfl
    exact hg.site chan i p hph r (hparent hh p r hr)

theorem Inv.step (h : o.Inv) (hs : o.Step c o') : o'.Inv := by
  refine ⟨fun c' => ?_, fun p q hp hq hz => ?_⟩
  · by_cases hne : c' = c
    · rw [hne]
      exact hs.good
    · rw [hs.other c' hne]
      exact Good.keep h hs hne
  rcases hs.parent q p hq with hq | ⟨-, hnew⟩
  swap
  · obtain ⟨i, site, hph, hh⟩ := hnew hz
    exact ⟨c, i, site, hph, hh⟩
  rcases hs.pend p (.proc p) .wait hp with hp | ⟨-, hscan⟩
  · rcases hs.zombie q hz with hz | hc
    · obtain ⟨c', i, site, hph, hh⟩ := h.child p q hp hq hz
      by_cases hne : c' = c
      · subst hne
        rcases hs.leave (.proc p) i site hph hh with ⟨i', site', hph', hh'⟩ | hi
        · exact ⟨c', i', site', hph', hh'⟩
        · -- the call of `wakeup` has passed `p`
          exact absurd hp ((h.good c').wake _ i site hph .wait ((h.good c').hold hh) p
            (Nat.lt_of_lt_of_le p.isLt hi))
      · exact ⟨c', i, site, by rw [hs.other c' hne, hph], by rwa [hs.other c' hne]⟩
    · exact absurd hp ((h.good c).exiting q hc p hq)
  · have hph := hscan p rfl rfl
    rcases hs.zombie q hz with hz | hc
    · exact absurd hz ((h.good c).scan p NPROC hph q q.isLt hq)
    · rw [hph] at hc
      cases hc

end Proto

end Xv6.Sched
