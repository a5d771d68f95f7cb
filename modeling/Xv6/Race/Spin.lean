import Mathlib

/-! One spinlock of `spinlock.c`, taken by any number of processes on any number of CPUs, at the
granularity of single loads, stores and the atomic exchange. A process that has disabled interrupts
stays on its CPU until it enables them. -/

namespace Xv6.Spin

open Function

/-- `struct spinlock`; `cpu` is the CPU that holds it. -/
structure Spinlock where
  locked : Bool
  cpu : Option Nat

/-- Where a process is in `acquire` or `release`: outside, before each access to the lock with
interrupts disabled, or past `acquire`. -/
inductive Pc
  | idle
  | loadLocked | loadCpu | swap | storeCpu
  | held
  | checkLocked | checkCpu | clearCpu | clearLocked
  | popOff
  deriving DecidableEq

/-- The lock, where each process is, and which CPU runs it; `running` is the other way round. -/
structure Sys where
  lk : Spinlock
  pc : Nat → Pc
  cpu : Nat → Option Nat
  running : Nat → Option Nat
  panic : Option String

def Sys.goto (s : Sys) (p : Nat) (pc : Pc) : Sys := { s with pc := update s.pc p pc }

def sched (s : Sys) (p c : Nat) : Option Sys :=
  if s.cpu p = none ∧ s.running c = none then
    some { s with cpu := update s.cpu p (some c), running := update s.running c (some p) }
  else none

/-- A timer interrupt takes `p` off its CPU, unless it has disabled interrupts. -/
def preempt (s : Sys) (p : Nat) : Option Sys :=
  match s.cpu p with
  | some c =>
    if s.pc p = .idle then
      some { s with cpu := update s.cpu p none, running := update s.running c none }
    else none
  | none => none

def acquire (s : Sys) (p : Nat) : Sys := s.goto p .loadLocked

def release (s : Sys) (p : Nat) : Sys := s.goto p .checkLocked

/-- The next access of `p`, which runs on CPU `c`, inside `acquire` or `release`. -/
def step (s : Sys) (p c : Nat) : Sys :=
  match s.pc p with
  | .idle | .held => s
  | .loadLocked => s.goto p (if s.lk.locked then .loadCpu else .swap)
  | .loadCpu =>
    if s.lk.cpu = some c then { s with panic := some "acquire" } else s.goto p .swap
  | .swap =>
    if s.lk.locked then s
    else ({ s with lk := { s.lk with locked := true } }).goto p .storeCpu
  | .storeCpu => ({ s with lk := { s.lk with cpu := some c } }).goto p .held
  | .checkLocked =>
    if s.lk.locked then s.goto p .checkCpu else { s with panic := some "release" }
  | .checkCpu =>
    if s.lk.cpu = some c then s.goto p .clearCpu else { s with panic := some "release" }
  | .clearCpu => ({ s with lk := { s.lk with cpu := none } }).goto p .clearLocked
  | .clearLocked => ({ s with lk := { s.lk with locked := false } }).goto p .popOff
  | .popOff => s.goto p .idle

def Pc.holds : Pc → Bool
  | .storeCpu | .held | .checkLocked | .checkCpu | .clearCpu | .clearLocked => true
  | _ => false

def Pc.named : Pc → Bool
  | .held | .checkLocked | .checkCpu | .clearCpu => true
  | _ => false

theorem Pc.holds_of_named {pc : Pc} (h : pc.named = true) : pc.holds = true := by
  cases pc <;> first | rfl | cases h

/-- At most one process has the lock, `locked` says whether one has, and `cpu` is where it runs. -/
structure Inv (s : Sys) : Prop where
  unique : ∀ p q, (s.pc p).holds = true → (s.pc q).holds = true → p = q
  locked : s.lk.locked = true ↔ ∃ p, (s.pc p).holds = true
  cpu : ∀ c, s.lk.cpu = some c ↔ ∃ p, (s.pc p).named = true ∧ s.cpu p = some c
  pinned : ∀ p, s.pc p ≠ .idle → ∃ c, s.cpu p = some c
  running : ∀ p c, s.cpu p = some c ↔ s.running c = some p
  panic : s.panic = none

variable {s s' : Sys} {p c : Nat}

section

variable (h : Inv s)

include h

theorem Inv.same_cpu {q : Nat} (hp : s.cpu p = some c) (hq : s.cpu q = some c) :
    p = q := by
  have h1 := (h.running p c).mp hp
  have h2 := (h.running q c).mp hq
  exact Option.some.inj (h1.symm.trans h2)

theorem Inv.goto_same {pc : Pc} (hholds : pc.holds = (s.pc p).holds)
    (hnamed : pc.named = (s.pc p).named) (hon : pc ≠ .idle → ∃ c, s.cpu p = some c) :
    Inv (s.goto p pc) := by
  have hh : ∀ q, ((s.goto p pc).pc q).holds = (s.pc q).holds := by
    intro q
    rcases eq_or_ne q p with rfl | hq
    · simp [Sys.goto, hholds]
    · simp [Sys.goto, hq]
  have hn : ∀ q, ((s.goto p pc).pc q).named = (s.pc q).named := by
    intro q
    rcases eq_or_ne q p with rfl | hq
    · simp [Sys.goto, hnamed]
    · simp [Sys.goto, hq]
  constructor
  · intro q r
    rw [hh, hh]
    exact h.unique q r
  · simp only [hh]
    exact h.locked
  · intro c
    simp only [hn]
    exact h.cpu c
  · intro q hq
    rcases eq_or_ne q p with rfl | hne
    · exact hon (by simpa [Sys.goto] using hq)
    · exact h.pinned q (by simpa [Sys.goto, hne] using hq)
  · exact h.running
  · exact h.panic

theorem Inv.sched (hs : sched s p c = some s') : Inv s' := by
  unfold Spin.sched at hs
  simp only [Option.ite_none_right_eq_some, Option.some.injEq] at hs
  obtain ⟨⟨hp, hc⟩, rfl⟩ := hs
  have hidle : s.pc p = .idle := by
    by_contra hne
    obtain ⟨c', hc'⟩ := h.pinned p hne
    rw [hp] at hc'
    cases hc'
  constructor
  · exact h.unique
  · exact h.locked
  · intro c'
    rw [h.cpu c']
    refine exists_congr fun q => and_congr_right fun hq => ?_
    have hqp : q ≠ p := by
      rintro rfl
      rw [hidle] at hq
      cases hq
    simp [hqp]
  · intro q hq
    rcases eq_or_ne q p with rfl | hne
    · exact ⟨c, by simp⟩
    · simpa [hne] using h.pinned q hq
  · intro q c'
    rcases eq_or_ne q p with rfl | hqp <;> rcases eq_or_ne c' c with rfl | hcc
    · simp
    · have := h.running q c'
      rw [hp] at this
      simp only [update_self, Option.some.injEq, update_of_ne hcc]
      simp only [reduceCtorEq, false_iff] at this
      exact ⟨fun he => absurd he.symm hcc, fun he => absurd he this⟩
    · have := h.running q c'
      rw [hc] at this
      simp only [reduceCtorEq, iff_false] at this
      simp only [update_of_ne hqp, update_self, Option.some.injEq]
      exact ⟨fun he => absurd he this, fun he => absurd he.symm hqp⟩
    · simp only [update_of_ne hqp, update_of_ne hcc]
      exact h.running q c'
  · exact h.panic

theorem Inv.preempt (hs : preempt s p = some s') : Inv s' := by
  unfold Spin.preempt at hs
  cases hcpu : s.cpu p with
  | none => simp [hcpu] at hs
  | some c =>
    simp only [hcpu, Option.ite_none_right_eq_some, Option.some.injEq] at hs
    obtain ⟨hidle, rfl⟩ := hs
    constructor
    · exact h.unique
    · exact h.locked
    · intro c'
      rw [h.cpu c']
      refine exists_congr fun q => and_congr_right fun hq => ?_
      have hqp : q ≠ p := by
        rintro rfl
        rw [hidle] at hq
        cases hq
      simp [hqp]
    · intro q hq
      have hqp : q ≠ p := by
        rintro rfl
        exact hq hidle
      simpa [hqp] using h.pinned q hq
    · intro q c'
      rcases eq_or_ne q p with rfl | hqp
      · simp only [update_self, reduceCtorEq, false_iff]
        rcases eq_or_ne c' c with rfl | hcc
        · simp
        · rw [update_of_ne hcc]
          intro he
          rw [(h.running q c').mpr he] at hcpu
          exact hcc (Option.some.inj hcpu)
      · simp only [update_of_ne hqp]
        rcases eq_or_ne c' c with rfl | hcc
        · simp only [update_self, reduceCtorEq, iff_false]
          exact fun he => hqp (h.same_cpu he hcpu)
        · rw [update_of_ne hcc]
          exact h.running q c'
    · exact h.panic

theorem Inv.acquire (hp : s.pc p = .idle) (hc : s.cpu p = some c) :
    Inv (acquire s p) :=
  h.goto_same (by rw [hp]; rfl) (by rw [hp]; rfl) fun _ => ⟨c, hc⟩

theorem Inv.release (hp : s.pc p = .held) (hc : s.cpu p = some c) :
    Inv (release s p) :=
  h.goto_same (by rw [hp]; rfl) (by rw [hp]; rfl) fun _ => ⟨c, hc⟩

theorem Inv.cpu_none (hp : (s.pc p).holds = true) (hn : (s.pc p).named = false) :
    s.lk.cpu = none := by
  cases hcpu : s.lk.cpu with
  | none => rfl
  | some c =>
    obtain ⟨q, hq, -⟩ := (h.cpu c).mp hcpu
    rw [h.unique q p (Pc.holds_of_named hq) hp, hn] at hq
    cases hq

theorem Inv.swap (hp : s.pc p = .swap) (hc : s.cpu p = some c)
    (hfree : s.lk.locked = false) :
    Inv (({ s with lk := { s.lk with locked := true } }).goto p .storeCpu) := by
  have hnone : ∀ q, (s.pc q).holds = false := by
    intro q
    by_contra hq
    have := h.locked.mpr ⟨q, by simpa using hq⟩
    rw [hfree] at this
    cases this
  have hother : ∀ q, (update s.pc p Pc.storeCpu q).holds = true → q = p := by
    intro q hq
    by_contra hne
    rw [update_of_ne hne, hnone] at hq
    cases hq
  constructor <;> dsimp only [Sys.goto]
  · intro q r hq hr
    rw [hother q hq, hother r hr]
  · simp only [true_iff]
    exact ⟨p, by simp [Pc.holds]⟩
  · intro c'
    rw [h.cpu c']
    refine exists_congr fun q => ?_
    rcases eq_or_ne q p with rfl | hqp
    · simp [hp, Pc.named]
    · simp [hqp]
  · intro q hq
    rcases eq_or_ne q p with rfl | hqp
    · exact ⟨c, hc⟩
    · exact h.pinned q (by simpa [hqp] using hq)
  · exact h.running
  · exact h.panic

theorem Inv.setCpu (hc : s.cpu p = some c) (hholds : (s.pc p).holds = true) (pc : Pc)
    (hpc : pc.holds = true) :
    Inv (({ s with lk := { s.lk with cpu := if pc.named then some c else none } }).goto p pc) := by
  have hh : ∀ q, (update s.pc p pc q).holds = (s.pc q).holds := by
    intro q
    rcases eq_or_ne q p with rfl | hqp
    · simp [hpc, hholds]
    · simp [hqp]
  constructor <;> dsimp only [Sys.goto]
  · intro q r
    rw [hh, hh]
    exact h.unique q r
  · simp only [hh]
    exact h.locked
  · intro c'
    -- Only the holder can be named.
    have hnamed : ∀ q, (update s.pc p pc q).named = true → q = p := fun q hq =>
      h.unique q p (by rw [← hh]; exact Pc.holds_of_named hq) hholds
    constructor
    · intro he
      split at he
      · rename_i hn
        exact ⟨p, by simpa using hn, hc.trans he⟩
      · cases he
    · rintro ⟨q, hq, hcq⟩
      obtain rfl := hnamed q hq
      rw [update_self] at hq
      rw [if_pos hq, ← hc, hcq]
  · intro q hq
    rcases eq_or_ne q p with rfl | hqp
    · exact ⟨c, hc⟩
    · exact h.pinned q (by simpa [hqp] using hq)
  · exact h.running
  · exact h.panic

theorem Inv.clearLocked (hp : s.pc p = .clearLocked) (hc : s.cpu p = some c) :
    Inv (({ s with lk := { s.lk with locked := false } }).goto p .popOff) := by
  have hholds : (s.pc p).holds = true := by rw [hp]; rfl
  have hnone : ∀ q, (update s.pc p Pc.popOff q).holds = false := by
    intro q
    rcases eq_or_ne q p with rfl | hqp
    · simp [Pc.holds]
    · rw [update_of_ne hqp]
      by_contra hq
      exact hqp (h.unique q p (by simpa using hq) hholds)
  have hnamed : ∀ q, (update s.pc p Pc.popOff q).named = false := fun q => by
    by_contra hq
    have := Pc.holds_of_named (Bool.not_eq_false _ ▸ hq)
    rw [hnone] at this
    cases this
  constructor <;> dsimp only [Sys.goto]
  · intro q r hq
    rw [hnone] at hq
    cases hq
  · simp [hnone]
  · intro c'
    simp [hnamed, h.cpu_none hholds (by rw [hp]; rfl)]
  · intro q hq
    rcases eq_or_ne q p with rfl | hqp
    · exact ⟨c, hc⟩
    · exact h.pinned q (by simpa [hqp] using hq)
  · exact h.running
  · exact h.panic

/-- Every access to the lock keeps the invariant; in particular neither panic is reached. -/
theorem Inv.step (hc : s.cpu p = some c) : Inv (step s p c) := by
  unfold Spin.step
  have hgoto : ∀ {pc : Pc}, pc.holds = (s.pc p).holds → pc.named = (s.pc p).named →
      Inv (s.goto p pc) := fun h1 h2 => h.goto_same h1 h2 fun _ => ⟨c, hc⟩
  cases hpc : s.pc p with
  | idle => exact h
  | held => exact h
  | loadLocked =>
    dsimp only
    split <;> exact hgoto (by rw [hpc]; rfl) (by rw [hpc]; rfl)
  | loadCpu =>
    dsimp only
    split
    · -- The CPU that the lock names runs the holder, which is past this point.
      rename_i hcpu
      obtain ⟨q, hq, hqc⟩ := (h.cpu c).mp hcpu
      rw [h.same_cpu hqc hc, hpc] at hq
      cases hq
    · exact hgoto (by rw [hpc]; rfl) (by rw [hpc]; rfl)
  | swap =>
    dsimp only
    split
    · exact h
    · rename_i hfree
      exact h.swap hpc hc (by simpa using hfree)
  | storeCpu => exact h.setCpu hc (by rw [hpc]; rfl) .held rfl
  | checkLocked =>
    have hlocked : s.lk.locked = true := h.locked.mpr ⟨p, by rw [hpc]; rfl⟩
    simp only [hlocked, if_true]
    exact hgoto (by rw [hpc]; rfl) (by rw [hpc]; rfl)
  | checkCpu =>
    have hcpu : s.lk.cpu = some c := (h.cpu c).mpr ⟨p, by rw [hpc]; rfl, hc⟩
    simp only [hcpu, if_true]
    exact hgoto (by rw [hpc]; rfl) (by rw [hpc]; rfl)
  | clearCpu => exact h.setCpu hc (by rw [hpc]; rfl) .clearLocked rfl
  | clearLocked => exact h.clearLocked hpc hc
  | popOff => exact hgoto (by rw [hpc]; rfl) (by rw [hpc]; rfl)

end

end Xv6.Spin
