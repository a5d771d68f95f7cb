import Xv6.Sched.Kinds
import Xv6.Sched.Ownership

/-! Where a step leads a CPU, and what it changes in the state. -/

namespace Xv6.Sched

open Function Option
open Wait (Slot ProcState Chan initproc)

section

variable {κ : Type}

def Context.plock (x : Context κ) : Option Slot := x.pc.plock x.sp

def Context.runs (x : Context κ) : Option (Slot × Bool) := x.pc.runs x.sp

@[simp] theorem Context.plock_mk (t : Thread κ) (f : Frame) :
    (⟨t, f⟩ : Context κ).plock = f.plock t := rfl

@[simp] theorem Context.runs_mk (t : Thread κ) (f : Frame) :
    (⟨t, f⟩ : Context κ).runs = f.runs t := rfl

def State.cur (s : State κ) (c : κ) : Context κ := (s.core c).cur

def State.own (s : State κ) : Own κ Slot where
  runs c := (s.cur c).runs
  plock c := (s.cur c).plock
  state q := (s.proc q).state

def Wf : List Frame → Prop
  | [] => False
  | f :: rest =>
    match f.level with
    | 0 => rest = []
    | 1 => rest = [.body]
    | 2 => Wf rest ∧ ∀ r ∈ rest.head?, f.depth.over r = true
    | _ => Wf rest

variable {f g r : Frame} {rest : List Frame}

theorem Wf.of_level_zero (h : Wf (f :: rest)) (hf : f.level = 0) : rest = [] := by
  simpa only [Wf, hf] using h

theorem Wf.of_level_one (h : Wf (f :: rest)) (hf : f.level = 1) : rest = [.body] := by
  simpa only [Wf, hf] using h

theorem Wf.of_level_two (h : Wf (f :: rest)) (hf : f.level = 2) :
    Wf rest ∧ ∀ r ∈ rest.head?, f.depth.over r = true := by
  simpa only [Wf, hf] using h

theorem Frame.level_cases (f : Frame) : f.level = 0 ∨ f.level = 1 ∨ f.level = 2 ∨ f = .irq := by
  cases f <;> first
    | exact .inl rfl
    | exact .inr (.inl rfl)
    | exact .inr (.inr (.inl rfl))
    | exact .inr (.inr (.inr rfl))

theorem Depth.level_of_over (h : f.depth.over r = true) : f.level = 2 := by
  unfold Frame.level
  cases hd : f.depth <;> first | rfl | (rw [hd] at h; cases h)

theorem Depth.over_body (hf : f.level = 2) : f.depth.over .body = true := by
  unfold Frame.level at hf
  cases hd : f.depth with
  | call k => cases k <;> rfl
  | _ => rw [hd] at hf; cases hf

theorem Depth.solo_of_over (h : f.depth.over r = true) : r.solo = false := by
  cases hd : f.depth with
  | call k =>
    rw [hd] at h
    cases k <;> cases r <;> first | rfl | cases h
  | _ => rw [hd] at h; cases h

theorem Wf.goto (h : Wf (g :: rest)) (hlevel : g.Level f) : Wf (f :: rest) := by
  rcases hlevel with hl | ⟨h1, h2⟩
  · have hl' : f.level = g.level := by simp only [Frame.level, hl]
    simpa only [Wf, hl, hl'] using h
  · rw [h.of_level_one h1]
    simp only [Wf, h2]
    exact ⟨trivial, fun r hr => by cases hr; exact Depth.over_body h2⟩

theorem Wf.call (h : Wf (g :: rest)) (hr : g.Level r)
    (hlevel : f.depth.over r = true ∨ f.level = 1 ∧ r = .body) : Wf (f :: r :: rest) := by
  have hw := h.goto hr
  rcases hlevel with h2 | ⟨h1, rfl⟩
  · simp only [Wf, Depth.level_of_over h2]
    exact ⟨hw, by simpa using h2⟩
  · simp [Wf, h1, hw.of_level_zero rfl]

theorem Wf.ret (h : Wf (g :: f :: rest)) : Wf (f :: rest) := by
  rcases g.level_cases with hl | hl | hl | rfl
  · cases h.of_level_zero hl
  · cases h.of_level_one hl
    rfl
  · exact (h.of_level_two hl).1
  · exact h

theorem Wf.irq (h : Wf (g :: rest)) : Wf (.irq :: g :: rest) := h

theorem Wf.solo_of_ret (h : Wf (g :: f :: rest)) (hsolo : f.solo = true) : g = .irq := by
  rcases g.level_cases with hl | hl | hl | rfl
  · cases h.of_level_zero hl
  · cases h.of_level_one hl
    cases hsolo
  · rw [Depth.solo_of_over ((h.of_level_two hl).2 f rfl)] at hsolo
    cases hsolo
  · rfl

/-- A place of a thread after a step inside of the thread. -/
structure Turn (t : Thread κ) (f : Frame) (frames : List Frame) : Prop where
  fits : f.Fits t
  wf : Wf (f :: frames)
  stack : ∀ r ∈ frames, r.Fits t ∧ r.plock t = none

/-- The slots that a thread has taken in `kfork` and not started are among those from before. -/
def KeepsCreates (g : Frame) (old : List Frame) (f : Frame) (frames : List Frame) : Prop :=
  ∀ np, (∃ r ∈ f :: frames, r.creates = some np) → ∃ r ∈ g :: old, r.creates = some np

theorem KeepsCreates.goto (h : f.creates = g.creates) : KeepsCreates g rest f rest := by
  rintro np ⟨r, hr, hnp⟩
  rcases List.mem_cons.mp hr with rfl | hr
  · exact ⟨g, List.mem_cons_self, by rw [← h, hnp]⟩
  · exact ⟨r, List.mem_cons_of_mem _ hr, hnp⟩

variable {t : Thread κ}

/-- After a step that ends without a `p->lock`. -/
structure Opened (t : Thread κ) (g : Frame) (old : List Frame) (next : Next) (f : Frame)
    (frames : List Frame) : Prop where
  turn : Turn t f frames
  creates : KeepsCreates g old f frames
  plock : f.plock t = none
  solo : f.solo = true → next = .goto f ∨ next = .ret ∧ g = .irq

theorem Frame.solo_of_level (hf : f.level ≠ 0) (hp : f.plock t = none) : f.solo = false := by
  cases f <;> first | rfl | exact absurd rfl hf | cases hp

theorem Next.Open.goto (h : (Next.goto f).Open t g) (hwf : Wf (g :: rest))
    (hstack : ∀ r ∈ rest, r.Fits t ∧ r.plock t = none) : Opened t g rest (.goto f) f rest := by
  obtain ⟨hfits, hplock, hcreates, hlevel⟩ := h
  exact ⟨⟨hfits, hwf.goto hlevel, hstack⟩, .goto hcreates, hplock, fun _ => .inl rfl⟩

theorem Next.Open.call {r : Frame} (h : (Next.call r f).Open t g) (hwf : Wf (g :: rest))
    (hstack : ∀ r ∈ rest, r.Fits t ∧ r.plock t = none) :
    Opened t g rest (.call r f) f (r :: rest) := by
  obtain ⟨⟨hr, hrp, hrc, hrl⟩, hfits, hplock, hfc, -, hlevel⟩ := h
  have hpos : f.level ≠ 0 := by
    rcases hlevel with h2 | ⟨h1, -⟩
    · rw [Depth.level_of_over h2]
      nofun
    · rw [h1]
      nofun
  refine ⟨⟨hfits, hwf.call hrl hlevel, ?_⟩, ?_, hplock, fun hs => ?_⟩
  · intro r' hr'
    rcases List.mem_cons.mp hr' with rfl | hr'
    · exact ⟨hr, hrp⟩
    · exact hstack r' hr'
  · rintro np ⟨r', hr', hnp⟩
    rcases List.mem_cons.mp hr' with rfl | hr'
    · rw [hfc] at hnp; cases hnp
    · rcases List.mem_cons.mp hr' with rfl | hr'
      · rw [hrc] at hnp; cases hnp
      · exact ⟨r', List.mem_cons_of_mem _ hr', hnp⟩
  · rw [Frame.solo_of_level hpos hplock] at hs; cases hs

theorem Next.Open.ret (hwf : Wf (g :: f :: rest))
    (hstack : ∀ r ∈ f :: rest, r.Fits t ∧ r.plock t = none) :
    Opened t g (f :: rest) .ret f rest := by
  obtain ⟨hfits, hplock⟩ := hstack f List.mem_cons_self
  refine ⟨⟨hfits, hwf.ret, fun r hr => hstack r (List.mem_cons_of_mem _ hr)⟩, ?_, hplock,
    fun hs => .inr ⟨rfl, hwf.solo_of_ret hs⟩⟩
  rintro np ⟨r, hr, hnp⟩
  exact ⟨r, List.mem_cons_of_mem _ hr, hnp⟩

namespace State

variable {s : State κ} {p q : Slot}

@[simp] theorem upd_proc_self (r : Proc κ → Proc κ) : (s.upd q r).proc q = r (s.proc q) :=
  update_self ..

theorem upd_proc_ne (r : Proc κ → Proc κ) (h : p ≠ q) : (s.upd q r).proc p = s.proc p :=
  update_of_ne h ..

end State

end

variable {κ : Type} [DecidableEq κ] {s s' : State κ} {c c' : κ} {t : Thread κ} {g f : Frame}
  {frames : List Frame} {next : Next}

namespace State

@[simp] theorem updCore_core_self (r : Core κ → Core κ) :
    (s.updCore c r).core c = r (s.core c) := update_self ..

theorem updCore_core_ne (r : Core κ → Core κ) (h : c' ≠ c) :
    (s.updCore c r).core c' = s.core c' := update_of_ne h ..

end State

/-- A step of CPU `c` that leads to `x`, with `frames` on the stack of the thread that it was in. -/
structure Move (s s' : State κ) (c : κ) (x : Context κ) (frames : List Frame) : Prop where
  cur : s'.cur c = x
  stack : s'.stack = update s.stack (s.cur c).sp frames
  other : ∀ c', c' ≠ c → s'.core c' = s.core c'

/-- The steps other than the loads of registers and `allocproc` leave the CPUs where they are. -/
structure Still (s s₁ : State κ) (c : κ) : Prop where
  cur : s₁.cur c = s.cur c
  stack : s₁.stack = s.stack
  other : ∀ c', c' ≠ c → s₁.core c' = s.core c'

omit [DecidableEq κ] in
theorem Still.refl : Still s s c := ⟨rfl, rfl, fun _ _ => rfl⟩

theorem jump_intr :
    (s.jump c f frames).updCore c (fun core => { core with sie := false }) =
      (s.updCore c fun core => { core with sie := false }).jump c f frames := by
  simp [State.jump, State.updCore]

theorem Still.jump {s₁ : State κ} (h : Still s s₁ c) (hcur : s.cur c = ⟨t, g⟩) (f : Frame)
    (frames : List Frame) : Move s (s₁.jump c f frames) c ⟨t, f⟩ frames := by
  have hsp : (s₁.core c).cur = ⟨t, g⟩ := h.cur.trans hcur
  refine ⟨?_, ?_, fun c' hne => (State.updCore_core_ne _ hne).trans (h.other c' hne)⟩
  · simp [State.cur, State.jump, State.updCore, hsp]
  · simp [State.jump, State.updCore, h.stack, hsp, hcur]

theorem Next.Open.leads (h : next.Open t g) (hwf : Wf (g :: s.stack t))
    (hstack : ∀ r ∈ s.stack t, r.Fits t ∧ r.plock t = none) (hcur : s.cur c = ⟨t, g⟩)
    (hnext : s.next c next = some s') :
    ∃ f frames, s' = s.jump c f frames ∧ Opened t g (s.stack t) next f frames := by
  have hsp : (s.core c).cur = ⟨t, g⟩ := hcur
  cases next with
  | goto f =>
    simp only [State.next, hsp, some.injEq] at hnext
    exact ⟨f, _, hnext.symm, h.goto hwf hstack⟩
  | call r f =>
    simp only [State.next, hsp, some.injEq] at hnext
    exact ⟨f, _, hnext.symm, h.call hwf hstack⟩
  | ret =>
    simp only [State.next, hsp] at hnext
    cases hs : s.stack t with
    | nil => simp only [hs] at hnext; cases hnext
    | cons f frames =>
      simp only [hs, some.injEq] at hnext
      rw [hs] at hwf hstack
      exact ⟨f, frames, hnext.symm, Next.Open.ret hwf hstack⟩
  | stay => cases h

def Act.switches : Act → Bool
  | .load _ | .alloc _ true => true
  | _ => false

variable {s₁ : State κ} {act : Act} {lk : Lock}

theorem acquire_eq (h : acquire s c lk = some s₁) (hpanic : s₁.panic = none) :
    s.lock lk = none ∧
      s₁ = ({ s with lock := update s.lock lk (some c) }).updCore c Core.pushOff := by
  unfold acquire at h
  cases hl : s.lock lk with
  | none =>
    simp only [hl, some.injEq] at h
    exact ⟨rfl, h.symm⟩
  | some c' =>
    simp only [hl] at h
    by_cases hc : c' = c
    · rw [if_pos hc] at h
      cases h
      cases hpanic
    · rw [if_neg hc] at h
      cases h

theorem release_eq (hpanic : (release s c lk).panic = none) :
    s.lock lk = some c ∧ 1 ≤ (s.core c).noff ∧
      release s c lk = ({ s with lock := update s.lock lk none }).updCore c Core.popOff := by
  unfold release at hpanic ⊢
  by_cases hl : s.lock lk ≠ some c
  · rw [if_pos hl] at hpanic
    cases hpanic
  by_cases hsie : (s.core c).sie = true
  · rw [if_neg hl, if_pos hsie] at hpanic
    cases hpanic
  by_cases hn : (s.core c).noff < 1
  · rw [if_neg hl, if_neg hsie, if_pos hn] at hpanic
    cases hpanic
  · rw [if_neg hl, if_neg hsie, if_neg hn]
    exact ⟨not_not.mp hl, by omega, rfl⟩

theorem perform_panic (hp : perform s c act = some s₁) (hs : s.panic = none)
    (h : s₁.panic ≠ none) : ∃ msg, s₁ = { s with panic := some msg } := by
  cases act with
  | acquire lk =>
    simp only [perform, acquire] at hp
    cases hl : s.lock lk with
    | none =>
      simp only [hl] at hp
      cases hp
      exact absurd hs h
    | some c' =>
      simp only [hl] at hp
      by_cases hc : c' = c
      · rw [if_pos hc] at hp
        exact ⟨_, (some.inj hp).symm⟩
      · rw [if_neg hc] at hp
        cases hp
  | release lk =>
    simp only [perform] at hp
    cases hp
    unfold release at h ⊢
    by_cases hl : s.lock lk ≠ some c
    · exact ⟨_, if_pos hl⟩
    by_cases hsie : (s.core c).sie = true
    · exact ⟨_, by rw [if_neg hl, if_pos hsie]⟩
    by_cases hn : (s.core c).noff < 1
    · exact ⟨_, by rw [if_neg hl, if_neg hsie, if_pos hn]⟩
    · rw [if_neg hl, if_neg hsie, if_neg hn] at h
      exact absurd hs h
  | alloc q ok =>
    cases ok <;>
    · simp only [perform, alloc, some.injEq] at hp
      subst hp
      exact absurd hs h
  | save p pc | load p =>
    cases p <;>
    · simp only [perform, some.injEq] at hp
      subst hp
      exact absurd hs h
  | panic msg => exact ⟨msg, (some.inj hp).symm⟩
  | _ =>
    simp only [perform] at hp
    cases hp
    exact absurd hs h

theorem Still.of_updCore {s₀ : State κ} {r : Core κ → Core κ} (hcore : s₀.core = s.core)
    (hstack : s₀.stack = s.stack) (hr : (r (s.core c)).cur = (s.core c).cur) :
    Still s (s₀.updCore c r) c := by
  refine ⟨?_, hstack, fun c' hne => ?_⟩
  · rw [State.cur, State.updCore_core_self, hcore, hr]
    rfl
  · rw [State.updCore_core_ne _ hne, hcore]

theorem perform_still (hp : perform s c act = some s₁) (hpanic : s₁.panic = none)
    (hact : act.switches = false) : Still s s₁ c := by
  have hrefl : ∀ {s₂ : State κ}, s₂.core = s.core → s₂.stack = s.stack → Still s s₂ c :=
    fun hcore hstack => ⟨by rw [State.cur, hcore]; rfl, hstack, fun _ _ => by rw [hcore]⟩
  cases act with
  | acquire lk =>
    obtain ⟨-, rfl⟩ := acquire_eq hp hpanic
    exact .of_updCore rfl rfl rfl
  | release lk =>
    cases hp
    rw [(release_eq hpanic).2.2]
    exact .of_updCore rfl rfl rfl
  | setProc _ | intena _ | sie _ =>
    cases hp
    exact .of_updCore rfl rfl rfl
  | save p pc =>
    cases p with
    | none =>
      cases hp
      exact .of_updCore rfl rfl rfl
    | some p =>
      cases hp
      exact hrefl rfl rfl
  | load p => cases hact
  | alloc q ok =>
    cases ok with
    | true => cases hact
    | false =>
      cases hp
      exact hrefl rfl rfl
  | _ =>
    cases hp
    exact hrefl rfl rfl

variable {choice : Choice}

theorem step_run (h : step s (.run c choice) = some s') :
    ∃ act next, code s c choice = some (act, next) ∧ ((∃ msg, s' = { s with panic := some msg }) ∨
      ∃ s₁, perform s c act = some s₁ ∧ s₁.panic = none ∧ s₁.next c next = some s') := by
  simp only [step] at h
  by_cases hs : s.panic.isSome = true
  · rw [if_pos hs] at h; cases h
  rw [if_neg hs, bind_eq_some_iff] at h
  obtain ⟨⟨act, next⟩, hcode, h⟩ := h
  obtain ⟨s₁, hp, h⟩ := bind_eq_some_iff.mp h
  refine ⟨act, next, hcode, ?_⟩
  by_cases hpanic : s₁.panic = none
  · rw [if_neg (by simp [hpanic])] at h
    exact .inr ⟨s₁, hp, hpanic, h⟩
  · rw [if_pos (isSome_iff_ne_none.mpr hpanic)] at h
    cases h
    exact .inl (perform_panic hp (by simpa using hs) hpanic)

end Xv6.Sched
