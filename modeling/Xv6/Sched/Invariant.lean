import Xv6.Sched.Moves

/-! What holds in every state of the machine: which locks the CPUs hold, what is on the stacks,
where the saved registers lead, and who runs what. -/

namespace Xv6.Sched

open Function State
open Wait (Slot ProcState Chan initproc)

section

variable {κ : Type}

/-- Each CPU is at a place that its thread can be at. -/
structure Place (s : State κ) : Prop where
  fits : ∀ c, (s.cur c).pc.Fits (s.cur c).sp
  proc : ∀ c, (s.core c).proc = (s.cur c).pc.proc (s.cur c).sp
  sched : ∀ c c', (s.cur c).sp = .sched c' → c' = c
  stack : ∀ t, ∀ f ∈ s.stack t, f.Fits t ∧ f.plock t = none
  wf : ∀ c, Wf ((s.cur c).pc :: s.stack (s.cur c).sp)

/-- `noff` counts the locks, and interrupts are off while one is held. -/
structure Spin (s : State κ) : Prop where
  held : ∀ c, ∃ L : List Lock, L.length ≤ (s.core c).noff ∧ ∀ lk, s.lock lk = some c → lk ∈ L
  sie : ∀ c, (s.core c).sie = true → (s.core c).noff = 0

/-- The `p->lock` that a CPU holds is the one that its place says. -/
structure Plocks (s : State κ) : Prop where
  lock : ∀ c q, s.lock (.proc q) = some c ↔ (s.cur c).plock = some q
  solo : ∀ c, (s.cur c).pc.solo = true →
    (s.core c).noff = if (s.cur c).plock = none then 0 else 1

def Rests (s : State κ) (p : Slot) : Prop := ∀ c, (s.cur c).sp ≠ .proc p

def Live (st : ProcState) : Prop := st = .runnable ∨ st = .sleeping ∨ st = .running

/-- The saved registers of `p` lead to the start of its thread, or into its last call of `sched`. -/
def Resumes (p : Slot) (x : Context κ) (stack : List Frame) : Prop :=
  x.sp = .proc p ∧ Wf (x.pc :: stack) ∧
    (x.pc = .forkret ∨ ∃ k intena, x.pc = .swtchBack p k intena)

/-- The saved registers. While a process is on a CPU, those of the scheduler of the CPU are saved.
-/
structure Contexts (s : State κ) : Prop where
  sched : ∀ c p, (s.cur c).sp = .proc p ∨ (s.cur c).pc = .load p →
    (s.core c).context = ⟨.sched c, .back p⟩ ∧ s.stack (.sched c) = []
  saving : ∀ c p k, (s.cur c).pc = .swtchLoad p k →
    ∃ intena, (s.proc p).context = ⟨.proc p, .swtchBack p k intena⟩
  saved : ∀ p, Rests s p → Live (s.proc p).state →
    Resumes p (s.proc p).context (s.stack (.proc p))

def Occurs (s : State κ) (t : Thread κ) (f : Frame) : Prop := f ∈ s.stack t ∨ ∃ c, s.cur c = ⟨t, f⟩

/-- A slot that `kfork` has taken and not started. -/
structure Fresh (s : State κ) (np : Slot) : Prop where
  context : (s.proc np).context = ⟨.proc np, .forkret⟩
  stack : s.stack (.proc np) = []

structure Creating (s : State κ) : Prop where
  used : ∀ t f np, Occurs s t f → f.creates = some np → (s.proc np).state = .used ∧ Fresh s np
  unique : ∀ t t' f f' np, Occurs s t f → Occurs s t' f' → f.creates = some np →
    f'.creates = some np → t = t'

structure Inv (s : State κ) : Prop where
  own : s.own.Inv
  place : Place s
  spin : Spin s
  plocks : Plocks s
  contexts : Contexts s
  creating : Creating s

variable {s : State κ} {c c' : κ} {t : Thread κ} {g : Frame} {p q : Slot}

theorem Inv.panic (h : Inv s) (msg : Option String) : Inv { s with panic := msg } :=
  ⟨h.own, ⟨h.place.fits, h.place.proc, h.place.sched, h.place.stack, h.place.wf⟩,
    ⟨h.spin.held, h.spin.sie⟩, ⟨h.plocks.lock, h.plocks.solo⟩,
    ⟨h.contexts.sched, h.contexts.saving, h.contexts.saved⟩,
    ⟨fun t f np ho hf => ⟨(h.creating.used t f np ho hf).1,
    (h.creating.used t f np ho hf).2.context,
      (h.creating.used t f np ho hf).2.stack⟩, h.creating.unique⟩⟩

theorem runs_of_sp (h : (s.cur c).sp = .proc p) : ∃ b, s.own.runs c = some (p, b) :=
  ⟨!(s.cur c).pc.leaving, by simp only [State.own, Context.runs, h, Frame.runs]⟩

theorem Inv.thread_unique (h : Inv s) (hsp : (s.cur c).sp = (s.cur c').sp) : c = c' := by
  cases hc : (s.cur c).sp with
  | proc p =>
    obtain ⟨b, hb⟩ := runs_of_sp hc
    obtain ⟨b', hb'⟩ := runs_of_sp (hsp.symm.trans hc)
    exact h.own.unique c c' p b b' hb hb'
  | sched c₀ =>
    rw [← h.place.sched c c₀ hc, ← h.place.sched c' c₀ (hsp.symm.trans hc)]

theorem Inv.rests (h : Inv s) (hr : (s.proc p).state ≠ .running) (ho : ¬Off (s.proc p).state) :
    Rests s p := by
  intro c hc
  obtain ⟨b, hb⟩ := runs_of_sp hc
  rcases h.own.state_of_runs hb with h' | h'
  · exact hr h'
  · exact ho h'

theorem Inv.plock_of_sie (h : Inv s) (hsie : (s.core c).sie = true) : (s.cur c).plock = none := by
  obtain ⟨L, hlen, hL⟩ := h.spin.held c
  rw [h.spin.sie c hsie] at hlen
  have hnil : L = [] := List.length_eq_zero_iff.mp (Nat.le_zero.mp hlen)
  cases hp : (s.cur c).plock with
  | none => rfl
  | some q =>
    have := hL _ ((h.plocks.lock c q).mpr hp)
    rw [hnil] at this
    cases this

theorem Inv.solo_zero (h : Inv s) (hcur : s.cur c = ⟨t, g⟩) (hsolo : g.solo = true)
    (hg : g.plock t = none) : (s.core c).noff = 0 := by
  have := h.plocks.solo c
  rw [hcur] at this
  exact (this hsolo).trans (if_pos hg)

theorem Inv.solo_one (h : Inv s) (hcur : s.cur c = ⟨t, g⟩) (hsolo : g.solo = true)
    (hg : g.plock t = some q) : (s.core c).noff = 1 := by
  have := h.plocks.solo c
  rw [hcur] at this
  exact (this hsolo).trans (if_neg (by rw [Context.plock, hg]; nofun))

theorem Inv.turn {f : Frame} (h : Inv s) (hcur : s.cur c = ⟨t, g⟩) (hfits : f.Fits t)
    (hlevel : g.Level f) : Turn t f (s.stack t) := by
  have hwf := h.place.wf c
  rw [hcur] at hwf
  exact ⟨hfits, hwf.goto hlevel, h.place.stack t⟩

theorem Inv.fits (h : Inv s) (hcur : s.cur c = ⟨t, g⟩) : g.Fits t := by
  have := h.place.fits c
  rwa [hcur] at this

end

variable {κ : Type} [DecidableEq κ] {s s' s₁ : State κ} {c c' : κ} {t : Thread κ} {g f : Frame}
  {x : Context κ} {frames : List Frame} {act : Act} {p q : Slot} {lk : Lock}

namespace Move

section

variable (m : Move s s' c x frames)

include m

theorem cur_ne (h : c' ≠ c) : s'.cur c' = s.cur c' := by
  rw [State.cur, m.other c' h]
  rfl

theorem stack_self (h : (s.cur c).sp = t) : s'.stack t = frames := by
  rw [m.stack, h, update_self]

theorem stack_ne (h : t ≠ (s.cur c).sp) : s'.stack t = s.stack t := by
  rw [m.stack, update_of_ne h]

section

variable {state : Slot → ProcState} (hstate : ∀ q, (s'.proc q).state = state q)

include hstate

theorem own :
    s'.own = ⟨update s.own.runs c x.runs, update s.own.plock c x.plock, state⟩ := by
  have hcur : ∀ {α : Type} (F : Context κ → α) c',
      F (s'.cur c') = update (fun c => F (s.cur c)) c (F x) c' := by
    intro α F c'
    by_cases e : c' = c
    · rw [e, update_self, m.cur]
    · rw [update_of_ne e, m.cur_ne e]
  simp only [State.own, Own.mk.injEq]
  exact ⟨funext (hcur Context.runs), funext (hcur Context.plock), funext hstate⟩

theorem own_runs (hruns : x.runs = (s.cur c).runs) :
    s'.own = { s.own with plock := update s.own.plock c x.plock, state } := by
  rw [m.own hstate, hruns]
  simp [State.own, update_eq_self]

theorem own_plock (hplock : x.plock = (s.cur c).plock) :
    s'.own = { s.own with runs := update s.own.runs c x.runs, state } := by
  rw [m.own hstate, hplock]
  simp [State.own, update_eq_self]

theorem own_same (hruns : x.runs = (s.cur c).runs)
    (hplock : x.plock = (s.cur c).plock) : s'.own = { s.own with state } := by
  rw [m.own_runs hstate hruns, hplock]
  simp [State.own, update_eq_self]

end

end

end Move

/-! Locks. -/

omit [DecidableEq κ] in
theorem Spin.congr (h : Spin s) (hlock : s'.lock = s.lock)
    (hnoff : ∀ c, (s'.core c).noff = (s.core c).noff)
    (hsie : ∀ c, (s'.core c).sie = true → (s.core c).sie = true ∨ (s.core c).noff = 0) :
    Spin s' where
  held c := by
    obtain ⟨L, hlen, hL⟩ := h.held c
    exact ⟨L, by rwa [hnoff], fun lk hlk => hL lk (by rwa [hlock] at hlk)⟩
  sie c hc := by
    rw [hnoff]
    rcases hsie c hc with h' | h'
    · exact h.sie c h'
    · exact h'

theorem Spin.acquire (h : Spin s) :
    Spin (({ s with lock := update s.lock lk (some c) }).updCore c Core.pushOff) where
  held c' := by
    obtain ⟨L, hlen, hL⟩ := h.held c'
    by_cases e : c' = c
    · subst e
      refine ⟨lk :: L, by simpa [Core.pushOff] using hlen, fun lk' hlk => ?_⟩
      by_cases e' : lk' = lk
      · exact e' ▸ List.mem_cons_self
      · exact List.mem_cons_of_mem _ (hL lk' ((update_of_ne e' _ _).symm.trans hlk))
    · refine ⟨L, by rwa [updCore_core_ne _ e], fun lk' hlk => hL lk' ?_⟩
      by_cases e' : lk' = lk
      · have hself : update s.lock lk (some c) lk = some c := update_self ..
        exact absurd (Option.some.inj (hself.symm.trans (e' ▸ hlk))).symm e
      · exact (update_of_ne e' _ _).symm.trans hlk
  sie c' hc := by
    by_cases e : c' = c
    · subst e
      simp [Core.pushOff] at hc
    · rw [updCore_core_ne _ e] at hc ⊢
      exact h.sie c' hc

theorem Spin.release (h : Spin s) (hlk : s.lock lk = some c) :
    Spin (({ s with lock := update s.lock lk none }).updCore c Core.popOff) where
  held c' := by
    obtain ⟨L, hlen, hL⟩ := h.held c'
    have hne : ∀ lk', update s.lock lk none lk' = some c' → lk' ≠ lk ∧ s.lock lk' = some c' := by
      intro lk' h'
      by_cases e' : lk' = lk
      · rw [e', update_self] at h'
        cases h'
      · exact ⟨e', by rwa [update_of_ne e'] at h'⟩
    by_cases e : c' = c
    · subst e
      refine ⟨L.erase lk, ?_, fun lk' h' => ?_⟩
      · rw [List.length_erase_of_mem (hL lk hlk)]
        simp only [updCore_core_self, Core.popOff]
        omega
      · obtain ⟨e', hold⟩ := hne lk' h'
        exact (List.mem_erase_of_ne e').mpr (hL lk' hold)
    · exact ⟨L, by rwa [updCore_core_ne _ e], fun lk' h' => hL lk' (hne lk' h').2⟩
  sie c' hc := by
    by_cases e : c' = c
    · subst e
      simp only [updCore_core_self, Core.popOff, decide_eq_true_eq] at hc ⊢
      omega
    · rw [updCore_core_ne _ e] at hc ⊢
      exact h.sie c' hc

theorem Spin.updCore (h : Spin s) {r : Core κ → Core κ} (hnoff : ∀ k, (r k).noff = k.noff)
    (hsie : (r (s.core c)).sie = true → (s.core c).sie = true ∨ (s.core c).noff = 0) :
    Spin (s.updCore c r) := by
  refine h.congr rfl (fun c' => ?_) fun c' hc => ?_
  · by_cases e : c' = c
    · rw [e, updCore_core_self, hnoff]
    · rw [updCore_core_ne _ e]
  · by_cases e : c' = c
    · subst e
      rw [updCore_core_self] at hc
      exact hsie hc
    · rw [updCore_core_ne _ e] at hc
      exact .inl hc

theorem Spin.jump (h : Spin s) : Spin (s.jump c f frames) := by
  have h' : Spin { s with stack := update s.stack (s.core c).cur.sp frames } := ⟨h.held, h.sie⟩
  exact h'.updCore (fun _ => rfl) .inl

theorem Spin.perform (h : Spin s) (hp : perform s c act = some s₁) (hpanic : s₁.panic = none)
    (hsie : act = .sie true → (s.core c).noff = 0) : Spin s₁ := by
  cases act with
  | acquire lk =>
    obtain ⟨-, rfl⟩ := acquire_eq hp hpanic
    exact h.acquire
  | release lk =>
    cases hp
    obtain ⟨hlk, -, heq⟩ := release_eq hpanic
    rw [heq]
    exact h.release hlk
  | sie enable =>
    cases hp
    refine h.updCore (fun _ => rfl) fun he => .inr (hsie ?_)
    rw [show enable = true from he]
  | setProc _ | intena _ =>
    cases hp
    exact h.updCore (fun _ => rfl) .inl
  | save p pc | load p =>
    cases p <;>
    · cases hp
      first
        | exact h.updCore (fun _ => rfl) .inl
        | exact ⟨h.held, h.sie⟩
  | alloc q ok =>
    cases ok <;>
    · cases hp
      exact ⟨h.held, h.sie⟩
  | _ =>
    cases hp
    exact ⟨h.held, h.sie⟩

theorem Plocks.move (h : Plocks s) (m : Move s s' c x frames)
    (hlock : ∀ q c', s'.lock (.proc q) = some c' ↔
      if c' = c then x.plock = some q else s.lock (.proc q) = some c')
    (hsolo : x.pc.solo = true → (s'.core c).noff = if x.plock = none then 0 else 1) :
    Plocks s' where
  lock c' q := by
    rw [hlock]
    split_ifs with e
    · rw [e, m.cur]
    · rw [m.cur_ne e]
      exact h.lock c' q
  solo c' hs := by
    by_cases e : c' = c
    · rw [e, m.cur] at hs ⊢
      exact hsolo hs
    · rw [m.cur_ne e] at hs ⊢
      rw [m.other c' e]
      exact h.solo c' hs

theorem Plocks.same (h : Plocks s) (m : Move s s' c x frames)
    (hlock : ∀ q, s'.lock (.proc q) = s.lock (.proc q)) (hplock : x.plock = (s.cur c).plock)
    (hsolo : x.pc.solo = true → (s'.core c).noff = if x.plock = none then 0 else 1) :
    Plocks s' := by
  refine h.move m (fun q c' => ?_) hsolo
  rw [hlock]
  by_cases e : c' = c
  · rw [if_pos e, hplock, e]
    exact h.lock c q
  · rw [if_neg e]

/-! Places and stacks. -/

theorem Inv.place_move (h : Inv s) (m : Move s s' c x frames) (hfits : x.pc.Fits x.sp)
    (hproc : (s'.core c).proc = x.pc.proc x.sp) (hsched : ∀ c', x.sp = .sched c' → c' = c)
    (hframes : ∀ r ∈ frames, r.Fits (s.cur c).sp ∧ r.plock (s.cur c).sp = none)
    (hwf : Wf (x.pc :: s'.stack x.sp)) : Place s' where
  fits c' := by
    by_cases e : c' = c
    · rwa [e, m.cur]
    · rw [m.cur_ne e]
      exact h.place.fits c'
  proc c' := by
    by_cases e : c' = c
    · rwa [e, m.cur]
    · rw [m.cur_ne e, m.other c' e]
      exact h.place.proc c'
  sched c' c'' hc := by
    by_cases e : c' = c
    · rw [e, m.cur] at hc
      rw [e]
      exact hsched c'' hc
    · rw [m.cur_ne e] at hc
      exact h.place.sched c' c'' hc
  stack t := by
    by_cases e : t = (s.cur c).sp
    · rw [m.stack_self e.symm, e]
      exact hframes
    · rw [m.stack_ne e]
      exact h.place.stack t
  wf c' := by
    by_cases e : c' = c
    · rwa [e, m.cur]
    · rw [m.cur_ne e, m.stack_ne fun he => e (h.thread_unique he)]
      exact h.place.wf c'

theorem Move.occurs (m : Move s s' c x frames) (h : Inv s) (ho : Occurs s' t f) :
    x = ⟨t, f⟩ ∨ t = (s.cur c).sp ∧ f ∈ frames ∨ t ≠ (s.cur c).sp ∧ Occurs s t f := by
  rcases ho with hf | ⟨c', hc⟩
  · by_cases e : t = (s.cur c).sp
    · rw [m.stack_self e.symm] at hf
      exact .inr (.inl ⟨e, hf⟩)
    · rw [m.stack_ne e] at hf
      exact .inr (.inr ⟨e, .inl hf⟩)
  · by_cases e : c' = c
    · rw [e, m.cur] at hc
      exact .inl hc
    · rw [m.cur_ne e] at hc
      refine .inr (.inr ⟨fun he => e (h.thread_unique ?_), .inr ⟨c', hc⟩⟩)
      rw [hc, ← he]

end Xv6.Sched
