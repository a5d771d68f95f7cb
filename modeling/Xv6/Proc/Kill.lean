import Xv6.Proc.TableInv

/-! Whom a kill reaches. `kkill` looks for a slot with the given pid and does not ask whether it is
in use; an unused slot has pid 0, and `allocproc` does not clear `killed`. So `kkill(0)` marks an
unused slot, and the next process that is created in it starts out killed. -/

namespace Xv6.Table

open Function
open Wait (Slot initproc wrap)

/-- Since process `id` was created, `kkill` was called with `pid` or `setkilled` on the process. -/
def AskedSince : List Past → Nat → Int → Prop
  | [], _, _ => False
  | .kill pid' :: past, id, pid => pid' = pid ∨ AskedSince past id pid
  | .setkilled id' :: past, id, pid => id' = id ∨ AskedSince past id pid
  | .fork _ child :: past, id, pid => child ≠ id ∧ AskedSince past id pid
  | .trace _ _ :: past, id, pid => AskedSince past id pid

instance : (past : List Past) → (id : Nat) → (pid : Int) → Decidable (AskedSince past id pid)
  | [], _, _ => inferInstanceAs (Decidable False)
  | .kill pid' :: past, id, pid =>
    have := instDecidableAskedSince past id pid
    inferInstanceAs (Decidable (pid' = pid ∨ AskedSince past id pid))
  | .setkilled id' :: past, id, pid =>
    have := instDecidableAskedSince past id pid
    inferInstanceAs (Decidable (id' = id ∨ AskedSince past id pid))
  | .fork _ child :: past, id, pid =>
    have := instDecidableAskedSince past id pid
    inferInstanceAs (Decidable (child ≠ id ∧ AskedSince past id pid))
  | .trace _ _ :: past, id, pid => instDecidableAskedSince past id pid

/-- The event does not complete a `kkill` whose loop stops at an unused slot. -/
def Event.SparesUnused (s : State) (e : Event) : Prop :=
  ((e.kills s).bind (killTarget s)).all (fun q => (s.proc q).state ≠ .unused) = true

/-- The event brings no slot into use that carries a kill. -/
def Event.SparesBorn (s : State) (e : Event) : Prop :=
  (step s e).all (fun s' => ∀ p, (s.proc p).state = .unused → (s'.proc p).state ≠ .unused →
    (s'.proc p).killed = false) = true

instance (s : State) (e : Event) : Decidable (e.SparesUnused s) :=
  inferInstanceAs (Decidable (_ = true))

instance (s : State) (e : Event) : Decidable (e.SparesBorn s) :=
  inferInstanceAs (Decidable (_ = true))

/-- A process that is killed was asked to die. -/
def Asked (s : State) : Prop := ∀ p, (s.proc p).state ≠ .unused → (s.proc p).killed = true →
  AskedSince s.past (s.id p) (s.proc p).pid

/-- An unused slot carries no kill. -/
def Clean (s : State) : Prop := ∀ p, (s.proc p).state = .unused →
  (s.proc p).killed = false ∧ (s.proc p).pid = 0

variable {s s' : State} {e : Event} {p : Slot}

theorem view_live : (s.view p).live = true ↔ (s.proc p).state ≠ .unused := by
  simp [State.view, Proc.view]

theorem view_unused : (s.view p).live = false ↔ (s.proc p).state = .unused := by
  simp [State.view, Proc.view]

theorem sparesBorn_iff (hs : step s e = some s') : e.SparesBorn s ↔
    ∀ p, (s.view p).live = false → (s'.view p).live = true → (s'.view p).killed = false := by
  simp only [view_live, view_unused]
  simp [Event.SparesBorn, hs, State.view, Proc.view]

theorem Event.SparesUnused.live (h : e.SparesUnused s) {pid : Int} {q : Slot}
    (he : e.kills s = some pid) (hq : killTarget s pid = some q) : (s.view q).live = true := by
  simpa [Event.SparesUnused, he, hq, State.view, Proc.view] using h

theorem asked_iff : Asked s ↔ ∀ p, (s.view p).live = true → (s.view p).killed = true →
    AskedSince s.past (s.view p).id (s.view p).pid := by
  simp only [view_live]
  rfl

theorem clean_iff : Clean s ↔
    ∀ p, (s.view p).live = false → (s.view p).killed = false ∧ (s.view p).pid = 0 := by
  simp only [view_unused]
  rfl

/-- A slot whose view has changed, and the others, whose past has only grown. -/
theorem Asked.update {q : Slot} {v : View} (h : Asked s) (hv : s'.view = update s.view q v)
    (hasked : v.live = true → v.killed = true → AskedSince s'.past v.id v.pid)
    (hpast : ∀ p, (s.view p).live = true → AskedSince s.past (s.view p).id (s.view p).pid →
      AskedSince s'.past (s.view p).id (s.view p).pid) : Asked s' := by
  refine asked_iff.mpr fun p hp hk => ?_
  rcases eq_or_ne p q with rfl | hpq
  · rw [hv, update_self] at hp hk ⊢
    exact hasked hp hk
  · rw [hv, update_of_ne hpq] at hp hk ⊢
    exact hpast p hp (asked_iff.mp h p hp hk)

theorem Clean.update {q : Slot} {v : View} (h : Clean s) (hv : s'.view = update s.view q v)
    (hunused : v.live = false → v.killed = false ∧ v.pid = 0) : Clean s' := by
  refine clean_iff.mpr fun p hp => ?_
  rcases eq_or_ne p q with rfl | hpq
  · rw [hv, update_self] at hp ⊢
    exact hunused hp
  · rw [hv, update_of_ne hpq] at hp ⊢
    exact clean_iff.mp h p hp

theorem Asked.change (h : Asked s) (hn : Numbered s) (hch : Change s e s')
    (hborn : ∀ p, (s.view p).live = false → (s'.view p).live = true →
      (s'.view p).killed = false) : Asked s' := by
  have hold := asked_iff.mp h
  cases hch with
  | same hv hp hc => exact asked_iff.mpr (by rw [hv, hp]; exact hold)
  | free q i hq hv hp hc => exact h.update hv (by simp) fun p _ ha => by rw [hp]; exact ha
  | create par np pid hpar hnp hv hp hc =>
    refine h.update hv (fun _ hk => ?_) fun p hl ha => ?_
    · have hclear := hborn np hnp
      rw [hv, update_self] at hclear
      exact absurd hk (by rw [hclear rfl]; decide)
    · rw [hp]
      exact ⟨(hn.lt p hl).ne', ha⟩
  | trace p val hlive hv hp hc =>
    refine h.update hv (fun hl hk => ?_) fun q _ ha => ?_
    · rw [hp]
      exact hold p hl hk
    · rw [hp]
      exact ha
  | kill pid q he hq hv hp hc =>
    refine h.update hv (fun _ _ => ?_) fun p _ ha => ?_
    · rw [hp]
      exact .inl (killTarget_pid hq).symm
    · rw [hp]
      exact .inr ha
  | killNone pid hv hp hc =>
    refine asked_iff.mpr fun p hl hk => ?_
    rw [hv] at hl hk ⊢
    rw [hp]
    exact .inr (hold p hl hk)
  | setkilled p hlive hv hp hc =>
    refine h.update hv (fun _ _ => ?_) fun q _ ha => ?_
    · rw [hp]
      exact .inl rfl
    · rw [hp]
      exact .inr ha

theorem Clean.change (h : Clean s) (hok : e.SparesUnused s) (hch : Change s e s') : Clean s' := by
  have hold := clean_iff.mp h
  cases hch with
  | same hv hp hc => exact clean_iff.mpr (by rw [hv]; exact hold)
  | free q i hq hv hp hc => exact h.update hv fun _ => ⟨rfl, rfl⟩
  | create par np pid hpar hnp hv hp hc => exact h.update hv (by simp)
  | trace p val hlive hv hp hc => exact h.update hv (hold p)
  | kill pid q he hq hv hp hc =>
    exact h.update hv fun hl => absurd (hok.live he hq) (by rw [hl]; decide)
  | killNone pid hv hp hc => exact clean_iff.mpr (by rw [hv]; exact hold)
  | setkilled p hlive hv hp hc => exact h.update hv fun hl => absurd hlive (by rw [hl]; decide)

theorem asked_init : Asked init := by
  refine asked_iff.mpr fun p _ hk => ?_
  rw [init_view] at hk
  split at hk <;> cases hk

theorem clean_init : Clean init := by
  refine clean_iff.mpr fun p hp => ?_
  rw [init_view] at hp ⊢
  split at hp
  · cases hp
  · rename_i hne
    rw [if_neg hne]
    exact ⟨rfl, rfl⟩

/-- The step keeps `Asked` exactly when no slot comes into use with a kill: nobody can have asked
for a process whose creation is the last thing that happened. -/
theorem Asked.step_iff (h : Asked s) (hn : Numbered s) (hs : step s e = some s') :
    e.SparesBorn s ↔ Asked s' := by
  rw [sparesBorn_iff hs]
  refine ⟨h.change hn (step_change hs), fun h' p hp hp' => ?_⟩
  obtain ⟨-, par, hpast⟩ := (step_change hs).born hp hp'
  refine Bool.eq_false_iff.mpr fun hk => ?_
  have hsince := asked_iff.mp h' p hp' hk
  rw [hpast] at hsince
  exact hsince.1 rfl

theorem reachable_asked (h : Reachable (· = init) (restrict Event.SparesBorn step) s) :
    Numbered s ∧ Asked s := by
  refine h.invariant (P := fun s => Numbered s ∧ Asked s) ?_ ?_
  · rintro _ rfl
    exact ⟨numbered_init, asked_init⟩
  · rintro s e s' ⟨hn, hk⟩ hs
    obtain ⟨hok, hs⟩ := restrict_eq_some.mp hs
    exact ⟨hn.change (step_change hs), (hk.step_iff hn hs).mp hok⟩

theorem Clean.born (h : Clean s) (hs : step s e = some s') : e.SparesBorn s :=
  (sparesBorn_iff hs).mpr fun p hp hp' =>
    ((step_change hs).born hp hp').1.trans (clean_iff.mp h p hp).1

theorem reachable_clean (h : Reachable (· = init) (restrict Event.SparesUnused step) s) :
    Reachable (· = init) (restrict Event.SparesBorn step) s ∧ Clean s := by
  refine h.invariant (P := fun s => Reachable _ (restrict Event.SparesBorn step) s ∧ Clean s) ?_ ?_
  · rintro _ rfl
    exact ⟨.start rfl, clean_init⟩
  · rintro s e s' ⟨hr, hk⟩ hs
    obtain ⟨hok, hs⟩ := restrict_eq_some.mp hs
    exact ⟨.next e hr (restrict_eq_some.mpr ⟨hk.born hs, hs⟩), hk.change hok (step_change hs)⟩

/-- A kill reaches only its target as long as no slot comes into use that carries a kill. A process
in use that is killed was then asked to die since it was created: `kkill` was called with its pid,
or `setkilled` on it; and the first step that breaks the condition breaks this. The condition holds
in every run in which no `kkill` stops at an unused slot: unused slots then have pid 0 and carry no
kill, so only `kkill(0)` can break it. -/
theorem kill_reaches_only_target :
    (Reachable (· = init) (restrict Event.SparesBorn step) s →
      Asked s ∧ ∀ e s', step s e = some s' → (e.SparesBorn s ↔ Asked s')) ∧
    (Reachable (· = init) (restrict Event.SparesUnused step) s →
      Reachable (· = init) (restrict Event.SparesBorn step) s ∧ Clean s ∧
      ∀ e s' p, step s e = some s' → (s.proc p).state = .unused → (s'.proc p).state ≠ .unused →
        (s'.proc p).killed = false) := by
  refine ⟨fun h => ?_, fun h => ?_⟩
  · obtain ⟨hn, hk⟩ := reachable_asked h
    exact ⟨hk, fun e s' hs => hk.step_iff hn hs⟩
  · obtain ⟨hr, hk⟩ := reachable_clean h
    refine ⟨hr, hk, fun e s' p hs hp hp' => ?_⟩
    exact (sparesBorn_iff hs).mp (hk.born hs) p (view_unused.mpr hp) (view_live.mpr hp')

def killZero : List Event :=
  let o : Oracle := ⟨true, true, none, 0⟩
  [.sched 0, .call 0 SYS_kill 0, .complete 0 o, .leave 0, .call 0 SYS_fork 0, .complete 0 o]

/-- The child is killed though nobody has asked for it since it was created. -/
theorem child_born_killed : ∃ s, Reachable (· = init) step s ∧ (s.proc 1).state ≠ .unused ∧
    (s.proc 1).killed = true ∧ ¬AskedSince s.past (s.id 1) (s.proc 1).pid := by
  have hrun : (runEvents step init killZero).any (fun s => decide ((s.proc 1).state ≠ .unused ∧
      (s.proc 1).killed = true ∧ ¬AskedSince s.past (s.id 1) (s.proc 1).pid)) := by
    decide +kernel
  exact Reachable.exists_run rfl hrun

def killChild : List Event :=
  let o : Oracle := ⟨true, true, none, 0⟩
  [.sched 0, .call 0 SYS_fork 0, .complete 0 o, .leave 0, .call 0 SYS_kill 2, .complete 0 o]

theorem kill_reaches_only_target_child : ∃ s,
    Reachable (· = init) (restrict Event.SparesBorn step) s ∧ (s.proc 1).killed = true ∧
      AskedSince s.past (s.id 1) (s.proc 1).pid := by
  have hrun : (runEvents (restrict Event.SparesUnused step) init killChild).any
      (fun s => decide ((s.proc 1).state ≠ .unused ∧ (s.proc 1).killed = true)) := by
    decide +kernel
  obtain ⟨s, h, hstate, hkilled⟩ :
      ∃ s, Reachable (· = init) (restrict Event.SparesUnused step) s ∧ _ :=
    Reachable.exists_run rfl hrun
  have hborn := (kill_reaches_only_target.2 h).1
  exact ⟨s, hborn, hkilled, (kill_reaches_only_target.1 hborn).1 1 hstate hkilled⟩

end Xv6.Table
