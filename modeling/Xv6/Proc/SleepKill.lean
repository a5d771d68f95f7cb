import Xv6.Proc.SleepInv

/-! A kill reaches a process that waits, under any code that tests `killed` before every `sleep`.
The one gap is between the test and the `sleep`. -/

namespace Xv6.Sleep

open Function
open Wait (Slot ProcState)

variable {Lock Chan σ Place Call Input Intr : Type}

/-- An action at a place goes with `armed`, the places between a test of `killed` that found 0 and
the `sleep` that follows. -/
def Act.Tests (armed : Place → Bool) (place : Place) : Act Lock Chan σ Place → Prop
  | .acquire _ next | .data _ next | .setParent _ _ next => armed next = false
  | .killed next => armed (next true) = false
  | .sleep _ _ next => armed place = true ∧ armed next = false
  | .wakeup _ next => armed next = true → armed place = true
  | .leave _ _ _ _ | .exit _ _ => True

/-- The code sleeps only after a test of `killed`. -/
structure Code.Tests (c : Code Lock Chan σ Place Call Input Intr) (armed : Place → Bool) :
    Prop where
  enter : ∀ n call, armed (c.enter n call) = false
  code : ∀ {p proc d place input a}, c.code p proc d place input = some a → a.Tests armed place

/-- The process has tested `killed` and is about to sleep. -/
def Pos.armed (armed : Place → Bool) : Pos Lock Chan Place → Bool
  | .call place | .waking _ _ place => armed place
  | _ => false

/-- A process that goes on from `sleep` tests `killed` again. -/
def Pos.Retests (armed : Place → Bool) : Pos Lock Chan Place → Prop
  | .asleep _ next | .relock _ next => armed next = false
  | _ => True

def Proc.Live (q : Proc Chan) : Prop :=
  q.state = .sleeping ∨ q.state = .runnable ∨ q.state = .running

/-- A killed process neither sleeps nor is about to. -/
structure Noticed (armed : Place → Bool) (s : State Lock Chan σ Place) : Prop where
  awake : ∀ p, (s.proc p).killed = true → (s.proc p).state ≠ .sleeping
  unarmed : ∀ p, (s.proc p).killed = true → (s.pos p).armed armed = false
  retests : ∀ p, (s.pos p).Retests armed
  live : ∀ p, s.pos p ≠ .dead → (s.proc p).Live

variable {armed : Place → Bool} {s s' : State Lock Chan σ Place} {p : Slot}
  {x : Pos Lock Chan Place}

theorem Noticed.goto (h : Noticed armed s) (hlive : (s.proc p).Live)
    (hx : (s.proc p).killed = true → x.armed armed = false) (hretests : x.Retests armed) :
    Noticed armed (s.goto p x) := by
  refine ⟨h.awake, fun q hq => ?_, fun q => ?_, fun q hq => ?_⟩ <;> dsimp only [State.goto] at *
  · rcases eq_or_ne q p with rfl | hqp
    · rw [update_self]
      exact hx hq
    · rw [update_of_ne hqp]
      exact h.unarmed q hq
  · rcases eq_or_ne q p with rfl | hqp
    · rwa [update_self]
    · rw [update_of_ne hqp]
      exact h.retests q
  · rcases eq_or_ne q p with rfl | hqp
    · exact hlive
    · exact h.live q (by rwa [update_of_ne hqp] at hq)

theorem Noticed.upd (h : Noticed armed s) {f : Proc Chan → Proc Chan}
    (hawake : (f (s.proc p)).killed = true → (f (s.proc p)).state ≠ .sleeping)
    (hunarmed : (f (s.proc p)).killed = true → (s.pos p).armed armed = false)
    (hlive : s.pos p ≠ .dead → (f (s.proc p)).Live) : Noticed armed (s.upd p f) := by
  refine ⟨fun q hq => ?_, fun q hq => ?_, h.retests, fun q hq => ?_⟩ <;>
    rcases eq_or_ne q p with rfl | hqp
  · simp only [State.upd, update_self] at hq ⊢
    exact hawake hq
  · simp only [State.upd, update_of_ne hqp] at hq ⊢
    exact h.awake q hq
  · simp only [State.upd, update_self] at hq
    exact hunarmed hq
  · simp only [State.upd, update_of_ne hqp] at hq
    exact h.unarmed q hq
  · simp only [State.upd, update_self]
    exact hlive hq
  · simp only [State.upd, update_of_ne hqp]
    exact h.live q hq

theorem Noticed.frame (h : Noticed armed s) {lock : Lock → Option Slot} {d : σ} {calls : Nat}
    {returns : List (Return σ Place)} :
    Noticed armed { s with lock, data := d, calls, returns } :=
  ⟨h.awake, h.unarmed, h.retests, h.live⟩

theorem Proc.Live.of_running {q : Proc Chan} (h : q.state = .running) : q.Live := .inr (.inr h)

theorem Noticed.effect (h : Noticed armed s) {effect : Effect} (he : effect.apply s p = some s') :
    Noticed armed s' := by
  cases effect with
  | keep =>
    cases he
    exact h
  | freeproc pp =>
    simp only [Effect.apply, guard_eq_some] at he
    obtain ⟨hz, rfl⟩ := he
    refine h.upd (by simp [freeProc]) (by simp [freeProc]) fun hp => ?_
    -- A zombie is nowhere.
    have := h.live pp hp
    simp [Proc.Live, hz] at this
  | start np pid =>
    simp only [Effect.apply, guard_eq_some] at he
    obtain ⟨hu, rfl⟩ := he
    have hdead : s.pos np = .dead := by
      by_contra hp
      have := h.live np hp
      simp [Proc.Live, hu] at this
    have hupd : Noticed armed
        (s.upd np fun q => { q with state := .runnable, pid, parent := some p }) :=
      h.upd (by simp) (fun _ => by rw [hdead]; rfl) fun hp => absurd hdead hp
    exact hupd.goto (by simp [State.upd, Proc.Live]) (fun _ => rfl) trivial

variable [DecidableEq Lock]

theorem Noticed.perform (h : Noticed armed s) {place : Place} {a : Act Lock Chan σ Place}
    (hs : (s.proc p).state = .running) (hp : s.pos p = .call place) (ht : a.Tests armed place)
    (ha : perform s p place a = some s') : Noticed armed s' := by
  have hlive := Proc.Live.of_running hs
  cases a with
  | acquire lk next =>
    simp only [Sleep.perform, guard_eq_some] at ha
    obtain ⟨-, rfl⟩ := ha
    exact h.frame.goto hlive (fun _ => ht) trivial
  | data d next =>
    cases ha
    exact h.frame.goto hlive (fun _ => ht) trivial
  | killed next =>
    cases ha
    refine h.goto hlive (fun hk => ?_) trivial
    rw [hk]
    exact ht
  | sleep chan lk next =>
    cases ha
    -- A killed process has not come this far.
    have hk : (s.proc p).killed ≠ true := fun hk => by
      have hunarmed := h.unarmed p hk
      rw [hp, show (Pos.call place).armed armed = true from ht.1] at hunarmed
      cases hunarmed
    have hasleep : Noticed armed ({ s with lock := update s.lock lk none }.upd p fun q =>
        { q with state := .sleeping, chan := some chan }) :=
      h.frame.upd (fun he => absurd he hk) (fun he => absurd he hk) fun _ => .inl rfl
    exact hasleep.goto (by simp [State.upd, Proc.Live]) (fun _ => rfl) ht.2
  | wakeup chan next =>
    cases ha
    refine h.goto hlive (fun hk => ?_) trivial
    have hunarmed := h.unarmed p hk
    rw [hp] at hunarmed
    cases hnext : armed next with
    | false => exact hnext
    | true =>
      rw [show (Pos.call place).armed armed = true from ht hnext] at hunarmed
      cases hunarmed
  | setParent pp parent next =>
    cases ha
    have hupd : Noticed armed (s.upd pp fun q => { q with parent := some parent }) :=
      h.upd (h.awake pp) (h.unarmed pp) (h.live pp)
    refine hupd.goto ?_ (fun _ => ht) trivial
    rcases eq_or_ne p pp with rfl | hpp
    · simp [State.upd, Proc.Live, hs]
    · simp [State.upd, Proc.Live, hs, hpp]
  | leave lk d effect r =>
    have hleft : Noticed armed ({ s with
        lock := update s.lock lk none, data := d
        returns := s.returns ++ [Return.mk place d r] }.goto p .user) :=
      h.frame.goto hlive (fun _ => rfl) trivial
    exact hleft.effect ha
  | exit lk status =>
    cases ha
    have hgoto : Noticed armed ({ s with lock := update s.lock lk none }.goto p .dead) :=
      h.frame.goto hlive (fun _ => rfl) trivial
    have hzombie : Noticed armed (({ s with lock := update s.lock lk none }.goto p .dead).upd p
        fun q => { q with xstate := status, state := .zombie }) :=
      hgoto.upd (by simp) (fun _ => by simp [State.goto, Pos.armed])
        fun hne => absurd (by simp [State.goto]) hne
    exact hzombie

variable [DecidableEq Chan] {c : Code Lock Chan σ Place Call Input Intr}

omit [DecidableEq Lock] in
theorem Noticed.wakeOne (h : Noticed armed s) (chan : Chan) (q : Slot) :
    ((wakeOne chan (s.proc q)).killed = true → (wakeOne chan (s.proc q)).state ≠ .sleeping) ∧
      ((wakeOne chan (s.proc q)).killed = true → (s.proc q).killed = true) ∧
      ((s.proc q).Live → (wakeOne chan (s.proc q)).Live) := by
  unfold Sleep.wakeOne
  split
  · simp [Proc.Live]
  · exact ⟨h.awake q, id, id⟩

omit [DecidableEq Lock] in
theorem Noticed.wakeupStep (h : Noticed armed s) (hs : (s.proc p).state = .running) {chan : Chan}
    {j : Nat} {next : Place} (hp : s.pos p = .waking chan j next) :
    Noticed armed (wakeupStep s p chan j next) := by
  have hlive := Proc.Live.of_running hs
  have hnext : (s.proc p).killed = true → armed next = false := fun hk => by
    have hunarmed := h.unarmed p hk
    rw [hp] at hunarmed
    exact hunarmed
  unfold Sleep.wakeupStep
  split
  · rename_i hj
    by_cases hjp : (⟨j, hj⟩ : Slot) = p
    · rw [if_neg (by simpa using hjp)]
      exact h.goto hlive hnext trivial
    · rw [if_pos hjp]
      obtain ⟨hawake, hkilled, hlive'⟩ := h.wakeOne chan ⟨j, hj⟩
      have hupd : Noticed armed (s.upd ⟨j, hj⟩ (Sleep.wakeOne chan)) :=
        h.upd hawake (fun hk => h.unarmed _ (hkilled hk)) fun hq => hlive' (h.live _ hq)
      have hsame : (s.upd ⟨j, hj⟩ (Sleep.wakeOne chan)).proc p = s.proc p := by
        simp [State.upd, Ne.symm hjp]
      exact hupd.goto (by rw [hsame]; exact hlive) (by rw [hsame]; exact hnext) trivial
  · exact h.goto hlive hnext trivial

/-- No `kkill` falls between its victim's test of `killed` and the `sleep` that follows. -/
def SparesArmed (armed : Place → Bool) (s : State Lock Chan σ Place) : Event Call Input Intr → Prop
  | .kill _ v => (s.pos v).armed armed = false
  | _ => True

theorem Noticed.step (hc : c.Tests armed) (h : Noticed armed s) {e : Event Call Input Intr}
    (hok : SparesArmed armed s e) (hstep : step c s e = some s') : Noticed armed s' := by
  cases step_moves hstep with
  | @sched p hs | @yield p hs => exact h.upd (by simp) (h.unarmed p) fun _ => by simp [Proc.Live]
  | call hs hp => exact h.frame.goto (.of_running hs) (fun _ => hc.enter _ _) trivial
  | act hs hp hcode ha => exact h.perform hs hp (hc.code hcode) ha
  | waking hs hp => exact h.wakeupStep hs hp
  | @awake p _ lk next hs hp =>
    have hretests := h.retests p
    rw [hp] at hretests
    have hupd : Noticed armed (s.upd p fun q => { q with chan := none }) :=
      h.upd (h.awake p) (h.unarmed p) (h.live p)
    exact hupd.goto (by simp [State.upd, Proc.Live, hs]) (fun _ => rfl) hretests
  | @relock p _ lk next hs hp hl =>
    have hretests := h.retests p
    rw [hp] at hretests
    exact h.frame.goto (.of_running hs) (fun _ => hretests) trivial
  | @kill pid v hv =>
    refine h.upd (fun _ => ?_) (fun _ => hok) fun hp => ?_
    · unfold kkill
      split <;> simp_all
    · have := h.live v hp
      unfold kkill Proc.Live at *
      split <;> simp_all
  | @intr i handler _ _ hs =>
    simp only [intrStep, guard_eq_some] at hs
    obtain ⟨-, rfl⟩ := hs
    cases hw : handler.wakes with
    | none => exact ⟨h.awake, h.unarmed, h.retests, h.live⟩
    | some chan =>
      exact ⟨fun q => (h.wakeOne chan q).1, fun q hq => h.unarmed q ((h.wakeOne chan q).2.1 hq),
        h.retests, fun q hq => (h.wakeOne chan q).2.2 (h.live q hq)⟩

end Xv6.Sleep
