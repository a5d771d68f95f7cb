import Xv6.Proc.Blocking
import Xv6.Proc.SleepKill

/-! A kill is not lost on `piperead`, `pipewrite`, `consoleread`, `kwait` and `sys_pause`, unless it
falls between the test of `killed` and the `sleep` of one of them. -/

namespace Xv6.Blocking

open Function
open Sleep (Act Noticed SparesArmed)
open Wait (Slot)

/-- The places between a test of `killed` that found 0 and the `sleep` that follows; a `pipewrite`
calls `wakeup` in between. -/
def armed : Place → Bool
  | .pipe _ (.writeFull _ _) | .pipe _ (.writeSleep _ _) | .pipe _ (.readSleep _)
  | .consoleSleep _ _ | .pauseSleep _ _ | .waitSleep _ => true
  | _ => false

def Place.fails : Place → Bool
  | .pipe _ (.writeFail _ _) | .pipe _ (.readFail _) | .consoleFail | .pauseFail | .waitFail => true
  | _ => false

/-- The action goes with `armed`, and a test of `killed` that finds 1 is the end of the call. -/
def Interruptible (place : Place) (a : Act Lock Chan Kernel Place) : Prop :=
  a.Tests armed place ∧ ∀ next, a = .killed next → (next true).fails = true

variable {d : Kernel}

theorem interruptible_pipe {k : Nat} {place : Ipc.Place} {ok : Bool}
    {a : Act Unit Ipc.Chan Ipc.Pipe Ipc.Place} (hc : Ipc.code (d.pipe k) place ok = some a) :
    Interruptible (.pipe k place) (onPipe d k a) := by
  unfold Ipc.code at hc
  split at hc
  · cases hc
  cases place with
  | writeLoop w i stored =>
    simp only [Ipc.writeCode] at hc
    split_ifs at hc <;> cases hc
    · exact ⟨trivial, nofun⟩
    · exact ⟨rfl, fun _ h => by cases h; rfl⟩
    · exact ⟨rfl, fun _ h => by cases h; rfl⟩
    · exact ⟨fun h => h, nofun⟩
  | writeCopy w i stored =>
    simp only [Ipc.writeCode] at hc
    split_ifs at hc <;> cases hc
    · exact ⟨rfl, nofun⟩
    · exact ⟨fun h => h, nofun⟩
  | readWait n =>
    simp only [Ipc.readCode] at hc
    split_ifs at hc <;> cases hc
    · exact ⟨rfl, fun _ h => by cases h; rfl⟩
    · exact ⟨rfl, nofun⟩
  | readCopy n i =>
    simp only [Ipc.readCode] at hc
    split_ifs at hc <;> cases hc <;>
      first | exact ⟨rfl, nofun⟩ | exact ⟨fun h => h, nofun⟩
  | write w | read n | close b | closeSet b =>
    cases hc
    exact ⟨rfl, nofun⟩
  | writeSleep w i | readSleep n =>
    cases hc
    exact ⟨⟨rfl, rfl⟩, nofun⟩
  | writeFull w i | closeWake b =>
    cases hc
    exact ⟨fun h => h, nofun⟩
  | writeLeave w i | writeFail w i | readLeave n r | readFail n | closeLeave b =>
    cases hc
    exact ⟨trivial, nofun⟩

variable {a : Act Lock Chan Kernel Place} {place : Place}

theorem interruptible_console {ok : Bool} (hc : consoleCode d ok place = some a) :
    Interruptible place a := by
  cases place with
  | consoleLoop target n =>
    simp only [consoleCode] at hc
    split_ifs at hc <;> cases hc
    · exact ⟨rfl, fun _ h => by cases h; rfl⟩
    · exact ⟨rfl, nofun⟩
    · exact ⟨rfl, nofun⟩
  | consoleGot target n c =>
    simp only [consoleCode] at hc
    split_ifs at hc <;> cases hc <;> exact ⟨rfl, nofun⟩
  | console n =>
    cases hc
    exact ⟨rfl, nofun⟩
  | consoleSleep target n =>
    cases hc
    exact ⟨⟨rfl, rfl⟩, nofun⟩
  | consoleLeave target n | consoleFail =>
    cases hc
    exact ⟨trivial, nofun⟩
  | _ => cases hc

theorem interruptible_pause
    (hc : pauseCode d place = some a) : Interruptible place a := by
  cases place with
  | pauseLoop n ticks0 =>
    simp only [pauseCode] at hc
    split_ifs at hc <;> cases hc
    · exact ⟨rfl, fun _ h => by cases h; rfl⟩
    · exact ⟨trivial, nofun⟩
  | pause n | pauseStart n =>
    cases hc
    exact ⟨rfl, nofun⟩
  | pauseSleep n ticks0 =>
    cases hc
    exact ⟨⟨rfl, rfl⟩, nofun⟩
  | pauseFail =>
    cases hc
    exact ⟨trivial, nofun⟩
  | _ => cases hc

variable {proc : Slot → Sleep.Proc Chan} {p : Slot}

theorem interruptible_wait
    {ok : Bool} (hc : waitCode p proc d ok place = some a) :
    Interruptible place a := by
  cases place with
  | waitScan addr i havekids =>
    simp only [waitCode] at hc
    split_ifs at hc <;> cases hc
    · exact ⟨trivial, nofun⟩
    · exact ⟨trivial, nofun⟩
    · exact ⟨rfl, nofun⟩
    · exact ⟨rfl, nofun⟩
    · exact ⟨trivial, nofun⟩
    · exact ⟨rfl, fun _ h => by cases h; rfl⟩
  | wait addr =>
    cases hc
    exact ⟨rfl, nofun⟩
  | waitSleep addr =>
    cases hc
    exact ⟨⟨rfl, rfl⟩, nofun⟩
  | waitFail =>
    cases hc
    exact ⟨trivial, nofun⟩
  | _ => cases hc

theorem interruptible_exit (hc : exitCode p proc d place = some a) :
    Interruptible place a := by
  cases place with
  | exit status | reparent status i =>
    simp only [exitCode] at hc
    split_ifs at hc <;> cases hc <;> exact ⟨rfl, nofun⟩
  | exitWake status =>
    simp only [exitCode] at hc
    cases hparent : (proc p).parent <;> simp only [hparent] at hc <;> cases hc <;>
      first | exact ⟨rfl, nofun⟩ | exact ⟨fun h => h, nofun⟩
  | reparentWake status i =>
    cases hc
    exact ⟨fun h => h, nofun⟩
  | exitLast status =>
    cases hc
    exact ⟨trivial, nofun⟩
  | _ => cases hc

/-- The code of all of the calls tests `killed` before it sleeps, and gives up if it is set. -/
theorem interruptible_code
    {input : Input} (hc : code p proc d place input = some a) :
    Interruptible place a := by
  unfold code at hc
  cases place with
  | pipe k place =>
    obtain ⟨b, hb, rfl⟩ := Option.map_eq_some_iff.mp hc
    exact interruptible_pipe hb
  | console n | consoleLoop target n | consoleSleep target n | consoleGot target n c
  | consoleLeave target n | consoleFail => exact interruptible_console hc
  | pause n | pauseStart n | pauseLoop n ticks0 | pauseSleep n ticks0 | pauseFail =>
    exact interruptible_pause hc
  | wait addr | waitScan addr i havekids | waitSleep addr | waitFail => exact interruptible_wait hc
  | exit status | reparent status i | reparentWake status i | exitWake status | exitLast status =>
    exact interruptible_exit hc
  | fork =>
    cases hc
    exact ⟨rfl, nofun⟩
  | forkLast =>
    cases hc
    exact ⟨trivial, nofun⟩

theorem kernelCode_tests : kernelCode.Tests armed where
  enter n call := by
    cases call with
    | pipe k call => cases call <;> rfl
    | _ => rfl
  code hc := (interruptible_code hc).1

theorem leave_of_fails
    {input : Input} (hf : place.fails = true)
    (hc : code p proc d place input = some a) :
    ∃ lk d', held place = some lk ∧ a = .leave lk d' .keep (-1) := by
  cases place with
  | pipe k place =>
    obtain ⟨b, hb, rfl⟩ := Option.map_eq_some_iff.mp hc
    unfold Ipc.code at hb
    split at hb
    · cases hb
    cases place with
    | writeFail w i | readFail n =>
      cases hb
      exact ⟨_, _, rfl, rfl⟩
    | _ => cases hf
  | consoleFail | pauseFail | waitFail =>
    cases hc
    exact ⟨_, _, rfl, rfl⟩
  | _ => cases hf

theorem Start.noticed {s : State} (h : Start s) : Noticed armed s where
  awake p _ := h.awake p
  unarmed p _ := by rcases h.pos p with hp | hp <;> rw [hp] <;> rfl
  retests p := by rcases h.pos p with hp | hp <;> rw [hp] <;> trivial
  live p hp := .inr (h.live p ((h.pos p).resolve_right hp))

/-- No `kkill` falls between its victim's test of `killed` and the `sleep` that follows. -/
abbrev Spares (s : State) (e : Event) : Prop := SparesArmed armed s e

instance (s : State) : (e : Event) → Decidable (Spares s e)
  | .kill _ v => inferInstanceAs (Decidable ((s.pos v).armed armed = false))
  | .sched _ | .yield _ | .call _ _ | .run _ _ | .intr _ => inferInstanceAs (Decidable True)

variable {s s' : State} {p : Slot}

theorem reachable_noticed (h : Reachable Start (restrict Spares step) s) : Noticed armed s := by
  induction h with
  | start h => exact h.noticed
  | next e _ hstep ih =>
    obtain ⟨hok, hstep⟩ := restrict_eq_some.mp hstep
    exact ih.step kernelCode_tests hok hstep

/-- **A kill is not lost on a wait.** In every interleaving in which no `kkill` falls between its
victim's test of `killed` and its `sleep`, a process with `killed` set is not SLEEPING in any of the
calls. If it was, it is RUNNABLE or running now, and the next test of `killed` in its call sends it
to a place where the call gives up with -1. -/
theorem kill_not_lost (h : Reachable Start (restrict Spares step) s)
    (hk : (s.proc p).killed = true) :
    (s.proc p).state ≠ .sleeping ∧
      (∀ lk next, s.pos p = .asleep lk next →
        (s.proc p).state = .runnable ∨ (s.proc p).state = .running) ∧
      ∀ place input next s', s.pos p = .call place →
        code p s.proc s.data place input = some (.killed next) →
        step s (.run p input) = some s' →
        ∃ place', s'.pos p = .call place' ∧ ∀ proc d input a,
          code p proc d place' input = some a →
          ∃ lk d', held place' = some lk ∧ a = .leave lk d' .keep (-1) := by
  have hn := reachable_noticed h
  refine ⟨hn.awake p hk, fun lk next hp => ?_, fun place input next s' hp hc hs => ?_⟩
  · exact (hn.live p (by rw [hp]; simp)).resolve_left (hn.awake p hk)
  · have hfails := (interruptible_code hc).2 next rfl
    refine ⟨next true, ?_, fun proc d input a ha => leave_of_fails hfails ha⟩
    simp only [step, Sleep.step, Option.ite_none_right_eq_some, Sleep.runStep, hp] at hs
    rw [show kernelCode.code p s.proc s.data place input = some (.killed next) from hc] at hs
    simp only [Option.bind_some, Sleep.perform, Option.some.injEq] at hs
    rw [← hs.2, hk]
    simp [Sleep.State.goto]

def start : State where
  proc p :=
    { state := .running, chan := none, killed := false, xstate := 0, pid := p, parent := none }
  pos _ := .user
  lock _ := none
  data :=
    { pipe := fun _ => Ipc.Pipe.alloc fun _ => 0
      cons := { buf := fun _ => 0, r := 0, w := 0, e := 0 }, ticks := 0, nextpid := 64 }
  calls := 0
  returns := []

theorem start_start : Start start where
  pos _ := .inl rfl
  live _ _ := .inr rfl
  awake p := by simp [start]

/-- Process 1 calls `piperead` and comes to its `sleep`. -/
def readTested : List Event :=
  [.call 1 (.pipe 0 (.read 1)), .run 1 { ok := true, np := 0 }, .run 1 { ok := true, np := 0 }]

theorem kill_not_lost_asleep :
    ∃ s, Reachable Start (restrict Spares step) s ∧ (s.proc 1).killed = true ∧
      (s.proc 1).state = .runnable ∧
      ((s.proc 1).state ≠ .sleeping ∧
        (∀ lk next, s.pos 1 = .asleep lk next →
          (s.proc 1).state = .runnable ∨ (s.proc 1).state = .running) ∧
        ∀ place input next s', s.pos 1 = .call place →
          code 1 s.proc s.data place input = some (.killed next) →
          step s (.run 1 input) = some s' →
          ∃ place', s'.pos 1 = .call place' ∧ ∀ proc d input a,
            code 1 proc d place' input = some a →
            ∃ lk d', held place' = some lk ∧ a = .leave lk d' .keep (-1)) := by
  have hrun : (runEvents (restrict Spares step) start
      (readTested ++ [.run 1 { ok := true, np := 0 }, .kill 1 1])).any (fun s => decide (
        (s.proc 1).killed = true ∧ (s.proc 1).state = .runnable)) := by
    decide +kernel
  obtain ⟨s, hreach, hk, hst⟩ := Reachable.exists_run start_start hrun
  exact ⟨s, hreach, hk, hst, kill_not_lost hreach hk⟩

/-- A `kkill` between the test and the `sleep` leaves its victim SLEEPING on the empty pipe. -/
theorem killed_but_sleeping :
    ∃ s, Reachable Start step s ∧ (s.proc 1).killed = true ∧ (s.proc 1).state = .sleeping ∧
      (s.proc 1).chan = some (.pipe 0 .nread) := by
  have hrun : (runEvents step start
      (readTested ++ [.kill 1 1, .run 1 { ok := true, np := 0 }])).any (fun s => decide (
        (s.proc 1).killed = true ∧ (s.proc 1).state = .sleeping ∧
          (s.proc 1).chan = some (.pipe 0 .nread))) := by
    decide +kernel
  exact Reachable.exists_run start_start hrun

end Xv6.Blocking
