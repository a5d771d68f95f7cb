import Xv6.Sched.Machine

/-! What the places in the code say about the machine: the `p->lock` that is held there, the process
that runs, and what a step can do there. -/

namespace Xv6.Sched

open Function
open Wait (Slot ProcState Chan initproc)

variable {κ : Type}

/-- What a CPU runs in a thread where no `p->lock` is held. -/
def Thread.runs : Thread κ → Option (Slot × Bool)
  | .proc p => some (p, true)
  | .sched _ => none

/-- A call of `sleep`, `yield`, `wakeup` or, at the end of a process, `sched`. -/
inductive Callee
  | sleep (lk : Cond)
  | yield
  | wakeup
  | exit
  deriving DecidableEq

/-- What a place is part of: the bottom of a thread, a system call, a call from there, or an
interrupt handler. -/
inductive Depth
  | bottom
  | syscall
  | call (k : Callee)
  | irq
  deriving DecidableEq

def Callee.over (k : Callee) (r : Frame) : Bool :=
  match k with
  | .sleep lk =>
    match r with
    | .body => true
    | .waitScan _ _ 0 _ => decide (lk = .wait)
    | _ => false
  | .yield =>
    match r with
    | .body | .irq => true
    | _ => false
  | .wakeup =>
    match r with
    | .body | .irq | .reparent _ _ _ | .exitLock _ _ => true
    | _ => false
  | .exit =>
    match r with
    | .body => true
    | _ => false

def Depth.over (d : Depth) (r : Frame) : Bool :=
  match d with
  | .call k => k.over r
  | _ => false

def Caller.callee : Caller → Callee
  | .yield => .yield
  | .sleep _ lk => .sleep lk
  | .exit => .exit

namespace Frame

/-- The `p->lock` that is held. `forkret` holds that of the process. -/
def plock (t : Thread κ) : Frame → Option Slot
  | test i | setProc i | save i | load i | back i | rel i => some i
  | forkret =>
    match t with
    | .proc p => some p
    | .sched _ => none
  | yieldSet p | sched p _ | swtchSave p _ _ | swtchLoad p _ | swtchBack p _ _ | yieldRel p =>
    some p
  | sleepRel p _ _ | sleepSet p _ _ | sleepTidy p _ | sleepUnlock p _ => some p
  | wakeTest _ i | wakeRel _ i | killTest _ i | killRel _ i _ => some i
  | forkTest _ i | forkNext _ i | forkFail i | forkRel _ i | forkRun i | forkDone i => some i
  | exitZombie p _ | exitRel p | dead p => some p
  | waitTest _ _ i | waitNext _ _ i | waitRel i => some i
  | waitKilledTest p _ | waitKilledRel p _ _ => some p
  | _ => none

def isSched : Frame → Bool
  | top | loop _ | test _ | setProc _ | save _ | load _ | back _ | rel _ => true
  | _ => false

def isIrq : Frame → Bool
  | irq | wakeup _ _ | wakeTest _ _ | wakeRel _ _ => true
  | _ => false

/-- The local variable `p` for the process itself. -/
def self : Frame → Option Slot
  | yieldSet p | sched p _ | swtchSave p _ _ | swtchLoad p _ | swtchBack p _ _ | yieldRel p =>
    some p
  | sleepRel p _ _ | sleepSet p _ _ | sleepTidy p _ | sleepUnlock p _ => some p
  | exit p _ | reparent p _ _ | exitWake p _ | exitLock p _ | exitZombie p _ | exitRel p => some p
  | dead p => some p
  | wait p _ | waitScan p _ _ _ | waitChild p _ _ | waitTest p _ _ | waitNext p _ _ => some p
  | waitKilled p _ | waitKilledTest p _ | waitKilledRel p _ _ => some p
  | _ => none

def leaving : Frame → Bool
  | sched _ _ | swtchSave _ _ _ | swtchLoad _ _ | exitRel _ => true
  | _ => false

/-- The slot that `kfork` has taken and not started yet. -/
def creates : Frame → Option Slot
  | forkRel _ np | forkWait _ np | forkParent _ np | forkWaitRel np | forkLock np
  | forkRun np => some np
  | _ => none

def loads : Frame → Bool
  | load _ | swtchLoad _ _ => true
  | _ => false

/-- The places where the CPU holds no other lock than a `p->lock`. -/
def solo (f : Frame) : Bool :=
  f.isSched || match f with
    | swtchSave _ _ _ | swtchLoad _ _ => true
    | _ => false

def depth : Frame → Depth
  | top | loop _ | test _ | setProc _ | save _ | load _ | back _ | rel _ => .bottom
  | body | forkret => .bottom
  | kill _ _ | killTest _ _ | killRel _ _ _ => .syscall
  | fork _ _ | forkTest _ _ | forkNext _ _ | forkFail _ | forkRel _ _ | forkWait _ _ => .syscall
  | forkParent _ _ | forkWaitRel _ | forkLock _ | forkRun _ | forkDone _ => .syscall
  | exit _ _ | reparent _ _ _ | exitWake _ _ | exitLock _ _ | exitZombie _ _ | exitRel _ => .syscall
  | wait _ _ | waitScan _ _ _ _ | waitChild _ _ _ | waitTest _ _ _ | waitNext _ _ _ => .syscall
  | waitRel _ | waitDone | waitKilled _ _ | waitKilledTest _ _ | waitKilledRel _ _ _ => .syscall
  | sched _ k | swtchSave _ k _ | swtchLoad _ k | swtchBack _ k _ => .call k.callee
  | yield | yieldSet _ | yieldRel _ => .call .yield
  | sleep _ lk | sleepRel _ _ lk | sleepSet _ _ lk | sleepTidy _ lk | sleepUnlock _ lk
  | sleepRelock lk => .call (.sleep lk)
  | dead _ => .call .exit
  | wakeup _ _ | wakeTest _ _ | wakeRel _ _ => .call .wakeup
  | irq => .irq

def level (f : Frame) : Nat :=
  match f.depth with
  | .bottom => 0
  | .syscall => 1
  | .call _ => 2
  | .irq => 3

def Fits (t : Thread κ) (f : Frame) : Prop :=
  match t with
  | .sched _ => f.isSched ∨ f.isIrq
  | .proc p => f.isSched = false ∧ ∀ q, f.self = some q → q = p

def proc (t : Thread κ) (f : Frame) : Option Slot :=
  match t with
  | .proc p => some p
  | .sched _ =>
    match f with
    | save i | load i | back i => some i
    | _ => none

/-- The process that the CPU runs, is about to run or has just run, and whether its state is
`RUNNING`. -/
def runs (t : Thread κ) (f : Frame) : Option (Slot × Bool) :=
  match t with
  | .proc p => some (p, !f.leaving)
  | .sched _ =>
    match f with
    | setProc i | save i | load i => some (i, true)
    | back i => some (i, false)
    | _ => none

variable {t : Thread κ} {f : Frame} {q : Slot}

theorem Fits.of_self (hf : f.Fits t) (h : f.self = some q) : t = .proc q := by
  cases t with
  | proc p => rw [hf.2 q h]
  | sched c =>
    rcases hf with hf | hf <;> cases f <;> first | cases hf; done | cases h

theorem plock_of_leaving (h : f.leaving = true) (hf : f.Fits (.proc q : Thread κ)) :
    f.plock (.proc q : Thread κ) = some q := by
  cases f <;> simp_all [leaving, plock, Fits, self]

theorem plock_of_runs_sched {c : κ} {b : Bool} (h : f.runs (.sched c) = some (q, b)) :
    f.plock (.sched c) = some q := by
  cases f <;> simp_all [runs, plock]

theorem runs_of_proc (h : f.proc t = some q) : ∃ b, f.runs t = some (q, b) := by
  cases t with
  | proc p => exact ⟨_, by rw [runs, Option.some.inj h]⟩
  | sched c => cases f <;> simp_all [proc, runs]

theorem runs_of_plock_none (hf : f.Fits t) (h : f.plock t = none) : f.runs t = t.runs := by
  cases t with
  | proc p =>
    rw [runs, Thread.runs]
    cases hl : f.leaving with
    | false => rfl
    | true => rw [plock_of_leaving hl hf] at h; cases h
  | sched c => cases f <;> first | rfl | cases h

theorem proc_of_plock_none (h : f.plock t = none) : f.proc t = t.runs.map Prod.fst := by
  cases t with
  | proc p => rfl
  | sched c => cases f <;> first | rfl | cases h

theorem loads_of_plock_none (h : f.plock t = none) : f.loads = false := by
  cases f <;> first | rfl | cases h

end Frame

/-- Steps that change no state of a process, no `p->lock` and no context. -/
def Act.Quiet : Act → Prop
  | .nop | .acquire (.cond _) | .release (.cond _) | .intena _ | .sie _ => True
  | .write _ (.parent _) | .write _ .nochan => True
  | _ => False

/-- A thread may go from `g` to `f` with the same frames below. -/
def Frame.Level (g f : Frame) : Prop :=
  f.depth = g.depth ∨ g.level = 1 ∧ f.level = 2

/-- A step from `g` that ends with no `p->lock` held. -/
def Next.Open (t : Thread κ) (g : Frame) : Next → Prop
  | .goto f => f.Fits t ∧ f.plock t = none ∧ f.creates = g.creates ∧ g.Level f
  | .call r f => (r.Fits t ∧ r.plock t = none ∧ r.creates = none ∧ g.Level r) ∧
    f.Fits t ∧ f.plock t = none ∧ f.creates = none ∧ g.creates = none ∧
    (f.depth.over r = true ∨ f.level = 1 ∧ r = .body)
  | .ret => g.creates = none ∧ 0 < g.level
  | .stay => False

/-- A step from `g` to `f` under a `p->lock`. -/
structure Like (t : Thread κ) (g f : Frame) : Prop where
  fits : f.Fits t
  plock : f.plock t = g.plock t
  runs : f.runs t = g.runs t
  proc : f.proc t = g.proc t
  creates : f.creates = g.creates
  loads : f.loads = false
  level : g.Level f

variable (s : State κ) (c : κ) (t : Thread κ) (g : Frame)

/-- What the steps of CPU `c` in thread `t` at `g` can be. -/
inductive Kind : Act → Next → Prop
  -- a step without a `p->lock`, or under one
  | unlocked {act : Act} {next : Next} (hquiet : act.Quiet) (hg : g.plock t = none)
      (hnext : next.Open t g)
      (hsolo : ∀ f, next = .goto f → f.solo → g.solo ∧ ∃ enable, act = .sie enable)
      (hret : next = .ret → g = .irq → act = .sie true)
      (hsie : act = .sie true → (s.core c).noff = 0) : Kind act next
  | locked {act : Act} {q : Slot} {f : Frame} (hquiet : act.Quiet) (hg : g.plock t = some q)
      (hlike : Like t g f) (hsolo : f.solo → act = .nop ∧ (g.solo ∨ (s.core c).noff = 1))
      (hsie : act ≠ .sie true) : Kind act (.goto f)
  | acquire {q : Slot} {f : Frame} (hg : g.plock t = none) (hf : f.plock t = some q)
      (hfits : f.Fits t) (hruns : f.runs t = t.runs) (hproc : f.proc t = g.proc t)
      (hcreates : f.creates = g.creates) (hloads : f.loads = false)
      (hlevel : g.Level f) (hsolo : f.solo → g.solo) :
      Kind (.acquire (.proc q)) (.goto f)
  | release {q : Slot} {next : Next} (hg : g.plock t = some q) (hruns : g.runs t = t.runs)
      (hproc : g.proc t = t.runs.map Prod.fst) (hnext : next.Open t g)
      (hsolo : ∀ f, next = .goto f → f.solo → g.solo) : Kind (.release (.proc q)) next
  -- `scheduler`
  | run {i : Slot} (hg : g = .test i) (hstate : (s.proc i).state = .runnable) :
      Kind (.write i (.state .running)) (.goto (.setProc i))
  | setProc {i : Slot} (hg : g = .setProc i) : Kind (.setProc (some i)) (.goto (.save i))
  | save {i : Slot} (hg : g = .save i) : Kind (.save none (.back i)) (.goto (.load i))
  | load {i : Slot} (hg : g = .load i) : Kind (.load (some i)) .stay
  | back {i : Slot} (hg : g = .back i) : Kind (.setProc none) (.goto (.rel i))
  -- a process gives up the CPU
  | leave {p : Slot} {w : Write} {f : Frame} (ht : t = .proc p) (hg : g.plock t = some p)
      (hleaving : g.leaving = false) (hw : w = .state .runnable ∨ (∃ chan, w = .sleep chan) ∨
        ∃ status, w = .zombie status) (hf : f.plock t = some p) (hfits : f.Fits t)
      (hleaves : f.leaving = true) (hcreates : f.creates = g.creates) (hloads : f.loads = false)
      (hlevel : g.Level f) (hsolo : f.solo = false) : Kind (.write p w) (.goto f)
  | swtchSave {p : Slot} {k : Caller} {intena : Bool} (hg : g = .swtchSave p k intena) :
      Kind (.save (some p) (.swtchBack p k intena)) (.goto (.swtchLoad p k))
  | swtchLoad {p : Slot} {k : Caller} (hg : g = .swtchLoad p k) : Kind (.load none) .stay
  -- one CPU changes the state of a process that does not run
  | wake {q : Slot} {f : Frame} {w : Write} (hg : g.plock t = some q)
      (hw : (s.proc q).state = .sleeping ∧ w = .state .runnable ∨ w = .kill) (hlike : Like t g f)
      (hsolo : f.solo = false) : Kind (.write q w) (.goto f)
  | free {q : Slot} {f : Frame} (hg : g.plock t = some q) (hruns : g.runs t = t.runs)
      (hstate : (s.proc q).state = .zombie) (hlike : Like t g f) (hsolo : f.solo = false) :
      Kind (.write q .free) (.goto f)
  | allocFail {q : Slot} {f : Frame} (hg : g.plock t = some q)
      (hstate : (s.proc q).state = .unused) (hlike : Like t g f) (hsolo : f.solo = false) :
      Kind (.alloc q false) (.goto f)
  | alloc {p q : Slot} (hg : g = .forkTest p q) (hstate : (s.proc q).state = .unused) :
      Kind (.alloc q true) (.goto (.forkRel p q))
  | start {np : Slot} (hg : g = .forkRun np) :
      Kind (.write np (.state .runnable)) (.goto (.forkDone np))
  | panic {msg : String} {next : Next} : Kind (.panic msg) next

end Xv6.Sched
