import Xv6.Sched.OneCpu
import Xv6.Sched.Protocol

/-! What the CPUs do in the protocol of `sleep` and `wakeup`, read off the places in the code. -/

namespace Xv6.Sched

open Function
open Wait (Slot ProcState Chan initproc)

/-- Who called `wakeup`, from the frames below it. -/
def site : List Frame → Site
  | .reparent _ _ _ :: _ => .reparent
  | .exitLock p _ :: _ => .exit p
  | _ => .plain

/-- `kwait` of `p` sleeps on `p` with `wait_lock`. -/
def sleepPhase : Chan → Cond → Phase
  | .proc p, .wait => .scan p NPROC
  | _, _ => .idle

theorem sleepPhase_ne (chan chan' : Chan) (lk : Cond) (i : Nat) (st : Site) :
    sleepPhase chan lk ≠ .wake chan' i st := by
  cases chan <;> cases lk <;> nofun

def Caller.sleeper : Caller → Option (Chan × Cond)
  | .sleep chan lk => some (chan, lk)
  | _ => none

namespace Frame

def phase (rest : List Frame) : Frame → Phase
  | wakeup chan i => .wake chan i (site rest)
  | wakeTest chan i => .wake chan i.val (site rest)
  | wakeRel chan i => .wake chan (i.val + 1) (site rest)
  | forkParent _ _ | forkWaitRel _ | reparent _ _ _ | exitWake _ _ | exitRel _ => .hold
  | waitRel _ | waitDone => .hold
  | exitLock p _ | exitZombie p _ => .exiting p
  | waitScan p _ i _ => .scan p i
  | waitChild p _ i | waitTest p _ i => .scan p i.val
  | waitNext p _ i => .scan p (i.val + 1)
  | waitKilled p _ | waitKilledTest p _ | waitKilledRel p _ _ => .scan p NPROC
  | sleep chan lk | sleepRel _ chan lk => sleepPhase chan lk
  | _ => .idle

def wakes : Frame → Bool
  | wakeup _ _ | wakeTest _ _ | wakeRel _ _ => true
  | _ => false

/-- The channel and the lock of a call of `sleep` that has released the lock and is on its way to
the scheduler. -/
def sleeper : Frame → Option (Chan × Cond)
  | sleepSet _ chan lk => some (chan, lk)
  | sched _ k | swtchSave _ k _ | swtchLoad _ k => k.sleeper
  | _ => none

theorem sleeper_of_plock_none {κ : Type} {t : Thread κ} {f : Frame} (h : f.plock t = none) :
    f.sleeper = none := by
  cases f <;> first | rfl | cases h

theorem wakes_of_level {f : Frame} (h : f.level ≠ 2) : f.wakes = false := by
  cases f <;> first | rfl | exact absurd rfl h

theorem not_wake {f : Frame} {P : Chan → Nat → Site → Prop} (h : f.wakes = false)
    (rest : List Frame) (chan : Chan) (i : Nat) (st : Site) (hw : f.phase rest = .wake chan i st) :
    P chan i st := by
  cases f <;> first
    | cases h; done
    | exact absurd hw (sleepPhase_ne _ _ _ _ _)
    | cases hw

end Frame

/-- The lock other than a `p->lock` that a step takes or releases. -/
def Act.cond : Act → Option Cond
  | .acquire (.cond lk) | .release (.cond lk) => some lk
  | _ => none

def Act.Safe : Act → Bool
  | .nop | .acquire _ | .release _ | .setProc _ | .save none _ | .intena _ | .sie _ => true
  | .alloc _ false | .write _ .kill | .write _ .free => true
  | .write _ (.state st) => decide (st ≠ .sleeping ∧ st ≠ .zombie)
  | _ => false

/-- What the steps of CPU `c` at `g` do to the protocol. -/
inductive Deed {κ : Type} (s : State κ) (c : κ) (g : Frame) : Act → Next → Prop
  -- the phase stays, or ends, or is that of a new call
  | keep {act : Act} {f : Frame} (hact : act.Safe = true := by rfl)
      (hcond : act.cond = none := by rfl)
      (hphase : ∀ rest, f.phase rest = g.phase rest := by exact fun _ => rfl)
      (hsleeper : f.sleeper = g.sleeper := by rfl) (hirq : f ≠ .irq := by simp) :
      Deed s c g act (.goto f)
  | idle {act : Act} {f : Frame} (hact : act.Safe = true := by rfl) (hg : g.wakes = false := by rfl)
      (hphase : ∀ rest, f.phase rest = .idle := by exact fun _ => rfl)
      (hsleeper : f.sleeper = g.sleeper := by rfl) (hirq : f = .irq → g = .irq := by simp) :
      Deed s c g act (.goto f)
  | call {r f : Frame} (hg : g.wakes = false)
      (hphase : ∀ rest, f.phase (r :: rest) = .idle ∨
        ∃ chan, f.phase (r :: rest) = .wake chan 0 .plain)
      (hsleeper : f.sleeper = g.sleeper) (hirq : f ≠ .irq) (hr : r = .irq → g = .irq) :
      Deed s c g .nop (.call r f)
  | ret {act : Act} (hact : act.Safe = true) (hsleeper : g.sleeper = none)
      (hg : g.level = 1 ∨ g.depth = .call .yield ∨
        g = .irq ∧ act = .sie true ∧ (s.core c).noff = 0) : Deed s c g act .ret
  -- `wait_lock` is taken, or kept
  | take {f : Frame} (hg : g.wakes = false)
      (hphase : (∀ rest, f.phase rest = .hold) ∨ ∃ p, ∀ rest, f.phase rest = .scan p 0)
      (hsleeper : f.sleeper = g.sleeper) : Deed s c g (.acquire (.cond .wait)) (.goto f)
  | hold {act : Act} {f : Frame} (hact : act.Safe = true := by rfl)
      (hcond : act.cond = none := by rfl) (hg : g.wakes = false := by rfl)
      (hholds : ∀ rest, (g.phase rest).holds = true := by exact fun _ => rfl)
      (hphase : ∀ rest, f.phase rest = .hold := by exact fun _ => rfl)
      (hsleeper : f.sleeper = g.sleeper := by rfl) : Deed s c g act (.goto f)
  -- `sleep` and `swtch`
  | sleepRel {p : Slot} {chan : Chan} {lk : Cond} (hg : g = .sleepRel p chan lk) :
      Deed s c g (.release (.cond lk)) (.goto (.sleepSet p chan lk))
  | sleepSet {p : Slot} {chan : Chan} {lk : Cond} (hg : g = .sleepSet p chan lk) :
      Deed s c g (.write p (.sleep chan)) (.goto (.sched p (.sleep chan lk)))
  | swtchSave {p : Slot} {k : Caller} {intena : Bool} (hg : g = .swtchSave p k intena) :
      Deed s c g (.save (some p) (.swtchBack p k intena)) (.goto (.swtchLoad p k))
  | swtchLoad {p : Slot} {k : Caller} (hg : g = .swtchLoad p k) : Deed s c g (.load none) .stay
  | load {i : Slot} (hg : g = .load i) : Deed s c g (.load (some i)) .stay
  | tidy {p : Slot} {lk : Cond} (hg : g = .sleepTidy p lk) :
      Deed s c g (.write p .nochan) (.goto (.sleepUnlock p lk))
  | relock {lk : Cond} (hg : g = .sleepRelock lk) : Deed s c g (.acquire (.cond lk)) .ret
  -- `wakeup`
  | skip {chan : Chan} {i : Slot} (hg : g = .wakeup chan i.val)
      (hproc : (s.core c).proc = some i) : Deed s c g .nop (.goto (.wakeup chan (i.val + 1)))
  | done {chan : Chan} {i : Nat} (hg : g = .wakeup chan i) (hi : NPROC ≤ i) : Deed s c g .nop .ret
  | wake {chan : Chan} {i : Slot} (hg : g = .wakeTest chan i)
      (hstate : (s.proc i).state = .sleeping) :
      Deed s c g (.write i (.state .runnable)) (.goto (.wakeRel chan i))
  | pass {chan : Chan} {i : Slot} (hg : g = .wakeTest chan i)
      (hstate : ¬((s.proc i).state = .sleeping ∧ (s.proc i).chan = some chan)) :
      Deed s c g .nop (.goto (.wakeRel chan i))
  -- the process tree
  | alloc {p i : Slot} (hg : g = .forkTest p i) (hstate : (s.proc i).state = .unused) :
      Deed s c g (.alloc i true) (.goto (.forkRel p i))
  | forkParent {p np : Slot} (hg : g = .forkParent p np) :
      Deed s c g (.write np (.parent (some p))) (.goto (.forkWaitRel np))
  | adopt {p i : Slot} {status : Int} (hg : g = .reparent p status i.val) :
      Deed s c g (.write i (.parent (some initproc)))
        (.call (.reparent p status (i.val + 1)) (.wakeup (.proc initproc) 0))
  | exitWake {p : Slot} {status : Int} (hg : g = .exitWake p status) :
      Deed s c g .nop (.call (.exitLock p status) (.wakeup (parentChan (s.proc p).parent) 0))
  | exitZombie {p : Slot} {status : Int} (hg : g = .exitZombie p status) :
      Deed s c g (.write p (.zombie status)) (.goto (.exitRel p))
  -- `kwait` goes through the table
  | scanNext {p i : Slot} {addr : Nat} {havekids : Bool}
      (hg : g = .waitScan p addr i.val havekids) (hparent : (s.proc i).parent ≠ some p) :
      Deed s c g .nop (.goto (.waitScan p addr (i.val + 1) havekids))
  | scanDone {p : Slot} {addr i : Nat} {havekids : Bool} (hg : g = .waitScan p addr i havekids)
      (hi : NPROC ≤ i) : Deed s c g .nop (.goto (.waitKilled p addr))
  | scanTest {p i : Slot} {addr : Nat} (hg : g = .waitTest p addr i)
      (hstate : (s.proc i).state ≠ .zombie) : Deed s c g .nop (.goto (.waitNext p addr i))
  | waitSleep {p : Slot} {addr : Nat} (hg : g = .waitKilledRel p addr false) :
      Deed s c g (.release (.proc p))
        (.call (.waitScan p addr 0 false) (.sleep (.proc p) .wait))
  | panic {msg : String} {next : Next} : Deed s c g (.panic msg) next

variable {κ : Type} [DecidableEq κ] {s : State κ} {c : κ} {g : Frame} {choice : Choice} {act : Act}
  {next : Next}

theorem code_deed_body (hpc : (s.core c).cur.pc = .body)
    (h : code s c choice = some (act, next)) : Deed s c .body act next := by
  unfold code at h
  rw [hpc] at h
  have hcall : ∀ f : Frame, (∀ rest, f.phase (.body :: rest) = .idle) → f.sleeper = none →
      f ≠ .irq → Deed s c .body .nop (.call .body f) := fun f hf hs hirq =>
    .call rfl (fun rest => .inl (hf rest)) hs hirq (by simp)
  cases choice with
  | acquire n | release n =>
    cases h
    exact .idle
  | intr enable =>
    simp only [bodyCode] at h
    split at h
    · cases h
      exact .idle
    · cases h
  | yield | sleep addr n | kill pid =>
    cases h
    exact hcall _ (fun _ => rfl) rfl (by simp)
  | wakeup addr =>
    cases h
    exact .call rfl (fun _ => .inr ⟨_, rfl⟩) rfl (by simp) (by simp)
  | fork | wait addr =>
    obtain ⟨p, -, hp⟩ := Option.map_eq_some_iff.mp h
    obtain ⟨rfl, rfl⟩ := Prod.mk.inj hp
    exact hcall _ (fun _ => rfl) rfl (by simp)
  | exit status =>
    obtain ⟨p, -, hp⟩ := Option.map_eq_some_iff.mp h
    split_ifs at hp
    · obtain ⟨rfl, rfl⟩ := Prod.mk.inj hp
      exact .panic
    · obtain ⟨rfl, rfl⟩ := Prod.mk.inj hp
      exact hcall _ (fun _ => rfl) rfl (by simp)
  | iret | mem ok => cases h

theorem code_deed_irq (hpc : (s.core c).cur.pc = .irq)
    (h : code s c choice = some (act, next)) : Deed s c .irq act next := by
  unfold code at h
  rw [hpc] at h
  cases choice with
  | acquire n | release n =>
    cases h
    exact .idle
  | wakeup addr =>
    cases h
    exact .call rfl (fun _ => .inr ⟨_, rfl⟩) rfl (by simp) fun _ => rfl
  | yield =>
    simp only [irqCode] at h
    split at h
    · cases h
      exact .call rfl (fun _ => .inl rfl) rfl (by simp) fun _ => rfl
    · cases h
  | iret =>
    simp only [irqCode] at h
    split_ifs at h with hnoff
    cases h
    exact .ret rfl rfl (.inr (.inr ⟨rfl, rfl, hnoff⟩))
  | _ => cases h

theorem code_deed_sleep (hpc : (s.core c).cur.pc = g) (hlevel : g.level ≠ 1) (hbody : g ≠ .body)
    (hirq : g ≠ .irq) (h : code s c choice = some (act, next)) : Deed s c g act next := by
  unfold code at h
  rw [hpc] at h
  cases g with
  | top | setProc i | save i | back i | rel i | yieldSet p | sleepUnlock p lk =>
    cases h
    exact .idle
  | loop i =>
    dsimp only at h
    split_ifs at h <;> cases h
    · exact .idle
    · exact .idle
  | test i =>
    dsimp only at h
    split_ifs at h <;> cases h
    · exact .idle
    · exact .idle
  | load i =>
    cases h
    exact .load rfl
  | forkret | yield =>
    obtain ⟨p, -, hp⟩ := Option.map_eq_some_iff.mp h
    obtain ⟨rfl, rfl⟩ := Prod.mk.inj hp
    exact .idle
  | sched p k =>
    cases h
    rcases schedCheck_cases s c p with ⟨hnop, -⟩ | ⟨msg, hpanic⟩
    · rw [hnop]
      exact .idle
    · rw [hpanic]
      exact .panic
  | swtchSave p k ie =>
    cases h
    exact .swtchSave rfl
  | swtchLoad p k =>
    cases h
    exact .swtchLoad rfl
  | swtchBack p k ie =>
    cases h
    cases k <;> exact .idle rfl rfl (fun _ => rfl) rfl nofun
  | yieldRel p =>
    cases h
    exact .ret rfl rfl (.inr (.inl rfl))
  | sleep chan lk =>
    obtain ⟨p, -, hp⟩ := Option.map_eq_some_iff.mp h
    obtain ⟨rfl, rfl⟩ := Prod.mk.inj hp
    exact .keep
  | sleepRel p chan lk =>
    cases h
    exact .sleepRel rfl
  | sleepSet p chan lk =>
    cases h
    exact .sleepSet rfl
  | sleepTidy p lk =>
    cases h
    exact .tidy rfl
  | sleepRelock lk =>
    cases h
    exact .relock rfl
  | wakeup chan i =>
    dsimp only at h
    split_ifs at h with hi hp <;> cases h
    · exact .skip rfl hp
    · exact .keep
    · exact .done rfl (Nat.not_lt.mp hi)
  | wakeTest chan i =>
    dsimp only at h
    split_ifs at h with hs <;> cases h
    · exact .wake rfl hs.1
    · exact .pass rfl hs
  | wakeRel chan i =>
    cases h
    exact .keep
  | dead p =>
    cases h
    exact .panic
  | body => exact absurd rfl hbody
  | irq => exact absurd rfl hirq
  | _ => exact absurd rfl hlevel

theorem code_deed_call (hpc : (s.core c).cur.pc = g) (hlevel : g.level = 1)
    (h : code s c choice = some (act, next)) : Deed s c g act next := by
  unfold code at h
  rw [hpc] at h
  cases g with
  | forkNext p i | forkRel p np | forkWaitRel np | forkLock np | forkRun np | exitRel p =>
    cases h
    exact .idle
  | forkFail i | forkDone np | waitDone =>
    cases h
    exact .ret rfl rfl (.inl rfl)
  | forkWait p np | exit p status =>
    cases h
    exact .take rfl (.inl fun _ => rfl) rfl
  | wait p addr =>
    cases h
    exact .take rfl (.inr ⟨p, fun _ => rfl⟩) rfl
  | exitLock p status | waitChild p addr i | waitNext p addr i | waitRel i | waitKilled p addr
  | waitKilledTest p addr =>
    cases h
    exact .keep
  | kill pid i | fork p i =>
    dsimp only at h
    split_ifs at h <;> cases h
    · exact .idle
    · exact .ret rfl rfl (.inl rfl)
  | killTest pid i =>
    dsimp only at h
    split_ifs at h <;> cases h
    · exact .idle
    · exact .idle
  | killRel pid i found =>
    cases h
    cases found with
    | true => exact .ret rfl rfl (.inl rfl)
    | false => exact .idle
  | forkTest p i =>
    dsimp only at h
    split_ifs at h with hu
    · split at h <;> cases h
      · exact .alloc rfl hu
      · exact .idle
    · cases h
      exact .idle
  | forkParent p np =>
    cases h
    exact .forkParent rfl
  | reparent p status i =>
    dsimp only at h
    split_ifs at h <;> cases h
    · exact .adopt rfl
    · exact .keep
    · exact .keep
  | exitWake p status =>
    cases h
    exact .exitWake rfl
  | exitZombie p status =>
    cases h
    exact .exitZombie rfl
  | waitScan p addr i havekids =>
    dsimp only at h
    split_ifs at h with hi hp <;> cases h
    · exact .keep
    · exact .scanNext rfl hp
    · exact .scanDone rfl (Nat.not_lt.mp hi)
    · exact .hold
  | waitTest p addr i =>
    dsimp only at h
    split at h
    case isTrue =>
      split at h
      · cases h
        exact .hold
      · split at h <;> cases h
        exact .hold
      · cases h
    case isFalse hz =>
      cases h
      exact .scanTest rfl hz
  | waitKilledRel p addr killed =>
    cases h
    cases killed with
    | true => exact .hold
    | false => exact .waitSleep rfl
  | _ => cases hlevel

theorem code_deed (hpc : (s.core c).cur.pc = g) (h : code s c choice = some (act, next)) :
    Deed s c g act next := by
  by_cases hbody : g = .body
  · subst hbody
    exact code_deed_body hpc h
  by_cases hirq : g = .irq
  · subst hirq
    exact code_deed_irq hpc h
  by_cases hlevel : g.level = 1
  · exact code_deed_call hpc hlevel h
  · exact code_deed_sleep hpc hlevel hbody hirq h

end Xv6.Sched
