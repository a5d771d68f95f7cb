import Xv6.Block
import Xv6.Proc.TableInv

/-! Tracing over process trees: the value of `tracing` that is in force for a process follows from
the `trace` calls and forks of the past, and a system call prints its line just when that value
asks for it. -/

namespace Xv6.Table

open Function
open Wait (Slot initproc wrap)

/-- The tracing value of process `id` after a past: the argument of its last `trace` call, or, if it
made none, what its parent had when it forked the process; 0 for the first process. -/
def inForce : List Past → Nat → Int
  | [], _ => 0
  | .trace id' val :: past, id => if id' = id then val else inForce past id
  | .fork parent child :: past, id =>
    if child = id then inForce past parent else inForce past id
  | .kill _ :: past, id => inForce past id
  | .setkilled _ :: past, id => inForce past id

/-- The tracing value asks for the line of system call `num`: it is 1 or has bit `num` set. -/
def AsksFor (tracing num : Int) : Prop :=
  tracing = 1 ∨ (tracing % 2 ^ 32).toNat.testBit num.toNat = true

instance (tracing num : Int) : Decidable (AsksFor tracing num) := instDecidableOr

def Event.prints (s s' : State) : Event → List Line
  | .complete p _ =>
    match (s.proc p).pc with
    | .call num arg =>
      match syscallName num with
      | some name =>
        if num = SYS_exit then
          if AsksFor (s.proc p).tracing SYS_exit then [.traced (s.proc p).pid "exit" (wrap arg)]
          else []
        else if AsksFor (s'.proc p).tracing num then
          [.traced (s.proc p).pid name (s'.proc p).a0]
        else []
      | none => [.unknown (s.proc p).pid (s.proc p).name num]
    | _ => []
  | _ => []

theorem traced_iff (tracing num : Int) : traced tracing num = true ↔ AsksFor tracing num := by
  simp [traced, AsksFor, and_shift_eq_zero, Bool.not_eq_false]

variable {s s' : State} {e : Event} {p : Slot}

def TraceInv (s : State) : Prop :=
  ∀ p, (s.view p).live = true → (s.view p).tracing = inForce s.past (s.view p).id

theorem TraceInv.update {q : Slot} {v : View} (h : TraceInv s) (hv : s'.view = update s.view q v)
    (hq : v.live = true → v.tracing = inForce s'.past v.id)
    (hpast : ∀ p, p ≠ q → (s.view p).live = true →
      inForce s'.past (s.view p).id = inForce s.past (s.view p).id) : TraceInv s' := by
  intro p hp
  rcases eq_or_ne p q with rfl | hpq
  · rw [hv, update_self] at hp ⊢
    exact hq hp
  · rw [hv, update_of_ne hpq] at hp ⊢
    rw [hpast p hpq hp]
    exact h p hp

theorem TraceInv.change (h : TraceInv s) (hn : Numbered s) (hch : Change s e s') :
    TraceInv s' := by
  cases hch with
  | same hv hp hc =>
    intro p hl
    rw [hv] at hl ⊢
    rw [hp]
    exact h p hl
  | free q i hq hv hp hc => exact h.update hv (by simp) fun p _ _ => by rw [hp]
  | create par np pid hpar hnp hv hp hc =>
    refine h.update hv (fun _ => ?_) fun p _ hl => ?_
    · rw [hp]
      simp only [inForce, if_true]
      exact h par hpar
    · rw [hp, inForce, if_neg (hn.lt p hl).ne']
  | trace q val hlive hv hp hc =>
    refine h.update hv (fun _ => ?_) fun p hne hl => ?_
    · rw [hp]
      exact (if_pos rfl).symm
    · rw [hp, inForce, if_neg]
      exact fun hid => hne (hn.unique p q hl hlive hid.symm)
  | kill pid q he hq hv hp hc | setkilled q hlive hv hp hc =>
    refine h.update hv (fun hl => ?_) fun p _ _ => by rw [hp, inForce]
    rw [hp, inForce]
    exact h q hl
  | killNone pid hv hp hc =>
    intro p hl
    rw [hv] at hl ⊢
    rw [hp, inForce]
    exact h p hl

theorem traceInv_init : TraceInv init := by
  intro p hp
  rw [init_view]
  split <;> rfl

theorem reachable_traceInv (h : Reachable (· = init) step s) : Numbered s ∧ TraceInv s := by
  refine h.invariant (P := fun s => Numbered s ∧ TraceInv s) ?_ ?_
  · rintro _ rfl
    exact ⟨numbered_init, traceInv_init⟩
  · rintro s e s' ⟨hn, ht⟩ hs
    exact ⟨hn.change (step_change hs), ht.change hn (step_change hs)⟩

theorem Change.pid_eq (h : Change s e s') (hp : (s.proc p).state = .running) :
    (s'.proc p).pid = (s.proc p).pid := by
  suffices (s'.view p).pid = (s.view p).pid from this
  have hother : ∀ {q : Slot} {v : View}, s'.view = update s.view q v →
      (p = q → v.pid = (s.view p).pid) → (s'.view p).pid = (s.view p).pid := by
    intro q v hv hq
    rcases eq_or_ne p q with rfl | hne
    · rw [hv, update_self]
      exact hq rfl
    · rw [hv, update_of_ne hne]
  cases h with
  | same hv _ _ => rw [hv]
  | free q i hq hv _ _ => exact hother hv fun heq => absurd (heq ▸ hp) hq
  | create par np pid _ hnp hv _ _ =>
    refine hother hv fun heq => ?_
    rw [← heq, live_of_running hp] at hnp
    cases hnp
  | trace q val _ hv _ _ => exact hother hv fun heq => heq ▸ rfl
  | kill pid q _ _ hv _ _ => exact hother hv fun heq => heq ▸ rfl
  | killNone pid hv _ _ => rw [hv]
  | setkilled q _ hv _ _ => exact hother hv fun heq => heq ▸ rfl

theorem kexit_console (s : State) (p : Slot) (status : Int) :
    (kexit s p status).console = s.console := by
  unfold kexit
  split <;> rfl

theorem sysExit_console (s : State) (p : Slot) (arg : Int) :
    (sysExit s p arg).console =
      (if AsksFor (s.proc p).tracing SYS_exit then [.traced (s.proc p).pid "exit" (wrap arg)]
        else []) ++ s.console := by
  unfold sysExit
  rw [kexit_console]
  by_cases ht : AsksFor (s.proc p).tracing SYS_exit
  · rw [if_pos ((traced_iff _ _).mpr ht), if_pos ht]
    rfl
  · rw [if_neg fun h => ht ((traced_iff _ _).mp h), if_neg ht]
    rfl

theorem allocproc_console (s : State) (ok : Bool) : (allocproc s ok).2.console = s.console := by
  unfold allocproc
  split
  · rfl
  · cases ok <;> rfl

theorem kfork_console (s : State) (p : Slot) (mem copy : Bool) :
    (kfork s p mem copy).2.console = s.console := by
  have halloc := allocproc_console s mem
  unfold kfork
  split
  · rename_i heq
    rw [heq] at halloc
    exact halloc
  · rename_i heq
    rw [heq] at halloc
    cases copy <;> exact halloc

theorem kwait_console {addr : Int} {copyout : Bool} {r : Int × State}
    (h : kwait s p addr copyout = some r) : r.2.console = s.console := by
  unfold kwait at h
  split at h
  · split at h <;> cases h <;> rfl
  · split at h <;> cases h
    rfl

theorem kkill_console (s : State) (pid : Int) : (kkill s pid).2.console = s.console := by
  unfold kkill
  dsimp only
  split <;> rfl

theorem syscalls_console {num arg : Int} {o : Oracle} {r : Int × State}
    (h : syscalls s p num arg o = some r) : r.2.console = s.console := by
  unfold syscalls at h
  split at h
  · cases h
    exact kfork_console s p _ _
  split at h
  · exact kwait_console h
  split at h
  · cases h
    exact kkill_console s _
  split at h
  · cases h
    rfl
  split at h
  · split at h <;> cases h <;> rfl
  · cases h
    rfl

theorem printIf_console {u : State} {num pid a0 : Int} {name : String}
    (hpid : (u.proc p).pid = pid) (ha0 : (u.proc p).a0 = a0)
    (hs : s' = if traced (u.proc p).tracing num then u.print (.traced (u.proc p).pid name a0)
      else u) :
    s'.console =
      (if AsksFor (s'.proc p).tracing num then [.traced pid name (s'.proc p).a0] else []) ++
        u.console := by
  by_cases ht : AsksFor (u.proc p).tracing num
  · rw [if_pos ((traced_iff _ _).mpr ht)] at hs
    subst hs hpid ha0
    rw [if_pos (show AsksFor ((u.print _).proc p).tracing num from ht)]
    rfl
  · rw [if_neg fun h => ht ((traced_iff _ _).mp h)] at hs
    subst hs
    rw [if_neg ht]
    rfl

theorem syscall_console {num arg : Int} {o : Oracle} (hp : (s.proc p).state = .running)
    (hcall : (s.proc p).pc = .call num arg) (h : syscall s p num arg o = some s') :
    s'.console = (Event.complete p o).prints s s' ++ s.console := by
  unfold syscall at h
  simp only [Event.prints, hcall]
  rcases hname : syscallName num with _ | name <;> simp only [hname] at h ⊢
  · cases h
    rfl
  by_cases hexit : num = SYS_exit
  · rw [if_pos hexit] at h ⊢
    cases h
    exact sysExit_console s p arg
  · rw [if_neg hexit] at h ⊢
    obtain ⟨⟨a0, t⟩, ht, rfl⟩ := Option.map_eq_some_iff.mp h
    have hconsole : t.console = s.console := syscalls_console ht
    have hpid : (t.proc p).pid = (s.proc p).pid := (syscalls_change hp hcall ht).pid_eq hp
    rw [← hconsole]
    exact printIf_console (u := t.upd p fun q => { q with a0, pc := .leaving })
      (by simpa [State.upd] using hpid) (by simp [State.upd]) rfl

theorem step_console (hs : step s e = some s') : s'.console = e.prints s s' ++ s.console := by
  unfold step at hs
  split at hs
  · cases hs
  cases e with
  | complete p o =>
    dsimp only at hs
    split at hs
    · rename_i num arg hcall
      simp only [Option.ite_none_right_eq_some] at hs
      exact syscall_console hs.1 hcall hs.2
    · cases hs
  | sleep p =>
    dsimp only at hs
    split at hs
    · simp only [guard_eq_some] at hs
      exact hs.2 ▸ rfl
    · cases hs
  | call p num arg | leave p =>
    obtain ⟨-, hs⟩ := Option.ite_none_right_eq_some.mp hs
    split at hs <;> cases hs
    · exact kexit_console s p _
    · rfl
  | sched p | yield p | wakeup p | fault p | intr p =>
    simp only [guard_eq_some] at hs
    exact hs.2 ▸ rfl

/-- `init` turns tracing of `fork` on, forks, and the child asks for its pid and forks. -/
def tracedTree : List Event :=
  let o : Oracle := ⟨true, true, none, 7⟩
  [.sched 0, .call 0 SYS_trace 2, .complete 0 o, .leave 0, .call 0 SYS_fork 0, .complete 0 o,
    .sched 1, .call 1 11 0, .complete 1 o, .leave 1, .call 1 SYS_fork 0, .complete 1 o]

end Xv6.Table
