import Xv6.Proc.Table

/-! What one event does to the slots of the process table, seen through the fields that matter for
kills and for tracing, and the numbering of the processes. -/

namespace Xv6.Table

open Function State
open Wait (Slot ProcState initproc wrap)

/-- What kills and tracing see of a slot. -/
structure View where
  live : Bool
  killed : Bool
  pid : Int
  tracing : Int
  id : Nat
  deriving DecidableEq

def Proc.view (q : Proc) (id : Nat) : View := ⟨q.state ≠ .unused, q.killed, q.pid, q.tracing, id⟩

def State.view (s : State) (p : Slot) : View := (s.proc p).view (s.id p)

/-- The argument of the `kkill` that an event completes. -/
def Event.kills (s : State) : Event → Option Int
  | .complete p _ =>
    match (s.proc p).pc with
    | .call num arg => if num = SYS_kill then some (wrap arg) else none
    | _ => none
  | _ => none

/-- The ways in which an event changes the view. -/
inductive Change (s : State) (e : Event) (s' : State) : Prop
  | same (hv : s'.view = s.view) (hp : s'.past = s.past) (hc : s'.created = s.created)
  | free (q : Slot) (i : Nat) (hq : (s.proc q).state ≠ .running)
      (hv : s'.view = update s.view q ⟨false, false, 0, 0, i⟩) (hp : s'.past = s.past)
      (hc : s.created ≤ s'.created)
  | create (par np : Slot) (pid : Int) (hpar : (s.view par).live = true)
      (hnp : (s.view np).live = false)
      (hv : s'.view =
        update s.view np ⟨true, (s.view np).killed, pid, (s.view par).tracing, s.created⟩)
      (hp : s'.past = .fork (s.id par) s.created :: s.past) (hc : s'.created = s.created + 1)
  | trace (p : Slot) (val : Int) (hlive : (s.view p).live = true)
      (hv : s'.view = update s.view p { s.view p with tracing := val })
      (hp : s'.past = .trace (s.id p) val :: s.past) (hc : s'.created = s.created)
  | kill (pid : Int) (q : Slot) (he : e.kills s = some pid) (hq : killTarget s pid = some q)
      (hv : s'.view = update s.view q { s.view q with killed := true })
      (hp : s'.past = .kill pid :: s.past) (hc : s'.created = s.created)
  | killNone (pid : Int) (hv : s'.view = s.view) (hp : s'.past = .kill pid :: s.past)
      (hc : s'.created = s.created)
  | setkilled (p : Slot) (hlive : (s.view p).live = true)
      (hv : s'.view = update s.view p { s.view p with killed := true })
      (hp : s'.past = .setkilled (s.id p) :: s.past) (hc : s'.created = s.created)

variable {s s' t : State} {e : Event} {p : Slot}

theorem killTarget_pid {pid : Int} {q : Slot} (h : killTarget s pid = some q) :
    (s.view q).pid = pid := by
  have hq := List.find?_some h
  simpa [view, Proc.view] using hq

theorem Change.born (h : Change s e s') (hp : (s.view p).live = false)
    (hp' : (s'.view p).live = true) : (s'.view p).killed = (s.view p).killed ∧
      ∃ par, s'.past = .fork par (s'.view p).id :: s.past := by
  have hsame : s'.view p ≠ s.view p := fun he => by
    rw [he, hp] at hp'
    cases hp'
  have hslot : ∀ {q : Slot} {v : View}, s'.view = update s.view q v → p = q := by
    intro q v hv
    by_contra hne
    exact hsame (by rw [hv, update_of_ne hne])
  cases h with
  | same hv _ _ => exact absurd (congrFun hv p) hsame
  | free q i _ hv _ _ =>
    obtain rfl := hslot hv
    rw [hv, update_self] at hp'
    cases hp'
  | create par np pid _ _ hv hpast _ =>
    obtain rfl := hslot hv
    rw [hv, update_self, hpast]
    exact ⟨rfl, _, rfl⟩
  | trace q val hlive hv _ _ =>
    obtain rfl := hslot hv
    rw [hp] at hlive
    cases hlive
  | kill pid q _ _ hv _ _ =>
    obtain rfl := hslot hv
    rw [hv, update_self] at hp'
    exact absurd hp' (by simp [hp])
  | killNone pid hv _ _ => exact absurd (congrFun hv p) hsame
  | setkilled q hlive hv _ _ =>
    obtain rfl := hslot hv
    rw [hp] at hlive
    cases hlive

theorem Change.then_same (h : Change s e t) (hv : s'.view = t.view) (hp : s'.past = t.past)
    (hc : s'.created = t.created) : Change s e s' := by
  cases h with
  | same hv' hp' hc' => exact .same (hv.trans hv') (hp.trans hp') (hc.trans hc')
  | free q i hq hv' hp' hc' => exact .free q i hq (hv.trans hv') (hp.trans hp') (hc ▸ hc')
  | create par np pid hpar hnp hv' hp' hc' =>
    exact .create par np pid hpar hnp (hv.trans hv') (hp.trans hp') (hc.trans hc')
  | trace p val hlive hv' hp' hc' =>
    exact .trace p val hlive (hv.trans hv') (hp.trans hp') (hc.trans hc')
  | kill pid q he hq hv' hp' hc' =>
    exact .kill pid q he hq (hv.trans hv') (hp.trans hp') (hc.trans hc')
  | killNone pid hv' hp' hc' => exact .killNone pid (hv.trans hv') (hp.trans hp') (hc.trans hc')
  | setkilled p hlive hv' hp' hc' =>
    exact .setkilled p hlive (hv.trans hv') (hp.trans hp') (hc.trans hc')

theorem view_upd (s : State) (p : Slot) (f : Proc → Proc) :
    (s.upd p f).view = update s.view p ((f (s.proc p)).view (s.id p)) := by
  funext q
  rcases eq_or_ne q p with rfl | hq
  · simp [view, upd]
  · simp [view, upd, hq]

theorem view_upd_same {f : Proc → Proc}
    (h : (f (s.proc p)).view (s.id p) = (s.proc p).view (s.id p)) : (s.upd p f).view = s.view := by
  rw [view_upd, h]
  exact update_eq_self p s.view

theorem view_reparent (s : State) (p : Slot) : (reparent s p).view = s.view := by
  funext q
  unfold view reparent
  dsimp only
  split <;> rfl

theorem live_of_running (h : (s.proc p).state = .running) : (s.view p).live = true := by
  simp [view, Proc.view, h]

theorem kexit_view (h : (s.proc p).state = .running) (status : Int) :
    (kexit s p status).view = s.view := by
  unfold kexit
  split
  · rfl
  · rw [view_upd_same, view_reparent]
    have hstate : ((reparent s p).proc p).state = .running := by
      unfold reparent
      dsimp only
      split <;> exact h
    simp [Proc.view, hstate]

theorem kexit_past (s : State) (p : Slot) (status : Int) : (kexit s p status).past = s.past := by
  unfold kexit
  split <;> rfl

theorem kexit_created (s : State) (p : Slot) (status : Int) :
    (kexit s p status).created = s.created := by
  unfold kexit
  split <;> rfl

theorem kexit_change (h : (s.proc p).state = .running) (status : Int) :
    Change s e (kexit s p status) :=
  .same (kexit_view h status) (kexit_past s p status) (kexit_created s p status)

theorem findUnused_spec {np : Slot} (h : findUnused s = some np) :
    (s.proc np).state = .unused := by
  simpa using List.find?_some h

theorem allocproc_spec (s : State) (ok : Bool) :
    (∃ np pid, (s.proc np).state = .unused ∧ allocproc s ok = (some np,
      { s with
        proc := update s.proc np { s.proc np with pid, state := .used, tracing := 0 }
        nextpid := wrap (s.nextpid + 1)
        id := update s.id np s.created
        created := s.created + 1 })) ∨
    (∃ np s', (s.proc np).state = .unused ∧ allocproc s ok = (none, freeproc s' np) ∧
      (∀ q, q ≠ np → s'.proc q = s.proc q) ∧ s'.id = s.id ∧ s'.past = s.past ∧
      s'.created = s.created) ∨
    allocproc s ok = (none, s) := by
  unfold allocproc
  cases hfind : findUnused s with
  | none => exact .inr (.inr rfl)
  | some np =>
    have hnp := findUnused_spec hfind
    dsimp only [allocpid]
    cases ok with
    | true =>
      refine .inl ⟨np, s.nextpid, hnp, ?_⟩
      simp [upd]
    | false =>
      refine .inr (.inl ⟨np, _, hnp, rfl, fun q hq => ?_, rfl, rfl, rfl⟩)
      simp [upd, hq]

theorem view_freeproc {q : Slot} (h : ∀ r, r ≠ q → t.proc r = s.proc r ∧ t.id r = s.id r) :
    (freeproc t q).view = update s.view q ⟨false, false, 0, 0, t.id q⟩ := by
  rw [freeproc, view_upd]
  funext r
  rcases eq_or_ne r q with rfl | hr
  · simp [Proc.view, freeProc]
  · simp [hr, view, h r hr]

theorem kfork_change (hp : (s.proc p).state = .running) (mem copy : Bool) :
    Change s e (kfork s p mem copy).2 := by
  unfold kfork
  rcases allocproc_spec s mem with ⟨np, pid, hnp, heq⟩ | ⟨np, s₁, hnp, heq, hsame, hid, hpast, hc⟩ |
    heq <;> rw [heq] <;> dsimp only
  · have hne : p ≠ np := by
      rintro rfl
      rw [hp] at hnp
      cases hnp
    split
    · refine .create p np pid (live_of_running hp) (by simp [view, Proc.view, hnp]) ?_ ?_ rfl
      · funext r
        rcases eq_or_ne r np with rfl | hr
        · simp [view, upd, record, Proc.view, hne]
        · simp [view, upd, record, hr]
      · simp [upd, record, hne]
    · refine .free np s.created (by rw [hnp]; decide) ?_ rfl (Nat.le_succ _)
      rw [view_freeproc (s := s)]
      · simp
      · intro r hr
        simp [hr]
  · refine .free np (s₁.id np) (by rw [hnp]; decide) ?_ hpast hc.ge
    exact view_freeproc fun r hr => ⟨hsame r hr, by rw [hid]⟩
  · exact .same rfl rfl rfl

theorem kwait_change {addr : Int} {copyout : Bool} {r : Int × State}
    (h : kwait s p addr copyout = some r) : Change s e r.2 := by
  unfold kwait at h
  split at h
  · rename_i pp hfind
    have hpp := List.find?_some hfind
    simp only [decide_eq_true_eq] at hpp
    split at h <;> cases h
    · exact .same rfl rfl rfl
    · exact .free pp (s.id pp) (by rw [hpp.2]; decide)
        (view_freeproc fun _ _ => ⟨rfl, rfl⟩) rfl le_rfl
  · split at h <;> cases h
    exact .same rfl rfl rfl

theorem kkill_change {pid : Int} (he : e.kills s = some pid) : Change s e (kkill s pid).2 := by
  unfold kkill
  dsimp only
  cases ht : killTarget s pid with
  | none =>
    rw [show killTarget (s.record (.kill pid)) pid = none from ht]
    exact .killNone pid rfl rfl rfl
  | some q =>
    rw [show killTarget (s.record (.kill pid)) pid = some q from ht]
    refine .kill pid q he ht ?_ rfl rfl
    rw [view_upd]
    refine congrArg (update s.view q) ?_
    simp only [record, view, Proc.view]
    by_cases hs : (s.proc q).state = .sleeping
    · simp [hs]
    · simp [hs]

theorem sysTrace_change (hp : (s.proc p).state = .running) (arg : Int) :
    Change s e (sysTrace s p arg).2 :=
  .trace p (wrap arg) (live_of_running hp)
    (view_upd s p fun q => { q with tracing := wrap arg }) rfl rfl

theorem syscalls_change {num arg : Int} {o : Oracle} {r : Int × State}
    (hp : (s.proc p).state = .running) (hcall : (s.proc p).pc = .call num arg)
    (h : syscalls s p num arg o = some r) : Change s (.complete p o) r.2 := by
  unfold syscalls at h
  split at h
  · cases h
    exact kfork_change hp _ _
  split at h
  · exact kwait_change h
  split at h
  · rename_i hnum
    cases h
    exact kkill_change (by simp only [Event.kills, hcall, hnum, if_true])
  split at h
  · cases h
    exact sysTrace_change hp _
  split at h
  · split at h <;> cases h
    · rename_i name _
      exact .same (view_upd_same (f := fun q => { q with name }) rfl) rfl rfl
    · exact .same rfl rfl rfl
  · cases h
    exact .same rfl rfl rfl

theorem sysExit_change (hp : (s.proc p).state = .running) (arg : Int) :
    Change s e (sysExit s p arg) := by
  unfold sysExit
  split
  · exact .same (kexit_view (s := s.print _) hp _) (kexit_past _ p _) (kexit_created _ p _)
  · exact kexit_change hp _

theorem syscall_change {num arg : Int} {o : Oracle} (hp : (s.proc p).state = .running)
    (hcall : (s.proc p).pc = .call num arg) (h : syscall s p num arg o = some s') :
    Change s (.complete p o) s' := by
  unfold syscall at h
  split at h
  · split at h
    · cases h
      exact sysExit_change hp arg
    · obtain ⟨⟨a0, t⟩, ht, rfl⟩ := Option.map_eq_some_iff.mp h
      have hsame : (t.upd p fun q => { q with a0, pc := .leaving }).view = t.view :=
        view_upd_same rfl
      dsimp only
      split
      · exact (syscalls_change hp hcall ht).then_same hsame rfl rfl
      · exact (syscalls_change hp hcall ht).then_same hsame rfl rfl
  · cases h
    exact .same (view_upd_same rfl) rfl rfl

theorem step_change (h : step s e = some s') : Change s e s' := by
  unfold step at h
  split at h
  · cases h
  cases e with
  | sched p | yield p | wakeup p =>
    simp only [guard_eq_some] at h
    exact h.2 ▸ .same (view_upd_same (by simp [Proc.view, h.1])) rfl rfl
  | sleep p =>
    dsimp only at h
    split at h
    · simp only [guard_eq_some] at h
      exact h.2 ▸ .same (view_upd_same (by simp [Proc.view, h.1])) rfl rfl
    · cases h
  | call p num arg | leave p =>
    obtain ⟨hat, h⟩ := Option.ite_none_right_eq_some.mp h
    split at h <;> cases h
    · exact kexit_change hat.1 _
    · exact .same (view_upd_same rfl) rfl rfl
  | complete p o =>
    dsimp only at h
    split at h
    · rename_i num arg hcall
      simp only [Option.ite_none_right_eq_some] at h
      exact syscall_change h.1 hcall h.2
    · cases h
  | fault p =>
    obtain ⟨hat, rfl⟩ := guard_eq_some.mp h
    refine .setkilled p (live_of_running hat.1) ?_ rfl rfl
    rw [view_upd_same rfl]
    exact view_upd s p fun q => { q with killed := true }
  | intr p =>
    simp only [guard_eq_some] at h
    exact h.2 ▸ .same (view_upd_same rfl) rfl rfl

/-- The processes are numbered in the order of their creation, and no two slots hold one
process. -/
structure Numbered (s : State) : Prop where
  lt : ∀ p, (s.view p).live = true → (s.view p).id < s.created
  unique : ∀ p q, (s.view p).live = true → (s.view q).live = true →
    (s.view p).id = (s.view q).id → p = q

theorem Numbered.congr (h : Numbered s) (hc : s.created ≤ s'.created)
    (hv : ∀ p, (s'.view p).live = true → (s.view p).live = true ∧ (s'.view p).id = (s.view p).id) :
    Numbered s' := by
  constructor
  · intro p hp
    obtain ⟨hl, hid⟩ := hv p hp
    have := h.lt p hl
    omega
  · intro p q hp hq hid
    rw [(hv p hp).2, (hv q hq).2] at hid
    exact h.unique p q (hv p hp).1 (hv q hq).1 hid

theorem live_update {q : Slot} {v : View} (hv : s'.view = update s.view q v)
    (hl : v.live = true → (s.view q).live = true ∧ v.id = (s.view q).id) (p : Slot)
    (hp : (s'.view p).live = true) :
    (s.view p).live = true ∧ (s'.view p).id = (s.view p).id := by
  rcases eq_or_ne p q with rfl | hq
  · rw [hv, update_self] at hp ⊢
    exact hl hp
  · rw [hv, update_of_ne hq] at hp ⊢
    exact ⟨hp, rfl⟩

theorem Numbered.change (h : Numbered s) (hch : Change s e s') : Numbered s' := by
  cases hch with
  | same hv hp hc => exact h.congr hc.ge fun p hp => by rw [hv] at hp ⊢; exact ⟨hp, rfl⟩
  | free q i hq hv hp hc => exact h.congr hc (live_update hv (by simp))
  | create par np pid hpar hnp hv hp hc =>
    have hold : ∀ p, p ≠ np → s'.view p = s.view p := fun p hp => by rw [hv, update_of_ne hp]
    have hnew : (s'.view np).id = s.created := by rw [hv, update_self]
    constructor
    · intro p hl
      rcases eq_or_ne p np with rfl | hne
      · omega
      · rw [hold p hne] at hl ⊢
        have := h.lt p hl
        omega
    intro p q hlp hlq hid
    rcases eq_or_ne p np with hpn | hpn <;> rcases eq_or_ne q np with hqn | hqn
    · rw [hpn, hqn]
    · rw [hpn, hnew, hold q hqn] at hid
      rw [hold q hqn] at hlq
      have := h.lt q hlq
      omega
    · rw [hqn, hnew, hold p hpn] at hid
      rw [hold p hpn] at hlp
      have := h.lt p hlp
      omega
    · rw [hold p hpn] at hlp hid
      rw [hold q hqn] at hlq hid
      exact h.unique p q hlp hlq hid
  | trace p val hlive hv hp hc => exact h.congr hc.ge (live_update hv fun hl => ⟨hl, rfl⟩)
  | kill pid q he hq hv hp hc => exact h.congr hc.ge (live_update hv fun hl => ⟨hl, rfl⟩)
  | killNone pid hv hp hc => exact h.congr hc.ge fun p hp => by rw [hv] at hp ⊢; exact ⟨hp, rfl⟩
  | setkilled p hlive hv hp hc => exact h.congr hc.ge (live_update hv fun hl => ⟨hl, rfl⟩)

theorem init_view (p : Slot) :
    init.view p = if p = initproc then ⟨true, false, 1, 0, 0⟩ else ⟨false, false, 0, 0, 0⟩ := by
  revert p
  decide

theorem numbered_init : Numbered init := by
  have hlive : ∀ p, (init.view p).live = true → p = initproc := by
    intro p hp
    by_contra hne
    rw [init_view, if_neg hne] at hp
    cases hp
  constructor
  · intro p hp
    rw [hlive p hp]
    decide
  · intro p q hp hq _
    rw [hlive p hp, hlive q hq]

end Xv6.Table
