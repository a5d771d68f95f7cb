import Xv6.Proc.Wait

/-! The invariant of the exit and wait protocol. What it says about the process table depends only
on the `View`: which slots are free, being made, alive or zombies, with their pids, parents and
exit statuses, and the record of exits and reaps. Most steps leave the view as it is. -/

namespace Xv6.Wait

open Function List Option

/-- The states of a slot, with the three states of a live process taken as one. -/
inductive Kind
  | unused | used | alive | zombie
  deriving DecidableEq

def ProcState.kind : ProcState → Kind
  | .unused => .unused
  | .used => .used
  | .sleeping | .runnable | .running => .alive
  | .zombie => .zombie

/-- The part of a state on which the protocol's guarantees depend. -/
structure View where
  kind : Slot → Kind
  pid : Slot → Int
  parent : Slot → Option Slot
  xstate : Slot → Int
  nextpid : Int
  allocs : Nat
  exits : List Exit
  reaps : List Reap

def State.view (s : State) : View where
  kind i := (s.proc i).state.kind
  pid i := (s.proc i).pid
  parent i := (s.proc i).parent
  xstate i := (s.proc i).xstate
  nextpid := s.nextpid
  allocs := s.allocs
  exits := s.exits
  reaps := s.reaps

/-- The bound on process allocations below which `nextpid` does not overflow. -/
abbrev MAXALLOCS : Nat := 2147483647

/-- Pids are unique, live processes have live parents, and the exits are accounted for. -/
structure Core (v : View) : Prop where
  next : v.nextpid = v.allocs + 1
  pids : ∀ i, v.kind i ≠ .unused → 1 ≤ v.pid i ∧ v.pid i < v.nextpid
  distinct : ∀ i j, v.kind i ≠ .unused → v.kind j ≠ .unused → v.pid i = v.pid j → i = j
  initAlive : v.kind initproc = .alive
  parents : ∀ i, v.kind i = .alive ∨ v.kind i = .zombie → i ≠ initproc →
    ∃ q, v.parent i = some q ∧ v.kind q = .alive
  exitOnce : (v.exits.map Exit.pid).Nodup
  exitPid : ∀ x ∈ v.exits, x.pid < v.nextpid ∧
    ∀ i, v.kind i ≠ .unused → v.pid i = x.pid → v.kind i = .zombie
  zombies : ∀ i, v.kind i = .zombie → ⟨i, v.pid i, v.xstate i⟩ ∈ v.exits ∧
    ∀ r ∈ v.reaps, r.pid ≠ v.pid i
  exited : ∀ x ∈ v.exits, (∃ r ∈ v.reaps, r.pid = x.pid) ∨
    v.kind x.slot = .zombie ∧ v.pid x.slot = x.pid ∧ v.xstate x.slot = x.status
  reapOnce : (v.reaps.map Reap.pid).Nodup
  reaped : ∀ r ∈ v.reaps, r.returned = r.pid ∧ r.parent = some r.caller ∧
    ∃ x ∈ v.exits, x.slot = r.slot ∧ x.pid = r.pid ∧
      r.delivered = if r.addr ≠ 0 then some x.status else none

/-- The child that a process in `kfork` has allocated and not yet made runnable. -/
def Pc.forking : Pc → Option Slot
  | .forkParent np _ | .forkRun np _ => some np
  | _ => none

/-- What holds of a process `p` that is at `pc`. -/
def PcOk (pc : Pc) (p : Slot) (lock : Option Slot) (v : View) : Prop :=
  match pc with
  | .user | .dead => lock ≠ some p
  | .fork _ | .wait _ | .waitSleep _ | .kill _ _ => lock ≠ some p ∧ v.kind p = .alive
  | .exit _ => lock ≠ some p ∧ v.kind p = .alive ∧ p ≠ initproc
  | .forkParent np pid => lock ≠ some p ∧ v.kind p = .alive ∧ v.kind np = .used ∧ v.pid np = pid
  | .forkRun np pid => lock ≠ some p ∧ v.kind p = .alive ∧ v.kind np = .used ∧ v.pid np = pid ∧
      v.parent np = some p
  | .reparent _ i => lock = some p ∧ v.kind p = .alive ∧ p ≠ initproc ∧
      ∀ k : Slot, k.val < i → v.parent k ≠ some p
  | .reparentWake _ i _ => lock = some p ∧ v.kind p = .alive ∧ p ≠ initproc ∧
      ∀ k : Slot, k.val < i + 1 → v.parent k ≠ some p
  | .exitWake _ _ | .exitLast _ => lock = some p ∧ v.kind p = .alive ∧ p ≠ initproc ∧
      ∀ k : Slot, v.parent k ≠ some p
  | .waitScan _ _ _ | .waitBlock _ => lock = some p ∧ v.kind p = .alive

/-- The invariant: the view is sound and every process is where its place says. -/
structure Inv (s : State) : Prop where
  core : Core s.view
  pcs : ∀ p, PcOk (s.proc p).pc p s.waitLock s.view
  forks : ∀ p q np, (s.proc p).pc.forking = some np → (s.proc q).pc.forking = some np → p = q

variable {pc : Pc}

section core

variable {v : View} (h : Core v)

include h

theorem Core.alloc {np : Slot} (hnp : v.kind np = .unused) : Core { v with
    kind := update v.kind np .used
    pid := update v.pid np v.nextpid
    nextpid := v.nextpid + 1
    allocs := v.allocs + 1 } := by
  have hnext := h.next
  have hother : ∀ i, i ≠ np → update v.kind np .used i = v.kind i ∧
      update v.pid np v.nextpid i = v.pid i := fun i hi =>
    ⟨update_of_ne hi _ _, update_of_ne hi _ _⟩
  have hself : update v.kind np .used np = .used ∧
      update v.pid np v.nextpid np = v.nextpid := by simp
  have hkind : ∀ i k, v.kind i = k → k ≠ .unused → i ≠ np := fun i k hk hne he => by
    subst he; rw [hnp] at hk; exact hne hk.symm
  constructor <;> dsimp only
  · push_cast; omega
  · intro i hi
    by_cases hin : i = np
    · subst hin; rw [hself.2]; omega
    · rw [(hother i hin).1] at hi
      rw [(hother i hin).2]
      have := h.pids i hi
      omega
  · intro i j hi hj he
    by_cases hin : i = np <;> by_cases hjn : j = np
    · rw [hin, hjn]
    · subst hin
      rw [(hother j hjn).1] at hj
      rw [hself.2, (hother j hjn).2] at he
      have := h.pids j hj
      omega
    · subst hjn
      rw [(hother i hin).1] at hi
      rw [hself.2, (hother i hin).2] at he
      have := h.pids i hi
      omega
    · rw [(hother i hin).1] at hi
      rw [(hother j hjn).1] at hj
      rw [(hother i hin).2, (hother j hjn).2] at he
      exact h.distinct i j hi hj he
  · rw [(hother _ (hkind _ _ h.initAlive (by decide))).1, h.initAlive]
  · intro i hi hne
    have hin : i ≠ np := by rintro rfl; simp at hi
    rw [(hother i hin).1] at hi
    obtain ⟨q, hq, hk⟩ := h.parents i hi hne
    exact ⟨q, hq, by rw [(hother q (hkind q _ hk (by decide))).1, hk]⟩
  · exact h.exitOnce
  · intro x hx
    refine ⟨by have := (h.exitPid x hx).1; omega, fun i hi hp => ?_⟩
    by_cases hin : i = np
    · subst hin
      rw [hself.2] at hp
      have := (h.exitPid x hx).1
      omega
    · rw [(hother i hin).1] at hi ⊢
      rw [(hother i hin).2] at hp
      exact (h.exitPid x hx).2 i hi hp
  · intro i hi
    have hin : i ≠ np := by rintro rfl; simp at hi
    rw [(hother i hin).1] at hi
    rw [(hother i hin).2]
    exact h.zombies i hi
  · intro x hx
    refine (h.exited x hx).imp_right fun ⟨hi, hp, hs⟩ => ⟨?_, ?_, hs⟩
    · rw [(hother _ (hkind _ _ hi (by decide))).1, hi]
    · rw [(hother _ (hkind _ _ hi (by decide))).2, hp]
  · exact h.reapOnce
  · exact h.reaped

theorem Core.clear {np : Slot} (hnp : v.kind np = .unused) (pid : Int) (parent : Option Slot)
    (xstate : Int) (n : Nat) : Core { v with
      pid := update v.pid np pid
      parent := update v.parent np parent
      xstate := update v.xstate np xstate
      nextpid := v.nextpid + n
      allocs := v.allocs + n } := by
  have hnext := h.next
  have hkind : ∀ i, v.kind i ≠ .unused → i ≠ np := fun i hk he => hk (he ▸ hnp)
  constructor <;> dsimp only
  · push_cast; omega
  · intro i hi
    rw [update_of_ne (hkind i hi)]
    have := h.pids i hi
    omega
  · intro i j hi hj he
    rw [update_of_ne (hkind i hi), update_of_ne (hkind j hj)] at he
    exact h.distinct i j hi hj he
  · exact h.initAlive
  · intro i hi hne
    rw [update_of_ne (hkind i (by rcases hi with hi | hi <;> simp [hi]))]
    exact h.parents i hi hne
  · exact h.exitOnce
  · intro x hx
    refine ⟨by have := (h.exitPid x hx).1; omega, fun i hi hp => ?_⟩
    rw [update_of_ne (hkind i hi)] at hp
    exact (h.exitPid x hx).2 i hi hp
  · intro i hi
    rw [update_of_ne (hkind i (by simp [hi])), update_of_ne (hkind i (by simp [hi]))]
    exact h.zombies i hi
  · intro x hx
    refine (h.exited x hx).imp_right fun ⟨hi, hp, hs⟩ => ⟨hi, ?_, ?_⟩
    · rw [update_of_ne (hkind _ (by simp [hi])), hp]
    · rw [update_of_ne (hkind _ (by simp [hi])), hs]
  · exact h.reapOnce
  · exact h.reaped

theorem Core.setParent {q : Slot} (i : Slot) (hq : v.kind q = .alive) :
    Core { v with parent := update v.parent i (some q) } := by
  refine { h with parents := fun j hj hne => ?_ }
  by_cases hij : j = i
  · exact ⟨q, by simp [hij], hq⟩
  · obtain ⟨q', hq', hk⟩ := h.parents j hj hne
    exact ⟨q', by simpa [update_of_ne hij] using hq', hk⟩

theorem Core.start {np p : Slot} (hnp : v.kind np = .used) (hp : v.parent np = some p)
    (hk : v.kind p = .alive) : Core { v with kind := update v.kind np .alive } := by
  have hne : ∀ i k, v.kind i = k → k ≠ .used → i ≠ np := fun i k hi hk he => by
    subst he; rw [hnp] at hi; exact hk hi.symm
  have halive : ∀ i, v.kind i = .alive → update v.kind np .alive i = .alive := fun i hi => by
    rw [update_of_ne (hne i _ hi (by decide)), hi]
  have hzombie : ∀ i, update v.kind np .alive i = .zombie ↔ v.kind i = .zombie := by
    intro i
    by_cases hi : i = np
    · subst hi; simp [hnp]
    · rw [update_of_ne hi]
  have hused : ∀ i, update v.kind np .alive i ≠ .unused → v.kind i ≠ .unused := by
    intro i hi
    by_cases hin : i = np
    · subst hin; simp [hnp]
    · rwa [update_of_ne hin] at hi
  refine { h with pids := fun i hi => h.pids i (hused i hi),
                  distinct := fun i j hi hj => h.distinct i j (hused i hi) (hused j hj),
                  initAlive := halive _ h.initAlive, parents := fun i hi hi' => ?_,
                  exitPid := fun x hx => ⟨(h.exitPid x hx).1, fun i hi hp =>
                    (hzombie i).mpr ((h.exitPid x hx).2 i (hused i hi) hp)⟩,
                  zombies := fun i hi => h.zombies i ((hzombie i).mp hi),
                  exited := fun x hx => (h.exited x hx).imp_right fun ⟨hi, hr⟩ =>
                    ⟨(hzombie _).mpr hi, hr⟩ }
  by_cases hin : i = np
  · subst hin
    exact ⟨p, hp, halive p hk⟩
  · dsimp only at hi
    rw [update_of_ne hin] at hi
    obtain ⟨q, hq, hk⟩ := h.parents i hi hi'
    exact ⟨q, hq, halive q hk⟩

theorem Core.exit {p : Slot} (hp : v.kind p = .alive) (hinit : p ≠ initproc)
    (hkids : ∀ k, v.parent k ≠ some p) (status : Int) : Core { v with
      kind := update v.kind p .zombie
      xstate := update v.xstate p status
      exits := v.exits ++ [⟨p, v.pid p, status⟩] } := by
  have hkind : ∀ i, i ≠ p → update v.kind p .zombie i = v.kind i := fun i hi =>
    update_of_ne hi _ _
  have hused : ∀ i, update v.kind p .zombie i ≠ .unused → v.kind i ≠ .unused := by
    intro i hi
    by_cases hin : i = p
    · subst hin; simp [hp]
    · rwa [hkind i hin] at hi
  have hpid := h.pids p (by simp [hp])
  -- the process has not exited before
  have hfresh : ∀ x ∈ v.exits, x.pid ≠ v.pid p := fun x hx he => by
    have := (h.exitPid x hx).2 p (by simp [hp]) he.symm
    simp [hp] at this
  refine { h with pids := fun i hi => h.pids i (hused i hi),
                  distinct := fun i j hi hj => h.distinct i j (hused i hi) (hused j hj),
                  initAlive := by simpa [hkind _ (Ne.symm hinit)] using h.initAlive,
                  parents := fun i hi hi' => ?_, exitOnce := ?_, exitPid := fun x hx => ?_,
                  zombies := fun i hi => ?_, exited := fun x hx => ?_, reaped := fun r hr => ?_ }
  · have hold : v.kind i = .alive ∨ v.kind i = .zombie := by
      by_cases hip : i = p
      · exact .inl (hip ▸ hp)
      · simpa [hkind i hip] using hi
    obtain ⟨q, hq, hk⟩ := h.parents i hold hi'
    refine ⟨q, hq, ?_⟩
    dsimp only
    rw [hkind q fun he => hkids i (he ▸ hq), hk]
  · rw [map_append, nodup_append]
    refine ⟨h.exitOnce, by simp, fun a ha b hb hab => ?_⟩
    obtain ⟨x, hx, rfl⟩ := mem_map.mp ha
    exact hfresh x hx (hab.trans (by simpa using hb))
  · rcases mem_append.mp hx with hx | hx
    · refine ⟨(h.exitPid x hx).1, fun i hi hpi => ?_⟩
      have hz := (h.exitPid x hx).2 i (hused i hi) hpi
      dsimp only
      rw [hkind i fun he => by rw [he, hp] at hz; cases hz]
      exact hz
    · obtain rfl : x = ⟨p, v.pid p, status⟩ := by simpa using hx
      refine ⟨hpid.2, fun i hi hpi => ?_⟩
      obtain rfl := h.distinct i p (hused i hi) (by simp [hp]) hpi
      simp
  · by_cases hip : i = p
    · subst hip
      refine ⟨by simp, fun r hr he => ?_⟩
      obtain ⟨-, -, x, hx, -, hpx, -⟩ := h.reaped r hr
      exact hfresh x hx (hpx.trans he)
    · dsimp only at hi
      rw [hkind i hip] at hi
      have hz := h.zombies i hi
      refine ⟨?_, hz.2⟩
      dsimp only
      rw [update_of_ne hip]
      exact mem_append_left _ hz.1
  · rcases mem_append.mp hx with hx | hx
    · refine (h.exited x hx).imp_right fun ⟨hi, hpi, hxi⟩ => ?_
      have hip : x.slot ≠ p := fun he => by rw [he, hp] at hi; cases hi
      exact ⟨by simp [hkind _ hip, hi], hpi, by simp [update_of_ne hip, hxi]⟩
    · obtain rfl : x = ⟨p, v.pid p, status⟩ := by simpa using hx
      exact .inr ⟨by simp, rfl, by simp⟩
  · obtain ⟨h1, h2, x, hx, h3⟩ := h.reaped r hr
    exact ⟨h1, h2, x, mem_append_left _ hx, h3⟩

theorem Core.reap {pp : Slot} (hpp : v.kind pp = .zombie) (hinit : pp ≠ initproc) {r : Reap}
    (hslot : r.slot = pp) (hpid : r.pid = v.pid pp) (hret : r.returned = r.pid)
    (hcaller : r.parent = some r.caller)
    (hstatus : r.delivered = if r.addr ≠ 0 then some (v.xstate pp) else none) : Core { v with
      kind := update v.kind pp .unused
      reaps := v.reaps ++ [r] } := by
  have hused : ∀ i, update v.kind pp .unused i ≠ .unused → i ≠ pp ∧
      v.kind i = update v.kind pp .unused i := by
    intro i hi
    by_cases hin : i = pp
    · subst hin; simp at hi
    · exact ⟨hin, (update_of_ne hin _ _).symm⟩
  have hsame : ∀ i, i ≠ pp → update v.kind pp .unused i = v.kind i := fun i hi =>
    update_of_ne hi _ _
  have hzp := h.zombies pp hpp
  constructor <;> dsimp only
  · exact h.next
  · exact fun i hi => h.pids i ((hused i hi).2 ▸ hi)
  · exact fun i j hi hj => h.distinct i j ((hused i hi).2 ▸ hi) ((hused j hj).2 ▸ hj)
  · rw [hsame _ (Ne.symm hinit), h.initAlive]
  · intro i hi hi'
    have hne := hused i (by rcases hi with hi | hi <;> rw [hi] <;> decide)
    obtain ⟨q, hq, hk⟩ := h.parents i (by rw [hne.2]; exact hi) hi'
    refine ⟨q, hq, ?_⟩
    rw [hsame q (by rintro rfl; rw [hpp] at hk; cases hk), hk]
  · exact h.exitOnce
  · refine fun x hx => ⟨(h.exitPid x hx).1, fun i hi hpi => ?_⟩
    have hne := hused i hi
    rw [← hne.2] at hi ⊢
    exact (h.exitPid x hx).2 i hi hpi
  · intro i hi
    have hne := hused i (by rw [hi]; decide)
    rw [← hne.2] at hi
    refine ⟨(h.zombies i hi).1, fun r' hr => ?_⟩
    rcases mem_append.mp hr with hr | hr
    · exact (h.zombies i hi).2 r' hr
    · obtain rfl : r' = r := by simpa using hr
      rw [hpid]
      exact fun he => hne.1 (h.distinct i pp (by simp [hi]) (by simp [hpp]) he.symm)
  · intro x hx
    rcases h.exited x hx with ⟨r', hr, he⟩ | ⟨hi, hpi, hxi⟩
    · exact .inl ⟨r', mem_append_left _ hr, he⟩
    · by_cases hin : x.slot = pp
      · exact .inl ⟨r, by simp, by rw [hpid, ← hpi, hin]⟩
      · exact .inr ⟨by rw [hsame _ hin, hi], hpi, hxi⟩
  · rw [map_append, nodup_append]
    refine ⟨h.reapOnce, by simp, fun a ha b hb hab => ?_⟩
    obtain ⟨r', hr, rfl⟩ := mem_map.mp ha
    exact hzp.2 r' hr (hab.trans ((by simpa using hb : b = r.pid).trans hpid))
  · intro r' hr
    rcases mem_append.mp hr with hr | hr
    · exact h.reaped r' hr
    · obtain rfl : r' = r := by simpa using hr
      exact ⟨hret, hcaller, _, hzp.1, hslot.symm, hpid.symm, hstatus⟩

end core

section upd

variable {s : State} {p q : Slot} {f : Proc → Proc}

@[simp] theorem upd_same : (s.upd p f).proc p = f (s.proc p) := by simp [State.upd]

theorem upd_ne (h : q ≠ p) : (s.upd p f).proc q = s.proc q := by
  simp [State.upd, update_of_ne h]

@[simp] theorem upd_waitLock : (s.upd p f).waitLock = s.waitLock := rfl

theorem upd_view : (s.upd p f).view = { s.view with
    kind := update s.view.kind p (f (s.proc p)).state.kind
    pid := update s.view.pid p (f (s.proc p)).pid
    parent := update s.view.parent p (f (s.proc p)).parent
    xstate := update s.view.xstate p (f (s.proc p)).xstate } := by
  simp only [State.view, State.upd, View.mk.injEq, and_true]
  refine ⟨?_, ?_, ?_, ?_⟩ <;> funext i <;> by_cases hi : i = p <;> simp [update, hi]

theorem view_upd (hk : (f (s.proc p)).state.kind = (s.proc p).state.kind)
    (hpid : (f (s.proc p)).pid = (s.proc p).pid) (hpar : (f (s.proc p)).parent = (s.proc p).parent)
    (hx : (f (s.proc p)).xstate = (s.proc p).xstate) : (s.upd p f).view = s.view := by
  rw [upd_view, hk, hpid, hpar, hx]
  simp [State.view]

@[simp] theorem view_goto {pc : Pc} : (s.goto p pc).view = s.view := view_upd rfl rfl rfl rfl

@[simp] theorem view_ret {r : Int} : (s.ret p r).view = s.view := view_upd rfl rfl rfl rfl

end upd

theorem PcOk.frame {q : Slot} {lock lock' : Option Slot} {v v' : View}
    (h : PcOk pc q lock v) (hlock : lock' = some q ↔ lock = some q)
    (hkind : v.kind q = .alive → v'.kind q = .alive)
    (hfork : ∀ np, pc.forking = some np → v.kind np = .used →
      v'.kind np = .used ∧ v'.pid np = v.pid np ∧ (v.parent np = some q → v'.parent np = some q))
    (hparent : lock = some q → ∀ k, v'.parent k = some q → v.parent k = some q) :
    PcOk pc q lock' v' := by
  have hlock' : lock' ≠ some q ↔ lock ≠ some q := not_congr hlock
  cases pc <;> simp only [PcOk, hlock, hlock'] at h ⊢
  case user | dead => exact h
  case fork | wait | waitSleep | kill | waitScan | waitBlock => exact ⟨h.1, hkind h.2⟩
  case exit => exact ⟨h.1, hkind h.2.1, h.2.2⟩
  case forkParent np pid =>
    obtain ⟨hl, hk, hu, hp⟩ := h
    obtain ⟨hu', hp', -⟩ := hfork np rfl hu
    exact ⟨hl, hkind hk, hu', hp'.trans hp⟩
  case forkRun np pid =>
    obtain ⟨hl, hk, hu, hp, hpar⟩ := h
    obtain ⟨hu', hp', hpar'⟩ := hfork np rfl hu
    exact ⟨hl, hkind hk, hu', hp'.trans hp, hpar' hpar⟩
  case reparent | reparentWake =>
    exact ⟨h.1, hkind h.2.1, h.2.2.1, fun k hk he => h.2.2.2 k hk (hparent h.1 k he)⟩
  case exitWake | exitLast => exact ⟨h.1, hkind h.2.1, h.2.2.1,
    fun k he => h.2.2.2 k (hparent h.1 k he)⟩

theorem PcOk.forking_used {q np : Slot} {lock : Option Slot} {v : View}
    (h : PcOk pc q lock v) (hf : pc.forking = some np) : v.kind np = .used := by
  cases pc <;> simp only [Pc.forking, some.injEq, reduceCtorEq] at hf
  case forkParent | forkRun => exact hf ▸ h.2.2.1

theorem PcOk.idle {q : Slot} {lock : Option Slot} {v : View} (h : PcOk pc q lock v)
    (hk : v.kind q ≠ .alive) : (pc = .user ∨ pc = .dead) ∧ lock ≠ some q := by
  cases pc <;> simp_all [PcOk]

section step

variable {s s' : State} {p : Slot}

section

variable (h : Inv s)

include h

/-- A step of `p` keeps the invariant when it keeps the view sound and `p` at a sound place, and
any other slot keeps its place and what its place rests on, or is idle. -/
theorem Inv.of_step (p : Slot) (hcore : Core s'.view)
    (hp : PcOk (s'.proc p).pc p s'.waitLock s'.view)
    (hother : ∀ q, q ≠ p → ((s'.proc q).pc = (s.proc q).pc ∧
        PcOk (s.proc q).pc q s'.waitLock s'.view) ∨
      (((s'.proc q).pc = .user ∨ (s'.proc q).pc = .dead) ∧ s'.waitLock ≠ some q))
    (hforks : ∀ np, (s'.proc p).pc.forking = some np → (s.proc p).pc.forking = some np ∨
      ∀ q, (s.proc q).pc.forking ≠ some np) : Inv s' := by
  have hold : ∀ q np, q ≠ p → (s'.proc q).pc.forking = some np →
    (s.proc q).pc.forking = some np := by
    intro q np hq hf
    rcases hother q hq with ⟨hpc, -⟩ | ⟨hpc | hpc, -⟩
    · rwa [← hpc]
    · rw [hpc] at hf; cases hf
    · rw [hpc] at hf; cases hf
  -- a child that the actor has is not another's
  have hactor : ∀ q np, q ≠ p → (s'.proc p).pc.forking = some np →
      (s'.proc q).pc.forking ≠ some np := by
    intro q np hq hf hf'
    rcases hforks np hf with hf0 | hf0
    · exact hq (h.forks q p np (hold q np hq hf') hf0)
    · exact hf0 q (hold q np hq hf')
  refine ⟨hcore, fun q => ?_, fun a b np ha hb => ?_⟩
  · by_cases hq : q = p
    · exact hq ▸ hp
    · rcases hother q hq with ⟨hpc, hok⟩ | ⟨hpc | hpc, hl⟩
      · rwa [hpc]
      · rw [hpc]; exact hl
      · rw [hpc]; exact hl
  · by_cases hap : a = p <;> by_cases hbp : b = p
    · rw [hap, hbp]
    · exact absurd hb (hactor b np hbp (hap ▸ ha))
    · exact absurd ha (hactor a np hap (hbp ▸ hb))
    · exact h.forks a b np (hold a np hap ha) (hold b np hbp hb)

theorem Inv.of_view (p : Slot) (hv : s'.view = s.view)
    (hpc : ∀ q, q ≠ p → (s'.proc q).pc = (s.proc q).pc)
    (hlock : ∀ q, q ≠ p → (s'.waitLock = some q ↔ s.waitLock = some q))
    (hp : PcOk (s'.proc p).pc p s'.waitLock s.view)
    (hforks : (s'.proc p).pc.forking = none ∨ (s'.proc p).pc = (s.proc p).pc) : Inv s' := by
  refine h.of_step p (hv ▸ h.core) (hv.symm ▸ hp) (fun q hq => .inl ⟨hpc q hq, ?_⟩) fun np hf => ?_
  · rw [hv]
    exact (h.pcs q).frame (hlock q hq) id (fun _ _ hu => ⟨hu, rfl, id⟩) fun _ _ => id
  · rcases hforks with hn | he
    · rw [hn] at hf; cases hf
    · exact .inl (he ▸ hf)

theorem Inv.upd (q : Slot) {f : Proc → Proc}
    (hk : (f (s.proc q)).state.kind = (s.proc q).state.kind)
    (hpid : (f (s.proc q)).pid = (s.proc q).pid) (hpar : (f (s.proc q)).parent = (s.proc q).parent)
    (hx : (f (s.proc q)).xstate = (s.proc q).xstate) (hpc : (f (s.proc q)).pc = (s.proc q).pc) :
    Inv (s.upd q f) := by
  refine h.of_view q (view_upd hk hpid hpar hx) (fun i hi => by rw [upd_ne hi]) (fun _ _ => Iff.rfl)
    ?_ (.inr (by rw [upd_same, hpc]))
  rw [upd_same, hpc]
  exact h.pcs q

theorem Inv.wakeOne (q : Slot) (chan : Chan) : Inv (s.upd q (wakeOne chan)) := by
  by_cases hs : (s.proc q).state = .sleeping ∧ (s.proc q).chan = some chan
  · exact h.upd q (by simp [Wait.wakeOne, hs, ProcState.kind]) (by simp [Wait.wakeOne, hs])
      (by simp [Wait.wakeOne, hs]) (by simp [Wait.wakeOne, hs]) (by simp [Wait.wakeOne, hs])
  · exact h.upd q (by rw [Wait.wakeOne, if_neg hs]) (by rw [Wait.wakeOne, if_neg hs])
      (by rw [Wait.wakeOne, if_neg hs]) (by rw [Wait.wakeOne, if_neg hs])
      (by rw [Wait.wakeOne, if_neg hs])

theorem Inv.goto {pc : Pc} (hp : PcOk pc p s.waitLock s.view)
    (hf : pc.forking = none) : Inv (s.goto p pc) :=
  h.of_view p view_goto (fun _ hq => by rw [State.goto, upd_ne hq]) (fun _ _ => Iff.rfl)
    (by rw [State.goto, upd_same]; exact hp) (.inl (by rw [State.goto, upd_same]; exact hf))

theorem Inv.ret (hl : s.waitLock ≠ some p) (r : Int) : Inv (s.ret p r) :=
  h.of_view p view_ret (fun _ hq => by rw [State.ret, upd_ne hq]) (fun _ _ => Iff.rfl)
    (by rw [State.ret, upd_same]; exact hl) (.inl (by rw [State.ret, upd_same]; rfl))

theorem Inv.acquire (hl : s.waitLock = none) {pc : Pc} (hp : PcOk pc p (some p) s.view)
    (hf : pc.forking = none) : Inv (({ s with waitLock := some p }).goto p pc) := by
  refine h.of_view p (view_goto)
    (fun _ hq => by rw [State.goto, upd_ne hq]) (fun q hq => ?_) ?_ (.inl ?_)
  · rw [hl]
    exact ⟨fun he => absurd (some.inj he).symm hq, fun he => absurd he (by simp)⟩
  · rw [State.goto, upd_same]
    exact hp
  · rw [State.goto, upd_same]
    exact hf

theorem Inv.release (hl : s.waitLock = some p) {f : Proc → Proc}
    (hk : (f (s.proc p)).state.kind = (s.proc p).state.kind)
    (hpid : (f (s.proc p)).pid = (s.proc p).pid) (hpar : (f (s.proc p)).parent = (s.proc p).parent)
    (hx : (f (s.proc p)).xstate = (s.proc p).xstate) (hp : PcOk (f (s.proc p)).pc p none s.view)
    (hf : (f (s.proc p)).pc.forking = none) : Inv (({ s with waitLock := none }).upd p f) := by
  refine h.of_view p (view_upd hk hpid hpar hx)
    (fun _ hq => by rw [upd_ne hq]) (fun q hq => ?_) ?_ (.inl ?_)
  · rw [hl]
    exact ⟨fun he => absurd he (by simp), fun he => absurd (some.inj he).symm hq⟩
  · rw [upd_same]
    exact hp
  · rw [upd_same]
    exact hf

theorem Inv.no_fork (np : Slot) (hnp : s.view.kind np ≠ .used) (q : Slot) :
    (s.proc q).pc.forking ≠ some np := fun hf => hnp ((h.pcs q).forking_used hf)

theorem wrap_nextpid (hb : s.allocs + 1 < MAXALLOCS) :
    wrap (s.nextpid + 1) = s.nextpid + 1 := by
  have hn : s.nextpid = s.allocs + 1 := h.core.next
  simp only [MAXALLOCS] at hb
  rw [wrap, Int.bmod_eq_of_le] <;> omega

/-- A step of `p` that changes one other slot, which is not a live process and not a child that
another process is making. -/
theorem Inv.of_slot (p np : Slot) (hnp : s.view.kind np ≠ .alive)
    (hmine : ∀ q, q ≠ p → (s.proc q).pc.forking ≠ some np) (hcore : Core s'.view)
    (hp : PcOk (s'.proc p).pc p s'.waitLock s'.view)
    (hlock : ∀ q, q ≠ p → (s'.waitLock = some q ↔ s.waitLock = some q))
    (hview : ∀ q, q ≠ np → s'.view.kind q = s.view.kind q ∧ s'.view.pid q = s.view.pid q ∧
      s'.view.parent q = s.view.parent q)
    (hparent : ∀ q, q ≠ p → s'.view.parent np = some q → s.view.parent np = some q)
    (hpc : ∀ q, q ≠ p → (s'.proc q).pc = (s.proc q).pc ∨
      q = np ∧ ((s'.proc q).pc = .user ∨ (s'.proc q).pc = .dead))
    (hforks : ∀ np', (s'.proc p).pc.forking = some np' → (s.proc p).pc.forking = some np' ∨
      ∀ q, (s.proc q).pc.forking ≠ some np') : Inv s' := by
  refine h.of_step p hcore hp (fun q hq => ?_) hforks
  by_cases hqn : q = np
  · obtain ⟨hidle, hl⟩ := (h.pcs np).idle hnp
    subst hqn
    refine .inr ⟨?_, fun he => hl ((hlock q hq).mp he)⟩
    rcases hpc q hq with he | he
    · rwa [he]
    · exact he.2
  · refine .inl ⟨(hpc q hq).resolve_right fun he => hqn he.1,
      (h.pcs q).frame (hlock q hq) (fun hk => (hview q hqn).1 ▸ hk) (fun np' hf hu => ?_)
        fun _ k hk => ?_⟩
    · have hne : np' ≠ np := fun he => hmine q hq (he ▸ hf)
      rw [(hview np' hne).1, (hview np' hne).2.1, (hview np' hne).2.2]
      exact ⟨hu, rfl, id⟩
    · by_cases hkn : k = np
      · exact hkn ▸ hparent q hq (hkn ▸ hk)
      · rwa [(hview k hkn).2.2] at hk

theorem Inv.forkStep {i : Nat} {ok : Bool} (hp : PcOk (.fork i) p s.waitLock s.view)
    (hb : (forkStep s p i ok).allocs < MAXALLOCS) : Inv (forkStep s p i ok) := by
  obtain ⟨hl, hk⟩ := hp
  unfold Wait.forkStep at hb ⊢
  split at hb
  case isFalse hi => rw [dif_neg hi]; exact h.ret hl _
  case isTrue hi =>
  rw [dif_pos hi]
  dsimp only at hb ⊢
  split at hb
  case isFalse hu => rw [if_neg hu]; exact h.goto ⟨hl, hk⟩ rfl
  case isTrue hu =>
  rw [if_pos hu]
  generalize (⟨i, hi⟩ : Slot) = np at *
  have hnp : s.view.kind np = .unused := congrArg ProcState.kind hu
  have hne : p ≠ np := fun he => by rw [he, hnp] at hk; cases hk
  have hfree := h.no_fork np (by rw [hnp]; decide)
  cases ok with
  | true =>
    rw [if_pos rfl, wrap_nextpid h (show s.allocs + 1 < MAXALLOCS from hb)]
    refine h.of_slot p np (by rw [hnp]; decide) (fun q _ => hfree q) ?_ ?_
      (fun _ _ => Iff.rfl) (fun q hq => ?_) (fun q _ hpar => ?_) (fun q hq => ?_) fun np' hf => ?_
    · rw [view_goto, upd_view]
      simpa [State.view, ProcState.kind] using h.core.alloc hnp
    · rw [view_goto, upd_view, State.goto, upd_same]
      exact ⟨hl, (update_of_ne hne _ _).trans hk, by simp [ProcState.kind], by simp⟩
    · rw [view_goto, upd_view]
      simp only [update_of_ne hq]
      exact ⟨rfl, rfl, rfl⟩
    · rw [view_goto, upd_view] at hpar
      exact (by simpa using hpar : (s.proc np).parent = some q)
    · by_cases hqn : q = np
      · exact .inr ⟨hqn, .inl (by rw [State.goto, upd_ne hq, hqn, upd_same])⟩
      · exact .inl (by rw [State.goto, upd_ne hq, upd_ne hqn])
    · rw [State.goto, upd_same] at hf
      obtain rfl : np = np' := by simpa [Pc.forking] using hf
      exact .inr hfree
  | false =>
    rw [if_neg (by decide), wrap_nextpid h (show s.allocs + 1 < MAXALLOCS from hb)]
    refine h.of_slot p np (by rw [hnp]; decide) (fun q _ => hfree q) ?_ ?_
      (fun _ _ => Iff.rfl) (fun q hq => ?_) (fun q _ hpar => ?_) (fun q hq => ?_) fun np' hf => ?_
    · rw [view_ret, upd_view]
      have hkind : update s.view.kind np .unused = s.view.kind := by
        rw [← hnp, update_eq_self]
      have := h.core.clear hnp 0 none 0 1
      rw [← hkind] at this
      exact this
    · rw [State.ret, upd_same]
      exact hl
    · rw [view_ret, upd_view]
      simp only [update_of_ne hq]
      exact ⟨rfl, rfl, rfl⟩
    · rw [view_ret, upd_view] at hpar
      simp [freeProc] at hpar
    · by_cases hqn : q = np
      · exact .inr ⟨hqn, .inr (by rw [State.ret, upd_ne hq, hqn, upd_same, freeProc])⟩
      · exact .inl (by rw [State.ret, upd_ne hq, upd_ne hqn])
    · rw [State.ret, upd_same] at hf
      cases hf

theorem Inv.forkParent {np : Slot} {pid : Int} (hl : s.waitLock = none)
    (hpc : (s.proc p).pc = .forkParent np pid) :
    Inv ((s.upd np fun q => { q with parent := some p }).goto p (.forkRun np pid)) := by
  obtain ⟨-, hk, hu, hpid⟩ := hpc ▸ h.pcs p
  have hne : p ≠ np := fun he => by rw [he, hu] at hk; cases hk
  have hf : (s.proc p).pc.forking = some np := by rw [hpc]; rfl
  have hview : ((s.upd np fun q => { q with parent := some p }).goto p (.forkRun np pid)).view =
      { s.view with parent := update s.view.parent np (some p) } := by
    rw [view_goto, upd_view]
    simp [State.view]
  refine h.of_slot p np (by rw [hu]; decide) (fun q hq hq' => hq (h.forks q p np hq' hf)) ?_ ?_
    (fun _ _ => Iff.rfl) (fun q hq => ?_) (fun q hq hpar => ?_) (fun q hq => .inl ?_)
    fun np' hf' => .inl ?_
  · exact hview ▸ h.core.setParent np hk
  · rw [hview, State.goto, upd_same]
    exact ⟨by simp [hl], hk, hu, hpid, by simp⟩
  · rw [hview]
    simp [update_of_ne hq]
  · rw [hview] at hpar
    exact absurd (some.inj (by simpa using hpar.symm)) hq
  · by_cases hqn : q = np
    · rw [State.goto, upd_ne hq, hqn, upd_same]
    · rw [State.goto, upd_ne hq, upd_ne hqn]
  · rw [State.goto, upd_same] at hf'
    exact hf.trans hf'

theorem Inv.forkRun {np : Slot} {pid : Int} (hpc : (s.proc p).pc = .forkRun np pid) :
    Inv ((s.upd np fun q => { q with state := .runnable }).ret p pid) := by
  obtain ⟨hl, hk, hu, hpid, hpar⟩ := hpc ▸ h.pcs p
  have hf : (s.proc p).pc.forking = some np := by rw [hpc]; rfl
  have hview : ((s.upd np fun q => { q with state := .runnable }).ret p pid).view =
      { s.view with kind := update s.view.kind np .alive } := by
    rw [view_ret, upd_view]
    simp [State.view, ProcState.kind]
  refine h.of_slot p np (by rw [hu]; decide) (fun q hq hq' => hq (h.forks q p np hq' hf)) ?_ ?_
    (fun _ _ => Iff.rfl) (fun q hq => ?_) (fun q _ hq => ?_) (fun q hq => .inl ?_)
    fun np' hf' => ?_
  · exact hview ▸ h.core.start hu hpar hk
  · rw [State.ret, upd_same]
    exact hl
  · rw [hview]
    simp [update_of_ne hq]
  · rwa [hview] at hq
  · by_cases hqn : q = np
    · rw [State.ret, upd_ne hq, hqn, upd_same]
    · rw [State.ret, upd_ne hq, upd_ne hqn]
  · rw [State.ret, upd_same] at hf'
    cases hf'

theorem Inv.wakeupStep {chan : Option Slot} {j : Nat} {more done : Pc}
    (hmore : PcOk more p s.waitLock s.view) (hdone : PcOk done p s.waitLock s.view)
    (hm : more.forking = none) (hd : done.forking = none) :
    Inv (wakeupStep s p chan j more done) := by
  unfold Wait.wakeupStep
  split
  · split
    · rename_i c
      split
      · have hw := h.wakeOne ⟨j, ‹_›⟩ (.proc c)
        have hv : (s.upd ⟨j, ‹_›⟩ (Wait.wakeOne (.proc c))).view = s.view := by
          refine view_upd ?_ ?_ ?_ ?_ <;> unfold Wait.wakeOne <;> split
          all_goals first | rfl | simp_all [ProcState.kind]
        exact hw.goto (hv.symm ▸ hmore) hm
      · exact h.goto hmore hm
    · exact h.goto hmore hm
  · exact h.goto hdone hd

theorem Inv.reparentStep {status : Int} {i : Nat}
    (hp : PcOk (.reparent status i) p s.waitLock s.view) : Inv (reparentStep s p status i) := by
  obtain ⟨hl, hk, hinit, hkids⟩ := hp
  unfold Wait.reparentStep
  split
  case isFalse hi =>
    refine h.goto ⟨hl, hk, hinit, fun k => hkids k ?_⟩ rfl
    exact Nat.lt_of_lt_of_le k.isLt (Nat.not_lt.mp hi)
  case isTrue hi =>
  split
  case isFalse hne =>
    refine h.goto ⟨hl, hk, hinit, fun k hki he => ?_⟩ rfl
    rcases Nat.lt_succ_iff_lt_or_eq.mp hki with hki | hki
    · exact hkids k hki he
    · obtain rfl : k = ⟨i, hi⟩ := Fin.ext hki
      exact hne he
  case isTrue hpar =>
  generalize hc : (⟨i, hi⟩ : Slot) = c at *
  have hview : ((s.upd c fun q => { q with parent := some initproc }).goto p
      (.reparentWake status i 0)).view =
      { s.view with parent := update s.view.parent c (some initproc) } := by
    rw [view_goto, upd_view]
    simp [State.view]
  -- another process can have been given no child but by the new parent, and it is not forking `c`
  refine h.of_step p (hview ▸ h.core.setParent c h.core.initAlive) ?_ (fun q hq => .inl ⟨?_, ?_⟩)
    fun np hf => ?_
  · rw [hview, State.goto, upd_same]
    refine ⟨hl, hk, hinit, fun k hki he => ?_⟩
    by_cases hkc : k = c
    · exact hinit (by simpa [hkc] using he.symm)
    · refine hkids k ?_ (by simpa [update_of_ne hkc] using he)
      have : k.val ≠ i := fun hv => hkc (hc ▸ Fin.ext hv)
      omega
  · by_cases hqc : q = c
    · rw [State.goto, upd_ne hq, hqc, upd_same]
    · rw [State.goto, upd_ne hq, upd_ne hqc]
  · rw [hview]
    have hlq : s.waitLock ≠ some q := fun he => hq (some.inj (he.symm.trans hl))
    refine (h.pcs q).frame Iff.rfl id (fun np _ hu => ⟨hu, rfl, fun hpn => ?_⟩) fun he =>
      absurd he hlq
    have hnc : np ≠ c := fun he => hq (some.inj (hpn.symm.trans (he ▸ hpar)))
    simpa [update_of_ne hnc] using hpn
  · rw [State.goto, upd_same] at hf
    cases hf

theorem Inv.exitStep {status : Int}
    (hp : PcOk (.exitLast status) p s.waitLock s.view) : Inv (exitStep s p status) := by
  obtain ⟨hl, hk, hinit, hkids⟩ := hp
  have hview : (Wait.exitStep s p status).view = { s.view with
      kind := update s.view.kind p .zombie
      xstate := update s.view.xstate p status
      exits := s.view.exits ++ [⟨p, s.view.pid p, status⟩] } := by
    have := upd_view (s := s) (p := p)
      (f := fun q => { q with xstate := status, state := .zombie, pc := .dead })
    simp only [State.view, View.mk.injEq, State.upd, Wait.exitStep] at this ⊢
    simpa [ProcState.kind] using this
  refine h.of_step p (hview ▸ h.core.exit hk hinit hkids status) ?_
    (fun q hq => .inl ⟨by simp only [Wait.exitStep, upd_ne hq], ?_⟩) fun np hf => ?_
  · simp [Wait.exitStep, PcOk]
  · rw [hview]
    have hlq : s.waitLock ≠ some q := fun he => hq (some.inj (he.symm.trans hl))
    refine (h.pcs q).frame ⟨fun he => absurd he (by simp [Wait.exitStep]), fun he => absurd he hlq⟩
      (fun hk => ?_) (fun np _ hu => ⟨?_, rfl, id⟩) fun _ _ => id
    · simpa [update_of_ne hq] using hk
    · have hnp : np ≠ p := fun he => by rw [he, hk] at hu; cases hu
      simpa [update_of_ne hnp] using hu
  · simp [Wait.exitStep, Pc.forking] at hf

theorem Inv.waitStep {addr i : Nat} {havekids ok : Bool}
    (hp : PcOk (.waitScan addr i havekids) p s.waitLock s.view) :
    Inv (waitStep s p addr i havekids ok) := by
  obtain ⟨hl, hk⟩ := hp
  unfold Wait.waitStep
  split
  case isFalse hi =>
    split
    · exact h.release hl rfl rfl rfl rfl nofun rfl
    · exact h.goto ⟨hl, hk⟩ rfl
  case isTrue hi =>
  dsimp only
  split
  case isFalse => exact h.goto ⟨hl, hk⟩ rfl
  case isTrue hpar =>
  split
  case isFalse => exact h.goto ⟨hl, hk⟩ rfl
  case isTrue hz =>
  split
  · exact h.release hl rfl rfl rfl rfl nofun rfl
  rename_i hcopy
  generalize (⟨i, hi⟩ : Slot) = pp at *
  have hpp : s.view.kind pp = .zombie := congrArg ProcState.kind hz
  have hne : pp ≠ p := fun he => by rw [he, hk] at hpp; cases hpp
  have hinit : pp ≠ initproc := fun he => by rw [he, h.core.initAlive] at hpp; cases hpp
  refine h.of_slot p pp (by rw [hpp]; decide)
    (fun q _ => h.no_fork pp (by rw [hpp]; decide) q) ?_ ?_
    (fun q hq => ?_) (fun q hq => ?_) (fun q _ hq => ?_) (fun q hq => ?_) fun np' hf => ?_
  · rw [view_ret, upd_view]
    have hcore := h.core.reap hpp hinit (r := {
      caller := p, addr, slot := pp, parent := (s.proc pp).parent, pid := (s.proc pp).pid
      returned := (s.proc pp).pid
      delivered := if addr ≠ 0 then some (s.proc pp).xstate else none }) rfl rfl rfl hpar rfl
    have hclear := hcore.clear (update_self pp _ _) 0 none 0 0
    rw [show ((0 : Nat) : Int) = 0 from rfl, Int.add_zero] at hclear
    exact hclear
  · rw [State.ret, upd_same]
    exact nofun
  · rw [hl]
    exact ⟨fun he => absurd he (by simp [State.ret]), fun he => absurd (some.inj he).symm hq⟩
  · rw [view_ret, upd_view]
    simp only [update_of_ne hq]
    exact ⟨rfl, rfl, rfl⟩
  · rw [view_ret, upd_view] at hq
    simp [freeProc] at hq
  · by_cases hqn : q = pp
    · exact .inr ⟨hqn, .inr (by rw [State.ret, upd_ne hq, hqn, upd_same, freeProc])⟩
    · exact .inl (by rw [State.ret, upd_ne hq, upd_ne hqn])
  · rw [State.ret, upd_same] at hf
    cases hf

theorem Inv.killStep {pid : Int} {i : Nat}
    (hp : PcOk (.kill pid i) p s.waitLock s.view) : Inv (killStep s p pid i) := by
  unfold Wait.killStep
  split
  · split
    · refine (h.upd _ ?_ rfl rfl rfl rfl).ret hp.1 0
      split
      · rename_i hs
        simp [hs, ProcState.kind]
      · rfl
    · exact h.goto hp rfl
  · exact h.ret hp.1 _

theorem Inv.runStep {ok : Bool} (hs : (s.proc p).state = .running)
    (hr : runStep s p ok = some s') (hb : s'.allocs < MAXALLOCS) : Inv s' := by
  have hp := h.pcs p
  unfold Wait.runStep at hr
  split at hr
  all_goals rename_i hpc; rw [hpc] at hp
  case h_1 | h_2 => cases hr
  case h_3 =>
    cases hr
    exact h.forkStep hp hb
  case h_4 =>
    split at hr
    · cases hr
      exact h.forkParent ‹_› hpc
    · cases hr
  case h_5 =>
    cases hr
    exact h.forkRun hpc
  case h_6 =>
    split at hr
    · cases hr
      exact h.acquire ‹_› ⟨rfl, hp.2.1, hp.2.2, nofun⟩ rfl
    · cases hr
  case h_7 =>
    cases hr
    exact h.reparentStep hp
  case h_8 | h_9 =>
    cases hr
    exact h.wakeupStep hp hp rfl rfl
  case h_10 =>
    cases hr
    exact h.exitStep hp
  case h_11 =>
    split at hr
    · cases hr
      exact h.acquire ‹_› ⟨rfl, hp.2⟩ rfl
    · cases hr
  case h_12 =>
    cases hr
    exact h.waitStep hp
  case h_13 =>
    cases hr
    exact h.release hp.1 (by simp [hs, ProcState.kind]) rfl rfl rfl ⟨nofun, hp.2⟩ rfl
  case h_14 =>
    cases hr
    refine h.of_view p (view_upd rfl rfl rfl rfl) (fun q hq => by rw [upd_ne hq])
      (fun _ _ => Iff.rfl) (by rw [upd_same]; exact hp) (.inl (by rw [upd_same]; rfl))
  case h_15 =>
    cases hr
    exact h.killStep hp

theorem Inv.callStep {c : Call} (hs : (s.proc p).state = .running)
    (hpc : (s.proc p).pc = .user) : Inv (callStep s p c) := by
  have hl : s.waitLock ≠ some p := by simpa only [hpc, PcOk] using h.pcs p
  have hk : s.view.kind p = .alive := by simp [State.view, hs, ProcState.kind]
  cases c with
  | exit status =>
    simp only [Wait.callStep]
    split
    · exact ⟨h.core, h.pcs, h.forks⟩
    · rename_i hne
      exact h.goto ⟨hl, hk, hne⟩ rfl
  | fork => exact h.goto ⟨hl, hk⟩ rfl
  | wait => exact h.goto ⟨hl, hk⟩ rfl
  | kill => exact h.goto ⟨hl, hk⟩ rfl

theorem Inv.step {e : Event} (hr : step s e = some s')
    (hb : s'.allocs < MAXALLOCS) : Inv s' := by
  unfold Wait.step at hr
  split at hr
  · cases hr
  cases e with
  | sched q =>
    obtain ⟨hs, rfl⟩ := guard_eq_some.mp hr
    exact h.upd q (by simp [hs, ProcState.kind]) rfl rfl rfl rfl
  | yield q | sleep q addr =>
    obtain ⟨hs, rfl⟩ := guard_eq_some.mp hr
    exact h.upd q (by simp [hs.1, ProcState.kind]) rfl rfl rfl rfl
  | wakeup q addr =>
    cases hr
    exact h.wakeOne q _
  | call q c =>
    obtain ⟨hs, rfl⟩ := guard_eq_some.mp hr
    exact h.callStep hs.1 hs.2
  | run q ok =>
    simp only [ite_none_right_eq_some] at hr
    exact h.runStep hr.1 hr.2 hb

end

theorem runStep_allocs {ok : Bool} (hr : runStep s p ok = some s') : s.allocs ≤ s'.allocs := by
  unfold Wait.runStep at hr
  split at hr
  all_goals try split at hr
  all_goals first | cases hr; done | cases hr
  case h_3 =>
    unfold Wait.forkStep
    dsimp only
    split_ifs <;> first | exact Nat.le_refl _ | exact Nat.le_succ _
  case h_7 => unfold Wait.reparentStep; split_ifs <;> exact Nat.le_refl _
  case h_8 => unfold Wait.wakeupStep; split_ifs <;> exact Nat.le_refl _
  case h_9 => unfold Wait.wakeupStep; split_ifs <;> (try split) <;> exact Nat.le_refl _
  case h_12 => unfold Wait.waitStep; dsimp only; split_ifs <;> exact Nat.le_refl _
  case h_15 => unfold Wait.killStep; split_ifs <;> exact Nat.le_refl _
  all_goals exact Nat.le_refl _

theorem step_allocs {e : Event} (hr : step s e = some s') : s.allocs ≤ s'.allocs := by
  unfold Wait.step at hr
  split at hr
  · cases hr
  cases e with
  | run q ok =>
    simp only [ite_none_right_eq_some] at hr
    exact runStep_allocs hr.2
  | wakeup q addr =>
    cases hr
    exact Nat.le_refl _
  | call q c =>
    obtain ⟨-, rfl⟩ := guard_eq_some.mp hr
    cases c <;> simp only [Wait.callStep] <;> (try split_ifs) <;> exact Nat.le_refl _
  | _ =>
    obtain ⟨-, rfl⟩ := guard_eq_some.mp hr
    exact Nat.le_refl _

theorem inv_init : Inv init := by
  have hk : ∀ i, init.view.kind i ≠ .unused → i = initproc := by
    intro i hi
    by_contra hne
    exact hi (by simp [State.view, init, hne, ProcState.kind])
  have hkind : ∀ i, init.view.kind i = .alive ∨ init.view.kind i = .unused := by
    intro i
    by_cases hi : i = initproc <;> simp [State.view, init, hi, ProcState.kind]
  refine ⟨⟨rfl, fun i hi => ?_, fun i j hi hj _ => (hk i hi).trans (hk j hj).symm, by decide,
    fun i hi hne => ?_, by decide, nofun, fun i hi => ?_, nofun, by decide, nofun⟩, fun p => ?_, ?_⟩
  · rw [hk i hi]
    decide
  · exact absurd (hk i (by rcases hi with hi | hi <;> simp [hi])) hne
  · rcases hkind i with h | h <;> rw [h] at hi <;> cases hi
  · by_cases hp : p = initproc <;> simp [init, hp, PcOk]
  · intro p q np hp
    by_cases hpi : p = initproc <;> simp [init, hpi, Pc.forking] at hp

end step

/-- Every reachable state with few enough allocations satisfies the invariant. -/
theorem reachable_inv {s : State} (h : Reachable (· = init) step s) (hb : s.allocs < MAXALLOCS) :
    Inv s := by
  have := Reachable.invariant (P := fun s => s.allocs < MAXALLOCS → Inv s)
    (fun s (hs : s = init) _ => hs ▸ inv_init)
    (fun s e s' ih hs hb => (ih (Nat.lt_of_le_of_lt (step_allocs hs) hb)).step hs hb) h
  exact this hb

theorem ProcState.kind_eq_unused {st : ProcState} : st.kind = .unused ↔ st = .unused := by
  cases st <;> decide

theorem ProcState.kind_eq_zombie {st : ProcState} : st.kind = .zombie ↔ st = .zombie := by
  cases st <;> decide

theorem copyout_fails {s s' : State} {p : Slot} {addr i : Nat} {havekids : Bool}
    (hpc : (s.proc p).pc = .waitScan addr i havekids) (ha : addr ≠ 0)
    (hr : step s (.run p false) = some s') :
    s'.reaps = s.reaps ∧ ∀ q, (s.proc q).state = .zombie → s'.proc q = s.proc q := by
  simp only [step, ite_none_left_eq_some, ite_none_right_eq_some, runStep, hpc,
    some.injEq] at hr
  obtain ⟨-, hs, rfl⟩ := hr
  have hne : ∀ q, (s.proc q).state = .zombie → q ≠ p := fun q hq he => by
    rw [he, hs] at hq; cases hq
  simp only [waitStep, ne_eq, ha, not_false_eq_true, and_self, if_true]
  split_ifs <;> exact ⟨rfl, fun q hq => upd_ne (hne q hq)⟩

/-- `init` forks a child, which exits with status 7, and waits for it at address 8. -/
def oneChild : List Event :=
  [.sched 0, .call 0 .fork] ++ replicate 4 (.run 0 true) ++
  [.sched 1, .call 1 (.exit 7)] ++ replicate 132 (.run 1 true) ++
  [.call 0 (.wait 8)] ++ replicate 3 (.run 0 true)

end Xv6.Wait
