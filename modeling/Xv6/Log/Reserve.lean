import Xv6.Log.GroupInv

/-! The reservation of log space: `begin_op` admits an operation only if the log has room for
`MAXOPBLOCKS` blocks of each outstanding operation. It suffices for every block that an operation
logs for the first time, but not for one that it logs again: `log_write` tests for room before it
looks for absorption. -/

namespace Xv6.Log

open Function List State

/-- With this event no operation has logged more than `MAXOPBLOCKS` different blocks. -/
def Event.WithinQuota (s : State) : Event → Prop
  | .write p b => (b :: s.logged p).dedup.length ≤ MAXOPBLOCKS
  | _ => True

def Event.NoRelogWhenFull (s : State) : Event → Prop
  | .write p b => b ∈ s.logged p → s.lh.n < LOGBLOCKS
  | _ => True

instance (s : State) : (e : Event) → Decidable (e.WithinQuota s)
  | .write _ _ => inferInstanceAs (Decidable (_ ≤ _))
  | .call _ | .begin _ | .wake _ | .end _ | .commit _ => inferInstanceAs (Decidable True)

instance (s : State) : (e : Event) → Decidable (e.NoRelogWhenFull s)
  | .write p b => inferInstanceAs (Decidable (b ∈ s.logged p → s.lh.n < LOGBLOCKS))
  | .call _ | .begin _ | .wake _ | .end _ | .commit _ => inferInstanceAs (Decidable True)

/-- How many more blocks operation `p` may log. -/
def State.left (s : State) (p : Nat) : Nat :=
  if (s.pc p).isRunning then MAXOPBLOCKS - (s.logged p).dedup.length else 0

def State.reserved (s : State) : Nat := (s.group.map s.left).sum

def Room (s : State) : Prop := s.lh.n + s.reserved ≤ LOGBLOCKS

section

variable {s s' : State} {p : Nat}

theorem left_le (s : State) (p : Nat) :
    s.left p ≤ if (s.pc p).isRunning then MAXOPBLOCKS else 0 := by
  unfold left
  split
  · exact Nat.sub_le _ _
  · exact le_rfl

theorem reserved_le (h : Inv s) : (s.reserved : Int) ≤ s.outstanding * MAXOPBLOCKS := by
  have hcount : ∀ l : List Nat,
      (l.map s.left).sum ≤ l.countP (fun p => (s.pc p).isRunning) * MAXOPBLOCKS := by
    intro l
    induction l with
    | nil => simp
    | cons p l ih =>
      have hp := left_le s p
      rw [map_cons, sum_cons, countP_cons, add_mul]
      split at hp
      · rename_i hrun
        rw [if_pos hrun]
        omega
      · rename_i hrun
        rw [if_neg hrun]
        omega
  rw [h.outstanding]
  exact_mod_cast hcount s.group

theorem Room.mono (h : Room s) (hn : s'.lh.n ≤ s.lh.n) (hg : s'.group = s.group)
    (hleft : ∀ q ∈ s.group, s'.left q ≤ s.left q) : Room s' := by
  have hsum : s'.reserved ≤ s.reserved := by
    unfold reserved
    rw [hg]
    exact sum_le_sum hleft
  unfold Room at *
  omega

/-- A step that only moves processes between places outside of operations keeps the room. -/
theorem Room.move (h : Room s) (hlh : s'.lh.n ≤ s.lh.n) (hg : s'.group = s.group)
    (hlog : s'.logged = s.logged) (hrun : ∀ q, (s'.pc q).isRunning → (s.pc q).isRunning) :
    Room s' := by
  refine h.mono hlh hg fun q _ => ?_
  unfold left
  rw [hlog]
  by_cases hq : (s'.pc q).isRunning
  · rw [if_pos hq, if_pos (hrun q hq)]
  · rw [if_neg hq]
    exact Nat.zero_le _

theorem isRunning_goto {pc : Pc} (hpc : pc.isRunning = false) (q : Nat)
    (hq : ((goto s p pc).pc q).isRunning) : (s.pc q).isRunning := by
  rcases eq_or_ne q p with rfl | hqp
  · simp [goto, hpc] at hq
  · simpa [goto, hqp] using hq

theorem isRunning_wakeup (q : Nat) (hq : ((wakeup s).pc q).isRunning) : (s.pc q).isRunning := by
  unfold wakeup at hq
  dsimp only at hq
  split at hq
  · cases hq
  · exact hq

theorem Room.beginOp (h : Room s) (hi : Inv s) (hp : s.pc p = .begin) : Room (beginOp s p) := by
  unfold Log.beginOp
  split
  · exact h.move le_rfl rfl rfl (isRunning_goto rfl)
  split
  · exact h.move le_rfl rfl rfl (isRunning_goto rfl)
  rename_i hroom
  have hfresh : s.logged p = [] := by
    by_contra hne
    have := hi.fresh p hne
    simp [hp, Ended] at this
  have hgroup : ∀ q ∈ s.group, q ≠ p := by
    rintro q hq rfl
    have := hi.groupPc q hq
    simp [hp] at this
  -- Nobody else's share changes, and the new operation may log its full quota.
  have hsum : (goto { s with outstanding := s.outstanding + 1, group := s.group ++ [p] } p
      .running).reserved = s.reserved + MAXOPBLOCKS := by
    simp only [reserved, goto, map_append, sum_append, map_cons, map_nil,
      sum_cons, sum_nil]
    congr 1
    · refine congrArg sum (map_congr_left fun q hq => ?_)
      simp [left, hgroup q hq]
    · simp [left, hfresh, Pc.isRunning]
  have hle := reserved_le hi
  unfold Room
  rw [hsum]
  simp only [goto, MAXOPBLOCKS, LOGBLOCKS] at *
  omega

theorem length_dedup_cons (b : Nat) (l : List Nat) :
    (b :: l).dedup.length = if b ∈ l then l.dedup.length else l.dedup.length + 1 := by
  split
  · rw [dedup_cons_of_mem (by assumption)]
  · rw [dedup_cons_of_notMem (by assumption), length_cons]

section

variable (h : Room s) (hi : Inv s) (hp : s.pc p = .running) {b : Nat}
  (hq : (b :: s.logged p).dedup.length ≤ MAXOPBLOCKS)

include h hi hp hq

/-- A `log_write` within the quota finds the log full only if it logs a block again. -/
theorem Room.relog (hfull : LOGBLOCKS ≤ s.lh.n) :
    b ∈ s.logged p := by
  have hleft : s.left p = 0 := by
    have := single_le_sum (fun x _ => Nat.zero_le x) (s.left p)
      (mem_map_of_mem (hi.running p hp))
    unfold Room reserved at h
    omega
  by_contra hb
  rw [length_dedup_cons, if_neg hb] at hq
  simp only [left, hp, Pc.isRunning, if_true] at hleft
  omega

theorem Room.logWrite : Room (logWrite s p b) := by
  unfold Log.logWrite
  split
  · exact h
  split
  · exact h
  rename_i hroom _
  have hmono : ∀ q, (if (s.pc q).isRunning then
      MAXOPBLOCKS - (update s.logged p (b :: s.logged p) q).dedup.length else 0) ≤
      s.left q := by
    intro q
    unfold left
    rcases eq_or_ne q p with rfl | hqp
    · rw [update_self, length_dedup_cons]
      by_cases hm : b ∈ s.logged q
      · rw [if_pos hm]
      · rw [if_neg hm]
        split <;> omega
    · rw [update_of_ne hqp]
  rcases absorb_spec s.lh b with ⟨hlt, -⟩ | ⟨heq, hb⟩
  · rw [if_neg (ne_of_lt hlt)]
    exact h.mono le_rfl rfl fun q _ => hmono q
  -- The block is new in the log, so it is new for the operation, whose share shrinks.
  rw [if_pos heq]
  have hpg := hi.running p hp
  have hnew : b ∉ s.logged p := fun hm => hb (hi.logged p hpg b hm)
  rw [length_dedup_cons, if_neg hnew] at hq
  have hlt : (s.group.map fun q => if (s.pc q).isRunning then
      MAXOPBLOCKS - (update s.logged p (b :: s.logged p) q).dedup.length else 0).sum <
      s.reserved := by
    refine sum_lt_sum _ _ (fun q _ => hmono q) ⟨p, hpg, ?_⟩
    rw [update_self, length_dedup_cons, if_neg hnew]
    simp only [left, hp, Pc.isRunning, if_true]
    omega
  unfold Room reserved left at *
  dsimp only at *
  omega

end

theorem Room.endOp (h : Room s) (hi : Inv s) (hp : s.pc p = .running) : Room (endOp s p) := by
  unfold Log.endOp
  rw [if_neg (by simp [hi.not_committing hp])]
  split
  · unfold Room reserved at *
    simp only [goto, map_nil, sum_nil]
    omega
  · exact h.move le_rfl rfl rfl fun q hq =>
      isRunning_wakeup q (isRunning_goto rfl q hq)

theorem Room.commitStep (h : Room s) (c : CommitPc) : Room (commitStep s p c) := by
  have hgoto : ∀ {t : State} {pc : Pc}, Room t → pc.isRunning = false → Room (goto t p pc) :=
    fun ht hpc => ht.move le_rfl rfl rfl (isRunning_goto hpc)
  cases c with
  | start => exact hgoto h rfl
  | writeLog tail => exact hgoto h rfl
  | writeHead => exact hgoto h rfl
  | install tail =>
    simp only [Log.commitStep]
    split
    · exact hgoto h rfl
    · exact hgoto h rfl
  | clear => exact hgoto (h.mono (Nat.zero_le _) rfl fun _ _ => Nat.le_refl _) rfl
  | eraseHead => exact hgoto h rfl
  | finish => exact hgoto (h.move le_rfl rfl rfl isRunning_wakeup) rfl

theorem Room.step (h : Room s) (hi : Inv s) {e : Event} (hq : e.WithinQuota s)
    (hs : step s e = some s') : Room s' := by
  unfold Log.step at hs
  split at hs
  · cases hs
  cases e with
  | call p | wake p =>
    simp only [guard_eq_some] at hs
    exact hs.2 ▸ h.move le_rfl rfl rfl (isRunning_goto rfl)
  | «begin» p =>
    simp only [guard_eq_some] at hs
    exact hs.2 ▸ h.beginOp hi hs.1
  | write p b =>
    simp only [guard_eq_some] at hs
    exact hs.2 ▸ h.logWrite hi hs.1 hq
  | «end» p =>
    simp only [guard_eq_some] at hs
    exact hs.2 ▸ h.endOp hi hs.1
  | commit p =>
    simp only at hs
    split at hs
    · cases hs
      exact h.commitStep _
    · cases hs

end

def Event.Allowed (s : State) (e : Event) : Prop := e.WithinQuota s ∧ e.NoRelogWhenFull s

instance (s : State) (e : Event) : Decidable (e.Allowed s) := instDecidableAnd

theorem reachable_room {s : State} {ok : State → Event → Prop} [∀ s e, Decidable (ok s e)]
    (hok : ∀ s e, ok s e → e.WithinQuota s) (h : Reachable (· = init) (restrict ok step) s) :
    Inv s ∧ Room s := by
  refine h.invariant (P := fun s => Inv s ∧ Room s) ?_ ?_
  · rintro _ rfl
    exact ⟨inv_init, by simp [Room, reserved, init]⟩
  · rintro s e s' ⟨hi, hr⟩ hs
    obtain ⟨he, hs⟩ := restrict_eq_some.mp hs
    exact ⟨hi.step hs, hr.step hi (hok s e he) hs⟩

theorem logWrite_panic {s : State} {p b : Nat} (hp : s.panic = none) :
    (logWrite s p b).panic = some "too big a transaction" ↔ LOGBLOCKS ≤ s.lh.n := by
  unfold logWrite
  by_cases hn : s.lh.n ≥ LOGBLOCKS
  · rw [if_pos hn]
    exact ⟨fun _ => hn, fun _ => rfl⟩
  · rw [if_neg hn]
    refine ⟨fun h => ?_, fun h => absurd h hn⟩
    split at h
    · simp at h
    · dsimp only at h
      split at h <;> rw [hp] at h <;> cases h

theorem step_panic {s s' : State} {e : Event} (he : ∀ p b, e ≠ .write p b)
    (hs : step s e = some s') : s'.panic = none ∨ s'.panic = some "log.committing" := by
  unfold step at hs
  split at hs
  · cases hs
  rename_i hnone
  have hnone : s.panic = none := by simpa using hnone
  cases e with
  | call p | wake p =>
    simp only [guard_eq_some] at hs
    exact .inl (hs.2 ▸ hnone)
  | «begin» p =>
    simp only [guard_eq_some] at hs
    rw [← hs.2]
    unfold beginOp
    split
    · exact .inl hnone
    split
    · exact .inl hnone
    · exact .inl hnone
  | write p b => exact absurd rfl (he p b)
  | «end» p =>
    simp only [guard_eq_some] at hs
    rw [← hs.2]
    unfold endOp
    dsimp only
    split
    · exact .inr rfl
    split
    · exact .inl hnone
    · exact .inl hnone
  | commit p =>
    simp only at hs
    split at hs
    · rename_i c _
      cases hs
      cases c with
      | install tail =>
        simp only [commitStep]
        split
        · exact .inl hnone
        · exact .inl hnone
      | _ => exact .inl hnone
    · cases hs

theorem step_no_panic {s s' : State} {e : Event} (hi : Inv s) (hroom : Room s)
    (he : e.Allowed s) (hs : step s e = some s') : s'.panic = none := by
  rcases (hi.step hs).panic with hnone | hbig
  · exact hnone
  exfalso
  by_cases hw : ∃ p b, e = .write p b
  · obtain ⟨p, b, rfl⟩ := hw
    unfold step at hs
    split at hs
    · cases hs
    rename_i hnone
    simp only [guard_eq_some] at hs
    rw [← hs.2, logWrite_panic (by simpa using hnone)] at hbig
    have hlt := he.2 (hroom.relog hi hs.1 he.1 hbig)
    omega
  · push Not at hw
    rcases step_panic hw hs with h | h <;> rw [hbig] at h <;> simp at h

/-- Log reservation. If every operation logs at most `MAXOPBLOCKS` different blocks and none logs
a block again while the log holds `LOGBLOCKS` blocks, then no interleaving reaches a panic, and the
log never holds more than `LOGBLOCKS` blocks. The condition is exact: in every state so reached, a
further `log_write` within the quota panics just when it logs a block again and the log is full. -/
theorem log_reservation_suffices {s : State}
    (h : Reachable (· = init) (restrict Event.Allowed step) s) :
    s.panic = none ∧ s.lh.n ≤ LOGBLOCKS ∧
    ∀ p b, s.pc p = .running → Event.WithinQuota s (.write p b) →
      ((logWrite s p b).panic = some "too big a transaction" ↔
        b ∈ s.logged p ∧ s.lh.n = LOGBLOCKS) := by
  have hnone : s.panic = none := by
    cases h with
    | start h => rw [h]; rfl
    | next e hr hs =>
      obtain ⟨hi, hroom⟩ := reachable_room (fun _ _ he => he.1) hr
      obtain ⟨he, hs⟩ := restrict_eq_some.mp hs
      exact step_no_panic hi hroom he hs
  obtain ⟨hi, hroom⟩ := reachable_room (fun _ _ he => he.1) h
  have hle : s.lh.n ≤ LOGBLOCKS := by
    unfold Room at hroom
    omega
  refine ⟨hnone, hle, fun p b hp hq => ?_⟩
  rw [logWrite_panic hnone]
  exact ⟨fun hfull => ⟨hroom.relog hi hp hq hfull, by omega⟩, fun hb => hb.2.ge⟩

/-- Three operations begin, and each logs `MAXOPBLOCKS` blocks that no other logs. -/
def fullRun : List Event :=
  [.call 0, .call 1, .call 2, .begin 0, .begin 1, .begin 2] ++
    (range 3).flatMap fun p => (range MAXOPBLOCKS).map fun i => .write p (100 * p + i)

/-- The log holds exactly `LOGBLOCKS` blocks then, and nothing has gone wrong. -/
theorem log_reservation_suffices_full : ∃ s,
    Reachable (· = init) (restrict Event.Allowed step) s ∧
      s.lh.n = LOGBLOCKS ∧ s.panic = none := by
  have hrun : (runEvents (restrict Event.Allowed step) init fullRun).any
      (fun s => decide (s.lh.n = LOGBLOCKS)) := by
    decide +kernel
  obtain ⟨s, hs, hn⟩ := (Option.any_eq_true _ _).mp hrun
  have h : Reachable (· = init) (restrict Event.Allowed step) s :=
    Reachable.run (.start rfl) fullRun hs
  exact ⟨s, h, of_decide_eq_true hn, (log_reservation_suffices h).1⟩

/-- An operation that then logs one of its blocks again panics, though it keeps to its quota. -/
theorem relog_when_full : ∃ s,
    Reachable (· = init) (restrict Event.WithinQuota step) s ∧
      s.panic = some "too big a transaction" := by
  have hrun : (runEvents (restrict Event.WithinQuota step) init
      (fullRun ++ [.write 0 0])).any
      (fun s => decide (s.panic = some "too big a transaction")) := by
    decide +kernel
  exact Reachable.exists_run rfl hrun

end Xv6.Log
