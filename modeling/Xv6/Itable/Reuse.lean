import Xv6.Itable.Runs

/-! An inode number that is allocated again while an `iput` still frees it, and what the inode table
promises under concurrency. -/

namespace Xv6.Itable

open Function Finset Option
open Fs (Dinode NINODE Ip)

section

variable {π ρ : Type}

/-- The event in which `ilock` reads entry `i` from the disk if it is not valid. -/
def Loads [DecidableEq ρ] (s : State π ρ) (i : Ip) : Event π ρ → Prop
  | .run p =>
    match s.pc p with
    | .ilockRead r => s.refs r = some i
    | _ => False
  | .call _ _ => False

instance [DecidableEq ρ] (s : State π ρ) (i : Ip) : (e : Event π ρ) → Decidable (Loads s i e)
  | .call _ _ => instDecidableFalse
  | .run p => by
    dsimp only [Loads]
    split <;> infer_instance

def Puts (r : ρ) : Event π ρ → Prop
  | .call _ (.iput r') => r' = r
  | _ => False

instance [DecidableEq ρ] (r : ρ) (e : Event π ρ) : Decidable (Puts r e) := by
  rcases e with ⟨_, c⟩ | _
  · cases c <;> dsimp only [Puts] <;> infer_instance
  · exact instDecidableFalse

/-- Entry `i` is that of a newly allocated inode that nobody has loaded. -/
structure Fresh (s : State π ρ) (type : Nat) (i : Ip) : Prop where
  dinode : s.dinode i = newInode type
  stale : Stale s i

/-- The reference in `r` is to entry `i` and stays there. -/
structure Kept (s : State π ρ) (r : ρ) (i : Ip) : Prop where
  refs : s.refs r = some i
  sole : ∀ q, (s.pc q).sole ≠ some r

end

variable {π ρ : Type} [DecidableEq ρ] {s s' : State π ρ} {p q : π} {r r' : ρ} {i j : Ip}
  {dev inum type ninodes : Nat} {e : Event π ρ} {c : Call ρ} {pc : Pc ρ}

theorem iget_refs (hr : r' ≠ r) : (s.iget dev inum r).refs r' = s.refs r' := by
  unfold State.iget
  split
  · exact update_of_ne hr ..
  · exact update_of_ne hr ..
  · rfl

theorem iget_disk : (s.iget dev inum r).disk = s.disk := by
  unfold State.iget
  split <;> rfl

variable [DecidableEq π]

namespace Kept

omit [DecidableEq ρ] in
theorem goto (h : Kept s r i) (hpc : pc.sole ≠ some r) : Kept (s.goto p pc) r i := by
  refine ⟨h.refs, fun q => ?_⟩
  by_cases hq : q = p
  · rw [hq, goto_pc_self]
    exact hpc
  · rw [goto_pc_ne s pc hq]
    exact h.sole q

omit [DecidableEq π] in
theorem iget (h : Kept s r i) (hr : s.refs r' = none) : Kept (s.iget dev inum r') r i := by
  refine ⟨?_, fun q => by rw [iget_pc]; exact h.sole q⟩
  rw [iget_refs, h.refs]
  rintro rfl
  rw [h.refs] at hr
  cases hr

omit [DecidableEq π] in
theorem unref (h : Kept s r i) (hr : r ≠ r') : Kept (s.unref j r') r i :=
  ⟨(update_of_ne hr ..).trans h.refs, h.sole⟩

theorem call [Fintype π] (h : Kept s r i) (hs : call s p c = some s')
    (hput : ¬Puts r (.call p c : Event π ρ)) : Kept s' r i := by
  have hne : ∀ {r'}, s.refs r' = none → r ≠ r' := by
    rintro _ hr rfl
    rw [h.refs] at hr
    cases hr
  cases c with
  | lookup dev inum r' =>
    obtain ⟨⟨hr, -⟩, rfl⟩ := by simpa [Itable.call] using hs
    exact h.iget hr
  | ialloc dev type r' =>
    obtain ⟨⟨-, hr, -⟩, rfl⟩ := by simpa [Itable.call] using hs
    exact h.goto fun he => hne hr (some.inj he).symm
  | idup r₀ r' =>
    cases hr₀ : s.refs r₀ with
    | none => simp [Itable.call, hr₀] at hs
    | some j =>
      obtain ⟨⟨-, hr, -⟩, rfl⟩ := by simpa [Itable.call, hr₀] using hs
      exact ⟨(update_of_ne (hne hr) ..).trans h.refs, h.sole⟩
  | ilock r' =>
    obtain ⟨-, rfl⟩ := by simpa [Itable.call] using hs
    exact h.goto (by rintro ⟨⟩)
  | iunlock r' =>
    cases hr : s.refs r' with
    | none => simp [Itable.call, hr] at hs
    | some j =>
      obtain ⟨-, rfl⟩ := by simpa only [Itable.call, hr, ite_none_right_eq_some,
        some.injEq] using hs
      split
      · exact ⟨h.refs, h.sole⟩
      · exact ⟨h.refs, h.sole⟩
  | iput r' =>
    obtain ⟨-, rfl⟩ := by simpa [Itable.call] using hs
    exact h.goto fun he => hput (some.inj he)
  | store r' d | iupdate r' =>
    cases hr : s.refs r' with
    | none => simp [Itable.call, hr] at hs
    | some j =>
      obtain ⟨-, rfl⟩ := by simpa [Itable.call, hr] using hs
      exact ⟨h.refs, h.sole⟩

theorem runAt (h : Kept s r i) (hs : runAt s p j (s.pc p) = some s') : Kept s' r i := by
  have hsole := h.sole p
  cases hpc : s.pc p with
  | idle | ialloc _ _ _ _ | iallocGet _ _ _ _ =>
    rw [hpc] at hs
    cases hs
  | ilock r' =>
    rw [hpc] at hs
    simp only [Itable.runAt] at hs
    cases hs
    split
    · exact ⟨h.refs, h.sole⟩
    · exact h.goto (by rintro ⟨⟩)
  | ilockWait r' =>
    rw [hpc] at hs
    obtain ⟨-, rfl⟩ := by simpa [Itable.runAt] using hs
    exact goto ⟨h.refs, h.sole⟩ (by rintro ⟨⟩)
  | ilockRead r' =>
    rw [hpc] at hs
    simp only [Itable.runAt] at hs
    split at hs
    · cases hs
      exact h.goto (by rintro ⟨⟩)
    · cases hs
      split
      · exact ⟨h.refs, h.sole⟩
      · exact goto ⟨h.refs, h.sole⟩ (by rintro ⟨⟩)
  | iput r' =>
    rw [hpc] at hs hsole
    simp only [Itable.runAt] at hs
    split at hs
    · cases hs
      split
      · exact ⟨h.refs, h.sole⟩
      · exact goto ⟨h.refs, h.sole⟩ hsole
    · cases hs
      exact goto (h.unref fun he => hsole (he ▸ rfl)) (by rintro ⟨⟩)
  | itrunc r' | itruncUpdate r' | clear r' | clearUpdate r' | invalidate r' | unlock r' =>
    rw [hpc] at hs hsole
    cases hs
    exact goto ⟨h.refs, h.sole⟩ hsole
  | drop r' =>
    rw [hpc] at hs hsole
    cases hs
    exact goto (h.unref fun he => hsole (he ▸ rfl)) (by rintro ⟨⟩)

theorem run (h : Kept s r i) (hs : run ninodes s p = some s') (hgood : Good s p (s.pc p)) :
    Kept s' r i := by
  have hsole := h.sole p
  rcases run_cases hs with ⟨dev, type, inum, r', hpc, hs⟩ | ⟨dev, type, inum, r', hpc, rfl⟩ |
    ⟨r', j, -, -, hs⟩
  · rw [hpc] at hsole
    rcases hs with ⟨-, rfl⟩ | rfl | rfl
    · exact goto ⟨h.refs, h.sole⟩ hsole
    · exact h.goto hsole
    · exact h.goto nofun
  · rw [hpc] at hgood
    exact (h.iget hgood.1).goto nofun
  · exact h.runAt hs

end Kept

theorem runAt_disk (hs : runAt s p i pc = some s') :
    s'.disk = s.disk ∨ s'.disk = (s.iupdate i).disk ∧
      ∃ r, pc = .itruncUpdate r ∨ pc = .clearUpdate r := by
  cases pc with
  | idle | ialloc _ _ _ _ | iallocGet _ _ _ _ => cases hs
  | ilock r =>
    simp only [runAt] at hs
    cases hs
    split <;> exact .inl rfl
  | ilockWait r =>
    obtain ⟨-, rfl⟩ := by simpa [runAt] using hs
    exact .inl rfl
  | ilockRead r =>
    simp only [runAt] at hs
    split at hs
    · cases hs
      exact .inl rfl
    · cases hs
      split <;> exact .inl rfl
  | iput r =>
    simp only [runAt] at hs
    split at hs
    · cases hs
      split <;> exact .inl rfl
    · cases hs
      exact .inl rfl
  | itruncUpdate r =>
    cases hs
    exact .inr ⟨rfl, r, .inl rfl⟩
  | clearUpdate r =>
    cases hs
    exact .inr ⟨rfl, r, .inr rfl⟩
  | itrunc r | clear r | invalidate r | unlock r | drop r =>
    cases hs
    exact .inl rfl

theorem call_disk [Fintype π] (hs : call s p c = some s') :
    s'.disk = s.disk ∨ ∃ i r, s'.disk = (s.iupdate i).disk ∧ s.lock i = some (p, r) := by
  cases c with
  | lookup dev inum r =>
    obtain ⟨-, rfl⟩ := by simpa [call] using hs
    exact .inl iget_disk
  | ialloc dev type r | ilock r | iput r =>
    obtain ⟨-, rfl⟩ := by simpa [call] using hs
    exact .inl rfl
  | idup r r' | store r d =>
    cases hr : s.refs r with
    | none => simp [call, hr] at hs
    | some i =>
      obtain ⟨-, rfl⟩ := by simpa [call, hr] using hs
      exact .inl rfl
  | iunlock r =>
    cases hr : s.refs r with
    | none => simp [call, hr] at hs
    | some i =>
      obtain ⟨-, rfl⟩ := by simpa only [call, hr, ite_none_right_eq_some,
        some.injEq] using hs
      split <;> exact .inl rfl
  | iupdate r =>
    cases hr : s.refs r with
    | none => simp [call, hr] at hs
    | some i =>
      obtain ⟨⟨r', hl⟩, rfl⟩ := by simpa [call, hr] using hs
      exact .inr ⟨i, r', rfl, hl⟩

omit [DecidableEq π] [DecidableEq ρ] in
theorem iupdate_cleared (h : (s.disk dev inum).type ≠ 0)
    (h0 : ((s.iupdate i).disk dev inum).type = 0) :
    (s.inode i).dev = dev ∧ (s.inode i).inum = inum ∧ (s.inode i).d.type = 0 := by
  by_cases hdev : (s.inode i).dev = dev
  · by_cases hinum : (s.inode i).inum = inum
    · subst hdev hinum
      simpa [State.iupdate, State.setDisk] using h0
    · subst hdev
      have := by simpa [State.iupdate, State.setDisk, update_of_ne (Ne.symm hinum)] using h0
      exact absurd this h
  · have := by simpa [State.iupdate, State.setDisk, update_of_ne (Ne.symm hdev)] using h0
    exact absurd this h

variable [Fintype ρ]

/-- The type of an inode on the disk is cleared by `iput` only. -/
theorem Inv.type_cleared [Fintype π] (h : Inv s) (hs : Itable.step ninodes s e = some s')
    (htype : (s.disk dev inum).type ≠ 0) (h0 : (s'.disk dev inum).type = 0) :
    ∃ p r i, e = .run p ∧ s.pc p = .clearUpdate r ∧ s.refs r = some i ∧ s.At dev inum i := by
  have hsame : s'.disk ≠ s.disk := by
    intro he
    rw [he] at h0
    exact htype h0
  cases e with
  | call p c =>
    rw [Itable.step, ite_none_left_eq_some, not_or, not_not] at hs
    obtain ⟨⟨-, hpc⟩, hs⟩ := hs
    obtain ⟨i, r, hdisk, hl⟩ := (call_disk hs).resolve_left hsame
    rw [hdisk] at h0
    exact absurd (iupdate_cleared htype h0).2.2
      (h.copy_of_lock hl (by simp [hpc]) (by simp [hpc]) (h.valid_of_idle hpc hl))
  | run p =>
    rw [Itable.step, ite_none_left_eq_some] at hs
    have hgood := h.good p
    rcases run_cases hs.2 with ⟨d, ty, n, r, hpc, hs⟩ | ⟨d, ty, n, r, hpc, rfl⟩ |
      ⟨r, i, hplace, hr, hs⟩
    · rw [hpc] at hgood
      rcases hs with ⟨hfree, rfl⟩ | rfl | rfl
      · -- The inode that is taken was free.
        have hne : ¬(dev = d ∧ inum = n) := by
          rintro ⟨rfl, rfl⟩
          exact htype hfree
        have hd : (s.setDisk d n (newInode ty)).disk dev inum = s.disk dev inum := by
          by_cases hdev : dev = d
          · subst hdev
            simp [State.setDisk, update_of_ne fun hn => hne ⟨rfl, hn⟩]
          · simp [State.setDisk, update_of_ne hdev]
        exact absurd (hd ▸ h0) htype
      · exact absurd rfl hsame
      · exact absurd rfl hsame
    · exact absurd iget_disk hsame
    · obtain ⟨hdisk, r', hpc | hpc⟩ := (runAt_disk hs).resolve_left hsame
      · rw [hpc] at hgood hplace
        cases hplace
        obtain ⟨j, hf⟩ := hgood
        obtain rfl := some.inj (hf.refs.symm.trans hr)
        rw [hdisk] at h0
        exact absurd (iupdate_cleared htype h0).2.2
          (h.copy_of_lock hf.lock (by simp [hpc]) (by simp [hpc]) hf.valid)
      · rw [hpc] at hplace
        cases hplace
        rw [hdisk] at h0
        obtain ⟨hdev, hinum, -⟩ := iupdate_cleared htype h0
        exact ⟨p, r, i, rfl, hpc, hr, h.ref_pos hr, hdev, hinum⟩

omit [DecidableEq π] [DecidableEq ρ] in
theorem Fresh.moves (hf : Fresh s type i) (h : Inv s) (htype : type ≠ 0) (hr : s.refs r = some i)
    (hm : Moves s s' p) (hload : ∀ r', s.pc p = .ilockRead r' → s.refs r' ≠ some i) :
    Fresh s' type i := by
  obtain ⟨o | ⟨t, hp⟩, -⟩ := hm
  · by_cases hl : ∃ r', s.lock i = some (p, r')
    · -- The process with the lock is an `iput` that has freed the inode before.
      obtain ⟨r', hl⟩ := hl
      have hends : (s.pc p).ends = some r' := by
        rcases h.loaded i p r' hl with hv | hv | hv
        · obtain ⟨q, r'', hl', hpc⟩ := hf.stale hv
          cases hl.symm.trans hl'
          rw [hpc]
          rfl
        · exact absurd (h.held i p r' hl).1 (hload r' hv)
        · rw [hv]
          rfl
      refine ⟨?_, fun hv => absurd (o.late i r' hl hends) (by rw [hv]; nofun)⟩
      have hdisk := (o.disk (s.inode i).dev (s.inode i).inum).resolve_right
        fun hnone => by rw [hends] at hnone; cases hnone.1
      rw [State.dinode, o.dev, o.inum, hdisk]
      exact hf.dinode
    · rw [not_exists] at hl
      exact ⟨(o.dinode h hr hl).trans hf.dinode, o.stale hf.stale hl⟩
  · obtain ⟨hdev, hinum, hv⟩ := t.keep i (h.ref_pos hr)
    have hd : (s.dinode i).type ≠ 0 := by
      rw [hf.dinode]
      exact htype
    refine ⟨?_, hf.stale.mono t.lock t.pc hp hv⟩
    rw [State.dinode, hdev, hinum, t.disk _ _ hd]
    exact hf.dinode

theorem Fresh.step [Fintype π] (hf : Fresh s type i) (h : Inv s) (htype : type ≠ 0)
    (hr : s.refs r = some i) (hs : Itable.step ninodes s e = some s') (hn : Named s e)
    (hload : ¬Loads s i e) : Fresh s' type i := by
  cases e with
  | call p c =>
    rw [Itable.step, ite_none_left_eq_some, not_or, not_not] at hs
    exact hf.moves h htype hr (h.call hs.1.2 hs.2 hn) (by simp [hs.1.2])
  | run p =>
    rw [Itable.step, ite_none_left_eq_some] at hs
    refine hf.moves h htype hr (h.run hs.2) fun r' hpc hr' => hload ?_
    simpa only [Loads, hpc] using hr'

theorem Kept.step [Fintype π] (hk : Kept s r i) (h : Inv s)
    (hs : Itable.step ninodes s e = some s') (hput : ¬Puts r e) : Kept s' r i := by
  cases e with
  | call p c =>
    rw [Itable.step, ite_none_left_eq_some] at hs
    exact hk.call hs.2 hput
  | run p =>
    rw [Itable.step, ite_none_left_eq_some] at hs
    exact hk.run hs.2 (h.good p)

omit [DecidableEq π] [DecidableEq ρ] in
theorem Moves.entry (hm : Moves s s' p) (hi : s.At dev inum i) (hr : s'.refs r = some i) :
    s'.At dev inum i := by
  have hpos := hm.2.ref_pos hr
  obtain ⟨o | ⟨t, -⟩, -⟩ := hm
  · exact ⟨hpos, (o.dev i).trans hi.2.1, (o.inum i).trans hi.2.2⟩
  · obtain ⟨hdev, hinum, -⟩ := t.keep i hi.1
    exact ⟨hpos, hdev.trans hi.2.1, hinum.trans hi.2.2⟩

theorem Inv.fresh_of_alloc (h : Inv s) (hpc : s.pc p = .iallocGet dev type inum r)
    (hpanic : (s.iget dev inum r).panic = none) :
    ∃ i, Kept ((s.iget dev inum r).goto p .idle) r i ∧
      ((s.iget dev inum r).goto p .idle).At dev inum i ∧
      Fresh ((s.iget dev inum r).goto p .idle) type i := by
  have hgood := h.good p
  rw [hpc] at hgood
  obtain ⟨hr, -, hdisk, hun⟩ := hgood
  have hsole : ∀ s' : State π ρ, s'.pc = s.pc → ∀ q, ((s'.goto p .idle).pc q).sole ≠ some r := by
    intro s' hs' q hq
    by_cases he : q = p
    · rw [he, goto_pc_self] at hq
      cases hq
    · rw [goto_pc_ne _ _ he, hs'] at hq
      exact he (h.sole p q r (by rw [hpc]; rfl) (Pc.place_of_sole hq))
  unfold State.iget at hpanic ⊢
  cases hloop : s.igetLoop dev inum none (List.finRange NINODE) with
  | inl i =>
    have hi := igetLoop_inl hloop
    obtain ⟨r', hr'⟩ := h.exists_ref hi.1
    obtain ⟨-, hstale⟩ := hun r' i hr' hi.2.1 hi.2.2
    refine ⟨i, ⟨update_self .., hsole _ rfl⟩, ⟨?_, ?_, ?_⟩, ?_, ?_⟩
    · simp [State.goto, State.setRef, State.setInode]
    · simpa [State.goto, State.setRef, State.setInode] using hi.2.1
    · simpa [State.goto, State.setRef, State.setInode] using hi.2.2
    · simpa [State.dinode, State.goto, State.setRef, State.setInode, hi.2.1, hi.2.2] using hdisk
    · refine hstale.mono rfl (fun q hq => goto_pc_ne _ _ hq) (by rw [hpc]; rfl) ?_
      simp [State.goto, State.setRef, State.setInode]
  | inr o =>
    cases o with
    | none =>
      rw [hloop] at hpanic
      cases hpanic
    | some i =>
      refine ⟨i, ⟨update_self .., hsole _ rfl⟩, ⟨?_, ?_, ?_⟩, ?_, fun hv => ?_⟩
      · simp [State.goto, State.setRef, State.setInode]
      · simp [State.goto, State.setRef, State.setInode]
      · simp [State.goto, State.setRef, State.setInode]
      · simpa [State.dinode, State.goto, State.setRef, State.setInode] using hdisk
      · simp [State.goto, State.setRef, State.setInode] at hv

theorem Fresh.load (hf : Fresh s type i) (h : Inv s) (htype : type ≠ 0)
    (hpc : s.pc q = .ilockRead r) (hr : s.refs r = some i) (hs : run ninodes s q = some s') :
    (s'.inode i).valid = true ∧ (s'.inode i).d = newInode type ∧ s'.panic = s.panic := by
  have hgood := h.good q
  rw [hpc] at hgood
  obtain ⟨j, hl⟩ := hgood
  obtain rfl := some.inj (hl.refs.symm.trans hr)
  have hv : (s.inode j).valid = false := by
    by_contra hv
    obtain ⟨q', r', hl', hpc'⟩ := hf.stale (by simpa using hv)
    cases hl.lock.symm.trans hl'
    rw [hpc] at hpc'
    cases hpc'
  have hd : s.disk (s.inode j).dev (s.inode j).inum = newInode type := hf.dinode
  simp only [run, hpc, Pc.place, bind_some, hr, runAt, hv, Bool.false_eq_true, if_false, hd,
    some.injEq] at hs
  rw [if_neg (by exact htype)] at hs
  subst hs
  simp [State.goto, State.setInode]

variable [Fintype π]

/-- The steps in which the reference in `r` is not dropped. -/
def Keep (r : ρ) (s : State π ρ) (e : Event π ρ) : Prop := Named s e ∧ ¬Puts r e

instance (r : ρ) (s : State π ρ) (e : Event π ρ) : Decidable (Keep r s e) :=
  inferInstanceAs (Decidable (_ ∧ _))

/-- The steps in which moreover nobody loads entry `i`. -/
def Quiet (r : ρ) (i : Ip) (s : State π ρ) (e : Event π ρ) : Prop := Keep r s e ∧ ¬Loads s i e

instance (r : ρ) (i : Ip) (s : State π ρ) (e : Event π ρ) : Decidable (Quiet r i s e) :=
  inferInstanceAs (Decidable (_ ∧ _))

theorem kept_along {s₁ : State π ρ} (h : Inv s₁) (hk : Kept s₁ r i) (hi : s₁.At dev inum i)
    (hs : Reachable (· = s₁) (restrict (Keep r) (step ninodes)) s) :
    Inv s ∧ Kept s r i ∧ s.At dev inum i := by
  refine hs.invariant (P := fun s => Inv s ∧ Kept s r i ∧ s.At dev inum i) ?_ ?_
  · rintro s rfl
    exact ⟨h, hk, hi⟩
  · rintro s e s' ⟨h, hk, hi⟩ hs
    obtain ⟨⟨hn, hput⟩, hs⟩ := restrict_eq_some.mp hs
    obtain ⟨p, hm⟩ := h.step hs hn
    have hk' := hk.step h hs hput
    exact ⟨hm.2, hk', hm.entry hi hk'.refs⟩

theorem fresh_along {s₁ : State π ρ} (h : Inv s₁) (hk : Kept s₁ r i) (hf : Fresh s₁ type i)
    (htype : type ≠ 0) (hs : Reachable (· = s₁) (restrict (Quiet r i) (step ninodes)) s) :
    Inv s ∧ Kept s r i ∧ Fresh s type i := by
  refine hs.invariant (P := fun s => Inv s ∧ Kept s r i ∧ Fresh s type i) ?_ ?_
  · rintro s rfl
    exact ⟨h, hk, hf⟩
  · rintro s e s' ⟨h, hk, hf⟩ hs
    obtain ⟨⟨⟨hn, hput⟩, hload⟩, hs⟩ := restrict_eq_some.mp hs
    obtain ⟨p, hm⟩ := h.step hs hn
    exact ⟨hm.2, hk.step h hs hput, hf.step h htype hk.refs hs hn hload⟩

/-- The inode table under concurrency. An inode has at most one entry in use. An `iput` that
truncates an inode and clears its type holds the only reference to it, and the inode has no links;
nothing else clears a type on the disk. When `ialloc` returns an entry `i` in `r`, whether or not an
`iput` is still in the middle of freeing the inode of that number, the entry stays in use for the
inode as long as the reference is not dropped, and the first `ilock` to read it gets the newly
allocated inode. -/
theorem inode_table_concurrent
    (h : Reachable Boot (restrict Named (step (π := π) (ρ := ρ) ninodes)) s) :
    (∀ i j, 0 < (s.inode i).ref → 0 < (s.inode j).ref → (s.inode i).dev = (s.inode j).dev →
      (s.inode i).inum = (s.inode j).inum → i = j) ∧
    (∀ p r, (s.pc p).frees = some r → ∃ i, s.refs r = some i ∧ (s.inode i).ref = 1 ∧
      (∀ r', s.refs r' = some i → r' = r) ∧ (s.inode i).valid = true ∧
      (s.inode i).d.nlink = 0) ∧
    (∀ e s' dev inum, step ninodes s e = some s' → (s.disk dev inum).type ≠ 0 →
      (s'.disk dev inum).type = 0 → ∃ p r i, e = .run p ∧ s.pc p = .clearUpdate r ∧
        s.refs r = some i ∧ s.At dev inum i) ∧
    ∀ p dev type inum r s₁, s.pc p = .iallocGet dev type inum r →
      step ninodes s (.run p) = some s₁ → s₁.panic = none →
      ∃ i, (∀ s₂, Reachable (· = s₁) (restrict (Keep r) (step ninodes)) s₂ →
          s₂.refs r = some i ∧ s₂.At dev inum i) ∧
        ∀ s₂, Reachable (· = s₁) (restrict (Quiet r i) (step ninodes)) s₂ →
          ∀ q r' s₃, s₂.pc q = .ilockRead r' → s₂.refs r' = some i →
            step ninodes s₂ (.run q) = some s₃ →
            (s₃.inode i).valid = true ∧ (s₃.inode i).d = newInode type ∧ s₃.panic = none := by
  have hinv := Inv.of_reachable h
  refine ⟨hinv.unique, fun p r hr => ?_, fun e s' dev inum hs => hinv.type_cleared hs,
    fun p dev type inum r s₁ hpc hs hpanic => ?_⟩
  · have hfrees : ∃ i, Frees s p r i := by
      have hgood := hinv.good p
      cases hpc : s.pc p <;> rw [hpc] at hr hgood <;> first | cases hr; exact hgood | cases hr
    obtain ⟨i, hf⟩ := hfrees
    exact ⟨i, hf.refs, hf.ref, fun r' => hinv.only_ref hf.ref hf.refs, hf.valid, hf.nlink⟩
  have hgood := hinv.good p
  rw [hpc] at hgood
  rw [step, ite_none_left_eq_some] at hs
  obtain rfl : s₁ = (s.iget dev inum r).goto p .idle := by
    simpa [run, hpc, eq_comm] using hs.2
  have hinv₁ := (hinv.allocGet hpc).2
  obtain ⟨i, hk, hi, hf⟩ := hinv.fresh_of_alloc hpc hpanic
  refine ⟨i, fun s₂ hs₂ => ?_, fun s₂ hs₂ q r' s₃ hpc' hr' hs₃ => ?_⟩
  · obtain ⟨-, hk₂, hi₂⟩ := kept_along hinv₁ hk hi hs₂
    exact ⟨hk₂.refs, hi₂⟩
  · obtain ⟨hinv₂, -, hf₂⟩ := fresh_along hinv₁ hk hf hgood.2.1 hs₂
    rw [step, ite_none_left_eq_some] at hs₃
    obtain ⟨hv, hd, hpanic'⟩ := hf₂.load hinv₂ hgood.2.1 hpc' hr' hs₃.2
    exact ⟨hv, hd, hpanic'.trans (by simpa using hs₃.1)⟩

def oneInode : State (Fin 2) (Fin 2) where
  inode _ := ⟨0, 0, 0, false, Dinode.zero⟩
  lock _ := none
  disk dev inum := if dev = 1 ∧ inum = 1 then { newInode 2 with nlink := 1 } else Dinode.zero
  refs _ := none
  pc _ := .idle
  panic := none

theorem oneInode_boot : Boot oneInode := by
  refine ⟨fun _ => rfl, fun _ => rfl, fun _ => rfl, fun _ => rfl, rfl, fun dev inum h0 => ?_⟩
  simp only [oneInode] at h0 ⊢
  split at h0
  · cases h0
  · rw [if_neg ‹_›]
    rfl

def reuseRun : List (Event (Fin 2) (Fin 2)) :=
  [.call 0 (.lookup 1 1 0), .call 0 (.ilock 0), .run 0, .run 0, .run 0,
    .call 0 (.store 0 (newInode 2)), .call 0 (.iupdate 0), .call 0 (.iunlock 0), .call 0 (.iput 0),
    .run 0, .run 0, .run 0, .run 0, .run 0, .call 1 (.ialloc 1 2 1), .run 1]

def dropRun : List (Event (Fin 2) (Fin 2)) :=
  [.run 0, .run 0, .run 0, .call 1 (.ilock 1), .run 1, .run 1]

theorem inode_table_concurrent_reuse : ∃ s s₁ s₂ s₃ : State (Fin 2) (Fin 2),
    Reachable Boot (restrict Named (step 2)) s ∧ s.pc 0 = .invalidate 0 ∧
    s.pc 1 = .iallocGet 1 2 1 1 ∧ step 2 s (.run 1) = some s₁ ∧
    Reachable (· = s₁) (restrict (Quiet 1 0) (step 2)) s₂ ∧ s₂.refs 0 = none ∧ s₂.At 1 1 0 ∧
    step 2 s₂ (.run 1) = some s₃ ∧ (s₃.inode 0).valid = true ∧
    (s₃.inode 0).d = newInode 2 := by
  have hrun : (runEvents (restrict Named (step 2)) oneInode reuseRun).any (fun s =>
      decide (s.pc 0 = .invalidate 0 ∧ s.pc 1 = .iallocGet 1 2 1 1) &&
      (step 2 s (.run 1)).any fun s₁ => decide (s₁.panic = none ∧ s₁.refs 1 = some 0) &&
        (runEvents (restrict (Quiet 1 0) (step 2)) s₁ dropRun).any fun s₂ =>
          decide (s₂.refs 0 = none ∧ s₂.refs 1 = some 0 ∧ s₂.pc 1 = .ilockRead 1) &&
          (step 2 s₂ (.run 1)).isSome) = true := by
    decide +kernel
  obtain ⟨s, hs, hprop⟩ := (any_eq_true _ _).mp hrun
  rw [Bool.and_eq_true] at hprop
  obtain ⟨hfree, halloc⟩ := of_decide_eq_true hprop.1
  obtain ⟨s₁, hs₁, hprop⟩ := (any_eq_true _ _).mp hprop.2
  rw [Bool.and_eq_true] at hprop
  obtain ⟨hpanic, hr₁⟩ := of_decide_eq_true hprop.1
  obtain ⟨s₂, hs₂, hprop⟩ := (any_eq_true _ _).mp hprop.2
  rw [Bool.and_eq_true] at hprop
  obtain ⟨hdropped, hr₂, hpc₂⟩ := of_decide_eq_true hprop.1
  obtain ⟨s₃, hs₃⟩ := isSome_iff_exists.mp hprop.2
  have hreach : Reachable Boot (restrict Named (step 2)) s :=
    (Reachable.start oneInode_boot).run _ hs
  have hreach₂ : Reachable (· = s₁) (restrict (Quiet 1 0) (step 2)) s₂ :=
    Reachable.run (.start rfl) _ hs₂
  obtain ⟨i, hkeep, hload⟩ :=
    (inode_table_concurrent hreach).2.2.2 1 1 2 1 1 s₁ halloc hs₁ hpanic
  obtain rfl : i = 0 := some.inj ((hkeep s₁ (.start rfl)).1.symm.trans hr₁)
  have hat := hkeep s₂ (hreach₂.mono fun s e s' he =>
    restrict_eq_some.mpr ⟨(restrict_eq_some.mp he).1.1, (restrict_eq_some.mp he).2⟩)
  obtain ⟨hv, hd, -⟩ := hload s₂ hreach₂ 1 1 s₃ hpc₂ hr₂ hs₃
  exact ⟨s, s₁, s₂, s₃, hreach, hfree, halloc, hs₁, hreach₂, hdropped, hat.2, hs₃, hv, hd⟩

end Xv6.Itable
