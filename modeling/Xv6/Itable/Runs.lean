import Xv6.Itable.Concurrency

/-! Every step of every process keeps the invariant of the inode table. -/

namespace Xv6.Itable

open Function Finset Option
open Fs (Dinode NINODE Ip)

variable {π ρ : Type} [DecidableEq π] [DecidableEq ρ] [Fintype ρ] {s s' : State π ρ} {p : π}
  {r : ρ} {i : Ip}

omit [DecidableEq π] [DecidableEq ρ] in
theorem Moves.own (h : Own s s' p ∧ Inv s') : Moves s s' p := ⟨.inl h.1, h.2⟩

omit [DecidableEq π] [DecidableEq ρ] in
theorem Moves.shift (h : Shift s s' p ∧ Inv s') (hp : (s.pc p).locked = none) : Moves s s' p :=
  ⟨.inr ⟨h.1, hp⟩, h.2⟩

theorem Inv.panics (h : Inv s) (hpc : s.pc p = .idle) (msg : String) : Moves s (s.stop msg) p := by
  have hm := h.leave (by rw [hpc]; rfl) (by rw [hpc]; nofun)
    fun _ _ => h.valid_of_idle hpc
  rw [goto_idle hpc] at hm
  exact Moves.own ⟨hm.1.stop msg, hm.2.stop msg⟩

theorem Inv.iunlock {r' : ρ} (h : Inv s) (hpc : s.pc p = .idle) (hl : s.lock i = some (p, r')) :
    Moves s (s.setLock i none) p := by
  have hm := h.release hl (by rw [hpc]; nofun) (by rw [hpc]; nofun)
    (fun j r _ => h.valid_of_idle hpc) (by rw [hpc]; nofun) (.idle (by rw [hpc]; rfl)) nofun trivial
  rw [goto_idle (by exact hpc)] at hm
  exact Moves.own hm

theorem Inv.store {r' : ρ} {d : Dinode} (h : Inv s) (hpc : s.pc p = .idle)
    (hl : s.lock i = some (p, r')) (hd : d.type ≠ 0) :
    Moves s (s.setInode i fun e => { e with d := d }) p := by
  have hvalid := h.valid_of_idle hpc hl
  have hm := h.setInode (f := fun e => { e with d := d }) hl rfl rfl rfl
    (by rw [hpc]; nofun) (.idle (by rw [hpc]; rfl)) (by rw [hpc]; nofun) nofun (.inl hvalid)
    (fun _ h0 => absurd h0 (h.type_of_lock hl (by rw [hpc]; nofun) hvalid))
    (fun _ h0 => absurd h0 hd) fun _ _ _ => trivial
  rwa [goto_idle (by exact hpc)] at hm

theorem Inv.update {r' : ρ} (h : Inv s) (hpc : s.pc p = .idle) (hl : s.lock i = some (p, r')) :
    Moves s (s.iupdate i) p := by
  have hvalid := h.valid_of_idle hpc hl
  have hm := h.iupdate hl (by rw [hpc]; rfl) (.idle (by rw [hpc]; rfl))
    (by rw [hpc]; nofun) nofun hvalid
    (fun h0 => absurd h0 (h.copy_of_lock hl (by rw [hpc]; nofun) (by rw [hpc]; nofun) hvalid))
    fun _ _ _ => trivial
  rwa [goto_idle (by exact hpc)] at hm

theorem Inv.call [Fintype π] {c : Call ρ} (h : Inv s) (hpc : s.pc p = .idle)
    (hs : call s p c = some s') (hn : Named s (.call p c)) : Moves s s' p := by
  cases c with
  | lookup dev inum r =>
    obtain ⟨⟨hr, hplace⟩, rfl⟩ := by simpa [Itable.call] using hs
    exact h.lookup hpc hr hplace hn
  | ialloc dev type r =>
    obtain ⟨⟨htype, hr, hplace⟩, rfl⟩ := by simpa [Itable.call] using hs
    refine Moves.own (h.start hpc nofun ?_ ?_ ?_ ⟨hr, htype⟩)
    · rintro q _ ⟨⟩
      exact hplace q
    · rintro q _ ⟨⟩ hq
      exact hplace q (Pc.place_of_sole hq)
    · rintro j q _ hl ⟨⟩
      rw [(h.held j q _ hl).1] at hr
      cases hr
  | idup r r' =>
    cases hr : s.refs r with
    | none => simp [Itable.call, hr] at hs
    | some i =>
      obtain ⟨⟨hsole, hr', hplace⟩, rfl⟩ := by simpa [Itable.call, hr] using hs
      exact h.idup hpc hr hsole hr' hplace
  | ilock r =>
    obtain ⟨⟨hr, hsole⟩, rfl⟩ := by simpa [Itable.call] using hs
    refine Moves.own (h.start hpc nofun nofun ?_ nofun (ne_none_iff_exists'.mp hr))
    rintro q _ ⟨⟩
    exact hsole q
  | iunlock r =>
    cases hr : s.refs r with
    | none => simp [Itable.call, hr] at hs
    | some i =>
      obtain ⟨-, rfl⟩ := by simpa only [Itable.call, hr, ite_none_right_eq_some,
        some.injEq] using hs
      split
      · exact h.panics hpc _
      · rename_i hheld
        obtain ⟨r', hl⟩ := not_not.mp (not_or.mp hheld).1
        exact h.iunlock hpc hl
  | iput r =>
    obtain ⟨⟨hr, hplace, hheld⟩, rfl⟩ := by simpa [Itable.call] using hs
    refine Moves.own (h.start hpc nofun ?_ ?_ ?_ (ne_none_iff_exists'.mp hr))
    · rintro q _ ⟨⟩
      exact hplace q
    · rintro q _ ⟨⟩ hq
      exact hplace q (Pc.place_of_sole hq)
    · rintro j q _ hl ⟨⟩
      exact hheld j q hl
  | store r d =>
    cases hr : s.refs r with
    | none => simp [Itable.call, hr] at hs
    | some i =>
      obtain ⟨⟨⟨r', hl⟩, hd⟩, rfl⟩ := by simpa [Itable.call, hr] using hs
      exact h.store hpc hl hd
  | iupdate r =>
    cases hr : s.refs r with
    | none => simp [Itable.call, hr] at hs
    | some i =>
      obtain ⟨⟨r', hl⟩, rfl⟩ := by simpa [Itable.call, hr] using hs
      exact h.update hpc hl

omit [DecidableEq π] [DecidableEq ρ] in
/-- A call that does not drop its reference is on an inode that is allocated on the disk. -/
theorem Inv.live_of_place (h : Inv s) (hplace : (s.pc p).place = some r)
    (hends : (s.pc p).ends = none) (hr : s.refs r = some i) : (s.dinode i).type ≠ 0 := by
  refine h.live r i hr fun q hq => ?_
  obtain rfl := h.sole q p r (Pc.sole_of_ends hq) hplace
  rw [hends] at hq
  cases hq

theorem Inv.load (h : Inv s) (hpc : s.pc p = .ilockRead r) (hl : Locks s p r i) :
    Moves s ((s.setInode i fun e => { e with d := s.dinode i, valid := true }).goto p .idle) p := by
  have htype : (s.dinode i).type ≠ 0 :=
    h.live_of_place (by rw [hpc]; rfl) (by rw [hpc]; rfl) hl.refs
  refine h.setInode hl.lock rfl rfl rfl
    (by rw [hpc]; nofun) (.idle (by rw [hpc]; rfl)) ?_ nofun (.inl rfl)
    (fun _ h0 => absurd h0 htype) (fun _ h0 => absurd h0 htype) fun _ _ _ => trivial
  rw [hpc]
  rintro _ ⟨⟩
  rfl

omit [DecidableEq π] in
/-- An `iput` of the only reference finds the entry unlocked. -/
theorem Inv.unlocked_of_only (h : Inv s) (hpc : s.pc p = .iput r) (hr : s.refs r = some i)
    (href : (s.inode i).ref = 1) : s.lock i = none := by
  cases hl : s.lock i with
  | none => rfl
  | some x =>
    obtain ⟨q, r'⟩ := x
    obtain ⟨hr', hheld⟩ := h.held i q r' hl
    obtain rfl := h.only_ref href hr hr'
    obtain ⟨rfl, hlocked⟩ := hheld p (by rw [hpc]; rfl)
    rw [hpc] at hlocked
    cases hlocked

/-- `iput` of the only reference to an inode without links locks the entry. -/
theorem Inv.seize (h : Inv s) (hpc : s.pc p = .iput r) (hr : s.refs r = some i)
    (href : (s.inode i).ref = 1) (hvalid : (s.inode i).valid = true)
    (hnlink : (s.inode i).d.nlink = 0) :
    Moves s ((s.setLock i (some (p, r))).goto p (.itrunc r)) p := by
  have hnext : (s.pc p).Next (.itrunc r) := by
    rw [hpc]
    exact ⟨fun _ h => h, fun _ h => h, nofun, nofun⟩
  refine Moves.own (h.lock (by rw [hpc]; rfl) (by rw [hpc]; rfl) (by rw [hpc]; nofun)
    (fun _ _ => h.valid_of_lock (by rw [hpc]; rfl)) hnext rfl hr (h.unlocked_of_only hpc hr href)
    (.inl hvalid) fun hl => ⟨i, hl, href, hvalid, hnlink, ?_⟩)
  exact h.live_of_place (by rw [hpc]; rfl) (by rw [hpc]; rfl) hr

/-- A step of `iput` in which the freed inode changes in the table, with its type still on the
disk. -/
theorem Inv.truncate {f : Inode → Inode} {pc : Pc ρ} (h : Inv s)
    (hfrees : (s.pc p).frees = some r) (hf : Frees s p r i) (hnext : (s.pc p).Next pc)
    (hlocked : pc.locked = some r) (hsole : pc.sole = some r)
    (href : (f (s.inode i)).ref = (s.inode i).ref) (hdev : (f (s.inode i)).dev = (s.inode i).dev)
    (hinum : (f (s.inode i)).inum = (s.inode i).inum) (hvalid : (f (s.inode i)).valid = true)
    (hnlink : (f (s.inode i)).d.nlink = 0)
    (hcopy : (f (s.inode i)).d.type = 0 → pc = .clearUpdate r)
    (hgood : ∀ s : State π ρ, Frees s p r i → Good s p pc) :
    Moves s ((s.setInode i f).goto p pc) p := by
  have hends := Pc.ends_of_frees hfrees
  have hplace : ∀ r', (s.pc p).locked = some r' → r' = r := by
    intro r' hr'
    have hp := Pc.place_of_sole (Pc.sole_of_frees hfrees)
    exact some.inj ((Pc.place_of_locked hr').symm.trans hp)
  refine h.setInode hf.lock href hdev hinum (by rw [hends]; nofun) hnext hplace
    (fun r' hr' => by rw [hlocked, ← hsole, hr']) (.inl hvalid) (fun _ h0 => absurd h0 hf.type)
    (fun _ h0 => .inl (hcopy h0)) fun he hd hl => hgood _ ⟨hl, ?_, ?_, ?_, ?_⟩
  · rw [he, href, hf.ref]
  · rw [he, hvalid]
  · rw [he, hnlink]
  · rw [hd]
    exact hf.type

theorem Inv.truncateUpdate (h : Inv s) (hpc : s.pc p = .itruncUpdate r) (hf : Frees s p r i) :
    Moves s ((s.iupdate i).goto p (.clear r)) p := by
  have htype : (s.inode i).d.type ≠ 0 :=
    h.copy_of_lock hf.lock (by rw [hpc]; nofun) (by rw [hpc]; nofun) hf.valid
  have hnext : (s.pc p).Next (.clear r) := by
    rw [hpc]
    exact ⟨fun _ h => h, fun _ h => h, nofun, nofun⟩
  refine h.iupdate hf.lock (by rw [hpc]; rfl) hnext ?_ (fun _ h => h) hf.valid
    (fun h0 => absurd h0 htype) fun he hd hl => ⟨i, hl, ?_, ?_, ?_, ?_⟩
  · rw [hpc]
    rintro _ ⟨⟩
    rfl
  · rw [he, hf.ref]
  · rw [he, hf.valid]
  · rw [he, hf.nlink]
  · rwa [hd]

theorem Inv.clearUpdate (h : Inv s) (hpc : s.pc p = .clearUpdate r) (hf : Frees s p r i) :
    Moves s ((s.iupdate i).goto p (.invalidate r)) p := by
  have hnext : (s.pc p).Next (.invalidate r) := by
    rw [hpc]
    exact ⟨fun _ h => h, fun _ h => h, nofun, nofun⟩
  refine h.iupdate hf.lock (by rw [hpc]; rfl) hnext ?_ (fun _ h => h) hf.valid
    (fun _ => ⟨hf.nlink, hf.ref, rfl⟩) fun he _ hl =>
    ⟨i, hl, by rw [he, hf.valid], by rw [he, hf.nlink]⟩
  rw [hpc]
  rintro _ ⟨⟩
  rfl

theorem Inv.invalidate (h : Inv s) (hpc : s.pc p = .invalidate r) (hl : Locks s p r i) :
    Moves s ((s.setInode i fun e => { e with valid := false }).goto p (.unlock r)) p := by
  have hnext : (s.pc p).Next (.unlock r) := by
    rw [hpc]
    exact ⟨fun _ h => h, fun _ h => h, fun _ h => h, nofun⟩
  refine h.setInode hl.lock rfl rfl rfl (fun _ => rfl)
    hnext ?_ (fun _ h => h) (.inr (.inr rfl)) nofun nofun fun he _ hl' => ⟨i, hl', by rw [he]⟩
  rw [hpc]
  rintro _ ⟨⟩
  rfl

theorem Inv.unlock (h : Inv s) (hpc : s.pc p = .unlock r) (hl : Locks s p r i)
    (hvalid : (s.inode i).valid = false) :
    Moves s ((s.setLock i none).goto p (.drop r)) p := by
  have hnext : (s.pc p).Next (.drop r) := by
    rw [hpc]
    exact ⟨fun _ h => h, fun _ h => h, fun _ h => h, nofun⟩
  -- The entry is the only one that was not loaded when `p` locked it.
  have hothers : ∀ j r', j ≠ i → s.lock j = some (p, r') → (s.inode j).valid = true := by
    intro j r' hj hl'
    rcases h.loaded j p r' hl' with hv | hv | hv
    · exact hv
    · rw [hpc] at hv
      cases hv
    · rw [hpc] at hv
      cases hv
      exact absurd (some.inj ((h.held j p r hl').1.symm.trans hl.refs)) hj
  have hlate : ∀ j r', s.lock j = some (p, r') → (s.pc p).ends = some r' →
      (s.inode j).valid = false := by
    intro j r' hl' hr'
    rw [hpc] at hr'
    cases hr'
    obtain rfl := some.inj ((h.held j p r hl').1.symm.trans hl.refs)
    exact hvalid
  refine Moves.own (h.release hl.lock (by rw [hpc]; nofun) (by rw [hpc]; nofun) hothers hlate hnext
    ?_ ⟨i, hl.refs⟩)
  rintro _ ⟨⟩
  rfl

theorem Inv.runAt (h : Inv s) (hplace : (s.pc p).place = some r) (hr : s.refs r = some i)
    (hs : runAt s p i (s.pc p) = some s') : Moves s s' p := by
  have hgood := h.good p
  -- The entry that a call knows of is that of its reference.
  have heq : ∀ {j}, s.refs r = some j → j = i := fun hj => some.inj (hj.symm.trans hr)
  have hvalid : (s.pc p).locked = none → ∀ j r, s.lock j = some (p, r) →
      (s.inode j).valid = true := fun hp _ _ => h.valid_of_lock hp
  cases hpc : s.pc p with
  | idle | ialloc _ _ _ _ | iallocGet _ _ _ _ =>
    rw [hpc] at hs
    cases hs
  | ilock r' =>
    rw [hpc] at hs hplace
    cases hplace
    have href := h.ref_pos hr
    simp only [Itable.runAt, if_neg (show ¬(s.inode i).ref < 1 by omega)] at hs
    cases hs
    have hnext : (s.pc p).Next (.ilockWait r) := by
      rw [hpc]
      exact ⟨fun _ h => h, nofun, nofun, nofun⟩
    exact Moves.own (h.goto (by rw [hpc]; rfl) (by rw [hpc]; nofun) nofun
      (hvalid (by rw [hpc]; rfl)) nofun (fun q _ hq => hnext.not_sole h hq) nofun ⟨i, hr⟩)
  | ilockWait r' =>
    rw [hpc] at hs hplace
    cases hplace
    obtain ⟨hfree, rfl⟩ := by simpa [Itable.runAt] using hs
    have hnext : (s.pc p).Next (.ilockRead r) := by
      rw [hpc]
      exact ⟨fun _ h => h, nofun, nofun, nofun⟩
    exact Moves.own (h.lock (by rw [hpc]; rfl) (by rw [hpc]; rfl) (by rw [hpc]; nofun)
      (hvalid (by rw [hpc]; rfl)) hnext rfl hr hfree (.inr rfl) fun hl => ⟨i, hl⟩)
  | ilockRead r' =>
    rw [hpc] at hs hplace hgood
    cases hplace
    obtain ⟨j, hl⟩ := hgood
    obtain rfl := heq hl.refs
    have htype := h.live_of_place (by rw [hpc]; rfl) (by rw [hpc]; rfl) hr
    by_cases hv : (s.inode j).valid = true
    · simp only [Itable.runAt, if_pos hv, some.injEq] at hs
      subst hs
      refine Moves.own (h.leave (by rw [hpc]; rfl) (by rw [hpc]; nofun) fun j' r' hl' => ?_)
      rcases h.loaded j' p r' hl' with hv' | hv' | hv'
      · exact hv'
      · rw [hpc] at hv'
        cases hv'
        obtain rfl := heq (h.held j' p r hl').1
        exact hv
      · rw [hpc] at hv'
        cases hv'
    · simp only [Itable.runAt, if_neg hv, some.injEq] at hs
      rw [if_neg (by exact htype)] at hs
      subst hs
      exact h.load hpc hl
  | iput r' =>
    rw [hpc] at hs hplace
    cases hplace
    by_cases hfree : (s.inode i).ref = 1 ∧ (s.inode i).valid ∧ (s.inode i).d.nlink = 0
    · have hlock := h.unlocked_of_only hpc hr hfree.1
      simp only [Itable.runAt, if_pos hfree, hlock, ne_eq, not_true, if_false,
        some.injEq] at hs
      subst hs
      exact h.seize hpc hr hfree.1 hfree.2.1 hfree.2.2
    · simp only [Itable.runAt, if_neg hfree, some.injEq] at hs
      subst hs
      exact Moves.shift (h.unref hr (by rw [hpc]; rfl) (by rw [hpc]; rfl)) (by rw [hpc]; rfl)
  | itrunc r' =>
    rw [hpc] at hs hplace hgood
    cases hplace
    cases hs
    obtain ⟨j, hf⟩ := hgood
    obtain rfl := heq hf.refs
    have hnext : (s.pc p).Next (.itruncUpdate r) := by
      rw [hpc]
      exact ⟨fun _ h => h, fun _ h => h, nofun, nofun⟩
    exact h.truncate (by rw [hpc]; rfl) hf hnext rfl rfl rfl rfl rfl hf.valid hf.nlink
      (fun h0 => absurd h0
        (h.copy_of_lock hf.lock (by rw [hpc]; nofun) (by rw [hpc]; nofun) hf.valid))
      fun s hf => ⟨j, hf⟩
  | itruncUpdate r' =>
    rw [hpc] at hs hplace hgood
    cases hplace
    cases hs
    obtain ⟨j, hf⟩ := hgood
    obtain rfl := heq hf.refs
    exact h.truncateUpdate hpc hf
  | clear r' =>
    rw [hpc] at hs hplace hgood
    cases hplace
    cases hs
    obtain ⟨j, hf⟩ := hgood
    obtain rfl := heq hf.refs
    have hnext : (s.pc p).Next (.clearUpdate r) := by
      rw [hpc]
      exact ⟨fun _ h => h, fun _ h => h, nofun, nofun⟩
    exact h.truncate (by rw [hpc]; rfl) hf hnext rfl rfl rfl rfl rfl hf.valid hf.nlink
      (fun _ => rfl) fun s hf => ⟨j, hf⟩
  | clearUpdate r' =>
    rw [hpc] at hs hplace hgood
    cases hplace
    cases hs
    obtain ⟨j, hf⟩ := hgood
    obtain rfl := heq hf.refs
    exact h.clearUpdate hpc hf
  | invalidate r' =>
    rw [hpc] at hs hplace hgood
    cases hplace
    cases hs
    obtain ⟨j, hl, -, -⟩ := hgood
    obtain rfl := heq hl.refs
    exact h.invalidate hpc hl
  | unlock r' =>
    rw [hpc] at hs hplace hgood
    cases hplace
    cases hs
    obtain ⟨j, hl, hv⟩ := hgood
    obtain rfl := heq hl.refs
    exact h.unlock hpc hl hv
  | drop r' =>
    rw [hpc] at hs hplace
    cases hplace
    cases hs
    exact Moves.shift (h.unref hr (by rw [hpc]; rfl) (by rw [hpc]; rfl)) (by rw [hpc]; rfl)

theorem Inv.allocGet {dev type inum : Nat} (h : Inv s) (hpc : s.pc p = .iallocGet dev type inum r) :
    Moves s ((s.iget dev inum r).goto p .idle) p := by
  have hgood := h.good p
  rw [hpc] at hgood
  obtain ⟨hr, htype, hdisk, hun⟩ := hgood
  refine h.iget hr (by rw [hpc]; rfl) (by rw [hpc]; rfl) ?_ (by rw [hdisk]; exact htype) ?_ ?_
  · exact fun q hq hplace => hq (h.sole p q r (by rw [hpc]; rfl) hplace)
  · -- Every reference to the inode is past the point where the inode was freed.
    intro i q r' hi hq hf
    obtain ⟨⟨q', hends⟩, -⟩ := hun r' i hf.refs hi.2.1 hi.2.2
    obtain rfl := h.sole q q' r' (Pc.sole_of_frees hq) (Pc.place_of_sole (Pc.sole_of_ends hends))
    rw [Pc.ends_of_frees hq] at hends
    cases hends
  · exact fun q type' r' hq hpc' => hq (h.alloc q p dev type' type inum r' r hpc' hpc)

variable {ninodes : Nat}

omit [Fintype ρ] in
theorem run_cases (hs : run ninodes s p = some s') :
    (∃ dev type inum r, s.pc p = .ialloc dev type inum r ∧
      ((s.disk dev inum).type = 0 ∧
          s' = (s.setDisk dev inum (newInode type)).goto p (.iallocGet dev type inum r) ∨
        s' = s.goto p (.ialloc dev type (inum + 1) r) ∨ s' = s.goto p .idle)) ∨
    (∃ dev type inum r, s.pc p = .iallocGet dev type inum r ∧
      s' = (s.iget dev inum r).goto p .idle) ∨
    ∃ r i, (s.pc p).place = some r ∧ s.refs r = some i ∧ runAt s p i (s.pc p) = some s' := by
  unfold Itable.run at hs
  cases hpc : s.pc p with
  | ialloc dev type inum r =>
    simp only [hpc] at hs
    refine .inl ⟨dev, type, inum, r, rfl, ?_⟩
    by_cases hlt : inum < ninodes
    · rw [if_pos hlt] at hs
      split_ifs at hs with h0
      · exact .inl ⟨h0, (some.inj hs).symm⟩
      · exact .inr (.inl (some.inj hs).symm)
    · rw [if_neg hlt] at hs
      exact .inr (.inr (some.inj hs).symm)
  | iallocGet dev type inum r =>
    simp only [hpc] at hs
    exact .inr (.inl ⟨dev, type, inum, r, rfl, (some.inj hs).symm⟩)
  | _ =>
    simp only [hpc] at hs
    obtain ⟨i, hi, hs⟩ := bind_eq_some_iff.mp hs
    obtain ⟨r, hplace, hr⟩ := bind_eq_some_iff.mp hi
    exact .inr (.inr ⟨r, i, hplace, hr, hs⟩)

theorem Inv.run (h : Inv s) (hs : run ninodes s p = some s') : Moves s s' p := by
  rcases run_cases hs with ⟨dev, type, inum, r, hpc, hs⟩ | ⟨dev, type, inum, r, hpc, rfl⟩ |
    ⟨r, i, hplace, hr, hs⟩
  · have hvalid : ∀ j r, s.lock j = some (p, r) → (s.inode j).valid = true :=
      fun _ _ => h.valid_of_lock (by rw [hpc]; rfl)
    rcases hs with ⟨h0, rfl⟩ | rfl | rfl
    · exact Moves.shift (h.pick hpc h0) (by rw [hpc]; rfl)
    · have hgood := h.good p
      rw [hpc] at hgood
      have hnext : (s.pc p).Next (.ialloc dev type (inum + 1) r) := by
        rw [hpc]
        exact ⟨fun _ h => h, fun _ h => h, nofun, nofun⟩
      refine Moves.own (h.goto (by rw [hpc]; rfl) (by rw [hpc]; nofun) nofun hvalid
        (fun q _ hq => hnext.not_place h hq) (fun q _ hq => hnext.not_sole h hq) ?_ hgood)
      rintro j q _ hl ⟨⟩
      have hr := (h.held j q r hl).1
      rw [hgood.1] at hr
      cases hr
    · exact Moves.own (h.leave (by rw [hpc]; rfl) (by rw [hpc]; nofun) hvalid)
  · exact h.allocGet hpc
  · exact h.runAt hplace hr hs

theorem Inv.step [Fintype π] {e : Event π ρ} (h : Inv s) (hs : step ninodes s e = some s')
    (hn : Named s e) : ∃ p, Moves s s' p := by
  cases e with
  | call p c =>
    rw [Itable.step, ite_none_left_eq_some, not_or, not_not] at hs
    exact ⟨p, h.call hs.1.2 hs.2 hn⟩
  | run p =>
    rw [Itable.step, ite_none_left_eq_some] at hs
    exact ⟨p, h.run hs.2⟩

omit [DecidableEq π] [DecidableEq ρ] in
theorem boot_inv (h : Boot s) : Inv s := by
  obtain ⟨href, hlock, hrefs, hpc, -, hfree⟩ := h
  have hpos : ∀ i, ¬0 < (s.inode i).ref := fun i => by rw [href]; exact lt_irrefl 0
  have hcount : ∀ i, (own univ s.refs).count i = 0 := by
    intro i
    rw [own_congr fun r _ => hrefs r, own_none, Multiset.count_zero]
  refine ⟨fun i => (href i).trans (hcount i).symm, fun i _ hi => absurd hi (hpos i),
    fun p => by rw [hpc]; nofun,
    fun i => by rw [hlock]; nofun, fun i => by rw [hlock]; nofun, hfree,
    fun r => by rw [hrefs]; nofun, fun i hi => absurd hi (hpos i), fun i hi => absurd hi (hpos i),
    fun p => by rw [hpc]; nofun, fun p => by rw [hpc]; trivial⟩

theorem Inv.of_reachable [Fintype π]
    (h : Reachable Boot (restrict Named (Itable.step ninodes)) s) : Inv s := by
  refine h.invariant (fun s hs => boot_inv hs) fun s e s' hinv hs => ?_
  obtain ⟨hn, hs⟩ := restrict_eq_some.mp hs
  obtain ⟨p, hm⟩ := hinv.step hs hn
  exact hm.2

end Xv6.Itable
