import Xv6.Bio.ReadYourWrites

/-! Whether the cache has a buffer for every `bread` of a commit. The operations pin the buffers
that they log, and `write_log`, `write_head` and `install_trans` need one buffer beyond the pinned
ones, so a commit gets through if the log lists fewer than `NBUF` blocks. -/

namespace Xv6.Bio

open Function CommitPc State Option

/-- The cache, and the blocks that each operation has logged since its `begin_op`. -/
structure OpState where
  cache : State
  logged : Slot → List Nat

variable (start : Nat)

namespace OpState

def step (x : OpState) (e : Event) : Option OpState :=
  (Bio.step start x.cache e).map fun s =>
    { cache := s
      logged :=
        match e with
        | .begin p => update x.logged p []
        | .logWrite p i => update x.logged p ((x.cache.buf i).blockno.toList ++ x.logged p)
        | _ => x.logged }

def Start (x : OpState) : Prop := Bio.Start x.cache ∧ x.cache.panic = none

end OpState

def State.Listed (s : State) (i : Fin NBUF) : Prop := ∃ b ∈ s.lh.blocks, (s.buf i).blockno = some b

instance (s : State) (i : Fin NBUF) : Decidable (s.Listed i) := List.decidableBEx _ _

/-- An operation reads blocks only between `begin_op` and `end_op`, with at most one buffer whose
block is not in the log yet, logs at most `MAXOPBLOCKS` different blocks, and has given up its
buffers when it ends. -/
def Event.Frugal (x : OpState) : Event → Prop
  | .bread p _ => x.cache.op p = true ∧ ∀ i, (x.cache.buf i).lock = some p → x.cache.Listed i
  | .logWrite p i =>
    ((x.cache.buf i).blockno.toList ++ x.logged p).dedup.length ≤ MAXOPBLOCKS
  | .end p => ∀ i, (x.cache.buf i).lock ≠ some p
  | _ => True

instance (x : OpState) : (e : Event) → Decidable (e.Frugal x)
  | .bread _ _ => inferInstanceAs (Decidable (_ ∧ _))
  | .logWrite _ _ => inferInstanceAs (Decidable (_ ≤ _))
  | .end _ => inferInstanceAs (Decidable (∀ _, _))
  | .begin _ | .modify _ _ _ | .brelse _ _ | .run _ | .commit _ =>
    inferInstanceAs (Decidable True)

def Event.Spare (x : OpState) : Event → Prop
  | .end _ => x.cache.outstanding = 1 → x.cache.lh.n < NBUF
  | _ => True

instance (x : OpState) : (e : Event) → Decidable (e.Spare x)
  | .end _ => inferInstanceAs (Decidable (_ → _))
  | .bread _ _ | .logWrite _ _ | .begin _ | .modify _ _ _ | .brelse _ _ | .run _ | .commit _ =>
    inferInstanceAs (Decidable True)

/-- Of the buffers of a commit, those that it has while its process is at `pc`. -/
def Pc.held : Pc → List (Fin NBUF × Nat) → List (Fin NBUF × Nat)
  | .lock _ _, l => l.tail
  | _, l => l

/-- How many steps of `commitStep` are left, with `n` entries in the log. -/
def CommitPc.rank (n : Nat) : CommitPc → Nat
  | .finish => 1
  | .headRel true _ => 2
  | .headSet true _ => 3
  | .head true => 4
  | .clear => 5
  | .install tail => 6 + 6 * (n - tail)
  | .installTo tail _ => 5 + 6 * (n - tail)
  | .installCopy tail _ _ => 4 + 6 * (n - tail)
  | .installUnpin tail _ _ => 3 + 6 * (n - tail)
  | .installRelLog tail _ _ => 2 + 6 * (n - tail)
  | .installRel tail _ => 1 + 6 * (n - tail)
  | .headRel false _ => 7 + 6 * n
  | .headSet false _ => 8 + 6 * n
  | .head false => 9 + 6 * n
  | .log tail => 10 + 6 * n + 5 * (n - tail)
  | .logFrom tail _ => 9 + 6 * n + 5 * (n - tail)
  | .logCopy tail _ _ => 8 + 6 * n + 5 * (n - tail)
  | .logRelFrom tail _ _ => 7 + 6 * n + 5 * (n - tail)
  | .logRelTo tail _ => 6 + 6 * n + 5 * (n - tail)

/-- How many steps of a `bread` or `brelse` are left at most. -/
def Pc.rank : Pc → Nat
  | .idle => 0
  | .lock _ _ => 2
  | .fill _ _ | .unref _ => 1

variable {start} {s s' : State} {p q : Slot} {i : Fin NBUF} {b : Nat} {c : CommitPc}
  {e : Event}

/-- The processes that are neither in an operation nor committing have no buffers and wait for
none, the one that is committing has only those of its place in `commit`, and a buffer is left for
it. -/
structure Calm (start : Nat) (s : State) : Prop where
  idle : ∀ q, s.op q = false → (∀ c, s.commit ≠ some (q, c)) →
    s.pc q = .idle ∧ ∀ i, (s.buf i).lock ≠ some q
  own : ∀ p c, s.commit = some (p, c) → ∀ i, (s.buf i).lock = some p →
    i ∈ (((s.pc p).held (c.holds start s.lh)).map Prod.fst)
  room : s.commit ≠ none → s.lh.n < NBUF
  sound : s.commit ≠ none → s.panic = none

theorem Calm.alone (h : Calm start s) (hi : Inv start s) (hc : s.commit = some (p, c))
    (hq : q ≠ p) : s.pc q = .idle ∧ ∀ i, (s.buf i).lock ≠ some q := by
  refine h.idle q (hi.quiet (by simp [hc]) q) fun d hd => hq ?_
  rw [hc] at hd
  cases hd
  rfl

/-- A commit that has no buffers finds one that has no reference: fewer than `NBUF` are pinned. -/
theorem Calm.exists_free (h : Calm start s) (hi : Inv start s) (hc : s.commit = some (p, c))
    (hp : s.pc p = .idle) (hnone : c.holds start s.lh = []) : ∃ i, (s.buf i).refcnt = 0 := by
  have hrefs : ∀ i q, refs s i q = 0 := by
    intro i q
    have hq : s.pc q = .idle ∧ (s.buf i).lock ≠ some q := by
      rcases eq_or_ne q p with rfl | hqp
      · refine ⟨hp, fun hl => ?_⟩
        have := h.own q c hc i hl
        simp [hp, hnone, Pc.held] at this
      · obtain ⟨h1, h2⟩ := h.alone hi hc hqp
        exact ⟨h1, h2 i⟩
    simp [refs, hq.1, hq.2]
  by_contra hall
  push Not at hall
  have hpinned : ∀ i, ∃ t, t < s.lh.n ∧ (s.buf i).blockno = some (s.lh.block t) := by
    intro i
    have hcount := hi.cache.refcnt i
    rw [Finset.sum_congr rfl fun q _ => hrefs i q] at hcount
    have hpos := hall i
    unfold pins at hcount
    by_cases hpin : ∃ b, (s.buf i).blockno = some b ∧ s.Pin b
    · obtain ⟨b, hb, t, -, ht, rfl⟩ := hpin
      exact ⟨t, ht, hb⟩
    · rw [if_neg hpin] at hcount
      simp [hcount] at hpos
  choose t hlt hblock using hpinned
  -- different buffers have different blocks, so there are no more buffers than entries
  have hinj : Injective fun i => (⟨t i, hlt i⟩ : Fin s.lh.n) := by
    intro i j hij
    have ht : t i = t j := congrArg Fin.val hij
    exact hi.cache.unique i j _ (hblock i) (by rw [ht]; exact hblock j)
  have hcard := Fintype.card_le_of_injective _ hinj
  rw [Fintype.card_fin, Fintype.card_fin] at hcard
  have := h.room (by simp [hc])
  omega

theorem bget_isSome (horder : ∀ i, i ∈ s.order)
    (h : (∃ i, (s.buf i).blockno = some b) ∨ ∃ i, (s.buf i).refcnt = 0) :
    ∃ i s', bget s b = some (i, s') := by
  unfold bget
  cases hfind : s.order.find? fun i => (s.buf i).blockno == some b with
  | some i => exact ⟨_, _, rfl⟩
  | none =>
    cases hfree : s.order.reverse.find? fun i => (s.buf i).refcnt == 0 with
    | some i => exact ⟨_, _, rfl⟩
    | none =>
      rcases h with ⟨i, hi⟩ | ⟨i, hi⟩
      · have := List.find?_eq_none.mp hfind i (horder i)
        simp [hi] at this
      · have := List.find?_eq_none.mp hfree i (List.mem_reverse.mpr (horder i))
        simp [hi] at this

/-- A step of the commit of `p` at `c`: it does not panic, comes nearer to the end, and `p` has the
buffers of its new place. -/
structure CommitMove (start : Nat) (s s' : State) (p : Slot) (c : CommitPc) : Prop where
  panic : s'.panic = none
  n : s'.lh.n ≤ s.lh.n
  next : s'.commit = none ∧ s'.pc p = .idle ∧ (∀ i, (s'.buf i).lock ≠ some p) ∨
    ∃ c', s'.commit = some (p, c') ∧ c'.rank s'.lh.n < c.rank s.lh.n ∧
      ∀ i, (s'.buf i).lock = some p →
        i ∈ (((s'.pc p).held (c'.holds start s'.lh)).map Prod.fst)

theorem CommitMove.bread (h : Calm start s) (hi : Inv start s) (hc : s.commit = some (p, c))
    (hp : s.pc p = .idle) {next : Fin NBUF → CommitPc}
    (hbuf : (∃ i, (s.buf i).blockno = some b) ∨ c.holds start s.lh = [])
    (hholds : ∀ i, (next i).holds start s.lh = (i, b) :: c.holds start s.lh)
    (hrank : ∀ i, (next i).rank s.lh.n < c.rank s.lh.n) :
    CommitMove start s (Bio.bread s p b fun i => some (p, next i)) p c := by
  obtain ⟨i, t, hg⟩ := bget_isSome hi.cache.order
    (hbuf.imp_right fun hnone => h.exists_free hi hc hp hnone)
  obtain ⟨x, rfl, hx, -⟩ := bget_eq hg
  unfold Bio.bread
  rw [hg]
  refine ⟨h.sound (by simp [hc]), le_rfl, .inr ⟨next i, rfl, hrank i, fun j hj => ?_⟩⟩
  have hl : (s.buf j).lock = some p := by
    rcases eq_or_ne j i with rfl | hne
    · simpa [goto, hx] using hj
    · simpa [goto, hne] using hj
  have := h.own p c hc j hl
  rw [hp] at this
  simpa [goto, Pc.held, hholds i] using this

theorem CommitMove.jump (h : Calm start s) (hc : s.commit = some (p, c)) {c' : CommitPc}
    {lh : Log.LogHeader} (hholds : c'.holds start lh = c.holds start s.lh)
    (hn : lh.n ≤ s.lh.n) (hrank : c'.rank lh.n < c.rank s.lh.n) :
    CommitMove start s { s with lh, commit := some (p, c') } p c := by
  refine ⟨h.sound (by simp [hc]), hn, .inr ⟨c', rfl, hrank, fun j hj => ?_⟩⟩
  have := h.own p c hc j hj
  rwa [hholds]

section

variable (h : Calm start s) (hi : Inv start s) (hc : s.commit = some (p, c)) (hp : s.pc p = .idle)
  {c' : CommitPc} (hmem : (i, b) ∈ c.holds start s.lh)

include h hi hc hp hmem

theorem CommitMove.writeBuf (hholds : c'.holds start s.lh = c.holds start s.lh)
    (hrank : c'.rank s.lh.n < c.rank s.lh.n) (data : Block) :
    CommitMove start s (writeBuf s p i data c') p c := by
  have hown := (hi.commit p c hc).holds.owned (by simp [hp]) _ hmem
  rw [writeBuf_of_owned hown]
  refine ⟨h.sound (by simp [hc]), le_rfl, .inr ⟨c', rfl, hrank, fun j hj => ?_⟩⟩
  have hl : (s.buf j).lock = some p := by
    rcases eq_or_ne j i with rfl | hne
    · simpa using hj
    · simpa [hne] using hj
  have := h.own p c hc j hl
  rwa [hholds]

theorem CommitMove.brelse (hholds : ∀ j ≠ i, j ∈ (c.holds start s.lh).map Prod.fst →
      j ∈ (c'.holds start s.lh).map Prod.fst)
    (hrank : c'.rank s.lh.n < c.rank s.lh.n) :
    CommitMove start s { brelse s p i with commit := some (p, c') } p c := by
  have hown := (hi.commit p c hc).holds.owned (by simp [hp]) _ hmem
  unfold Bio.brelse
  rw [if_pos hown.1]
  refine ⟨h.sound (by simp [hc]), le_rfl, .inr ⟨c', rfl, hrank, fun j hj => ?_⟩⟩
  rcases eq_or_ne j i with rfl | hne
  · simp [goto, setBuf] at hj
  · have := h.own p c hc j (by simpa [goto, setBuf, hne] using hj)
    rw [hp] at this
    simpa [goto, setBuf, Pc.held] using hholds j hne this

end

theorem Inv.cached_entry (hi : Inv start s) (hc : s.commit = some (p, c)) {t : Nat}
    (hu : c.unpinned s.lh.n ≤ t) (ht : t < s.lh.n) :
    ∃ i, (s.buf i).blockno = some (s.lh.block t) := by
  have hpin : s.Pin (s.lh.block t) := ⟨t, by simpa [State.unpinned, hc] using hu, ht, rfl⟩
  obtain ⟨i, hb, -⟩ := hi.cache.cached _ hpin
  exact ⟨i, hb⟩

theorem CommitMove.commitStep (h : Calm start s) (hi : Inv start s)
    (hc : s.commit = some (p, c)) (hp : s.pc p = .idle) :
    CommitMove start s (commitStep start s p c) p c := by
  have hbound := (hi.commit p c hc).bound
  cases c with
  | log tail | install tail =>
    simp only [Bio.commitStep]
    split_ifs
    · exact .bread h hi hc hp (.inr rfl) (fun _ => rfl) fun _ => by simp [rank]
    · exact .jump h hc rfl le_rfl (by simp only [rank]; omega)
  | logFrom tail dst =>
    exact .bread h hi hc hp (.inl (hi.cached_entry hc (Nat.zero_le _) hbound)) (fun _ => rfl)
      fun _ => by simp [rank]
  | logCopy tail dst src =>
    refine .writeBuf h hi hc hp (i := dst) (b := start + tail + 1) ?_ ?_ ?_ _
    · simp [holds]
    · rfl
    · simp [rank]
  | logRelFrom tail dst src =>
    refine .brelse h hi hc hp (b := s.lh.block tail) (by simp [holds]) ?_
      (by simp [rank])
    intro j hj hm
    simpa [holds, hj] using hm
  | logRelTo tail dst =>
    refine .brelse h hi hc hp (b := start + tail + 1) (by simp [holds]) ?_ ?_
    · intro j hj hm
      simp [holds, hj] at hm
    · simp only [Bound, rank] at hbound ⊢
      omega
  | head erase =>
    refine .bread h hi hc hp (.inr rfl) (fun _ => rfl) fun _ => ?_
    cases erase <;> simp [rank]
  | headSet erase buf =>
    refine .writeBuf h hi hc hp (i := buf) (b := start) ?_ ?_ ?_ _
    · simp [holds]
    · rfl
    · cases erase <;> simp [rank]
  | headRel erase buf =>
    refine .brelse h hi hc hp (b := start) (by simp [holds]) ?_ ?_
    · intro j hj hm
      simp [holds, hj] at hm
    · cases erase <;> simp [rank]
  | installTo tail lbuf =>
    exact .bread h hi hc hp (.inl (hi.cached_entry hc le_rfl hbound)) (fun _ => rfl)
      fun _ => by simp [rank]
  | installCopy tail lbuf dbuf =>
    refine .writeBuf h hi hc hp (i := dbuf) (b := s.lh.block tail) ?_ ?_ ?_ _
    · simp [holds]
    · rfl
    · simp [rank]
  | installUnpin tail lbuf dbuf =>
    simp only [Bio.commitStep]
    refine ⟨h.sound (by simp [hc]), le_rfl, .inr ⟨_, rfl, ?_, fun j hj => ?_⟩⟩
    · simp only [setBuf, rank]
      omega
    · refine h.own p _ hc j ?_
      rcases eq_or_ne j dbuf with rfl | hne
      · simpa [setBuf] using hj
      · simpa [setBuf, hne] using hj
  | installRelLog tail lbuf dbuf =>
    refine .brelse h hi hc hp (b := start + tail + 1) (by simp [holds]) ?_
      (by simp [rank])
    intro j hj hm
    simpa [holds, hj] using hm
  | installRel tail dbuf =>
    refine .brelse h hi hc hp (b := s.lh.block tail) (by simp [holds]) ?_ ?_
    · intro j hj hm
      simp [holds, hj] at hm
    · simp only [Bound, rank] at hbound ⊢
      omega
  | clear => exact .jump h hc rfl (Nat.zero_le _) (by simp [rank])
  | finish =>
    refine ⟨h.sound (by simp [hc]), le_rfl, .inl ⟨rfl, hp, fun j hj => ?_⟩⟩
    have := h.own p _ hc j hj
    simp [hp, Pc.held, holds] at this

theorem CommitMove.run (h : Calm start s) (hi : Inv start s) (hc : s.commit = some (p, c))
    (hs : step start s (.run p) = some s') :
    s'.panic = none ∧ s'.lh = s.lh ∧ s'.commit = s.commit ∧ (s'.pc p).rank < (s.pc p).rank ∧
      ∀ i, (s'.buf i).lock = some p →
        i ∈ (((s'.pc p).held (c.holds start s.lh)).map Prod.fst) := by
  have hpanic := h.sound (by simp [hc])
  have hhold := (hi.commit p c hc).holds
  -- a step that leaves the sleep-locks alone
  have hkeep : ∀ {j}, (s.buf j).lock = some p →
    j ∈ ((s.pc p).held (c.holds start s.lh)).map Prod.fst :=
    fun hj => h.own p c hc _ hj
  cases (step_cases hs).2 with
  | @lock _ i b _ hp hs =>
    obtain ⟨-, hs⟩ := ite_none_right_eq_some.mp hs
    unfold Holding at hhold
    rw [hp] at hhold hkeep
    obtain ⟨rest, hl, -⟩ := hhold
    have hmem : ∀ j, (update s.buf i { s.buf i with lock := some p } j).lock = some p →
        j ∈ (c.holds start s.lh).map Prod.fst := by
      intro j hj
      rw [hl] at hkeep ⊢
      rcases eq_or_ne j i with rfl | hne
      · simp
      · rw [update_of_ne hne] at hj
        exact List.mem_cons_of_mem _ (hkeep hj)
    by_cases hv : ((s.setBuf i fun x => { x with lock := some p }).buf i).valid
    · rw [if_pos hv] at hs
      cases hs
      refine ⟨hpanic, rfl, rfl, ?_, ?_⟩
      · simp [breadReturn, goto, hp, Pc.rank]
      · simpa only [breadReturn, goto, setBuf, update_self, Pc.held] using hmem
    · rw [if_neg hv] at hs
      cases hs
      refine ⟨hpanic, rfl, rfl, ?_, ?_⟩
      · simp [goto, hp, Pc.rank]
      · simpa only [goto, setBuf, update_self, Pc.held] using hmem
  | @fill _ i b hp =>
    rw [hp] at hkeep
    refine ⟨hpanic, rfl, rfl, ?_, fun j hj => ?_⟩
    · simp [fillStep, breadReturn, goto, hp, Pc.rank]
    · have := hkeep (by
        rcases eq_or_ne j i with rfl | hne
        · simpa [fillStep, breadReturn, goto, setBuf] using hj
        · simpa [fillStep, breadReturn, goto, setBuf, hne] using hj)
      simpa [fillStep, breadReturn, goto, Pc.held] using this
  | @unref _ i hp =>
    rw [hp] at hkeep
    refine ⟨hpanic, rfl, rfl, ?_, fun j hj => ?_⟩
    · simp [unrefStep, goto, hp, Pc.rank]
    · have := hkeep (by
        rcases eq_or_ne j i with rfl | hne
        · simpa [unrefStep, goto, setBuf] using hj
        · simpa [unrefStep, goto, setBuf, hne] using hj)
      simpa [unrefStep, goto, Pc.held] using this

theorem bread_commit : (bread s p b fun _ => s.commit).commit = s.commit := by
  unfold bread
  cases bget s b <;> rfl

theorem logWrite_commit : (logWrite s i b).commit = s.commit := by
  unfold logWrite
  dsimp only
  split_ifs <;> rfl

theorem brelse_commit : (brelse s p i).commit = s.commit := by
  unfold brelse
  split_ifs <;> rfl

theorem lockStep_commit (hs : lockStep s p i b = some s') : s'.commit = s.commit := by
  obtain ⟨-, hs⟩ := ite_none_right_eq_some.mp hs
  dsimp only at hs
  split_ifs at hs <;> cases hs <;> rfl

theorem step_commit_none (hs : step start s e = some s') (hc : s.commit = none)
    (he : ∀ p, e ≠ .end p) : s'.commit = none := by
  cases (step_cases hs).2 with
  | begin _ _ hs =>
    obtain ⟨-, hs⟩ := ite_none_right_eq_some.mp hs
    cases hs
    exact hc
  | «end» => exact absurd rfl (he _)
  | bread => rw [bread_commit, hc]
  | logWrite => rw [logWrite_commit, hc]
  | brelse => rw [brelse_commit, hc]
  | lock _ hs => rw [lockStep_commit hs, hc]
  | modify | fill | unref => exact hc
  | commit _ hcommit => rw [hc] at hcommit; cases hcommit

variable {x : OpState}

theorem Calm.committer (h : Calm start x.cache) (hi : Inv start x.cache)
    (hc : x.cache.commit = some (p, c)) (hf : e.Frugal x) (hs : step start x.cache e = some s') :
    e = .run p ∨ e = .commit p ∧ x.cache.pc p = .idle := by
  have hquiet : ∀ q, x.cache.op q ≠ true := fun q hop => by
    rw [hi.quiet (by simp [hc]) q] at hop
    cases hop
  cases (step_cases hs).2 with
  | begin _ _ hs =>
    obtain ⟨hg, -⟩ := ite_none_right_eq_some.mp hs
    rw [hc] at hg
    cases hg.1
  | «end» _ hop => exact absurd hop (hquiet _)
  | bread => exact absurd hf.1 (hquiet _)
  | modify _ hw | logWrite _ hw => exact absurd hw.2.2.1 (hquiet _)
  | @brelse q i hclient hl =>
    have hqp : q ≠ p := by
      rintro rfl
      exact hclient.ne c hc
    exact absurd hl ((h.alone hi hc hqp).2 i)
  | @lock q _ _ _ hp | @fill q _ _ hp | @unref q _ hp =>
    by_cases hqp : q = p
    · exact .inl (by rw [hqp])
    · rw [(h.alone hi hc hqp).1] at hp
      cases hp
  | commit hp hc' =>
    cases hc.symm.trans hc'
    exact .inr ⟨rfl, hp⟩

theorem step_commit_eq (hs : step start s (.commit p) = some s') (hc : s.commit = some (p, c)) :
    s' = commitStep start s p c := by
  cases (step_cases hs).2 with
  | commit _ hc' =>
    cases hc.symm.trans hc'
    rfl

theorem Calm.commitMove (h : Calm start s) (hi : Inv start s) (hc : s.commit = some (p, c))
    (ho : Touch s { s' with op := s.op } p) (hm : CommitMove start s s' p c) : Calm start s' := by
  have hother : ∀ q ≠ p, s'.pc q = .idle ∧ ∀ i, (s'.buf i).lock ≠ some q := by
    intro q hq
    obtain ⟨h1, h2⟩ := h.alone hi hc hq
    exact ⟨(ho.pc q hq).trans h1, fun i hl => h2 i (ho.lock q hq i hl)⟩
  have hroom := h.room (by simp [hc])
  rcases hm.next with ⟨hnone, hidle, hfree⟩ | ⟨c', hc', -, hown⟩
  · refine ⟨fun q _ _ => ?_, fun q d hd => ?_, fun hne => ?_, fun _ => hm.panic⟩
    · rcases eq_or_ne q p with rfl | hq
      · exact ⟨hidle, hfree⟩
      · exact hother q hq
    · rw [hnone] at hd
      cases hd
    · exact absurd hnone hne
  · refine ⟨fun q _ hq => hother q ?_, fun q d hd => ?_, fun _ => ?_, fun _ => hm.panic⟩
    · rintro rfl
      exact hq c' hc'
    · rw [hc'] at hd
      cases hd
      exact hown
    · exact lt_of_le_of_lt hm.n hroom

theorem Calm.run (h : Calm start s) (hi : Inv start s) (hc : s.commit = some (p, c))
    (hs : step start s (.run p) = some s') : Calm start s' := by
  obtain ⟨hpanic, hlh, hcommit, -, hown⟩ := CommitMove.run h hi hc hs
  have ho : Touch s { s' with op := s.op } p := (step_touch hs).2
  refine ⟨fun q _ hq => ?_, fun q d hd => ?_, fun _ => ?_, fun _ => hpanic⟩
  · have hqp : q ≠ p := by
      rintro rfl
      exact hq c (hcommit.trans hc)
    obtain ⟨h1, h2⟩ := h.alone hi hc hqp
    exact ⟨(ho.pc q hqp).trans h1, fun i hl => h2 i (ho.lock q hqp i hl)⟩
  · rw [hcommit, hc] at hd
    cases hd
    rw [hlh]
    exact hown
  · rw [hlh]
    exact h.room (by simp [hc])

theorem Calm.end (h : Calm start x.cache) (hi : Inv start x.cache)
    (hf : (Event.end p).Frugal x) (hspare : (Event.end p).Spare x)
    (hs : step start x.cache (.end p) = some s') : Calm start s' := by
  obtain ⟨hops, -⟩ := step_touch hs
  obtain ⟨hpanic, hsteps⟩ := step_cases hs
  obtain ⟨hclient, hop, rfl⟩ : Client x.cache p ∧ x.cache.op p = true ∧ s' = endOp x.cache p := by
    cases hsteps with | «end» hclient hop => exact ⟨hclient, hop, rfl⟩
  have hc := hi.not_committing hop
  have hstate : (endOp x.cache p).buf = x.cache.buf ∧ (endOp x.cache p).pc = x.cache.pc ∧
      (endOp x.cache p).lh = x.cache.lh ∧ (endOp x.cache p).panic = none ∧
      ((endOp x.cache p).commit ≠ none → x.cache.outstanding = 1) ∧
      ∀ q d, (endOp x.cache p).commit = some (q, d) → q = p := by
    simp only [endOp, hc, isSome_none, Bool.false_eq_true, if_false]
    by_cases hz : x.cache.outstanding - 1 = 0
    · rw [if_pos hz]
      refine ⟨rfl, rfl, rfl, hpanic, fun _ => by omega, fun q d hd => ?_⟩
      cases hd
      rfl
    · rw [if_neg hz]
      exact ⟨rfl, rfl, rfl, hpanic, fun hne => absurd rfl hne, nofun⟩
  obtain ⟨hbuf, hpc, hlh, hpanic', hout, hwho⟩ := hstate
  refine ⟨fun q hop _ => ?_, fun q d hd i hl => ?_, fun hne => ?_, fun _ => hpanic'⟩
  · rw [hbuf, hpc]
    rcases eq_or_ne q p with rfl | hqp
    · exact ⟨hclient.idle, hf⟩
    · rw [hops q hqp] at hop
      exact h.idle q hop (by simp [hc])
  · rw [hwho q d hd, hbuf] at hl
    exact absurd hl (hf i)
  · rw [hlh]
    exact hspare (hout hne)

theorem Calm.in_op (h : Calm start x.cache) (hc : x.cache.commit = none)
    (hf : e.Frugal x) (hs : step start x.cache e = some s') (he : ∀ p, e ≠ .end p) :
    s'.op e.who = true := by
  have hidle : ∀ q, x.cache.op q ≠ true →
      x.cache.pc q = .idle ∧ ∀ i, (x.cache.buf i).lock ≠ some q := fun q hop =>
    h.idle q (Bool.eq_false_of_not_eq_true hop) (by simp [hc])
  -- a process that is inside of a call has begun an operation
  have hbusy : ∀ {q}, x.cache.pc q ≠ .idle → x.cache.op q = true := by
    intro q hq
    by_contra hop
    exact hq (hidle q hop).1
  cases (step_cases hs).2 with
  | begin _ _ hs =>
    obtain ⟨-, hs⟩ := ite_none_right_eq_some.mp hs
    cases hs
    exact update_self ..
  | «end» => exact absurd rfl (he _)
  | bread => rw [(Touch.bread _).op]; exact hf.1
  | modify _ hw => exact hw.2.2.1
  | @logWrite p _ _ _ hw => rw [(Touch.logWrite (p := p)).op]; exact hw.2.2.1
  | @brelse p i _ hl =>
    rw [Touch.brelse.op]
    by_contra hop
    exact (hidle p hop).2 i hl
  | lock hp hs => rw [(Touch.lockStep hs).op]; exact hbusy (by simp [Event.who, hp])
  | fill hp | unref hp => exact hbusy (by simp [Event.who, hp])
  | commit _ hcommit => rw [hc] at hcommit; cases hcommit

theorem Calm.step (h : Calm start x.cache) (hi : Inv start x.cache)
    (hf : e.Frugal x) (hspare : e.Spare x) (hs : step start x.cache e = some s') :
    Calm start s' := by
  cases hc : x.cache.commit with
  | some pc =>
    obtain ⟨p, c⟩ := pc
    rcases h.committer hi hc hf hs with rfl | ⟨rfl, hp⟩
    · exact h.run hi hc hs
    · refine h.commitMove hi hc (step_touch hs).2 ?_
      rw [step_commit_eq hs hc]
      exact .commitStep h hi hc hp
  | none =>
    by_cases he : ∃ p, e = .end p
    · obtain ⟨p, rfl⟩ := he
      exact h.end hi hf hspare hs
    push Not at he
    have hc' := step_commit_none hs hc he
    obtain ⟨hops, ho⟩ := step_touch hs
    refine ⟨fun q hop _ => ?_, by simp [hc'], by simp [hc'], by simp [hc']⟩
    by_cases hq : q = e.who
    · rw [hq, h.in_op hc hf hs he] at hop
      cases hop
    · rw [hops q hq] at hop
      obtain ⟨h1, h2⟩ := h.idle q hop (by simp [hc])
      exact ⟨(ho.pc q hq).trans h1, fun i hl => h2 i (ho.lock q hq i hl)⟩

theorem Inv.holds_ne (hi : Inv start s) (hc : s.commit = some (p, c)) {l : List (Fin NBUF × Nat)}
    (hl : c.holds start s.lh = (i, b) :: l) (y : Fin NBUF × Nat) (hy : y ∈ l) : b ≠ y.2 := by
  have hbound := (hi.commit p c hc).bound
  cases c with
  | logCopy tail dst src | logRelFrom tail dst src | installCopy tail lbuf dbuf
  | installUnpin tail lbuf dbuf | installRelLog tail lbuf dbuf =>
    have hne := hi.block_ne hbound (hi.inLog hbound)
    simp only [holds, List.cons.injEq, Prod.mk.injEq] at hl
    obtain ⟨⟨-, rfl⟩, rfl⟩ := hl
    rw [List.mem_singleton] at hy
    subst hy
    exact hne
  | _ =>
    simp only [holds, List.cons.injEq, reduceCtorEq] at hl <;>
    · rw [← hl.2] at hy
      cases hy

theorem Calm.progress (h : Calm start s) (hi : Inv start s) (hc : s.commit = some (p, c)) :
    ∃ e s', (e = .run p ∨ e = .commit p) ∧ Bio.step start s e = some s' ∧ Calm start s' ∧
      (s'.commit = none ∧ s'.panic = none ∨ ∃ c', s'.commit = some (p, c') ∧
        3 * c'.rank s'.lh.n + (s'.pc p).rank < 3 * c.rank s.lh.n + (s.pc p).rank) := by
  have hpanic := h.sound (by simp [hc])
  cases hp : s.pc p with
  | idle =>
    have hs : Bio.step start s (.commit p) = some (commitStep start s p c) := by
      simp [Bio.step, hpanic, hp, hc]
    have hm := CommitMove.commitStep h hi hc hp
    have hcalm := h.commitMove hi hc (step_touch hs).2 hm
    refine ⟨_, _, .inr rfl, hs, hcalm, ?_⟩
    rcases hm.next with ⟨hnone, -, -⟩ | ⟨c', hc', hrank, -⟩
    · exact .inl ⟨hnone, hm.panic⟩
    · refine .inr ⟨c', hc', ?_⟩
      have hpc : ((commitStep start s p c).pc p).rank ≤ 2 := by
        cases (commitStep start s p c).pc p <;> simp [Pc.rank]
      omega
  | lock i b =>
    -- nobody else has the buffer, and the commit does not have it either
    have hfree : (s.buf i).lock = none := by
      cases hl : (s.buf i).lock with
      | none => rfl
      | some q =>
        exfalso
        by_cases hqp : q = p
        · subst hqp
          have hmem := h.own q c hc i hl
          have hhold := (hi.commit q c hc).holds
          unfold Holding at hhold
          rw [hp] at hhold hmem
          obtain ⟨rest, hl', hrest⟩ := hhold
          rw [Pc.held, hl', List.tail_cons] at hmem
          obtain ⟨y, hy, hyi⟩ := List.mem_map.mp hmem
          have hb := hi.cache.waiting q i b hp
          have hby := (hrest y hy).2.1
          rw [hyi, hb] at hby
          exact hi.holds_ne hc hl' y hy (some.inj hby)
        · exact (h.alone hi hc hqp).2 i hl
    have hs : ∃ s', Bio.step start s (.run p) = some s' := by
      simp only [Bio.step, hpanic, isSome_none, Bool.false_eq_true, if_false, hp, lockStep,
        hfree, if_true]
      split_ifs
      · exact ⟨_, rfl⟩
      · exact ⟨_, rfl⟩
    obtain ⟨s', hs⟩ := hs
    obtain ⟨-, hlh, hcommit, hrank, -⟩ := CommitMove.run h hi hc hs
    rw [hp] at hrank
    exact ⟨_, s', .inl rfl, hs, h.run hi hc hs, .inr ⟨c, hcommit.trans hc, by rw [hlh]; omega⟩⟩
  | fill i b | unref i =>
    have hs : ∃ s', Bio.step start s (.run p) = some s' := by simp [Bio.step, hpanic, hp]
    obtain ⟨s', hs⟩ := hs
    obtain ⟨-, hlh, hcommit, hrank, -⟩ := CommitMove.run h hi hc hs
    rw [hp] at hrank
    exact ⟨_, s', .inl rfl, hs, h.run hi hc hs, .inr ⟨c, hcommit.trans hc, by rw [hlh]; omega⟩⟩

theorem Calm.finishes (h : Calm start s) (hi : Inv start s) (hc : s.commit = some (p, c)) :
    ∃ es s', (∀ e ∈ es, e = .run p ∨ e = .commit p) ∧ runEvents (Bio.step start) s es = some s' ∧
      s'.commit = none ∧ s'.panic = none := by
  -- by induction on how many steps are left
  induction hm : 3 * c.rank s.lh.n + (s.pc p).rank using Nat.strong_induction_on
    generalizing s c with
  | _ m ih =>
    obtain ⟨e, s', he, hs, hcalm, hend | ⟨c', hc', hlt⟩⟩ := h.progress hi hc
    · exact ⟨[e], s', by simpa using he, by simp [runEvents, hs], hend⟩
    · obtain ⟨es, t, hes, hrun, ht⟩ := ih _ (hm ▸ hlt) hcalm (hi.step hs) hc' rfl
      refine ⟨e :: es, t, ?_, by simp [runEvents, hs, hrun], ht⟩
      intro e' he'
      rcases List.mem_cons.mp he' with rfl | he'
      · exact he
      · exact hes e' he'

def Event.Roomy (x : OpState) (e : Event) : Prop := e.Frugal x ∧ e.Spare x

instance (x : OpState) (e : Event) : Decidable (e.Roomy x) := instDecidableAnd

theorem reachable_calm
    (h : Reachable OpState.Start (restrict Event.Roomy (OpState.step start)) x) :
    Inv start x.cache ∧ Calm start x.cache := by
  refine h.invariant (P := fun x => Inv start x.cache ∧ Calm start x.cache) ?_ ?_
  · rintro x ⟨hstart, hpanic⟩
    refine ⟨hstart.inv, fun q _ _ => ⟨hstart.pc q, fun i hl => ?_⟩, ?_, ?_, fun _ => hpanic⟩
    · rw [(hstart.free i).1] at hl
      cases hl
    · simp [hstart.commit]
    · simp [hstart.commit]
  · rintro x e x' ⟨hi, hcalm⟩ hs
    obtain ⟨hok, hs⟩ := restrict_eq_some.mp hs
    obtain ⟨s', hs', rfl⟩ := map_eq_some_iff.mp hs
    exact ⟨hi.step hs', hcalm.step hi hok.1 hok.2 hs'⟩

/-- Operations that log at most `MAXOPBLOCKS` blocks each, and have at most one buffer that is not
logged, leave the buffers that a commit needs, provided that the last of them ends with fewer than
`NBUF` blocks in the log: in every run, no step of a commit has panicked, and from every state in
the middle of a commit its next steps lead to its end. -/
theorem commit_has_buffers {x : OpState}
    (h : Reachable OpState.Start (restrict Event.Roomy (OpState.step start)) x)
    (hc : x.cache.commit = some (p, c)) :
    x.cache.panic = none ∧ ∃ es s', (∀ e ∈ es, e = .run p ∨ e = .commit p) ∧
      runEvents (step start) x.cache es = some s' ∧ s'.commit = none ∧ s'.panic = none := by
  obtain ⟨hi, hcalm⟩ := reachable_calm h
  exact ⟨hcalm.sound (by simp [hc]), hcalm.finishes hi hc⟩

/-- What `p` does to read block `b`, log it in buffer `i` and give the buffer up. -/
def logBlock (p : Slot) (b : Nat) (i : Fin NBUF) : List Event :=
  [.bread p b, .run p, .run p, .logWrite p i, .brelse p i, .run p]

/-- Three operations log `n` blocks, up to `MAXOPBLOCKS` each, and end. -/
def fillLog (n : Nat) : List Event :=
  [.begin 0, .begin 1, .begin 2] ++
    (List.range n).flatMap (fun t =>
      logBlock (Fin.ofNat NPROC (t / MAXOPBLOCKS)) (100 + t) (Fin.ofNat NBUF t)) ++
    [.end 0, .end 1, .end 2]

/-- With one block less the commit gets through. -/
theorem commit_has_buffers_almostFull : ∃ x : OpState,
    Reachable OpState.Start (restrict Event.Roomy (OpState.step 2)) x ∧
      x.cache.lh.n = NBUF - 1 ∧ ∃ es s', runEvents (step 2) x.cache es = some s' ∧
        s'.commit = none ∧ s'.panic = none := by
  have hrun : (runEvents (restrict Event.Roomy (OpState.step 2))
      { cache := boot, logged := fun _ => [] } (fillLog (LOGBLOCKS - 1))).any
      (fun x => decide (x.cache.lh.n = NBUF - 1) &&
        x.cache.commit.any fun c => decide (c.1 = 2)) := by
    decide +kernel
  obtain ⟨x, hx, hok⟩ := (any_eq_true _ _).mp hrun
  simp only [Bool.and_eq_true, decide_eq_true_eq, any_eq_true] at hok
  obtain ⟨hn, ⟨p, c⟩, hc, rfl⟩ := hok
  have hreach : Reachable OpState.Start (restrict Event.Roomy (OpState.step 2)) x :=
    Reachable.run (.start ⟨boot_start, rfl⟩) _ hx
  obtain ⟨-, es, s', -, hend⟩ := commit_has_buffers hreach hc
  exact ⟨x, hreach, hn, es, s', hend⟩

/-- Three operations fill the log. The commit of the last one needs a buffer for the first block of
the log, and every buffer is pinned. -/
theorem commit_finds_no_buffer : ∃ x,
    Reachable OpState.Start (restrict Event.Frugal (OpState.step 2)) x ∧
      x.cache.commit.isSome ∧ x.cache.panic = some "bget: no buffers" := by
  have hrun : (runEvents (restrict Event.Frugal (OpState.step 2))
      { cache := boot, logged := fun _ => [] } (fillLog LOGBLOCKS ++ [.commit 2])).any
      (fun x => x.cache.commit.isSome && decide (x.cache.panic = some "bget: no buffers")) := by
    decide +kernel
  obtain ⟨x, hx, hok⟩ := (any_eq_true _ _).mp hrun
  simp only [Bool.and_eq_true, decide_eq_true_eq] at hok
  exact ⟨x, Reachable.run (.start ⟨boot_start, rfl⟩) _ hx, hok⟩

end Xv6.Bio
