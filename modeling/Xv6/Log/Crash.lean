import Xv6.Log.Commit

/-! Crash atomicity of the redo log. At every point of a run of commits, and of any number of
recoveries that are cut short, the disk is `Pending` some list of blocks: the header names them,
the log holds their contents, and replaying them gives the disk after the durable transactions. -/

namespace Xv6.Log

open Redo List

def Outside (start b : Nat) : Prop := b < start ∨ start + LOGBLOCKS < b

section

variable (m : Machine) (b : Nat)

include m b

@[simp] theorem bread_disk : (bread m b).disk = m.disk := rfl
@[simp] theorem bread_lh : (bread m b).lh = m.lh := rfl
@[simp] theorem bread_writes : (bread m b).writes = m.writes := rfl

@[simp] theorem bread_data : (bread m b).data = m.data := by
  funext x
  by_cases hx : x = b
  · subst hx
    simp [bread, Machine.data]
  · simp [bread, Machine.data, Function.update_of_ne hx]

theorem bwrite_data (v : Block) :
    (bwrite m b v).data = Function.update m.data b v := by
  funext x
  by_cases hx : x = b
  · subst hx
    simp [bwrite, Machine.data]
  · simp [bwrite, Machine.data, Function.update_of_ne hx]

end

/-- From `m` to `m'` exactly the writes `ws` are made, in order, and the header is the same. -/
structure Emits (m m' : Machine) (ws : List (Nat × Block)) : Prop where
  writes : m'.writes = m.writes ++ ws
  disk : m'.disk = replay m.disk ws
  data : m'.data = replay m.data ws
  lh : m'.lh = m.lh

theorem Emits.refl (m : Machine) : Emits m m [] := ⟨by simp, rfl, rfl, rfl⟩

theorem Emits.trans {m m1 m2 : Machine} {ws vs : List (Nat × Block)} (h1 : Emits m m1 ws)
    (h2 : Emits m1 m2 vs) : Emits m m2 (ws ++ vs) :=
  ⟨by rw [h2.writes, h1.writes, append_assoc], by rw [h2.disk, h1.disk, replay_append],
    by rw [h2.data, h1.data, replay_append], h2.lh.trans h1.lh⟩

theorem bwrite_emits (m : Machine) (b : Nat) (v : Block) : Emits m (bwrite m b v) [(b, v)] :=
  ⟨rfl, rfl, bwrite_data m b v, rfl⟩

theorem Emits.of_bread {m m' : Machine} {b : Nat} {ws : List (Nat × Block)}
    (h : Emits (bread m b) m' ws) : Emits m m' ws :=
  ⟨h.writes, h.disk, by rw [h.data, bread_data], h.lh⟩

/-- A loop that copies block `src i` to block `dst i`, where no copy is a later source, writes the
contents that the sources have at its start. -/
theorem copyLoop_emits {step : Machine → Nat → Machine} (dst src : Nat → Nat)
    {m : Machine} {n : Nat}
    (hstep : ∀ m' i, m'.lh = m.lh → Emits m' (step m' i) [(dst i, m'.data (src i))])
    (hsep : ∀ i < n, ∀ j < n, dst i ≠ src j) :
    Emits m ((range n).foldl step m)
      ((range n).map fun i => (dst i, m.data (src i))) := by
  induction n with
  | zero => exact Emits.refl m
  | succ n ih =>
    have ih := ih fun i hi j hj => hsep i (by omega) j (by omega)
    rw [range_succ, foldl_append, map_append]
    refine ih.trans ?_
    have h := hstep _ n ih.lh
    have hsrc : ((range n).foldl step m).data (src n) = m.data (src n) := by
      rw [ih.data]
      refine replay_other fun w hw => ?_
      obtain ⟨i, hi, rfl⟩ := mem_map.mp hw
      exact hsep i (by have := mem_range.mp hi; omega) n (by omega)
    rw [hsrc] at h
    exact h

variable (start : Nat)

theorem writeLog_emits {m : Machine} (hn : m.lh.n ≤ LOGBLOCKS)
    (hout : ∀ i < m.lh.n, Outside start (m.lh.block i)) :
    Emits m (writeLog start m)
      ((range m.lh.n).map fun i => (start + i + 1, m.data (m.lh.block i))) := by
  refine copyLoop_emits (fun i => start + i + 1) m.lh.block ?_ ?_
  · intro m' i hlh
    have h := bwrite_emits (bread (bread m' (start + i + 1)) (m'.lh.block i)) (start + i + 1)
      (m'.data (m'.lh.block i))
    rw [← hlh]
    simpa [logBlock] using h.of_bread.of_bread
  · intro i hi j hj
    have := hout j hj
    unfold Outside at this
    simp only [LOGBLOCKS, MAXOPBLOCKS] at *
    omega

theorem installTrans_emits {m : Machine} (hn : m.lh.n ≤ LOGBLOCKS)
    (hout : ∀ i < m.lh.n, Outside start (m.lh.block i)) :
    Emits m (installTrans start m)
      ((range m.lh.n).map fun i => (m.lh.block i, m.data (start + i + 1))) := by
  refine copyLoop_emits m.lh.block (fun i => start + i + 1) ?_ ?_
  · intro m' i hlh
    have h := bwrite_emits (bread (bread m' (start + i + 1)) (m'.lh.block i)) (m'.lh.block i)
      (m'.data (start + i + 1))
    rw [← hlh]
    simpa [installBlock] using h.of_bread.of_bread
  · intro i hi j hj
    have := hout i hi
    unfold Outside at this
    simp only [LOGBLOCKS, MAXOPBLOCKS] at *
    omega

theorem writeHead_emits (m : Machine) :
    Emits m (writeHead start m) [(start, putHead m.lh (m.data start))] := by
  have h := bwrite_emits (bread m start) start (putHead m.lh (m.data start))
  simpa [writeHead] using h.of_bread

theorem putHead_words (lh : LogHeader) (buf : Block) (k : Nat) (hk : k ≤ LOGBLOCKS)
    (hn : lh.n < 2 ^ 32) (hb : ∀ i < k, lh.block i < 2 ^ 32) :
    let out := (range k).foldl (fun buf i => buf.setWord (i + 1) (lh.block i))
      (buf.setWord 0 lh.n)
    out.word 0 = lh.n ∧ ∀ i < k, out.word (i + 1) = lh.block i := by
  induction k with
  | zero => exact ⟨Block.word_setWord_same _ (by decide) hn, by simp⟩
  | succ k ih =>
    simp only [LOGBLOCKS, MAXOPBLOCKS] at hk
    obtain ⟨h0, hs⟩ := ih (by simp only [LOGBLOCKS, MAXOPBLOCKS]; omega) fun i hi =>
      hb i (by omega)
    simp only [range_succ, foldl_append, foldl_cons, foldl_nil]
    refine ⟨by rw [Block.word_setWord_ne _ _ (by omega), h0], fun i hi => ?_⟩
    rcases lt_or_eq_of_le (Nat.le_of_lt_succ hi) with h | rfl
    · rw [Block.word_setWord_ne _ _ (by omega), hs i h]
    · exact Block.word_setWord_same _ (by omega) (hb i hi)

theorem word_putHead (lh : LogHeader) (buf : Block) (hn : lh.n ≤ LOGBLOCKS)
    (hb : ∀ i < lh.n, lh.block i < 2 ^ 32) :
    (putHead lh buf).word 0 = lh.n ∧ ∀ i < lh.n, (putHead lh buf).word (i + 1) = lh.block i :=
  putHead_words lh buf lh.n hn (by simp only [LOGBLOCKS, MAXOPBLOCKS] at hn; omega) hb

variable {start}

/-- The disk `d` has the blocks `t` still to be installed: the header counts and names them, and
the log blocks hold their contents. -/
structure Pending (start : Nat) (d : Nat → Block) (t : List (Nat × Block)) : Prop where
  count : (d start).word 0 = t.length
  length_le : t.length ≤ LOGBLOCKS
  block : ∀ i (h : i < t.length), (d start).word (i + 1) = t[i].1
  copy : ∀ i (h : i < t.length), d (start + i + 1) = t[i].2
  outside : ∀ p ∈ t, Outside start p.1

variable {d : Nat → Block}

/-- A header with `n = 0` has nothing pending, whatever its other entries and the log blocks. -/
theorem pending_nil (h : (d start).word 0 = 0) : Pending start d [] :=
  ⟨h, by simp, by simp, by simp, by simp⟩

theorem Pending.word_zero (h : Pending start d []) : (d start).word 0 = 0 := h.count

theorem Pending.congr {d d' : Nat → Block} {t : List (Nat × Block)} (h : Pending start d t)
    (hd : ∀ b, start ≤ b → b ≤ start + LOGBLOCKS → d' b = d b) : Pending start d' t := by
  have hlen := h.length_le
  refine ⟨?_, h.length_le, fun i hi => ?_, fun i hi => ?_, h.outside⟩
  · rw [hd start (by omega) (by omega), h.count]
  · rw [hd start (by omega) (by omega), h.block i hi]
  · rw [hd _ (by omega) (by omega), h.copy i hi]

theorem Pending.replay_home {t ws : List (Nat × Block)} (h : Pending start d t)
    (hws : ∀ w ∈ ws, Outside start w.1) : Pending start (replay d ws) t := by
  refine h.congr fun b h1 h2 => replay_other fun w hw hb => ?_
  have := hws w hw
  unfold Outside at this
  omega

/-- The disk `d` recovers to `target` outside the log region. -/
def Safe (start : Nat) (d target : Nat → Block) : Prop :=
  ∃ t, Pending start d t ∧ ∀ b, Outside start b → replay d t b = target b

theorem Safe.congr {d target target' : Nat → Block} (h : Safe start d target)
    (ht : ∀ b, Outside start b → target b = target' b) : Safe start d target' := by
  obtain ⟨t, hp, hr⟩ := h
  exact ⟨t, hp, fun b hb => (hr b hb).trans (ht b hb)⟩

theorem outside_ne_start {b : Nat} (h : Outside start b) : b ≠ start := by
  rintro rfl
  unfold Outside at h
  omega

@[simp] theorem setHead_disk (m : Machine) (lh : LogHeader) : (setHead m lh).disk = m.disk := rfl
@[simp] theorem setHead_lh (m : Machine) (lh : LogHeader) : (setHead m lh).lh = lh := rfl
@[simp] theorem setHead_data (m : Machine) (lh : LogHeader) : (setHead m lh).data = m.data := rfl

@[simp] theorem setHead_writes (m : Machine) (lh : LogHeader) :
    (setHead m lh).writes = m.writes := rfl

variable (start) in
theorem readHead_lh (m : Machine) : (readHead start m).lh = headOf (m.data start) m.lh := by
  simp [readHead]

@[simp] theorem boot_data (d : Nat → Block) : (boot d).data = d := rfl
@[simp] theorem boot_disk (d : Nat → Block) : (boot d).disk = d := rfl
@[simp] theorem boot_writes (d : Nat → Block) : (boot d).writes = [] := rfl

variable (start) in
/-- Clearing the header and writing it to the disk, as `commit` and `recover_from_log` end. -/
theorem clear_emits (m : Machine) : ∃ head : Block, head.word 0 = 0 ∧
    (writeHead start (clearHead m)).writes = m.writes ++ [(start, head)] ∧
    (writeHead start (clearHead m)).disk = replay m.disk [(start, head)] := by
  have h := writeHead_emits start (clearHead m)
  refine ⟨_, ?_, h.writes, h.disk⟩
  exact (word_putHead { m.lh with n := 0 } _ (Nat.zero_le _) fun i hi =>
    absurd hi (Nat.not_lt_zero i)).1

theorem Pending.headOf_eq {t : List (Nat × Block)} (h : Pending start d t)
    (old : LogHeader) : (headOf (d start) old).n = t.length ∧
      ∀ i (hi : i < t.length), (headOf (d start) old).block i = t[i].1 := by
  have hlen := h.length_le
  simp only [LOGBLOCKS, MAXOPBLOCKS] at hlen
  have hn : headCount (d start) = t.length := by
    rw [headCount, h.count, toInt_of_lt (by omega), Int.toNat_natCast]
  simp only [headOf, hn]
  refine ⟨trivial, fun i hi => ?_⟩
  rw [if_pos hi, h.block i hi]

theorem recoverFromLog_emits {t : List (Nat × Block)} (h : Pending start d t) :
    ∃ head : Block, head.word 0 = 0 ∧
      (recoverFromLog start (boot d)).writes = t ++ [(start, head)] ∧
      (recoverFromLog start (boot d)).disk = replay d (t ++ [(start, head)]) := by
  have hlen := h.length_le
  have hlh := readHead_lh start (boot d)
  rw [boot_data] at hlh
  have hdata : (readHead start (boot d)).data = d := by
    rw [readHead, setHead_data, bread_data, boot_data]
  obtain ⟨hn, hblock⟩ := h.headOf_eq (boot d).lh
  rw [← hlh] at hn hblock
  have hinst := installTrans_emits start (m := readHead start (boot d))
    (by rw [hn]; exact hlen) (by
      intro i hi
      rw [hn] at hi
      rw [hblock i hi]
      exact h.outside _ (getElem_mem hi))
  have hlist : (range (readHead start (boot d)).lh.n).map
      (fun i => ((readHead start (boot d)).lh.block i, d (start + i + 1))) = t := by
    apply ext_getElem (by simp [hn])
    intro i h1 h2
    simp only [getElem_map, getElem_range]
    rw [hblock i h2, h.copy i h2]
  rw [hdata, hlist] at hinst
  obtain ⟨head, h0, hw, hd⟩ :=
    clear_emits start (installTrans start (readHead start (boot d)))
  refine ⟨head, h0, ?_, ?_⟩
  · rw [recoverFromLog, hw, hinst.writes, readHead, setHead_writes, bread_writes, boot_writes,
      nil_append]
  · rw [recoverFromLog, hd, hinst.disk, readHead, setHead_disk, bread_disk, boot_disk,
      replay_append]

variable (start) in
/-- After the header is cleared, nothing is pending and the rest of the disk is as before. -/
theorem cleared_safe (d : Nat → Block) {head : Block} (h : head.word 0 = 0) :
    Pending start (replay d [(start, head)]) [] ∧
      ∀ b, Outside start b → replay d [(start, head)] b = d b :=
  ⟨pending_nil (by simpa using h),
    fun b hb => replay_other (by simpa using (outside_ne_start hb).symm)⟩

/-- A recovery that is cut short at any point leaves a disk that recovers to the same. -/
theorem crashRecovery_safe {d target : Nat → Block} (h : Safe start d target) (k : Nat) :
    Safe start (crashRecovery start d k) target := by
  obtain ⟨t, hp, ht⟩ := h
  obtain ⟨head, h0, hw, -⟩ := recoverFromLog_emits hp
  unfold crashRecovery
  rw [hw]
  by_cases hk : k ≤ t.length
  · rw [take_append_of_le_length hk]
    refine ⟨t, hp.replay_home fun w hm => hp.outside w (mem_of_mem_take hm), fun b hb => ?_⟩
    rw [replay_take, ht b hb]
  · rw [take_of_length_le (by simp; omega), replay_append]
    obtain ⟨hc, hhome⟩ := cleared_safe start (replay d t) h0
    exact ⟨[], hc, fun b hb => by rw [replay_nil, hhome b hb, ht b hb]⟩

theorem crashRecoveries_safe {target : Nat → Block} (cuts : List Nat)
    (h : Safe start d target) : Safe start (cuts.foldl (crashRecovery start) d) target := by
  induction cuts generalizing d with
  | nil => exact h
  | cons k cuts ih => exact ih (crashRecovery_safe h k)

/-- A complete recovery clears the header and installs what is pending. -/
theorem recoverFromLog_safe {d target : Nat → Block} (h : Safe start d target) :
    ((recoverFromLog start (boot d)).disk start).word 0 = 0 ∧
      ∀ b, Outside start b → (recoverFromLog start (boot d)).disk b = target b := by
  obtain ⟨t, hp, ht⟩ := h
  obtain ⟨head, h0, -, hd⟩ := recoverFromLog_emits hp
  obtain ⟨hc, hhome⟩ := cleared_safe start (replay d t) h0
  rw [hd, replay_append]
  exact ⟨hc.word_zero, fun b hb => by rw [hhome b hb, ht b hb]⟩

theorem lookup_of_nodup {l : List (Nat × Block)} (h : (l.map Prod.fst).Nodup) {i : Nat}
    (hi : i < l.length) : l.lookup l[i].1 = some l[i].2 := by
  induction l generalizing i with
  | nil => simp at hi
  | cons p l ih =>
    obtain ⟨a, b⟩ := p
    rw [map_cons, nodup_cons] at h
    cases i with
    | zero => simp
    | succ i =>
      simp only [length_cons, Nat.add_lt_add_iff_right] at hi
      have hne : l[i].1 ≠ a := fun he =>
        h.1 (mem_map.mpr ⟨l[i], getElem_mem hi, he⟩)
      simp only [getElem_cons_succ, lookup_cons, beq_eq_false_iff_ne.mpr hne]
      exact ih h.2 hi

section commit

variable (m : Machine) (t : Txn start)

@[simp] theorem stage_disk : (stage m t).disk = m.disk := rfl
@[simp] theorem stage_writes : (stage m t).writes = m.writes := rfl
@[simp] theorem stage_n : (stage m t).lh.n = t.data.length := rfl

variable {i : Nat}

theorem stage_block (h : i < t.data.length) : (stage m t).lh.block i = t.data[i].1 :=
  dif_pos h

theorem stage_data (h : i < t.data.length) :
    (stage m t).data t.data[i].1 = t.data[i].2 := by
  simp [Machine.data, stage, lookup_of_nodup t.nodup h]

theorem stage_outside (h : i < (stage m t).lh.n) :
    Outside start ((stage m t).lh.block i) := by
  rw [stage_block m t h]
  exact t.outside _ (getElem_mem h)

/-- The writes of `write_log`: the contents of the transaction's blocks, in the log. -/
def copies : List (Nat × Block) := t.data.mapIdx fun i p => (start + i + 1, p.2)

@[simp] theorem copies_length : (copies t).length = t.data.length := by simp [copies]

theorem mem_copies {w : Nat × Block} (h : w ∈ copies t) :
    start < w.1 ∧ w.1 ≤ start + LOGBLOCKS := by
  obtain ⟨i, hi, rfl⟩ := mem_iff_getElem.mp h
  have := t.length_le
  simp only [copies, length_mapIdx] at hi
  simp only [copies, getElem_mapIdx]
  omega

theorem copies_eq : (range (stage m t).lh.n).map
    (fun i => (start + i + 1, (stage m t).data ((stage m t).lh.block i))) = copies t := by
  apply ext_getElem (by simp)
  intro i h1 h2
  have hi : i < t.data.length := by simpa using h2
  simp only [getElem_map, getElem_range, copies, getElem_mapIdx]
  rw [stage_block m t hi, stage_data m t hi]

theorem replay_copies (d : Nat → Block) (h : i < t.data.length) :
    replay d (copies t) (start + i + 1) = t.data[i].2 := by
  have hsplit : copies t = (copies t).take i ++ (start + i + 1, t.data[i].2) ::
      (copies t).drop (i + 1) := by
    conv_lhs => rw [← take_append_drop i (copies t)]
    rw [drop_eq_getElem_cons (by simpa using h)]
    simp [copies]
  rw [hsplit, replay_append, replay_cons, replay_other]
  · simp
  · intro w hw
    obtain ⟨j, hj, rfl⟩ := mem_iff_getElem.mp hw
    simp only [copies, getElem_drop, getElem_mapIdx]
    omega

/-- The writes of `commit` for a transaction with at least one block: the log copies, the header
that commits it, the blocks at home, and a header with `n = 0`. -/
theorem commit_writes (hne : t.data ≠ []) : ∃ head clear : Block,
    head.word 0 = t.data.length ∧
    (∀ i (h : i < t.data.length), head.word (i + 1) = t.data[i].1) ∧ clear.word 0 = 0 ∧
    (commit start (stage m t)).writes =
      m.writes ++ (copies t ++ (start, head) :: (t.data ++ [(start, clear)])) ∧
    (commit start (stage m t)).disk =
      replay m.disk (copies t ++ (start, head) :: (t.data ++ [(start, clear)])) := by
  have hlen := t.length_le
  have hlog := writeLog_emits start hlen fun i hi => stage_outside m t hi
  rw [copies_eq] at hlog
  generalize hm1 : writeLog start (stage m t) = m1 at hlog
  have hhead := writeHead_emits start m1
  have hwords := word_putHead m1.lh (m1.data start) (by rw [hlog.lh]; exact hlen) (by
    rw [hlog.lh]
    intro i hi
    rw [stage_block m t hi]
    exact t.uint _ (getElem_mem hi))
  generalize putHead m1.lh (m1.data start) = head at hhead hwords
  rw [hlog.lh] at hwords
  generalize hm2 : writeHead start m1 = m2 at hhead
  have hlh2 : m2.lh = (stage m t).lh := hhead.lh.trans hlog.lh
  have hinst := installTrans_emits start (by rw [hlh2]; exact hlen) (by
    rw [hlh2]
    exact fun i hi => stage_outside m t hi)
  -- the home writes copy what `write_log` put in the log blocks
  have hhome : (range m2.lh.n).map (fun i => (m2.lh.block i, m2.data (start + i + 1))) =
      t.data := by
    rw [hlh2]
    apply ext_getElem (by simp)
    intro i h1 h2
    simp only [getElem_map, getElem_range]
    rw [stage_block m t h2, hhead.data, hlog.data]
    rw [replay_other (by simp; omega), replay_copies t _ h2]
  rw [hhome] at hinst
  obtain ⟨clear, h0, hw, hd⟩ := clear_emits start (installTrans start m2)
  have hpos : (stage m t).lh.n > 0 := length_pos_iff.mpr hne
  refine ⟨head, clear, hwords.1, fun i hi => ?_, h0, ?_, ?_⟩
  · rw [hwords.2 i hi, stage_block m t hi]
  · rw [commit, if_pos hpos, hm1, hm2, hw, hinst.writes, hhead.writes, hlog.writes]
    simp
  · rw [commit, if_pos hpos, hm1, hm2, hd, hinst.disk, hhead.disk, hlog.disk]
    simp [replay_append]

theorem replay_copies_take (d : Nat → Block) (k b : Nat) (hb : b = start ∨ Outside start b) :
    replay d ((copies t).take k) b = d b := by
  refine replay_other fun w hw he => ?_
  have := mem_copies t (mem_of_mem_take hw)
  unfold Outside at hb
  omega

theorem committed_pending (d : Nat → Block) {head : Block} (h0 : head.word 0 = t.data.length)
    (hs : ∀ i (h : i < t.data.length), head.word (i + 1) = t.data[i].1) :
    Pending start (replay d (copies t ++ [(start, head)])) t.data ∧
      ∀ b, Outside start b → replay d (copies t ++ [(start, head)]) b = d b := by
  rw [replay_append]
  refine ⟨⟨?_, t.length_le, fun i h => ?_, fun i h => ?_, t.outside⟩, fun b hb => ?_⟩
  · simpa using h0
  · simpa using hs i h
  · rw [replay_other (by simp; omega), replay_copies t d h]
  · rw [replay_other (by simpa using (outside_ne_start hb).symm)]
    exact replay_other fun w hw he => by
      have := mem_copies t hw
      unfold Outside at hb
      omega

/-- A crash after `k` writes of a `commit` on a disk with a clear header: the disk recovers to the
whole transaction if `write_head` is among the `k` writes, and to the old disk if not. -/
theorem commitNext_safe (hclear : (m.disk start).word 0 = 0) (k : Nat) :
    Safe start (replay m.disk ((commitNext m t).writes.take k))
      (installed m.disk (if ((commitNext m t).writes.take k).any fun w => w.1 == start then [t]
        else [])) := by
  by_cases hne : t.data = []
  · have hw : (commitNext m t).writes = [] := by
      simp [commitNext, commit, hne]
    rw [hw]
    exact ⟨[], by simpa using pending_nil hclear, fun b _ => by simp [installed]⟩
  obtain ⟨head, clear, h0, hs, hc, hw, -⟩ := commit_writes { m with writes := [] } t hne
  rw [commitNext, hw, nil_append]
  rcases lt_or_ge t.data.length k with hk | hk
  · -- the header is on the disk
    obtain ⟨j, rfl⟩ : ∃ j, k = t.data.length + 1 + j := ⟨k - (t.data.length + 1), by omega⟩
    have htake : (copies t ++ (start, head) :: (t.data ++ [(start, clear)])).take
        (t.data.length + 1 + j) =
        (copies t ++ [(start, head)]) ++ (t.data ++ [(start, clear)]).take j := by
      rw [show copies t ++ (start, head) :: (t.data ++ [(start, clear)]) =
        (copies t ++ [(start, head)]) ++ (t.data ++ [(start, clear)]) by simp,
        take_append, take_of_length_le (by simp)]
      simp
    rw [htake, if_pos (by simp), replay_append]
    obtain ⟨hp, hhome⟩ := committed_pending t m.disk h0 hs
    generalize replay m.disk (copies t ++ [(start, head)]) = d at hp hhome
    have htarget : ∀ b, Outside start b → replay d t.data b = installed m.disk [t] b :=
      fun b hb => replay_agree (hhome b hb)
    by_cases hj : j ≤ t.data.length
    · rw [take_append_of_le_length hj]
      refine ⟨t.data, hp.replay_home fun w hm => t.outside w (mem_of_mem_take hm),
        fun b hb => ?_⟩
      rw [replay_take, htarget b hb]
    · rw [take_of_length_le (by simp; omega), replay_append]
      obtain ⟨hcl, hrest⟩ := cleared_safe start (replay d t.data) hc
      exact ⟨[], hcl, fun b hb => by rw [replay_nil, hrest b hb, htarget b hb]⟩
  · -- only log blocks have been written
    rw [take_append_of_le_length (by simpa using hk), if_neg (by
      simp only [any_eq_true, beq_iff_eq, not_exists, not_and]
      intro w hm he
      have := mem_copies t (mem_of_mem_take hm)
      omega)]
    refine ⟨[], pending_nil ?_, fun b hb => ?_⟩
    · rw [replay_copies_take t _ _ _ (.inl rfl), hclear]
    · exact replay_copies_take t _ _ _ (.inr hb)

theorem commitNext_done (hclear : (m.disk start).word 0 = 0) :
    (commitNext m t).disk = replay m.disk (commitNext m t).writes ∧
    ((commitNext m t).disk start).word 0 = 0 ∧
    ∀ b, Outside start b → (commitNext m t).disk b = installed m.disk [t] b := by
  by_cases hne : t.data = []
  · simp [commitNext, commit, hne, hclear, installed]
  obtain ⟨head, clear, h0, hs, hc, hw, hd⟩ := commit_writes { m with writes := [] } t hne
  rw [commitNext, hw, hd, nil_append]
  refine ⟨rfl, ?_⟩
  rw [show copies t ++ (start, head) :: (t.data ++ [(start, clear)]) =
    (copies t ++ [(start, head)]) ++ t.data ++ [(start, clear)] by simp, replay_append]
  obtain ⟨hcl, hrest⟩ :=
    cleared_safe start (replay m.disk (copies t ++ [(start, head)] ++ t.data)) hc
  refine ⟨hcl.word_zero, fun b hb => ?_⟩
  rw [hrest b hb, replay_append]
  exact replay_agree ((committed_pending t m.disk h0 hs).2 b hb)

/-- `commit` writes the header exactly when there is something to commit. -/
theorem any_header :
    ((commitNext m t).writes.any fun w => w.1 == start) = !t.data.isEmpty := by
  by_cases hne : t.data = []
  · simp [commitNext, commit, hne]
  · obtain ⟨head, clear, -, -, -, hw, -⟩ := commit_writes { m with writes := [] } t hne
    rw [commitNext, hw]
    simp [hne]

end commit

/-- All the transactions of a run that wrote something are durable when it has made its writes. -/
theorem durable_all (m : Machine) (ts : List (Txn start)) {k : Nat}
    (h : (runWrites m ts).length ≤ k) : durable m k ts = ts.filter fun t => !t.data.isEmpty := by
  induction ts generalizing m k with
  | nil => rfl
  | cons t ts ih =>
    rw [runWrites, length_append] at h
    rw [durable, take_of_length_le (by omega), any_header, ih _ (by omega), filter_cons]
    cases t.data.isEmpty <;> rfl

theorem durable_zero (m : Machine) (ts : List (Txn start)) : durable m 0 ts = [] := by
  induction ts generalizing m with
  | nil => rfl
  | cons t ts ih => simp [durable, ih]

theorem installed_agree {d d' : Nat → Block} (ts : List (Txn start)) {b : Nat} (h : d b = d' b) :
    installed d ts b = installed d' ts b := by
  induction ts generalizing d d' with
  | nil => exact h
  | cons t ts ih => exact ih (replay_agree h)

/-- A crash after `k` writes of a run of commits leaves a disk that recovers to the disk after the
durable transactions. -/
theorem run_safe (m : Machine) (ts : List (Txn start)) (k : Nat)
    (hclear : (m.disk start).word 0 = 0) :
    Safe start (replay m.disk ((runWrites m ts).take k)) (installed m.disk (durable m k ts)) := by
  induction ts generalizing m k with
  | nil => exact ⟨[], by simpa [runWrites] using pending_nil hclear, fun b _ => by
      simp [runWrites, durable, installed]⟩
  | cons t ts ih =>
    obtain ⟨hdisk, hclear', hhome⟩ := commitNext_done m t hclear
    have hsafe := commitNext_safe m t hclear k
    simp only [runWrites, durable]
    rcases lt_or_ge k (commitNext m t).writes.length with hk | hk
    · rw [take_append_of_le_length (by omega), Nat.sub_eq_zero_of_le (by omega), durable_zero,
        append_nil]
      exact hsafe
    rw [take_append, replay_append, take_of_length_le hk]
    rw [take_of_length_le hk, ← hdisk] at hsafe
    rw [← hdisk]
    have hrun := ih (commitNext m t) (k - (commitNext m t).writes.length) hclear'
    refine hrun.congr fun b hb => ?_
    rw [installed, installed, foldl_append]
    apply installed_agree
    rw [any_header, hhome b hb]
    cases hdata : t.data <;> simp [installed, hdata]

/-- Crash atomicity of the redo log: from a disk with a clear header, after any run of commits cut
after `k` writes, any number of recoveries cut short, and one complete recovery, the header is
clear and every block outside the log region is as after exactly the durable transactions; these
are all that wrote something if the run was not cut. -/
theorem crash_atomic (m : Machine) (hclear : (m.disk start).word 0 = 0) (ts : List (Txn start))
    (k : Nat) (cuts : List Nat) :
    let crashed := replay m.disk ((runWrites m ts).take k)
    let found := cuts.foldl (crashRecovery start) crashed
    let final := (recoverFromLog start (boot found)).disk
    (final start).word 0 = 0 ∧
      (∀ b, Outside start b → final b = installed m.disk (durable m k ts) b) ∧
      ((runWrites m ts).length ≤ k → durable m k ts = ts.filter fun t => !t.data.isEmpty) :=
  have h := recoverFromLog_safe (crashRecoveries_safe cuts (run_safe m ts k hclear))
  ⟨h.1, h.2, durable_all m ts⟩

def oneBlock : Txn 2 where
  data := [(40, Block.zero.setWord 0 7)]
  cached _ := false
  length_le := by decide
  nodup := by simp
  outside := by simp [LOGBLOCKS, MAXOPBLOCKS]
  uint := by simp

/-- The second write of a commit of one block is its header. -/
theorem durable_oneBlock (m : Machine) : durable m 2 [oneBlock] = [oneBlock] := by
  obtain ⟨head, clear, -, -, -, hw, -⟩ :=
    commit_writes { m with writes := [] } oneBlock (by simp [oneBlock])
  rw [durable, if_pos]
  · rfl
  · rw [commitNext, hw]
    simp [copies, oneBlock]

/-- One transaction on a disk of zero blocks, cut after its header is written and once more at the
start of the recovery: the transaction is durable, and its block is there. -/
theorem crash_atomic_oneBlock :
    durable (boot fun _ => Block.zero) 2 [oneBlock] = [oneBlock] ∧
    (recoverFromLog 2 (boot ([0].foldl (crashRecovery 2) (replay (boot fun _ => Block.zero).disk
      ((runWrites (boot fun _ => Block.zero) [oneBlock]).take 2))))).disk 40 =
      Block.zero.setWord 0 7 := by
  refine ⟨durable_oneBlock _, ?_⟩
  have h := (crash_atomic (boot fun _ => Block.zero) (Block.word_zero 0) [oneBlock] 2 [0]).2.1 40
    (by simp [Outside, LOGBLOCKS, MAXOPBLOCKS])
  rw [durable_oneBlock] at h
  refine h.trans ?_
  simp [installed, oneBlock]

end Xv6.Log
