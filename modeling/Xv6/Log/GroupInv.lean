import Xv6.Log.Group

/-! The invariant of group commit, kept by every critical section and every step of `commit`. -/

namespace Xv6.Log

open Function List

/-- How many entries of `log.lh` have been installed and unpinned. -/
def CommitPc.installed : CommitPc → Nat → Nat
  | .install tail, _ => tail
  | .clear, n => n
  | _, _ => 0

/-- Is `log.lh` still the list that the commit started with? -/
def CommitPc.listed : CommitPc → Bool
  | .eraseHead | .finish => false
  | _ => true

/-- A process past the first critical section of its `end_op`. -/
def Ended (pc : Pc) : Prop := pc = .done ∨ ∃ c, pc = .commit c

/-- Every listed buffer from entry `k` on carries one pin, and no other buffer carries one. -/
structure PinsFrom (lh : LogHeader) (pins : Nat → Int) (k : Nat) : Prop where
  listed : ∀ i < lh.n, pins (lh.block i) = if i < k then 0 else 1
  other : ∀ b, b ∉ lh.blocks → pins b = 0

/-- Is a process between `begin_op` and `end_op`? -/
def Pc.isRunning : Pc → Bool
  | .running => true
  | _ => false

theorem Pc.isRunning_iff {pc : Pc} : pc.isRunning = true ↔ pc = .running := by
  cases pc <;> simp [isRunning]

theorem mem_blocks {lh : LogHeader} {b : Nat} : b ∈ lh.blocks ↔ ∃ i < lh.n, lh.block i = b := by
  simp [LogHeader.blocks]

/-- The invariant of group commit. -/
structure Inv (s : State) : Prop where
  outstanding : s.outstanding = s.group.countP fun p => (s.pc p).isRunning
  busy : s.group ≠ [] → 0 < s.outstanding
  running : ∀ p, s.pc p = .running → p ∈ s.group
  groupPc : ∀ p ∈ s.group, s.pc p = .running ∨ s.pc p = .done
  committer : ∀ p c, s.pc p = .commit c → s.committing = true ∧ s.group = [] ∧
    (∀ q c', s.pc q = .commit c' → q = p) ∧ PinsFrom s.lh s.pins (c.installed s.lh.n)
  current : ∀ p c, s.pc p = .commit c → c.listed = true →
    (s.commits.getLast?.map Group.blocks) = some s.lh.blocks
  quiet : s.committing = false → PinsFrom s.lh s.pins 0
  committing : s.committing = true → ∃ p c, s.pc p = .commit c
  distinct : ∀ i < s.lh.n, ∀ j < s.lh.n, s.lh.block i = s.lh.block j → i = j
  logged : ∀ p ∈ s.group, ∀ b ∈ s.logged p, b ∈ s.lh.blocks
  commits : ∀ g ∈ s.commits, ∀ p ∈ g.ops, Ended (s.pc p) ∧ ∀ b ∈ s.logged p, b ∈ g.blocks
  once : (s.commits.flatMap Group.ops ++ s.group).Nodup
  fresh : ∀ p, s.logged p ≠ [] → s.pc p = .running ∨ Ended (s.pc p)
  ended : ∀ p, Ended (s.pc p) → p ∈ s.group ∨ ∃ g ∈ s.commits, p ∈ g.ops
  panic : s.panic = none ∨ s.panic = some "too big a transaction"

theorem inv_init : Inv init := by
  constructor <;> simp [init, Ended, mem_blocks]
  exact ⟨by simp, by simp⟩

section

variable {s : State} {p : Nat}

theorem Inv.congr_pc (h : Inv s) {pc : Nat → Pc}
    (hrun : ∀ q, pc q = .running ↔ s.pc q = .running) (hdone : ∀ q, pc q = .done ↔ s.pc q = .done)
    (hcommit : ∀ q c, pc q = .commit c ↔ s.pc q = .commit c) : Inv { s with pc } := by
  have hended : ∀ q, Ended (pc q) ↔ Ended (s.pc q) := fun q => by
    simp [Ended, hdone, hcommit]
  constructor
  · have hsame : ∀ q, (pc q).isRunning = (s.pc q).isRunning := fun q =>
      Bool.eq_iff_iff.mpr (by rw [Pc.isRunning_iff, Pc.isRunning_iff, hrun q])
    simpa only [hsame] using h.outstanding
  · exact h.busy
  · exact fun q hq => h.running q ((hrun q).mp hq)
  · exact fun q hq => (h.groupPc q hq).imp (hrun q).mpr (hdone q).mpr
  · intro q c hq
    obtain ⟨h1, h2, h3, h4⟩ := h.committer q c ((hcommit q c).mp hq)
    exact ⟨h1, h2, fun q' c' hq' => h3 q' c' ((hcommit q' c').mp hq'), h4⟩
  · exact fun q c hq => h.current q c ((hcommit q c).mp hq)
  · exact h.quiet
  · intro hc
    obtain ⟨q, c, hq⟩ := h.committing hc
    exact ⟨q, c, (hcommit q c).mpr hq⟩
  · exact h.distinct
  · exact h.logged
  · exact fun g hg q hq => ⟨(hended q).mpr (h.commits g hg q hq).1, (h.commits g hg q hq).2⟩
  · exact h.once
  · exact fun q hq => (h.fresh q hq).imp (hrun q).mpr (hended q).mpr
  · exact fun q hq => h.ended q ((hended q).mp hq)
  · exact h.panic

theorem Inv.goto_waiting (h : Inv s) {pc : Pc}
    (hold : s.pc p = .idle ∨ s.pc p = .begin ∨ s.pc p = .sleeping)
    (hnew : pc = .begin ∨ pc = .sleeping) : Inv (goto s p pc) := by
  refine h.congr_pc (fun q => ?_) (fun q => ?_) fun q c => ?_ <;>
    by_cases hq : q = p <;> grind [update_apply]

theorem Inv.not_committed (h : Inv s) (hp : ¬Ended (s.pc p)) :
    ∀ g ∈ s.commits, p ∉ g.ops :=
  fun g hg hm => hp (h.commits g hg p hm).1

theorem Inv.beginOp (h : Inv s) (hp : s.pc p = .begin) : Inv (beginOp s p) := by
  unfold Log.beginOp
  split
  · exact h.goto_waiting (by simp [hp]) (by simp)
  split
  · exact h.goto_waiting (by simp [hp]) (by simp)
  rename_i hcomm _
  have hcomm : s.committing = false := by simpa using hcomm
  have hpg : p ∉ s.group := fun hm => by have := h.groupPc p hm; simp [hp] at this
  have hne : ∀ q ∈ s.group, q ≠ p := fun q hq he => hpg (he ▸ hq)
  have hended : ¬Ended (s.pc p) := by simp [hp, Ended]
  have hpc : ∀ q, q ≠ p → update s.pc p .running q = s.pc q :=
    fun q hq => update_of_ne hq _ _
  constructor <;> dsimp only [goto]
  · -- the new operation is the one more that is running
    rw [countP_append, countP_congr (q := fun q => (s.pc q).isRunning)
      fun q hq => by rw [hpc q (hne q hq)], h.outstanding]
    simp [Pc.isRunning]
  · intro _
    have : (0 : Int) ≤ s.outstanding := by rw [h.outstanding]; omega
    omega
  · intro q hq
    by_cases hqp : q = p
    · simp [hqp]
    · rw [hpc q hqp] at hq
      simp [h.running q hq]
  · intro q hq
    by_cases hqp : q = p
    · simp [hqp]
    · rw [hpc q hqp]
      exact h.groupPc q (by simpa [hqp] using hq)
  · intro q c hq
    by_cases hqp : q = p
    · simp [hqp] at hq
    · rw [hpc q hqp] at hq
      exact absurd (hcomm.symm.trans (h.committer q c hq).1) (by decide)
  · intro q c hq
    by_cases hqp : q = p
    · simp [hqp] at hq
    · exact h.current q c (by simpa [hpc q hqp] using hq)
  · exact h.quiet
  · exact fun hc => absurd (hcomm.symm.trans hc) (by decide)
  · exact h.distinct
  · intro q hq b hb
    by_cases hqp : q = p
    · have := h.fresh q (ne_nil_of_mem hb)
      rw [hqp, hp] at this
      simp [Ended] at this
    · exact h.logged q (by simpa [hqp] using hq) b hb
  · intro g hg q hq
    rw [hpc q fun he => h.not_committed hended g hg (he ▸ hq)]
    exact h.commits g hg q hq
  · rw [← append_assoc]
    refine nodup_append.mpr ⟨h.once, by simp, fun a ha b hb hab => ?_⟩
    have hbp : b = p := by simpa using hb
    subst hab hbp
    rcases mem_append.mp ha with hm | hm
    · obtain ⟨g, hg, hm⟩ := mem_flatMap.mp hm
      exact h.not_committed hended g hg hm
    · exact hpg hm
  · intro q hq
    by_cases hqp : q = p
    · simp [hqp]
    · rw [hpc q hqp]
      exact h.fresh q hq
  · intro q hq
    by_cases hqp : q = p
    · simp [hqp]
    · rw [hpc q hqp] at hq
      exact (h.ended q hq).imp_left fun hm => mem_append_left _ hm
  · exact h.panic

/-- The loop of `log_write` stops at the entry that lists the block, or past the last entry. -/
theorem absorb_spec (lh : LogHeader) (b : Nat) :
    (absorb lh b < lh.n ∧ lh.block (absorb lh b) = b) ∨ (absorb lh b = lh.n ∧ b ∉ lh.blocks) := by
  unfold absorb
  cases hf : (range lh.n).find? fun i => lh.block i == b with
  | none =>
    refine .inr ⟨rfl, fun hm => ?_⟩
    obtain ⟨i, hi, hb⟩ := mem_blocks.mp hm
    simpa [hb] using find?_eq_none.mp hf i (mem_range.mpr hi)
  | some i =>
    refine .inl ⟨mem_range.mp (mem_of_find?_eq_some hf), ?_⟩
    simpa using find?_some hf

theorem Inv.not_committing (h : Inv s) (hp : s.pc p = .running) : s.committing = false := by
  by_contra hc
  obtain ⟨q, c, hq⟩ := h.committing (by simpa using hc)
  have := h.running p hp
  simp [(h.committer q c hq).2.1] at this

theorem Inv.outstanding_pos (h : Inv s) (hp : s.pc p = .running) : 0 < s.outstanding :=
  h.busy (ne_nil_of_mem (h.running p hp))

variable {pins : Nat → Int} {lh : LogHeader}

theorem PinsFrom.push {b : Nat} (h : PinsFrom lh pins 0)
    (hb : b ∉ lh.blocks) : PinsFrom { n := lh.n + 1, block := update lh.block lh.n b }
      (update pins b (pins b + 1)) 0 := by
  have hne : ∀ i < lh.n, lh.block i ≠ b := fun i hi he => hb (mem_blocks.mpr ⟨i, hi, he⟩)
  constructor
  · intro i hi
    rcases lt_or_eq_of_le (Nat.le_of_lt_succ hi) with hlt | rfl
    · dsimp only
      rw [update_of_ne (ne_of_lt hlt), update_of_ne (hne i hlt)]
      exact h.listed i hlt
    · simp [h.other b hb]
  · intro b' hb'
    have hb' : ∀ i < lh.n + 1, update lh.block lh.n b i ≠ b' := by
      simpa [mem_blocks] using hb'
    have hne' : b' ≠ b := by simpa using (hb' lh.n (by omega)).symm
    rw [update_of_ne hne']
    refine h.other b' fun hm => ?_
    obtain ⟨i, hi, he⟩ := mem_blocks.mp hm
    have := hb' i (by omega)
    rw [update_of_ne (ne_of_lt hi)] at this
    exact this he

theorem Inv.logged_more (h : Inv s) (hp : s.pc p = .running) {b : Nat} (hpins : PinsFrom lh pins 0)
    (hdistinct : ∀ i < lh.n, ∀ j < lh.n, lh.block i = lh.block j → i = j)
    (hsub : ∀ b' ∈ s.lh.blocks, b' ∈ lh.blocks) (hmem : b ∈ lh.blocks) :
    Inv { s with lh, pins, logged := update s.logged p (b :: s.logged p) } := by
  have hcomm := h.not_committing hp
  have hend : ¬Ended (s.pc p) := by simp [hp, Ended]
  have hnot : ∀ q c, s.pc q ≠ .commit c := fun q c hq =>
    absurd (hcomm.symm.trans (h.committer q c hq).1) (by decide)
  refine { h with committer := fun q c hq => absurd hq (hnot q c), quiet := fun _ => hpins,
                  current := fun q c hq => absurd hq (hnot q c), distinct := hdistinct,
                  logged := ?_, commits := ?_, fresh := ?_ }
  · intro q hq b' hb
    by_cases hqp : q = p
    · subst hqp
      simp only [update_self, mem_cons] at hb
      rcases hb with rfl | hb
      · exact hmem
      · exact hsub b' (h.logged q hq b' hb)
    · dsimp only at hb
      rw [update_of_ne hqp] at hb
      exact hsub b' (h.logged q hq b' hb)
  · intro g hg q hq
    have hqp : q ≠ p := fun he => hend (he ▸ (h.commits g hg q hq).1)
    dsimp only
    rw [update_of_ne hqp]
    exact h.commits g hg q hq
  · intro q hq
    by_cases hqp : q = p
    · exact .inl (hqp ▸ hp)
    · dsimp only at hq
      rw [update_of_ne hqp] at hq
      exact h.fresh q hq

theorem Inv.logWrite (h : Inv s) (hp : s.pc p = .running) (b : Nat) : Inv (logWrite s p b) := by
  have hpos := h.outstanding_pos hp
  have hquiet := h.quiet (h.not_committing hp)
  unfold Log.logWrite
  split
  · exact { h with panic := .inr rfl }
  split
  · omega
  rcases absorb_spec s.lh b with ⟨hi, hb⟩ | ⟨hi, hb⟩
  · -- absorption: the block is listed already
    have hblock : update s.lh.block (absorb s.lh b) b = s.lh.block := by
      conv_lhs => arg 3; rw [← hb]
      exact update_eq_self _ _
    simp only [hblock, if_neg (ne_of_lt hi)]
    exact h.logged_more hp hquiet h.distinct (fun _ hm => hm) (mem_blocks.mpr ⟨_, hi, hb⟩)
  have hne : ∀ i < s.lh.n, s.lh.block i ≠ b := fun i hi he => hb (mem_blocks.mpr ⟨i, hi, he⟩)
  simp only [hi, if_true]
  refine h.logged_more hp (hquiet.push hb) ?_ (fun b' hm => ?_)
    (mem_blocks.mpr ⟨s.lh.n, by simp, by simp⟩)
  · intro i hi j hj he
    dsimp only at hi hj he
    rw [update_apply, update_apply] at he
    have := h.distinct i
    have := hne i
    have := hne j
    grind
  · obtain ⟨i, hi, he⟩ := mem_blocks.mp hm
    exact mem_blocks.mpr ⟨i, by simp; omega, by simp [update_of_ne (ne_of_lt hi), he]⟩

theorem countP_drop {l : List Nat} (hn : l.Nodup) (hp : p ∈ l) {f g : Nat → Bool}
    (hf : f p = true) (hg : g p = false) (h : ∀ q, q ≠ p → f q = g q) :
    l.countP f = l.countP g + 1 := by
  induction l with
  | nil => simp at hp
  | cons a l ih =>
    rw [nodup_cons] at hn
    rcases mem_cons.mp hp with rfl | hp
    · rw [countP_cons, countP_cons, hf, hg,
        countP_congr fun q hq => by rw [h q fun he => hn.1 (he ▸ hq)]]
      simp
    · rw [countP_cons, countP_cons, ih hn.2 hp, h a fun he => hn.1 (he ▸ hp)]
      omega

theorem Inv.countP_left (h : Inv s) (hp : s.pc p = .running) (pc : Pc) (hpc : pc ≠ .running) :
    s.outstanding - 1 = s.group.countP fun q => (update s.pc p pc q).isRunning := by
  have hcount := countP_drop (nodup_append.mp h.once).2.1 (h.running p hp)
    (f := fun q => (s.pc q).isRunning) (g := fun q => (update s.pc p pc q).isRunning)
    (by simp [hp, Pc.isRunning]) (by simpa [← Pc.isRunning_iff] using hpc)
    fun q hq => by simp [update_of_ne hq]
  rw [h.outstanding, hcount]
  simp

theorem ended_update {pc : Nat → Pc} {new : Pc} (hp : pc p = .running ∨ Ended (pc p))
    (hnew : Ended new) (q : Nat) :
    (Ended (pc q) → Ended (update pc p new q)) ∧
      (Ended (update pc p new q) → q = p ∨ Ended (pc q)) := by
  by_cases hq : q = p
  · subst hq
    simp [hnew]
  · simp [hq]

theorem Inv.endOp_done (h : Inv s) (hp : s.pc p = .running) (hmore : s.outstanding - 1 ≠ 0) :
    Inv { s with outstanding := s.outstanding - 1, pc := update s.pc p .done } := by
  have hcount := h.countP_left hp .done (by decide)
  have hdone : Ended .done := .inl rfl
  have hpg := h.running p hp
  have hnot : ∀ q c, update s.pc p .done q ≠ .commit c := by
    intro q c hq
    by_cases hqp : q = p
    · simp [hqp] at hq
    · rw [update_of_ne hqp] at hq
      exact absurd ((h.not_committing hp).symm.trans (h.committer q c hq).1) (by decide)
  refine { h with outstanding := hcount, busy := ?_, running := ?_, groupPc := ?_,
                  committer := fun q c hq => absurd hq (hnot q c),
                  current := fun q c hq => absurd hq (hnot q c),
                  committing := ?_, commits := ?_, fresh := ?_, ended := ?_ }
  · intro _
    dsimp only
    have : (0 : Int) ≤ s.outstanding - 1 := by rw [hcount]; omega
    omega
  · intro q hq
    by_cases hqp : q = p
    · exact hqp ▸ hpg
    · exact h.running q (by simpa [update_of_ne hqp] using hq)
  · intro q hq
    by_cases hqp : q = p
    · simp [hqp]
    · simpa [update_of_ne hqp] using h.groupPc q hq
  · exact fun hc => absurd ((h.not_committing hp).symm.trans hc) (by decide)
  · exact fun g hg q hq => ⟨(ended_update (.inl hp) hdone q).1 (h.commits g hg q hq).1,
      (h.commits g hg q hq).2⟩
  · intro q hq
    by_cases hqp : q = p
    · simp [hqp, hdone]
    · simpa [update_of_ne hqp] using h.fresh q hq
  · intro q hq
    rcases (ended_update (.inl hp) hdone q).2 hq with rfl | hq
    · exact .inl hpg
    · exact h.ended q hq

theorem Inv.endOp_commit (h : Inv s) (hp : s.pc p = .running) (hlast : s.outstanding - 1 = 0) :
    Inv { s with
      outstanding := s.outstanding - 1
      committing := true
      group := []
      commits := s.commits ++ [{ ops := s.group, blocks := s.lh.blocks }]
      pc := update s.pc p (.commit .start) } := by
  have hcount := h.countP_left hp (.commit .start) (by decide)
  have hended : Ended (.commit .start) := .inr ⟨_, rfl⟩
  have hcomm := h.not_committing hp
  have hpg := h.running p hp
  have hothers : ∀ q, q ≠ p → s.pc q ≠ .running := by
    intro q hqp hq
    rw [hlast] at hcount
    have := countP_eq_zero.mp (by exact_mod_cast hcount.symm) q (h.running q hq)
    simp [update_of_ne hqp, hq, Pc.isRunning] at this
  refine { h with
    outstanding := by simp [hlast], busy := by simp, running := ?_, groupPc := by simp,
    committer := ?_, current := by simp, quiet := by simp, committing := ?_,
    logged := by simp, commits := ?_, once := ?_, fresh := ?_, ended := ?_ }
  · intro q hq
    by_cases hqp : q = p
    · simp [hqp] at hq
    · exact absurd (by simpa [update_of_ne hqp] using hq) (hothers q hqp)
  · have honly : ∀ q c, update s.pc p (.commit .start) q = .commit c → q = p := by
      intro q c hq
      by_contra hqp
      rw [update_of_ne hqp] at hq
      exact absurd (hcomm.symm.trans (h.committer q c hq).1) (by decide)
    intro q c hq
    obtain rfl := honly q c hq
    refine ⟨rfl, rfl, honly, ?_⟩
    simp only [update_self, Pc.commit.injEq] at hq
    subst hq
    exact h.quiet hcomm
  · exact fun _ => ⟨p, .start, by simp⟩
  · intro g hg q hq
    rcases mem_append.mp hg with hg | hg
    · exact ⟨(ended_update (.inl hp) hended q).1 (h.commits g hg q hq).1,
        (h.commits g hg q hq).2⟩
    · obtain rfl : g = { ops := s.group, blocks := s.lh.blocks } := by simpa using hg
      refine ⟨?_, h.logged q hq⟩
      by_cases hqp : q = p
      · simp [hqp, hended]
      · dsimp only
        rw [update_of_ne hqp]
        exact .inl ((h.groupPc q hq).resolve_left (hothers q hqp))
  · simpa using h.once
  · intro q hq
    by_cases hqp : q = p
    · simp [hqp, hended]
    · simpa [update_of_ne hqp] using h.fresh q hq
  · intro q hq
    right
    rcases (ended_update (.inl hp) hended q).2 hq with rfl | hq
    · exact ⟨_, mem_append_right _ (mem_singleton.mpr rfl), hpg⟩
    · rcases h.ended q hq with hq | ⟨g, hg, hq⟩
      · exact ⟨_, mem_append_right _ (mem_singleton.mpr rfl), hq⟩
      · exact ⟨g, mem_append_left _ hg, hq⟩

theorem Inv.endOp (h : Inv s) (hp : s.pc p = .running) : Inv (endOp s p) := by
  unfold Log.endOp
  rw [if_neg (by simp [h.not_committing hp])]
  split
  · exact h.endOp_commit hp (by assumption)
  · rename_i hmore
    refine (h.endOp_done hp hmore).congr_pc (fun q => ?_) (fun q => ?_) fun q c => ?_ <;>
      by_cases hq : q = p <;> simp [hq, Log.wakeup] <;> split <;> simp_all

theorem Inv.commit_goto (h : Inv s) {c : CommitPc} (hp : s.pc p = .commit c) (c' : CommitPc)
    (hpins : PinsFrom lh pins (c'.installed lh.n))
    (hdistinct : ∀ i < lh.n, ∀ j < lh.n, lh.block i = lh.block j → i = j)
    (hlisted : c'.listed = true → c.listed = true ∧ lh.blocks = s.lh.blocks) :
    Inv { s with lh, pins, pc := update s.pc p (.commit c') } := by
  obtain ⟨hcomm, hgroup, honly, -⟩ := h.committer p c hp
  have hended : Ended (.commit c') := .inr ⟨_, rfl⟩
  have hold : Ended (s.pc p) := .inr ⟨c, hp⟩
  have hnone : ∀ q, q ∉ s.group := by simp [hgroup]
  have honly' : ∀ q d, update s.pc p (.commit c') q = .commit d → q = p := by
    intro q d hq
    by_contra hqp
    rw [update_of_ne hqp] at hq
    exact hqp (honly q d hq)
  refine { h with outstanding := ?_, running := ?_, groupPc := fun q hq => absurd hq (hnone q),
                  committer := ?_, current := ?_, quiet := ?_,
                  committing := fun _ => ⟨p, c', by simp⟩, distinct := hdistinct,
                  logged := fun q hq => absurd hq (hnone q), commits := ?_, fresh := ?_,
                  ended := ?_ }
  · simp [h.outstanding, hgroup]
  · intro q hq
    by_cases hqp : q = p
    · simp [hqp] at hq
    · exact h.running q (by simpa [update_of_ne hqp] using hq)
  · intro q d hq
    obtain rfl := honly' q d hq
    simp only [update_self, Pc.commit.injEq] at hq
    exact ⟨hcomm, hgroup, honly', hq ▸ hpins⟩
  · intro q d hq hd
    obtain rfl := honly' q d hq
    simp only [update_self, Pc.commit.injEq] at hq
    subst hq
    rw [(hlisted hd).2]
    exact h.current q c hp (hlisted hd).1
  · exact fun hc => absurd (hcomm.symm.trans hc) (by decide)
  · exact fun g hg q hq => ⟨(ended_update (.inr hold) hended q).1 (h.commits g hg q hq).1,
      (h.commits g hg q hq).2⟩
  · intro q hq
    by_cases hqp : q = p
    · simp [hqp, hended]
    · simpa [update_of_ne hqp] using h.fresh q hq
  · intro q hq
    rcases (ended_update (.inr hold) hended q).2 hq with rfl | hq
    · exact h.ended q hold
    · exact h.ended q hq

theorem Inv.finish (h : Inv s) (hp : s.pc p = .commit .finish) :
    Inv { s with committing := false, ncommit := s.ncommit + 1,
                 pc := update s.pc p .done } := by
  obtain ⟨hcomm, hgroup, honly, hpins⟩ := h.committer p _ hp
  have hdone : Ended .done := .inl rfl
  have hold : Ended (s.pc p) := .inr ⟨_, hp⟩
  have hnone : ∀ q, q ∉ s.group := by simp [hgroup]
  have hnot : ∀ q c, update s.pc p .done q ≠ .commit c := by
    intro q c hq
    by_cases hqp : q = p
    · simp [hqp] at hq
    · rw [update_of_ne hqp] at hq
      exact hqp (honly q c hq)
  refine { h with outstanding := ?_, running := ?_, groupPc := fun q hq => absurd hq (hnone q),
                  committer := fun q c hq => absurd hq (hnot q c),
                  current := fun q c hq => absurd hq (hnot q c), quiet := fun _ => hpins,
                  committing := by simp, commits := ?_, fresh := ?_, ended := ?_ }
  · simp [h.outstanding, hgroup]
  · intro q hq
    by_cases hqp : q = p
    · simp [hqp] at hq
    · exact h.running q (by simpa [update_of_ne hqp] using hq)
  · exact fun g hg q hq => ⟨(ended_update (.inr hold) hdone q).1 (h.commits g hg q hq).1,
      (h.commits g hg q hq).2⟩
  · intro q hq
    by_cases hqp : q = p
    · simp [hqp, hdone]
    · simpa [update_of_ne hqp] using h.fresh q hq
  · intro q hq
    rcases (ended_update (.inr hold) hdone q).2 hq with rfl | hq
    · exact h.ended q hold
    · exact h.ended q hq

theorem PinsFrom.unpin {tail : Nat}
    (h : PinsFrom lh pins tail) (ht : tail < lh.n)
    (hd : ∀ i < lh.n, ∀ j < lh.n, lh.block i = lh.block j → i = j) :
    PinsFrom lh (update pins (lh.block tail) (pins (lh.block tail) - 1)) (tail + 1) := by
  constructor
  · intro i hi
    by_cases hit : i = tail
    · subst hit
      simp [h.listed i hi]
    · rw [update_of_ne fun he => hit (hd i hi tail ht he), h.listed i hi]
      grind
  · intro b hb
    rw [update_of_ne fun he => hb (mem_blocks.mpr ⟨tail, ht, he.symm⟩)]
    exact h.other b hb

theorem PinsFrom.past_end {k : Nat} (h : PinsFrom lh pins k)
    (hk : lh.n ≤ k) : PinsFrom lh pins lh.n := by
  refine ⟨fun i hi => ?_, h.other⟩
  rw [h.listed i hi, if_pos (by omega), if_pos hi]

theorem PinsFrom.empty (h : PinsFrom lh pins lh.n) :
    PinsFrom { lh with n := 0 } pins 0 := by
  refine ⟨fun i hi => absurd hi (by simp), fun b _ => ?_⟩
  by_cases hb : b ∈ lh.blocks
  · obtain ⟨i, hi, rfl⟩ := mem_blocks.mp hb
    rw [h.listed i hi, if_pos hi]
  · exact h.other b hb

theorem Inv.commitStep (h : Inv s) {c : CommitPc} (hp : s.pc p = .commit c) :
    Inv (commitStep s p c) := by
  have hpins := (h.committer p c hp).2.2.2
  have hd := h.distinct
  cases c with
  | start =>
    simp only [Log.commitStep, goto]
    split
    · exact h.commit_goto hp (.writeLog 0) hpins hd fun _ => ⟨rfl, rfl⟩
    · exact h.commit_goto hp .finish hpins hd fun hl => absurd hl (by decide)
  | writeLog tail =>
    simp only [Log.commitStep, goto]
    split
    · exact h.commit_goto hp (.writeLog (tail + 1)) hpins hd fun _ => ⟨rfl, rfl⟩
    · exact h.commit_goto hp .writeHead hpins hd fun _ => ⟨rfl, rfl⟩
  | writeHead => exact h.commit_goto hp (.install 0) hpins hd fun _ => ⟨rfl, rfl⟩
  | install tail =>
    simp only [Log.commitStep, goto]
    split
    · exact h.commit_goto hp (.install (tail + 1)) (hpins.unpin (by assumption) hd) hd
        fun _ => ⟨rfl, rfl⟩
    · exact h.commit_goto hp .clear (hpins.past_end (by simp [CommitPc.installed]; omega)) hd
        fun _ => ⟨rfl, rfl⟩
  | clear =>
    exact h.commit_goto hp .eraseHead hpins.empty (by simp) fun hl => absurd hl (by decide)
  | eraseHead => exact h.commit_goto hp .finish hpins hd fun hl => absurd hl (by decide)
  | finish =>
    refine (h.finish hp).congr_pc (fun q => ?_) (fun q => ?_) fun q c => ?_ <;>
      by_cases hq : q = p <;> simp [hq, Log.wakeup] <;> split <;> simp_all

theorem Inv.step (h : Inv s) {e : Event} {s' : State} (hs : step s e = some s') : Inv s' := by
  unfold Log.step at hs
  split at hs
  · cases hs
  cases e with
  | call p =>
    simp only [guard_eq_some] at hs
    exact hs.2 ▸ h.goto_waiting (.inl hs.1) (.inl rfl)
  | «begin» p =>
    simp only [guard_eq_some] at hs
    exact hs.2 ▸ h.beginOp hs.1
  | wake p =>
    simp only [guard_eq_some] at hs
    exact hs.2 ▸ h.goto_waiting (.inr (.inr hs.1)) (.inl rfl)
  | write p b =>
    simp only [guard_eq_some] at hs
    exact hs.2 ▸ h.logWrite hs.1 b
  | «end» p =>
    simp only [guard_eq_some] at hs
    exact hs.2 ▸ h.endOp hs.1
  | commit p =>
    simp only at hs
    split at hs
    · rename_i c hc
      cases hs
      exact h.commitStep hc
    · cases hs

end

variable {s : State}

/-- The invariant holds in every state that any interleaving reaches. -/
theorem reachable_inv (h : Reachable (· = init) step s) : Inv s :=
  h.invariant (fun _ h => h ▸ inv_init) fun _ _ _ hi hs => hi.step hs

def Installed (s : State) (k : Nat) : Prop :=
  (s.committing = false ∧ k = 0) ∨ ∃ p c, s.pc p = .commit c ∧ k = c.installed s.lh.n

/-- Operation `p` belongs to commit `i` of a run, and to no other, and what it logged is listed
there. -/
def CommittedIn (s : State) (p i : Nat) : Prop :=
  (∃ g, s.commits[i]? = some g ∧ p ∈ g.ops ∧ ∀ b ∈ s.logged p, b ∈ g.blocks) ∧
    ∀ j g, s.commits[j]? = some g → p ∈ g.ops → j = i

theorem Inv.committed_once (h : Inv s) {p i j : Nat} {g g' : Group}
    (hi : s.commits[i]? = some g) (hj : s.commits[j]? = some g') (hp : p ∈ g.ops)
    (hp' : p ∈ g'.ops) : j = i := by
  have hpair := (nodup_flatMap.mp (nodup_append.mp h.once).1).2
  obtain ⟨hil, rfl⟩ := List.getElem?_eq_some_iff.mp hi
  obtain ⟨hjl, rfl⟩ := List.getElem?_eq_some_iff.mp hj
  rcases Nat.lt_trichotomy i j with hlt | he | hlt
  · exact absurd hp' (pairwise_iff_getElem.mp hpair i j hil hjl hlt hp)
  · exact he.symm
  · exact absurd hp (pairwise_iff_getElem.mp hpair j i hjl hil hlt hp')

theorem Inv.committedIn (h : Inv s) {p : Nat} {g : Group} (hg : g ∈ s.commits)
    (hp : p ∈ g.ops) : ∃ i, CommittedIn s p i := by
  obtain ⟨i, hi, rfl⟩ := mem_iff_getElem.mp hg
  have hsome : s.commits[i]? = some s.commits[i] := List.getElem?_eq_getElem hi
  exact ⟨i, ⟨_, hsome, hp, (h.commits _ hg p hp).2⟩, fun j g' hj hp' =>
    h.committed_once hsome hj hp hp'⟩

theorem Inv.blocks_nodup (h : Inv s) : s.lh.blocks.Nodup := by
  refine Nodup.map_on ?_ nodup_range
  exact fun i hi j hj he => h.distinct i (mem_range.mp hi) j (mem_range.mp hj) he

/-- Group-commit isolation, in every state that any interleaving of operations reaches. While a
commit runs no operation is outstanding and no `log_write` can happen, so two of the three panics
are unreachable. The list has no duplicates; each listed buffer carries one pin, except those that
the running commit has already installed, which carry none, as do all other buffers. A commit
starts only when every operation of its group has called `end_op`, and works on the list with
which it started; an operation that has called `end_op` is waiting for another operation of its
group, or belongs to exactly one commit, which lists every block it logged. -/
theorem group_commit_isolation {s : State} (h : Reachable (· = init) step s) :
    (s.committing = true → s.outstanding = 0 ∧ ∀ p b, step s (.write p b) = none) ∧
    s.panic ≠ some "log.committing" ∧ s.panic ≠ some "log_write outside of trans" ∧
    s.lh.blocks.Nodup ∧
    (∃ k, Installed s k) ∧
    (∀ k, Installed s k → ∀ i < s.lh.n, s.pins (s.lh.block i) = if i < k then 0 else 1) ∧
    (∀ b, b ∉ s.lh.blocks → s.pins b = 0) ∧
    (∀ g ∈ s.commits, ∀ p ∈ g.ops, Ended (s.pc p)) ∧
    (∀ p c, s.pc p = .commit c → c.listed = true →
      s.commits.getLast?.map Group.blocks = some s.lh.blocks) ∧
    (∀ p, Ended (s.pc p) →
      (0 < s.outstanding ∧ p ∈ s.group ∧ (∀ b ∈ s.logged p, b ∈ s.lh.blocks) ∧
        ∀ g ∈ s.commits, p ∉ g.ops) ∨
      ∃ i, CommittedIn s p i) := by
  have hinv := reachable_inv h
  have hpins : ∀ k, Installed s k → PinsFrom s.lh s.pins k := by
    rintro k (⟨hc, rfl⟩ | ⟨p, c, hp, rfl⟩)
    · exact hinv.quiet hc
    · exact (hinv.committer p c hp).2.2.2
  have hex : ∃ k, Installed s k := by
    cases hc : s.committing with
    | false => exact ⟨0, .inl ⟨hc, rfl⟩⟩
    | true =>
      obtain ⟨p, c, hp⟩ := hinv.committing hc
      exact ⟨_, .inr ⟨p, c, hp, rfl⟩⟩
  refine ⟨fun hc => ?_, ?_, ?_, hinv.blocks_nodup, hex, fun k hk => (hpins k hk).listed, ?_,
    fun g hg p hp => (hinv.commits g hg p hp).1, hinv.current, fun p hp => ?_⟩
  · obtain ⟨p, c, hp⟩ := hinv.committing hc
    have hgroup := (hinv.committer p c hp).2.1
    refine ⟨by simp [hinv.outstanding, hgroup], fun q b => ?_⟩
    have hq : s.pc q ≠ .running := fun hq => by
      have := hinv.running q hq
      simp [hgroup] at this
    simp [step, hq]
  · rcases hinv.panic with hn | hn <;> simp [hn]
  · rcases hinv.panic with hn | hn <;> simp [hn]
  · obtain ⟨k, hk⟩ := hex
    exact (hpins k hk).other
  · rcases hinv.ended p hp with hm | ⟨g, hg, hm⟩
    · refine .inl ⟨hinv.busy (ne_nil_of_mem hm), hm, hinv.logged p hm, fun g hg hm' => ?_⟩
      have := (nodup_append.mp hinv.once).2.2
      exact this p (mem_flatMap.mpr ⟨g, hg, hm'⟩) p hm rfl
    · exact .inr (hinv.committedIn hg hm)

/-- The events of one operation that logs block 7, up to the unpinning in `install_trans`. -/
def installRun : List Event :=
  [.call 0, .begin 0, .write 0 7, .end 0, .commit 0, .commit 0, .commit 0, .commit 0, .commit 0]

/-- In the middle of `install_trans` a listed buffer carries no pin of the log any more. -/
theorem unpinned_while_listed : ∃ s, Reachable (· = init) step s ∧ 7 ∈ s.lh.blocks ∧ s.pins 7 = 0 :=
  ⟨_, Reachable.run (.start rfl) installRun rfl, by decide, by decide⟩

/-- The isolation theorem in that state. -/
theorem group_commit_isolation_install : ∃ s, Reachable (· = init) step s ∧ s.committing = true ∧
    s.outstanding = 0 := by
  have h : Reachable (· = init) step _ := Reachable.run (.start rfl) installRun rfl
  exact ⟨_, h, rfl, ((group_commit_isolation h).1 rfl).1⟩

end Xv6.Log
