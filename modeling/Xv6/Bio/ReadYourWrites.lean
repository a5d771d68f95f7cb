import Xv6.Bio.CommitInv

/-! What a reader of the cache sees: every `bread` returns the contents logged last for its block,
whatever the cache recycles and however far a commit is. -/

namespace Xv6.Bio

open Function CommitPc Option

variable {start : Nat} {s s' : State} {p : Slot} {i : Fin NBUF} {b : Nat} {c : CommitPc}

theorem Inv.commitStep (h : Inv start s) (hc : s.commit = some (p, c)) (hp : s.pc p = .idle) :
    Inv start (commitStep start s p c) := by
  have hok := h.commit p c hc
  have hown := hok.holds.owned (by simp [hp])
  have hbound := hok.bound
  cases c with
  | log tail =>
    simp only [Bio.commitStep]
    split_ifs with ht
    · exact h.commitBread hc hp (fun _ => rfl) (fun _ => ht) (fun _ => rfl) (fun _ => rfl) (by simp)
    · refine h.jump hc hp rfl ?_ trivial rfl
      exact Nat.le_of_not_lt ht
  | logFrom tail dst | installTo tail lbuf =>
    exact h.commitBread hc hp (fun _ => rfl) (fun _ => hbound) (fun _ => rfl)
      (fun _ => rfl) (by simp)
  | logCopy tail dst src => exact h.logCopy hc hp
  | logRelFrom tail dst src =>
    refine h.commitBrelse (b := s.lh.block tail) hc hp (by simp [holds]) ?_ hbound le_rfl
      rfl (by simp)
    intro x hx
    obtain rfl : x = (dst, start + tail + 1) := by simpa [holds] using hx
    refine ⟨by simp [holds], ?_⟩
    exact (hown _ (by simp [holds])).ne (hown (src, s.lh.block tail)
      (by simp [holds])) (h.block_ne hbound (h.inLog hbound)).symm
  | logRelTo tail dst =>
    exact h.commitBrelse (b := start + tail + 1) hc hp (by simp [holds])
      (by simp [holds]) hbound le_rfl rfl (by simp)
  | head erase =>
    exact h.commitBread hc hp (fun _ => rfl) (fun _ => trivial) (fun _ => by cases erase <;> rfl)
      (fun _ => rfl) (by simp)
  | headSet erase buf => exact h.headSet hc hp _
  | headRel erase buf =>
    refine h.commitBrelse (b := start) hc hp (by simp [holds]) ?_ ?_ ?_ ?_ ?_ <;>
      cases erase <;> simp [holds, Bound, copied, unpinned]
  | install tail =>
    simp only [Bio.commitStep]
    split_ifs with ht
    · exact h.commitBread hc hp (fun _ => rfl) (fun _ => ht) (fun _ => rfl) (fun _ => rfl) (by simp)
    · refine h.jump hc hp ?_ (Nat.zero_le _) trivial rfl
      exact le_antisymm (Nat.le_of_not_lt ht) hbound
  | installCopy tail lbuf dbuf => exact h.installCopy hc hp
  | installUnpin tail lbuf dbuf => exact h.installUnpin hc hp
  | installRelLog tail lbuf dbuf =>
    refine h.commitBrelse (b := start + tail + 1) hc hp (by simp [holds]) ?_ hbound le_rfl
      rfl (by simp)
    intro x hx
    obtain rfl : x = (dbuf, s.lh.block tail) := by simpa [holds] using hx
    refine ⟨by simp [holds], ?_⟩
    exact (hown _ (by simp [holds])).ne (hown (lbuf, start + tail + 1)
      (by simp [holds])) (h.block_ne hbound (h.inLog hbound))
  | installRel tail dbuf =>
    exact h.commitBrelse (b := s.lh.block tail) hc hp (by simp [holds])
      (by simp [holds]) hbound le_rfl rfl (by simp)
  | clear => exact h.clear hc hp
  | finish => exact h.finish hc

theorem Client.idle (h : Client s p) : s.pc p = .idle := by
  have hpc := h.1
  cases hp : s.pc p with
  | idle => rfl
  | lock i b | fill i b | unref i => simp [hp] at hpc

theorem Client.ne (h : Client s p) (c : CommitPc) : s.commit ≠ some (p, c) := by
  intro hc
  have hall := h.2
  simp [hc] at hall

/-- What each event does, when it can happen. -/
inductive Steps (start : Nat) (s : State) : Event → State → Prop
  | begin {p : Slot} {s' : State} (hc : Client s p) (hop : s.op p = false)
    (hs : beginOp s p = some s') : Steps start s (.begin p) s'
  | end {p : Slot} (hc : Client s p) (hop : s.op p = true) : Steps start s (.end p) (endOp s p)
  | bread {p : Slot} {b : Nat} (hc : Client s p) :
    Steps start s (.bread p b) (bread s p b fun _ => s.commit)
  | modify {p : Slot} {i : Fin NBUF} {data : Block} {b : Nat} (hb : (s.buf i).blockno = some b)
    (hw : MayWrite start s p i b) :
    Steps start s (.modify p i data) (s.setBuf i fun x => { x with data, dirty := true })
  | logWrite {p : Slot} {i : Fin NBUF} {b : Nat} (hb : (s.buf i).blockno = some b)
    (hw : MayWrite start s p i b) : Steps start s (.logWrite p i) (logWrite s i b)
  | brelse {p : Slot} {i : Fin NBUF} (hc : Client s p) (hl : (s.buf i).lock = some p)
    (hd : (s.buf i).dirty = false) : Steps start s (.brelse p i) (brelse s p i)
  | lock {p : Slot} {i : Fin NBUF} {b : Nat} {s' : State} (hp : s.pc p = .lock i b)
    (hs : lockStep s p i b = some s') : Steps start s (.run p) s'
  | fill {p : Slot} {i : Fin NBUF} {b : Nat} (hp : s.pc p = .fill i b) :
    Steps start s (.run p) (fillStep s p i b)
  | unref {p : Slot} {i : Fin NBUF} (hp : s.pc p = .unref i) :
    Steps start s (.run p) (unrefStep s p i)
  | commit {p : Slot} {c : CommitPc} (hp : s.pc p = .idle) (hc : s.commit = some (p, c)) :
    Steps start s (.commit p) (commitStep start s p c)

theorem step_cases {e : Event} (hs : step start s e = some s') :
    s.panic = none ∧ Steps start s e s' := by
  unfold step at hs
  obtain ⟨hpanic, hs⟩ := ite_none_left_eq_some.mp hs
  refine ⟨by simpa using hpanic, ?_⟩
  cases e with
  | begin p =>
    obtain ⟨hg, hs⟩ := ite_none_right_eq_some.mp hs
    exact .begin hg.1 hg.2 hs
  | «end» p =>
    obtain ⟨hg, hs⟩ := ite_none_right_eq_some.mp hs
    cases hs
    exact .end hg.1 hg.2
  | bread p b =>
    obtain ⟨hg, hs⟩ := ite_none_right_eq_some.mp hs
    cases hs
    exact .bread hg
  | modify p i data =>
    obtain ⟨b, hb, hs⟩ := bind_eq_some_iff.mp hs
    obtain ⟨hg, hs⟩ := ite_none_right_eq_some.mp hs
    cases hs
    exact .modify hb hg
  | logWrite p i =>
    obtain ⟨b, hb, hs⟩ := bind_eq_some_iff.mp hs
    obtain ⟨hg, hs⟩ := ite_none_right_eq_some.mp hs
    cases hs
    exact .logWrite hb hg
  | brelse p i =>
    obtain ⟨hg, hs⟩ := ite_none_right_eq_some.mp hs
    cases hs
    exact .brelse hg.1 hg.2.1 hg.2.2
  | run p =>
    cases hp : s.pc p with
    | idle => simp [hp] at hs
    | lock i b =>
      simp only [hp] at hs
      exact .lock hp hs
    | fill i b =>
      simp only [hp] at hs
      cases hs
      exact .fill hp
    | unref i =>
      simp only [hp] at hs
      cases hs
      exact .unref hp
  | commit p =>
    cases hp : s.pc p with
    | lock i b | fill i b | unref i => simp [hp] at hs
    | idle =>
      cases hc : s.commit with
      | none => simp [hp, hc] at hs
      | some qc =>
        simp only [hp, hc] at hs
        obtain ⟨rfl, hs⟩ := ite_none_right_eq_some.mp hs
        cases hs
        exact .commit hp hc

theorem Inv.step (h : Inv start s) {e : Event} (hs : step start s e = some s') : Inv start s' := by
  cases (step_cases hs).2 with
  | begin _ hop hs => exact h.beginOp hop hs
  | «end» hc hop => exact h.endOp hc.idle hop
  | bread hc => exact h.bread hc.idle hc.ne _
  | modify _ hw => exact h.modify hw.2.2.1 hw.2.1 _
  | logWrite hb hw => exact h.logWrite hw.1.idle hw.2.2.1 hw.2.1 hb hw.2.2.2
  | brelse hc hl hd => exact h.brelse hc.idle hc.ne hl hd
  | lock hp hs => exact h.lock hp hs
  | fill hp => exact h.fill hp
  | unref hp => exact h.unref hp
  | commit hp hc => exact h.commitStep hc hp

theorem reachable_inv (h : Reachable Start (step start) s) : Inv start s :=
  h.invariant (fun _ => Start.inv) fun _ _ _ ih hs => ih.step hs

/-- How many entries of `log.lh` are at home on the disk, out of `n`. -/
def CommitPc.installed (n : Nat) : CommitPc → Nat
  | .installUnpin tail _ _ => tail + 1
  | c => c.unpinned n

def State.installed (s : State) : Nat :=
  match s.commit with
  | some (_, c) => c.installed s.lh.n
  | none => 0

/-- Block `b` has been logged and is not installed yet. -/
def State.Pending (s : State) (b : Nat) : Prop :=
  ∃ t, s.installed ≤ t ∧ t < s.lh.n ∧ s.lh.block t = b

theorem CommitPc.unpinned_le_installed (n : Nat) : c.unpinned n ≤ c.installed n := by
  cases c <;> simp [installed, unpinned]

theorem State.Pending.pin (h : s.Pending b) : s.Pin b := by
  obtain ⟨t, hle, ht, rfl⟩ := h
  refine ⟨t, le_trans ?_ hle, ht, rfl⟩
  unfold State.unpinned State.installed
  cases s.commit with
  | none => exact le_rfl
  | some pc => exact unpinned_le_installed _

/-- A block that is pinned though it is installed has just been written by `install_trans`. -/
theorem Inv.disk_of_not_pending (h : Inv start s) (hb : ¬s.Pending b) :
    s.disk b = s.expected b := by
  refine (h.cache.backed b).elim id ?_
  rintro ⟨t, hle, ht, rfl⟩
  have hlt : t < s.installed := Nat.lt_of_not_le fun hge => hb ⟨t, hge, ht, rfl⟩
  unfold State.unpinned at hle
  unfold State.installed at hlt
  cases hc : s.commit with
  | none => simp [hc] at hlt
  | some pc =>
    obtain ⟨p, c⟩ := pc
    simp only [hc] at hle hlt
    cases c with
    | installUnpin tail lbuf dbuf =>
      simp only [unpinned, installed] at hle hlt
      obtain rfl : t = tail := by omega
      exact (h.commit p _ hc).installed _ _ _ rfl
    | _ => simp only [unpinned, installed] at hle hlt; omega

/-! ### What a step leaves alone -/

/-- A step of `p` leaves the other processes where they are, with the sleep-locks that they have or
fewer, and takes the block from no buffer that has a reference. -/
structure Touch (s s' : State) (p : Slot) : Prop where
  pc : ∀ q ≠ p, s'.pc q = s.pc q
  lock : ∀ q ≠ p, ∀ i, (s'.buf i).lock = some q → (s.buf i).lock = some q
  block : ∀ i, (s.buf i).refcnt ≠ 0 → (s'.buf i).blockno = (s.buf i).blockno
  op : s'.op = s.op

theorem goto_pc_ne {t : State} {q : Slot} {pc : Pc} (hq : q ≠ p) : (t.goto p pc).pc q = t.pc q :=
  update_of_ne hq _ _

namespace Touch

theorem frame (hbuf : s'.buf = s.buf) (hpc : s'.pc = s.pc) (hop : s'.op = s.op) : Touch s s' p :=
  ⟨fun q _ => by rw [hpc], fun q _ i hl => by rwa [hbuf] at hl, fun i _ => by rw [hbuf], hop⟩

theorem of_buf {x : Buf} (hpc : ∀ q ≠ p, s'.pc q = s.pc q) (hbuf : s'.buf = update s.buf i x)
    (hlock : ∀ q ≠ p, x.lock = some q → (s.buf i).lock = some q)
    (hblock : (s.buf i).refcnt ≠ 0 → x.blockno = (s.buf i).blockno) (hop : s'.op = s.op) :
    Touch s s' p := by
  refine ⟨hpc, fun q hq j hj => ?_, fun j hj => ?_, hop⟩
  · rw [hbuf] at hj
    rcases eq_or_ne j i with rfl | hne
    · rw [update_self] at hj
      exact hlock q hq hj
    · rwa [update_of_ne hne] at hj
  · rw [hbuf]
    rcases eq_or_ne j i with rfl | hne
    · rw [update_self, hblock hj]
    · rw [update_of_ne hne]

theorem setCommit (h : Touch s s' p) (commit : Option (Slot × CommitPc)) :
    Touch s { s' with commit } p := ⟨h.pc, h.lock, h.block, h.op⟩

theorem bread (next : Fin NBUF → Option (Slot × CommitPc)) : Touch s (bread s p b next) p := by
  unfold Bio.bread
  cases h : bget s b with
  | none => exact .frame rfl rfl rfl
  | some r =>
    obtain ⟨i, t⟩ := r
    obtain ⟨x, rfl, hx, -, hblock⟩ := bget_eq h
    exact .of_buf (fun q hq => goto_pc_ne hq) rfl (fun q _ hl => hx ▸ hl) hblock rfl

theorem brelse : Touch s (brelse s p i) p := by
  unfold Bio.brelse
  split_ifs
  · exact .of_buf (fun q hq => goto_pc_ne hq) rfl (nofun) (fun _ => rfl) rfl
  · exact .frame rfl rfl rfl

theorem writeBuf {data : Block} : Touch s (writeBuf s p i data c) p := by
  have hbwrite : ∀ t : State, (bwrite t p i).buf = t.buf ∧ (bwrite t p i).pc = t.pc ∧
      (bwrite t p i).op = t.op := by
    intro t
    unfold bwrite
    split_ifs
    · cases (t.buf i).blockno <;> exact ⟨rfl, rfl, rfl⟩
    · exact ⟨rfl, rfl, rfl⟩
  obtain ⟨h1, h2, h3⟩ := hbwrite (s.setBuf i fun x => { x with data })
  exact .of_buf (fun q _ => congrFun h2 q) h1 (fun q _ hl => hl) (fun _ => rfl) h3

theorem commitStep : Touch s (commitStep start s p c) p := by
  cases c with
  | log tail | install tail =>
    simp only [Bio.commitStep]
    split_ifs
    · exact .bread _
    · exact .frame rfl rfl rfl
  | logFrom tail dst | installTo tail lbuf | head erase => exact .bread _
  | logCopy tail dst src | headSet erase buf | installCopy tail lbuf dbuf => exact .writeBuf
  | logRelFrom tail dst src | logRelTo tail dst | headRel erase buf | installRelLog tail lbuf dbuf
  | installRel tail dbuf => exact Touch.brelse.setCommit _
  | installUnpin tail lbuf dbuf =>
    exact .of_buf (fun _ _ => rfl) rfl (fun q _ hl => hl) (fun _ => rfl) rfl
  | clear | finish => exact .frame rfl rfl rfl

theorem logWrite : Touch s (logWrite s i b) p := by
  unfold Bio.logWrite
  dsimp only
  split_ifs
  · exact .frame rfl rfl rfl
  · exact .frame rfl rfl rfl
  · refine .of_buf (x := { s.buf i with dirty := false, refcnt := (s.buf i).refcnt + 1 })
      (fun _ _ => rfl) ?_ (fun _ _ hl => hl) (fun _ => rfl) rfl
    simp [State.setBuf]
  · exact .of_buf (fun _ _ => rfl) rfl (fun _ _ hl => hl) (fun _ => rfl) rfl

theorem lockStep (hs : lockStep s p i b = some s') : Touch s s' p := by
  unfold Bio.lockStep at hs
  obtain ⟨-, hs⟩ := ite_none_right_eq_some.mp hs
  have hlock : ∀ q ≠ p, some p = some q → (s.buf i).lock = some q := fun q hq he =>
    absurd (some.inj he).symm hq
  by_cases hv : ((s.setBuf i fun x => { x with lock := some p }).buf i).valid
  · rw [if_pos hv] at hs
    cases hs
    exact .of_buf (fun q hq => goto_pc_ne hq) rfl hlock (fun _ => rfl) rfl
  · rw [if_neg hv] at hs
    cases hs
    exact .of_buf (fun q hq => goto_pc_ne hq) rfl hlock (fun _ => rfl) rfl

end Touch

def Event.who : Event → Slot
  | .begin p | .end p | .bread p _ | .modify p _ _ | .logWrite p _ | .brelse p _ | .run p
  | .commit p => p

/-- Apart from the record of who is in an operation, which `begin_op` and `end_op` change. -/
theorem step_touch {e : Event} (hs : step start s e = some s') :
    (∀ q ≠ e.who, s'.op q = s.op q) ∧ Touch s { s' with op := s.op } e.who := by
  have hsame : Touch s s' e.who →
      (∀ q ≠ e.who, s'.op q = s.op q) ∧ Touch s { s' with op := s.op } e.who := fun h =>
    ⟨fun q _ => by rw [h.op], h.pc, h.lock, h.block, rfl⟩
  cases (step_cases hs).2 with
  | begin _ _ hs =>
    obtain ⟨-, hs⟩ := ite_none_right_eq_some.mp hs
    cases hs
    exact ⟨fun q hq => update_of_ne hq _ _, .frame rfl rfl rfl⟩
  | «end» =>
    unfold endOp
    dsimp only
    split_ifs <;> exact ⟨fun q hq => update_of_ne hq _ _, .frame rfl rfl rfl⟩
  | bread => exact hsame (.bread _)
  | modify => exact hsame (.of_buf (fun _ _ => rfl) rfl (fun _ _ hl => hl) (fun _ => rfl) rfl)
  | logWrite => exact hsame .logWrite
  | brelse => exact hsame .brelse
  | lock _ hs => exact hsame (.lockStep hs)
  | fill | unref =>
    exact hsame (.of_buf (fun q hq => goto_pc_ne hq) rfl (fun _ _ hl => hl) (fun _ => rfl) rfl)
  | commit => exact hsame .commitStep

theorem Inv.pinned (h : Inv start s) (hb : s.Pin b) :
    ∃ i, (s.buf i).blockno = some b ∧ (s.buf i).valid = true ∧ (s.buf i).refcnt ≠ 0 := by
  obtain ⟨i, hi, hv⟩ := h.cache.cached b hb
  refine ⟨i, hi, hv, ?_⟩
  rw [h.cache.refcnt i, pins_of_pin hi hb]
  omega

/-- In every run of the cache under the log, every `bread` has returned the contents logged last for
its block, or those on the disk for a block that has never been logged. A block that is logged and
not installed is in a valid buffer that no step recycles. Any other block is on the disk as it was
logged last, and a buffer of it that nobody is changing agrees with the disk. -/
theorem cache_reads_logged (h : Reachable Start (step start) s) :
    (∀ r ∈ s.reads, r.data = r.logged.getD r.disk) ∧
      (∀ b, s.Pending b → ∃ i, (s.buf i).blockno = some b ∧ (s.buf i).valid = true ∧
        ∀ e s', step start s e = some s' → (s'.buf i).blockno = some b) ∧
      ∀ b, ¬s.Pending b → (∀ d, s.logged b = some d → s.disk b = d) ∧
        ∀ i, (s.buf i).blockno = some b → (s.buf i).valid = true → (s.buf i).dirty = false →
          (s.buf i).data = s.disk b := by
  have hinv := reachable_inv h
  refine ⟨hinv.reads, fun b hb => ?_, fun b hb => ?_⟩
  · obtain ⟨i, hi, hv, href⟩ := hinv.pinned hb.pin
    exact ⟨i, hi, hv, fun e s' hs => ((step_touch hs).2.block i href).trans hi⟩
  · have hdisk := hinv.disk_of_not_pending hb
    refine ⟨fun d hd => ?_, fun i hi hv hclean => ?_⟩
    · simpa [State.expected, hd] using hdisk
    · rw [hdisk]
      exact hinv.cache.content i b hi hv hclean

/-- The cache after `binit`, over a blank disk. -/
def boot : State where
  buf _ :=
    { valid := false, blockno := none, lock := none, refcnt := 0, data := .zero, dirty := false }
  order := (List.finRange NBUF).reverse
  disk _ := .zero
  lh := { n := 0, block := fun _ => 0 }
  outstanding := 0
  commit := none
  op _ := false
  pc _ := .idle
  panic := none
  logged _ := none
  reads := []

theorem boot_start : Start boot := by
  constructor <;> simp [boot]

/-- A process logs a change to block 40 and another reads the block back before the commit. -/
theorem cache_reads_logged_beforeCommit : ∃ s, Reachable Start (step 2) s ∧ s.Pending 40 ∧
    s.reads.length = 2 ∧ (∀ r ∈ s.reads, r.data = r.logged.getD r.disk) ∧
      ∃ i, (s.buf i).blockno = some 40 ∧ (s.buf i).valid = true := by
  have hrun : (runEvents (step 2) boot [.begin 0, .bread 0 40, .run 0, .run 0,
      .modify 0 0 (Vector.replicate BSIZE 1), .logWrite 0 0, .brelse 0 0, .run 0, .bread 1 40,
      .run 1]).any (fun s => decide (s.installed ≤ 0 ∧ 0 < s.lh.n ∧ s.lh.block 0 = 40 ∧
        s.reads.length = 2)) = true := by
    decide +kernel
  obtain ⟨s, hreach, hinstalled, hn, hblock, hreads⟩ := Reachable.exists_run boot_start hrun
  have hpending : s.Pending 40 := ⟨0, hinstalled, hn, hblock⟩
  obtain ⟨hlogged, hpinned, -⟩ := cache_reads_logged hreach
  obtain ⟨i, hi, hv, -⟩ := hpinned 40 hpending
  exact ⟨s, hreach, hpending, hreads, hlogged, i, hi, hv⟩

end Xv6.Bio
