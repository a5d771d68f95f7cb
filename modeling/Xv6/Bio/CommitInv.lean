import Xv6.Bio.CacheInv
import Xv6.Log.GroupInv

/-! The log over the buffer cache: which blocks it pins, what a commit has copied and which buffers
it has, step by step. -/

namespace Xv6.Bio

open Function CommitPc

/-- What a reader of block `b` should see: the contents logged last, or those on the disk. -/
def State.expected (s : State) (b : Nat) : Block := (s.logged b).getD (s.disk b)

/-- How many entries of `log.lh` the commit has unpinned, out of `n`. -/
def CommitPc.unpinned (n : Nat) : CommitPc → Nat
  | .install tail | .installTo tail _ | .installCopy tail _ _ | .installUnpin tail _ _ => tail
  | .installRelLog tail _ _ | .installRel tail _ => tail + 1
  | .clear => n
  | _ => 0

def State.unpinned (s : State) : Nat :=
  match s.commit with
  | some (_, c) => c.unpinned s.lh.n
  | none => 0

/-- The log has a pin on the buffer of block `b`. -/
def State.Pin (s : State) (b : Nat) : Prop :=
  ∃ t, s.unpinned ≤ t ∧ t < s.lh.n ∧ s.lh.block t = b

/-- How many blocks of the log hold the contents of their entry, out of `n`. -/
def CommitPc.copied (n : Nat) : CommitPc → Nat
  | .log tail | .logFrom tail _ | .logCopy tail _ _ => tail
  | .logRelFrom tail _ _ | .logRelTo tail _ => tail + 1
  | .head false | .headSet false _ | .headRel false _ => n
  | .install _ | .installTo _ _ | .installCopy _ _ _ | .installUnpin _ _ _
  | .installRelLog _ _ _ | .installRel _ _ => n
  | _ => 0

def CommitPc.Bound (n : Nat) : CommitPc → Prop
  | .log tail | .install tail => tail ≤ n
  | .logFrom tail _ | .logCopy tail _ _ | .logRelFrom tail _ _ | .logRelTo tail _
  | .installTo tail _ | .installCopy tail _ _ | .installUnpin tail _ _
  | .installRelLog tail _ _ | .installRel tail _ => tail < n
  | _ => True

variable (start : Nat)

def CommitPc.holds (lh : Log.LogHeader) : CommitPc → List (Fin NBUF × Nat)
  | .logFrom tail dst | .logRelTo tail dst => [(dst, start + tail + 1)]
  | .logCopy tail dst src | .logRelFrom tail dst src =>
    [(src, lh.block tail), (dst, start + tail + 1)]
  | .headSet _ buf | .headRel _ buf => [(buf, start)]
  | .installTo tail lbuf => [(lbuf, start + tail + 1)]
  | .installCopy tail lbuf dbuf | .installUnpin tail lbuf dbuf
  | .installRelLog tail lbuf dbuf => [(dbuf, lh.block tail), (lbuf, start + tail + 1)]
  | .installRel tail dbuf => [(dbuf, lh.block tail)]
  | _ => []

/-- `p` has the buffer with the block, unchanged. -/
def Owned (s : State) (p : Slot) (x : Fin NBUF × Nat) : Prop :=
  (s.buf x.1).lock = some p ∧ (s.buf x.1).blockno = some x.2 ∧ (s.buf x.1).dirty = false

/-- `p` has the buffers, or waits for the first of them and has the others. -/
def Holding (s : State) (p : Slot) (l : List (Fin NBUF × Nat)) : Prop :=
  match s.pc p with
  | .lock i b => ∃ rest, l = (i, b) :: rest ∧ ∀ x ∈ rest, Owned s p x
  | _ => ∀ x ∈ l, Owned s p x

/-- A commit at `c`. -/
structure CommitOk (s : State) (p : Slot) (c : CommitPc) : Prop where
  bound : c.Bound s.lh.n
  copied : ∀ t < c.copied s.lh.n, s.disk (start + t + 1) = s.expected (s.lh.block t)
  installed : ∀ tail lbuf dbuf, c = .installUnpin tail lbuf dbuf →
    s.disk (s.lh.block tail) = s.expected (s.lh.block tail)
  holds : Holding s p (c.holds start s.lh)

/-- The cache, the log and the commit together, and every `bread` so far. -/
structure Inv (s : State) : Prop where
  cache : Cache s.Pin s.expected s
  ops : s.outstanding = ∑ p, if s.op p then 1 else 0
  quiet : s.commit ≠ none → ∀ p, s.op p = false
  distinct : ∀ t < s.lh.n, ∀ u < s.lh.n, s.lh.block t = s.lh.block u → t = u
  listed : ∀ t < s.lh.n, ¬InLog start (s.lh.block t) ∧ (s.logged (s.lh.block t)).isSome
  size : s.lh.n ≤ LOGBLOCKS
  region : ∀ b, InLog start b → s.logged b = none
  commit : ∀ p c, s.commit = some (p, c) → CommitOk start s p c
  reads : ∀ r ∈ s.reads, r.data = r.logged.getD r.disk

variable {start}

theorem Start.inv {s : State} (h : Start s) : Inv start s := by
  have hpin : ∀ b, ¬s.Pin b := by
    rintro b ⟨t, -, ht, -⟩
    rw [h.lh] at ht
    exact Nat.not_lt_zero t ht
  have hexpected : ∀ b, s.expected b = s.disk b := fun b => by simp [State.expected, h.logged]
  have hcache : Cache s.Pin s.expected s := by
    constructor
    · exact h.order
    · exact h.unique
    · intro i
      have hzero : ∀ p, refs s i p = 0 := fun p => by simp [refs, (h.free i).1, h.pc]
      have hpins : pins s.Pin (s.buf i) = 0 := if_neg (by simp [hpin])
      rw [(h.free i).2.1, Finset.sum_congr rfl fun p _ => hzero p, hpins]
      simp
    · intro p i b hp
      rw [h.pc] at hp
      cases hp
    · intro p i b hp
      rw [h.pc] at hp
      cases hp
    · intro i p hi
      rw [(h.free i).1] at hi
      cases hi
    · exact fun i _ => (h.free i).2.2
    · intro i b hi hv _
      rw [hexpected]
      exact h.data i b hi hv
    · exact fun b => .inl (hexpected b).symm
    · exact fun b hb => absurd hb (hpin b)
  refine { cache := hcache, ops := ?_, quiet := ?_, distinct := ?_, listed := ?_, size := ?_,
           region := fun b _ => h.logged b, commit := ?_, reads := ?_ }
  · simp [h.outstanding, h.op]
  · exact fun _ => h.op
  · simp [h.lh]
  · simp [h.lh]
  · simp [h.lh]
  · simp [h.commit]
  · simp [h.reads]

variable {s s' : State} {p q : Slot} {i : Fin NBUF} {b : Nat} {c : CommitPc}

theorem expected_congr (hlogged : s'.logged = s.logged) (hdisk : s'.disk = s.disk) :
    s'.expected = s.expected := by
  funext b
  unfold State.expected
  rw [hlogged, hdisk]

theorem pin_congr (hlh : s'.lh = s.lh) (hu : s'.unpinned = s.unpinned) : s'.Pin = s.Pin := by
  funext b
  unfold State.Pin
  rw [hlh, hu]

theorem Owned.of_update {x : Buf} {y : Fin NBUF × Nat} (hbuf : s'.buf = update s.buf i x)
    (hx : (s.buf i).lock = some p → x.lock = some p ∧ x.blockno = (s.buf i).blockno ∧
      x.dirty = (s.buf i).dirty) (hy : Owned s p y) : Owned s' p y := by
  unfold Owned at *
  rw [hbuf]
  rcases eq_or_ne y.1 i with he | hne
  · rw [he] at hy ⊢
    rw [update_self]
    obtain ⟨h1, h2, h3⟩ := hx hy.1
    exact ⟨h1, h2.trans hy.2.1, h3.trans hy.2.2⟩
  · rw [update_of_ne hne]
    exact hy

/-- `p` has not moved, and its buffers are as they were. -/
structure Keeps (s s' : State) (p : Slot) : Prop where
  pc : s'.pc p = s.pc p
  owned : ∀ x, Owned s p x → Owned s' p x

theorem Holding.keep {l : List (Fin NBUF × Nat)} (h : Holding s p l) (hk : Keeps s s' p) :
    Holding s' p l := by
  unfold Holding at *
  rw [hk.pc]
  cases hpc : s.pc p with
  | lock i b =>
    rw [hpc] at h
    obtain ⟨rest, hl, hrest⟩ := h
    exact ⟨rest, hl, fun x hx => hk.owned x (hrest x hx)⟩
  | idle | fill i b | unref i =>
    rw [hpc] at h
    exact fun x hx => hk.owned x (h x hx)

theorem Holding.owned {l : List (Fin NBUF × Nat)} (h : Holding s p l)
    (hpc : ∀ i b, s.pc p ≠ .lock i b) : ∀ x ∈ l, Owned s p x := by
  unfold Holding at h
  cases hp : s.pc p with
  | lock i b => exact absurd hp (hpc i b)
  | idle | fill i b | unref i =>
    rw [hp] at h
    exact h

theorem Holding.of_owned {l : List (Fin NBUF × Nat)} (hpc : ∀ i b, s.pc p ≠ .lock i b)
    (h : ∀ x ∈ l, Owned s p x) : Holding s p l := by
  unfold Holding
  cases hp : s.pc p with
  | lock i b => exact absurd hp (hpc i b)
  | idle | fill i b | unref i => exact h

theorem CommitOk.rehold (h : CommitOk start s p c) (hh : Holding s' p (c.holds start s.lh))
    (hlh : s'.lh = s.lh) (hdisk : s'.disk = s.disk) (hlogged : s'.logged = s.logged) :
    CommitOk start s' p c := by
  have hexpected := expected_congr hlogged hdisk
  constructor
  · rw [hlh]
    exact h.bound
  · rw [hlh, hdisk, hexpected]
    exact h.copied
  · rw [hlh, hdisk, hexpected]
    exact h.installed
  · rw [hlh]
    exact hh

theorem CommitOk.keep (h : CommitOk start s p c) (hk : Keeps s s' p) (hlh : s'.lh = s.lh)
    (hdisk : s'.disk = s.disk) (hlogged : s'.logged = s.logged) : CommitOk start s' p c :=
  h.rehold (h.holds.keep hk) hlh hdisk hlogged

theorem Keeps.of_update {x : Buf} {pc : Pc} (hbuf : s'.buf = update s.buf i x)
    (hpc : s'.pc = update s.pc q pc) (hqp : p ≠ q)
    (hx : (s.buf i).lock = some p → x.lock = some p ∧ x.blockno = (s.buf i).blockno ∧
      x.dirty = (s.buf i).dirty) : Keeps s s' p := by
  exact ⟨by rw [hpc, update_of_ne hqp], fun y hy => hy.of_update hbuf hx⟩

theorem Cache.repin (hc : Cache s.Pin s.expected s') (hlh : s'.lh = s.lh) (hdisk : s'.disk = s.disk)
    (hlogged : s'.logged = s.logged) (hu : s'.unpinned = s.unpinned) :
    Cache s'.Pin s'.expected s' := by
  rw [pin_congr hlh hu, expected_congr hlogged hdisk]
  exact hc

theorem Inv.cache_frame (h : Inv start s) (hbuf : s'.buf = s.buf) (hpc : s'.pc = s.pc)
    (hdisk : s'.disk = s.disk) (horder : s'.order = s.order) (hlh : s'.lh = s.lh)
    (hlogged : s'.logged = s.logged) (hu : s'.unpinned = s.unpinned) :
    Cache s'.Pin s'.expected s' :=
  (h.cache.frame hbuf hpc hdisk horder).repin hlh hdisk hlogged hu

theorem Inv.sameLog (h : Inv start s) (hcache : Cache s'.Pin s'.expected s') (hlh : s'.lh = s.lh)
    (hlogged : s'.logged = s.logged) (hop : s'.op = s.op)
    (hout : s'.outstanding = s.outstanding) (hcommit : s'.commit ≠ none → s.commit ≠ none)
    (hreads : ∀ r ∈ s'.reads, r.data = r.logged.getD r.disk)
    (hok : ∀ p c, s'.commit = some (p, c) → CommitOk start s' p c) : Inv start s' := by
  refine ⟨hcache, ?_, ?_, ?_, ?_, ?_, ?_, hok, hreads⟩
  · rw [hout, hop]
    exact h.ops
  · rw [hop]
    exact fun hne => h.quiet (hcommit hne)
  · rw [hlh]
    exact h.distinct
  · rw [hlh, hlogged]
    exact h.listed
  · rw [hlh]
    exact h.size
  · rw [hlogged]
    exact h.region

theorem Inv.cacheStep (h : Inv start s) (hc : Cache s.Pin s.expected s') (hlh : s'.lh = s.lh)
    (hdisk : s'.disk = s.disk) (hlogged : s'.logged = s.logged) (hop : s'.op = s.op)
    (hout : s'.outstanding = s.outstanding) (hcommit : s'.commit = s.commit)
    (hreads : ∀ r ∈ s'.reads, r.data = r.logged.getD r.disk)
    (hok : ∀ p c, s.commit = some (p, c) → CommitOk start s' p c) : Inv start s' := by
  refine h.sameLog (hc.repin hlh hdisk hlogged ?_) hlh hlogged hop hout (hcommit ▸ id) hreads
    (hcommit ▸ hok)
  unfold State.unpinned
  rw [hlh, hcommit]

variable {c' : CommitPc}

theorem Inv.advance (h : Inv start s) (hold : s.commit = some (p, c))
    (hcommit : s'.commit = some (p, c')) (hcache : Cache s'.Pin s'.expected s')
    (hlh : s'.lh = s.lh) (hlogged : s'.logged = s.logged) (hop : s'.op = s.op)
    (hout : s'.outstanding = s.outstanding) (hreads : s'.reads = s.reads)
    (hok : CommitOk start s' p c') : Inv start s' := by
  refine h.sameLog hcache hlh hlogged hop hout (by simp [hold]) (hreads ▸ h.reads) ?_
  intro q d hd
  cases hcommit.symm.trans hd
  exact hok

/-- `bget` changes one buffer. It takes no sleep-lock, and recycles only a buffer without a
reference. -/
theorem bget_eq (h : bget s b = some (i, s')) : ∃ x, s' = { s with buf := update s.buf i x } ∧
    x.lock = (s.buf i).lock ∧ x.dirty = (s.buf i).dirty ∧
      ((s.buf i).refcnt ≠ 0 → x.blockno = (s.buf i).blockno) := by
  unfold bget at h
  cases hfind : s.order.find? fun i => (s.buf i).blockno == some b with
  | some i =>
    simp only [hfind] at h
    cases h
    exact ⟨_, rfl, rfl, rfl, fun _ => rfl⟩
  | none =>
    simp only [hfind] at h
    cases hfree : s.order.reverse.find? fun i => (s.buf i).refcnt == 0 with
    | none => simp [hfree] at h
    | some i =>
      simp only [hfree] at h
      cases h
      have hi : (s.buf i).refcnt = 0 := by simpa using List.find?_some hfree
      exact ⟨_, rfl, rfl, rfl, fun hne => absurd hi hne⟩

theorem bget_spec {pin : Nat → Prop} {want : Nat → Block} (hc : Cache pin want s)
    (hg : bget s b = some (i, s')) :
    ∃ x, s' = { s with buf := update s.buf i x } ∧
      ∀ p, (s.buf i).lock = some p → x.lock = some p ∧ x.blockno = (s.buf i).blockno ∧
        x.dirty = (s.buf i).dirty := by
  obtain ⟨x, hs, hl, hd, hblock⟩ := bget_eq hg
  refine ⟨x, hs, fun p hp => ⟨hl.trans hp, hblock fun hz => ?_, hd⟩⟩
  rw [(hc.unused hz).1] at hp
  cases hp

theorem Inv.bread (h : Inv start s) (hp : s.pc p = .idle) (hclient : ∀ c, s.commit ≠ some (p, c))
    (b : Nat) : Inv start (bread s p b fun _ => s.commit) := by
  unfold Bio.bread
  cases hg : bget s b with
  | none =>
    exact h.cacheStep (h.cache.frame rfl rfl rfl rfl) rfl rfl rfl rfl rfl rfl h.reads fun q c hq =>
      (h.commit q c hq).keep ⟨rfl, fun _ hx => hx⟩ rfl rfl rfl
  | some r =>
    obtain ⟨i, s'⟩ := r
    obtain ⟨hcache, -⟩ := h.cache.bget hp hg
    obtain ⟨x, rfl, hx⟩ := bget_spec h.cache hg
    refine h.cacheStep (hcache.frame rfl rfl rfl rfl) rfl rfl rfl rfl rfl rfl h.reads
      fun q c hq => (h.commit q c hq).keep ?_ rfl rfl rfl
    have hqp : q ≠ p := by
      rintro rfl
      exact hclient c hq
    exact .of_update rfl rfl hqp (hx q)

theorem Inv.commitBread (h : Inv start s) (hc : s.commit = some (p, c)) (hp : s.pc p = .idle)
    {next : Fin NBUF → CommitPc}
    (hholds : ∀ i, (next i).holds start s.lh = (i, b) :: c.holds start s.lh)
    (hbound : ∀ i, (next i).Bound s.lh.n) (hcopied : ∀ i, (next i).copied s.lh.n = c.copied s.lh.n)
    (hunpinned : ∀ i, (next i).unpinned s.lh.n = c.unpinned s.lh.n)
    (hnext : ∀ i tail lbuf dbuf, next i ≠ .installUnpin tail lbuf dbuf) :
    Inv start (Bio.bread s p b fun i => some (p, next i)) := by
  have hok := h.commit p c hc
  have hown := hok.holds.owned (by simp [hp])
  unfold Bio.bread
  cases hg : bget s b with
  | none =>
    exact h.cacheStep (h.cache.frame rfl rfl rfl rfl) rfl rfl rfl rfl rfl rfl h.reads fun q c hq =>
      (h.commit q c hq).keep ⟨rfl, fun _ hx => hx⟩ rfl rfl rfl
  | some r =>
    obtain ⟨i, s'⟩ := r
    obtain ⟨hcache, -⟩ := h.cache.bget hp hg
    obtain ⟨x, rfl, hx⟩ := bget_spec h.cache hg
    refine h.advance hc rfl ?_ rfl rfl rfl rfl rfl ?_
    · refine Cache.repin (hcache.frame rfl rfl rfl rfl) rfl rfl rfl ?_
      simp only [State.unpinned, State.goto, hc]
      exact hunpinned i
    constructor
    · exact hbound i
    · intro t ht
      exact hok.copied t (by rwa [← hcopied i])
    · intro tail lbuf dbuf he
      exact absurd he (hnext i tail lbuf dbuf)
    · unfold Holding
      simp only [State.goto, update_self]
      exact ⟨_, hholds i, fun y hy => (hown y hy).of_update rfl (hx p)⟩

theorem not_lock_idle (i : Fin NBUF) (b : Nat) : Pc.idle ≠ .lock i b := by simp

section

variable (h : Inv start s)

include h

theorem Inv.commitOk_lock {pc : Pc} (hp : s.pc p = .lock i b)
    (hl : (s.buf i).lock = none) (hpc : ∀ i b, pc ≠ .lock i b)
    (hbuf : s'.buf = update s.buf i { s.buf i with lock := some p })
    (hpcs : s'.pc = update s.pc p pc) (hlh : s'.lh = s.lh) (hdisk : s'.disk = s.disk)
    (hlogged : s'.logged = s.logged) (hq : s.commit = some (q, c)) : CommitOk start s' q c := by
  have hok := h.commit q c hq
  have hfree : ∀ r, (s.buf i).lock ≠ some r := by simp [hl]
  rcases eq_or_ne q p with rfl | hqp
  · have hholds := hok.holds
    unfold Holding at hholds
    rw [hp] at hholds
    obtain ⟨rest, hrest, hown⟩ := hholds
    refine hok.rehold (.of_owned (by simpa [hpcs] using hpc) ?_) hlh hdisk hlogged
    rw [hrest]
    intro x hx
    rcases List.mem_cons.mp hx with rfl | hx
    · simp [Owned, hbuf, h.cache.waiting q i b hp, h.cache.clean i hl]
    · exact (hown x hx).of_update hbuf fun he => absurd he (hfree q)
  · exact hok.keep (.of_update hbuf hpcs hqp fun he => absurd he (hfree q)) hlh hdisk hlogged

theorem Inv.reads_append {r : Read} (hr : r.data = r.logged.getD r.disk) :
    ∀ r' ∈ s.reads ++ [r], r'.data = r'.logged.getD r'.disk := by
  intro r' hr'
  rcases List.mem_append.mp hr' with hold | hnew
  · exact h.reads r' hold
  · rw [List.mem_singleton.mp hnew]
    exact hr

theorem Inv.lock (hp : s.pc p = .lock i b) (hs : lockStep s p i b = some s') :
    Inv start s' := by
  unfold lockStep at hs
  by_cases hl : (s.buf i).lock = none
  swap
  · simp [hl] at hs
  simp only [hl, if_true, State.setBuf, update_self] at hs
  split_ifs at hs with hv
  · rw [Option.some.injEq] at hs
    subst hs
    have hcache := h.cache.lock hp hl (.inl ⟨rfl, hv⟩)
    refine h.cacheStep (hcache.frame rfl rfl rfl rfl) rfl rfl rfl rfl rfl rfl (h.reads_append ?_)
      fun q c hq => h.commitOk_lock hp hl not_lock_idle rfl rfl rfl rfl rfl hq
    simp only [update_self]
    exact h.cache.content i b (h.cache.waiting p i b hp) hv (h.cache.clean i hl)
  · rw [Option.some.injEq] at hs
    subst hs
    exact h.cacheStep (h.cache.lock hp hl (.inr ⟨rfl, by simpa using hv⟩)) rfl rfl rfl rfl rfl rfl
      h.reads fun q c hq => h.commitOk_lock hp hl (by simp) rfl rfl rfl rfl rfl hq

theorem Inv.commitOk_same {pc : Pc} {x : Buf} (hp : ∀ i b, s.pc p ≠ .lock i b)
    (hpc : ∀ i b, pc ≠ .lock i b) (hbuf : s'.buf = update s.buf i x)
    (hx : x.lock = (s.buf i).lock ∧ x.blockno = (s.buf i).blockno ∧ x.dirty = (s.buf i).dirty)
    (hpcs : s'.pc = update s.pc p pc) (hlh : s'.lh = s.lh) (hdisk : s'.disk = s.disk)
    (hlogged : s'.logged = s.logged) (hq : s.commit = some (q, c)) : CommitOk start s' q c := by
  have hok := h.commit q c hq
  have hx' : (s.buf i).lock = some q → x.lock = some q ∧ x.blockno = (s.buf i).blockno ∧
      x.dirty = (s.buf i).dirty := fun he => ⟨hx.1.trans he, hx.2⟩
  rcases eq_or_ne q p with rfl | hqp
  · refine hok.rehold (.of_owned (by simpa [hpcs] using hpc) ?_) hlh hdisk hlogged
    exact fun y hy => (hok.holds.owned hp y hy).of_update hbuf hx'
  · exact hok.keep (.of_update hbuf hpcs hqp hx') hlh hdisk hlogged

theorem Inv.fill (hp : s.pc p = .fill i b) : Inv start (fillStep s p i b) := by
  obtain ⟨hb, -, hv⟩ := h.cache.filling p i b hp
  refine h.cacheStep ((h.cache.fill hp).frame rfl rfl rfl rfl) rfl rfl rfl rfl rfl rfl
    (h.reads_append ?_) fun q c hq =>
      h.commitOk_same (by simp [hp]) not_lock_idle rfl ⟨rfl, rfl, rfl⟩ rfl rfl rfl rfl hq
  simp only [State.setBuf, update_self]
  exact h.cache.disk_of_invalid hb hv

theorem Inv.unref (hp : s.pc p = .unref i) : Inv start (unrefStep s p i) :=
  h.cacheStep (h.cache.unref hp) rfl rfl rfl rfl rfl rfl h.reads fun _ _ hq =>
    h.commitOk_same (by simp [hp]) not_lock_idle rfl ⟨rfl, rfl, rfl⟩ rfl rfl rfl rfl hq

theorem Inv.brelse (hp : s.pc p = .idle)
    (hclient : ∀ c, s.commit ≠ some (p, c)) (hl : (s.buf i).lock = some p)
    (hd : (s.buf i).dirty = false) : Inv start (brelse s p i) := by
  unfold Bio.brelse
  rw [if_pos hl]
  refine h.cacheStep (h.cache.release hp hl hd) rfl rfl rfl rfl rfl rfl h.reads fun q c hq =>
    (h.commit q c hq).keep ?_ rfl rfl rfl
  have hqp : q ≠ p := by
    rintro rfl
    exact hclient c hq
  refine .of_update rfl rfl hqp fun he => ?_
  exact absurd (Option.some.inj (he.symm.trans hl)) hqp

theorem Inv.commitBrelse (hc : s.commit = some (p, c))
    (hp : s.pc p = .idle) (hi : (i, b) ∈ c.holds start s.lh)
    (hholds : ∀ x ∈ c'.holds start s.lh, x ∈ c.holds start s.lh ∧ x.1 ≠ i)
    (hbound : c'.Bound s.lh.n) (hcopied : c'.copied s.lh.n ≤ c.copied s.lh.n)
    (hunpinned : c'.unpinned s.lh.n = c.unpinned s.lh.n)
    (hnext : ∀ tail lbuf dbuf, c' ≠ .installUnpin tail lbuf dbuf) :
    Inv start { Bio.brelse s p i with commit := some (p, c') } := by
  have hok := h.commit p c hc
  have hown := hok.holds.owned (by simp [hp])
  obtain ⟨hl, -, hd⟩ := hown _ hi
  unfold Bio.brelse
  rw [if_pos hl]
  refine h.advance hc rfl ?_ rfl rfl rfl rfl rfl ?_
  · refine Cache.repin ((h.cache.release hp hl hd).frame rfl rfl rfl rfl) rfl rfl rfl ?_
    simp only [State.unpinned, hc]
    exact hunpinned
  constructor
  · exact hbound
  · exact fun t ht => hok.copied t (lt_of_lt_of_le ht hcopied)
  · exact fun tail lbuf dbuf he => absurd he (hnext tail lbuf dbuf)
  · refine .of_owned (by simp [State.goto]) fun x hx => ?_
    obtain ⟨hmem, hne⟩ := hholds x hx
    have hx := hown x hmem
    unfold Owned at hx ⊢
    simp only [State.goto, State.setBuf, update_of_ne hne]
    exact hx

theorem Inv.not_committing (hop : s.op p = true) : s.commit = none := by
  by_contra hc
  rw [h.quiet hc p] at hop
  cases hop

end

theorem pin_iff (hc : s.commit = none) : s.Pin b ↔ b ∈ s.lh.blocks := by
  simp [State.Pin, State.unpinned, hc, Log.mem_blocks]

theorem Inv.modify (h : Inv start s) (hop : s.op p = true) (hl : (s.buf i).lock = some p)
    (data : Block) : Inv start (s.setBuf i fun x => { x with data, dirty := true }) := by
  refine h.cacheStep (h.cache.modify hl data) rfl rfl rfl rfl rfl rfl h.reads fun q c hq => ?_
  cases (h.not_committing hop).symm.trans hq

theorem Inv.relog (h : Inv start s) (hc : s.commit = none) (hlog : ¬InLog start b)
    {data : Block} (hcache : Cache s'.Pin (update s.expected b data) s')
    (hlogged : s'.logged = update s.logged b (some data)) (hdisk : s'.disk = s.disk)
    (hop : s'.op = s.op) (hout : s'.outstanding = s.outstanding) (hcommit : s'.commit = s.commit)
    (hreads : s'.reads = s.reads)
    (hdistinct : ∀ t < s'.lh.n, ∀ u < s'.lh.n, s'.lh.block t = s'.lh.block u → t = u)
    (hlisted : ∀ t < s'.lh.n, s'.lh.block t ∈ s.lh.blocks ∨ s'.lh.block t = b)
    (hsize : s'.lh.n ≤ LOGBLOCKS) : Inv start s' := by
  have hexpected : s'.expected = update s.expected b data := by
    funext b'
    unfold State.expected
    rw [hlogged, hdisk]
    rcases eq_or_ne b' b with rfl | hne
    · simp
    · simp [update_of_ne hne]
  constructor
  · rw [hexpected]
    exact hcache
  · rw [hout, hop]
    exact h.ops
  · rw [hcommit]
    exact fun hsome => absurd hc hsome
  · exact hdistinct
  · intro t ht
    rw [hlogged]
    rcases eq_or_ne (s'.lh.block t) b with he | hne
    · rw [he]
      exact ⟨hlog, by simp⟩
    · obtain ⟨u, hu, he⟩ := Log.mem_blocks.mp ((hlisted t ht).resolve_right hne)
      rw [update_of_ne hne, ← he]
      exact h.listed u hu
  · exact hsize
  · intro b' hb'
    rw [hlogged, update_of_ne (by rintro rfl; exact hlog hb')]
    exact h.region b' hb'
  · rw [hcommit, hc]
    exact nofun
  · rw [hreads]
    exact h.reads

theorem mem_blocks_push {lh : Log.LogHeader} {b' : Nat} :
    b' ∈ Log.LogHeader.blocks { n := lh.n + 1, block := update lh.block lh.n b } ↔
      b' ∈ lh.blocks ∨ b' = b := by
  rw [Log.mem_blocks, Log.mem_blocks]
  constructor
  · rintro ⟨t, ht, he⟩
    dsimp only at ht he
    rcases eq_or_ne t lh.n with rfl | hne
    · rw [update_self] at he
      exact .inr he.symm
    · rw [update_of_ne hne] at he
      exact .inl ⟨t, by omega, he⟩
  · rintro (⟨t, ht, he⟩ | rfl)
    · exact ⟨t, by dsimp only; omega, by simp [update_of_ne (ne_of_lt ht), he]⟩
    · exact ⟨lh.n, by simp, by simp⟩

theorem Inv.panic (h : Inv start s) (e : String) : Inv start { s with panic := some e } :=
  h.cacheStep (h.cache.frame rfl rfl rfl rfl) rfl rfl rfl rfl rfl rfl h.reads fun q c hq =>
    (h.commit q c hq).keep ⟨rfl, fun _ hx => hx⟩ rfl rfl rfl

theorem Inv.logWrite (h : Inv start s) (hp : s.pc p = .idle) (hop : s.op p = true)
    (hl : (s.buf i).lock = some p) (hb : (s.buf i).blockno = some b) (hlog : ¬InLog start b) :
    Inv start (logWrite s i b) := by
  have hc := h.not_committing hop
  unfold Bio.logWrite
  by_cases hn : s.lh.n ≥ LOGBLOCKS
  · rw [if_pos hn]
    exact h.panic _
  rw [if_neg hn]
  by_cases hout : s.outstanding < 1
  · rw [if_pos hout]
    exact h.panic _
  rw [if_neg hout]
  rcases Log.absorb_spec s.lh b with ⟨hj, hjb⟩ | ⟨hj, hjb⟩
  · -- absorption: the block is listed already, and its buffer pinned
    have hblock : update s.lh.block (Log.absorb s.lh b) b = s.lh.block := by
      conv_lhs => arg 3; rw [← hjb]
      exact update_eq_self _ _
    have hmem : b ∈ s.lh.blocks := Log.mem_blocks.mpr ⟨_, hj, hjb⟩
    simp only [State.setBuf, hblock, if_neg (ne_of_lt hj)]
    refine h.relog hc hlog ?_ rfl rfl rfl rfl rfl rfl h.distinct
      (fun t ht => .inl (Log.mem_blocks.mpr ⟨t, ht, rfl⟩)) h.size
    refine h.cache.logged hp hl hb (fun b' => ?_) (.inl ⟨(pin_iff hc).mpr hmem, rfl⟩) rfl
      rfl rfl rfl
    rw [pin_iff (by exact hc), pin_iff hc]
    exact ⟨.inl, fun hor => hor.elim id fun he => he ▸ hmem⟩
  · simp only [State.setBuf, hj, if_true, update_self, update_idem]
    refine h.relog hc hlog ?_ rfl rfl rfl rfl rfl rfl ?_ ?_ ?_
    · refine h.cache.logged hp hl hb (fun b' => ?_)
        (.inr ⟨fun hpin => hjb ((pin_iff hc).mp hpin), rfl⟩) rfl rfl rfl rfl
      rw [pin_iff (by exact hc), pin_iff hc]
      exact mem_blocks_push
    · intro t ht u hu he
      have hne : ∀ t < s.lh.n, s.lh.block t ≠ b := fun t ht he =>
        hjb (Log.mem_blocks.mpr ⟨t, ht, he⟩)
      dsimp only at ht hu he
      rw [update_apply, update_apply] at he
      have := h.distinct t
      have := hne t
      have := hne u
      grind
    · intro t ht
      exact mem_blocks_push.mp (Log.mem_blocks.mpr ⟨t, ht, rfl⟩)
    · dsimp only
      omega

theorem sum_op (op : Slot → Bool) (p : Slot) (v : Bool) :
    (∑ q, if update op p v q then (1 : Int) else 0) + (if op p then 1 else 0) =
      (∑ q, if op q then (1 : Int) else 0) + if v then 1 else 0 := by
  have hsum := sum_add_of_ne (Finset.mem_univ p)
    (f := fun q => if update op p v q then (1 : Int) else 0)
    fun q hq => by rw [update_of_ne hq]
  simpa using hsum

theorem Inv.account (h : Inv start s) (hc : s.commit = none) {op : Slot → Bool} {n : Int}
    (hops : n = ∑ p, if op p then 1 else 0) : Inv start { s with outstanding := n, op } :=
  { h with
    cache := h.cache_frame rfl rfl rfl rfl rfl rfl rfl
    ops := hops
    quiet := fun hsome => absurd hc hsome
    commit := fun q c hq => by cases hc.symm.trans hq }

theorem Inv.beginOp (h : Inv start s) (hop : s.op p = false) (hs : beginOp s p = some s') :
    Inv start s' := by
  unfold Bio.beginOp at hs
  by_cases hg : s.commit = none ∧ ¬s.lh.n + (s.outstanding + 1) * MAXOPBLOCKS > LOGBLOCKS
  swap
  · rw [if_neg hg] at hs
    cases hs
  rw [if_pos hg, Option.some.injEq] at hs
  subst hs
  refine h.account hg.1 ?_
  have hsum := sum_op s.op p true
  rw [hop, ← h.ops] at hsum
  simp only [Bool.false_eq_true, if_false, if_true] at hsum
  omega

theorem CommitOk.free (hp : s.pc p = .idle) (hbound : c.Bound s.lh.n)
    (hcopied : ∀ t < c.copied s.lh.n, s.disk (start + t + 1) = s.expected (s.lh.block t))
    (hholds : c.holds start s.lh = []) : CommitOk start s p c := by
  refine ⟨hbound, hcopied, ?_, .of_owned (by simp [hp]) (by simp [hholds])⟩
  rintro tail lbuf dbuf rfl
  simp [CommitPc.holds] at hholds

theorem Inv.startCommit (h : Inv start s) (hc : s.commit = none) (hop : ∀ q, s.op q = false)
    (hp : s.pc p = .idle) (hc' : c = .log 0 ∨ c = .finish) :
    Inv start { s with commit := some (p, c) } := by
  have hu : c.unpinned s.lh.n = 0 := by rcases hc' with rfl | rfl <;> rfl
  refine { h with
    cache := h.cache_frame rfl rfl rfl rfl rfl rfl (by simp [State.unpinned, hc, hu])
    quiet := fun _ => hop, commit := ?_ }
  intro q d hq
  obtain ⟨rfl, rfl⟩ : p = q ∧ c = d := by simpa using hq
  refine .free hp ?_ ?_ ?_ <;> rcases hc' with rfl | rfl <;>
    simp [Bound, copied, CommitPc.holds]

theorem Inv.endOp (h : Inv start s) (hp : s.pc p = .idle) (hop : s.op p = true) :
    Inv start (endOp s p) := by
  have hc := h.not_committing hop
  have hsum := sum_op s.op p false
  rw [hop, ← h.ops] at hsum
  simp only [Bool.false_eq_true, if_false, if_true] at hsum
  have hmid : Inv start { s with outstanding := s.outstanding - 1, op := update s.op p false } :=
    h.account hc (by omega)
  unfold Bio.endOp
  simp only [hc, Option.isSome_none, Bool.false_eq_true, if_false]
  by_cases hz : s.outstanding - 1 = 0
  · rw [if_pos hz]
    -- the last operation has ended
    have hall : ∀ q, update s.op p false q = false := by
      have hzero : ∑ q, (if update s.op p false q then (1 : Int) else 0) = 0 := by omega
      rw [Finset.sum_eq_zero_iff_of_nonneg fun q _ => by split <;> decide] at hzero
      intro q
      simpa using hzero q (Finset.mem_univ q)
    refine hmid.startCommit hc hall hp ?_
    by_cases hn : s.lh.n > 0
    · exact .inl (if_pos hn)
    · exact .inr (if_neg hn)
  · rw [if_neg hz]
    rw [← hc]
    exact hmid

theorem writeBuf_of_owned (ho : Owned s p (i, b)) (data : Block) :
    writeBuf s p i data c' =
      { s with buf := update s.buf i { s.buf i with data }, disk := update s.disk b data,
               commit := some (p, c') } := by
  obtain ⟨hl, hb, -⟩ := ho
  simp [writeBuf, bwrite, State.setBuf, hl, hb]

theorem CommitPc.copied_le {n : Nat} (h : c.Bound n) : c.copied n ≤ n := by
  cases c with
  | head erase | headSet erase buf | headRel erase buf => cases erase <;> simp [copied]
  | _ => simp only [Bound] at h; simp only [copied]; omega

section

variable (h : Inv start s)

include h

theorem Inv.data_of_owned (hp : s.pc p = .idle) (ho : Owned s p (i, b)) :
    (s.buf i).data = s.expected b :=
  h.cache.content i b ho.2.1 ((h.cache.held i p ho.1).resolve_right (by simp [hp])) ho.2.2

theorem Inv.expected_region (hb : InLog start b) : s.expected b = s.disk b := by
  simp [State.expected, h.region b hb]

theorem Inv.commitWrite {data : Block}
    (hc : s.commit = some (p, c)) (hp : s.pc p = .idle) (hi : (i, b) ∈ c.holds start s.lh)
    (hholds : c'.holds start s.lh = c.holds start s.lh) (hbound : c'.Bound s.lh.n)
    (hunpinned : c'.unpinned s.lh.n = c.unpinned s.lh.n)
    (hlogged : s.logged b = none ∨ data = s.expected b)
    (hlisted : ∀ t < s.lh.n, s.lh.block t = b → data = s.expected b)
    (hcopied : ∀ t < c'.copied s.lh.n, start + t + 1 ≠ b → t < c.copied s.lh.n)
    (hnew : ∀ t < c'.copied s.lh.n, start + t + 1 = b → data = s.expected (s.lh.block t))
    (hinstalled : ∀ tail lbuf dbuf, c' = .installUnpin tail lbuf dbuf → s.lh.block tail = b) :
    Inv start (writeBuf s p i data c') := by
  have hok := h.commit p c hc
  have hown := hok.holds.owned (by simp [hp])
  obtain ⟨hl, hb, -⟩ := hown _ hi
  rw [writeBuf_of_owned (hown _ hi)]
  set s' : State := { s with
    buf := update s.buf i { s.buf i with data }, disk := update s.disk b data,
    commit := some (p, c') } with hs'
  have hexpected : s'.expected = update s.expected b data := by
    funext b'
    rcases eq_or_ne b' b with rfl | hne
    · rcases hlogged with hnone | hdata
      · simp [State.expected, hs', hnone]
      · rw [update_self]
        cases hx : s.logged b' with
        | none => simp [State.expected, hs', hx]
        | some x => simpa [State.expected, hs', hx] using hdata.symm
    · simp [State.expected, hs', update_of_ne hne]
  have hkeep : ∀ t < s.lh.n, s'.expected (s.lh.block t) = s.expected (s.lh.block t) := by
    intro t ht
    rw [hexpected]
    rcases eq_or_ne (s.lh.block t) b with he | hne
    · rw [he, update_self]
      exact hlisted t ht he
    · exact update_of_ne hne _ _
  have hpin : s'.Pin = s.Pin :=
    pin_congr rfl (by simp only [State.unpinned, hs', hc]; exact hunpinned)
  refine h.advance hc rfl ?_ rfl rfl rfl rfl rfl ⟨hbound, ?_, ?_, ?_⟩
  · rw [hpin, hexpected]
    exact h.cache.writeThrough hl hb rfl rfl rfl rfl
  · intro t ht
    have htn : t < s.lh.n := lt_of_lt_of_le ht (copied_le hbound)
    refine Eq.trans ?_ (hkeep t htn).symm
    rcases eq_or_ne (start + t + 1) b with he | hne
    · simp only [hs', he, update_self]
      exact hnew t ht he
    · simp only [hs', update_of_ne hne]
      exact hok.copied t (hcopied t ht hne)
  · intro tail lbuf dbuf he
    have hblock : s'.lh.block tail = b := hinstalled tail lbuf dbuf he
    rw [hexpected, hblock, update_self]
    exact update_self b data s.disk
  · refine .of_owned (by simp [hs', hp]) fun x hx => ?_
    rw [show s'.lh = s.lh from rfl, hholds] at hx
    exact (hown x hx).of_update rfl fun hl => ⟨hl, rfl, rfl⟩

theorem Inv.block_ne {t : Nat} (ht : t < s.lh.n) (hb : InLog start b) :
    s.lh.block t ≠ b := by
  rintro rfl
  exact (h.listed t ht).1 hb

theorem Inv.inLog {t : Nat} (ht : t < s.lh.n) : InLog start (start + t + 1) := by
  have hsize := h.size
  unfold InLog
  omega

theorem Inv.logCopy {tail : Nat} {dst src : Fin NBUF}
    (hc : s.commit = some (p, .logCopy tail dst src)) (hp : s.pc p = .idle) :
    Inv start (writeBuf s p dst (s.buf src).data (.logRelFrom tail dst src)) := by
  have hok := h.commit p _ hc
  have htail : tail < s.lh.n := hok.bound
  have hlog := h.inLog htail
  have hdata : (s.buf src).data = s.expected (s.lh.block tail) :=
    h.data_of_owned hp
      (hok.holds.owned (by simp [hp]) (src, s.lh.block tail) (by simp [CommitPc.holds]))
  refine h.commitWrite hc hp (by simp [CommitPc.holds]) rfl htail rfl
    (.inl (h.region _ hlog)) (fun t ht he => absurd he (h.block_ne ht hlog)) ?_ ?_ (by simp)
  · intro t ht hne
    simp only [copied] at ht ⊢
    omega
  · intro t _ he
    obtain rfl : t = tail := by omega
    exact hdata

theorem Inv.headSet {erase : Bool} {buf : Fin NBUF}
    (hc : s.commit = some (p, .headSet erase buf)) (hp : s.pc p = .idle) (data : Block) :
    Inv start (writeBuf s p buf data (.headRel erase buf)) := by
  have hlog : InLog start start := by simp [InLog]
  refine h.commitWrite hc hp (by simp [CommitPc.holds]) rfl trivial rfl
    (.inl (h.region _ hlog)) (fun t ht he => absurd he (h.block_ne ht hlog)) ?_ ?_ (by simp)
  · intro t ht _
    cases erase <;> exact ht
  · intro t _ he
    omega

/-- The write of a turn of `install_trans`: the contents are those that the buffer has already. -/
theorem Inv.installCopy {tail : Nat} {lbuf dbuf : Fin NBUF}
    (hc : s.commit = some (p, .installCopy tail lbuf dbuf)) (hp : s.pc p = .idle) :
    Inv start (writeBuf s p dbuf (s.buf lbuf).data (.installUnpin tail lbuf dbuf)) := by
  have hok := h.commit p _ hc
  have htail : tail < s.lh.n := hok.bound
  have hlog := h.inLog htail
  have hdata : (s.buf lbuf).data = s.expected (s.lh.block tail) := by
    rw [h.data_of_owned hp (hok.holds.owned (by simp [hp]) (lbuf, start + tail + 1)
      (by simp [CommitPc.holds])), h.expected_region hlog]
    exact hok.copied tail htail
  refine h.commitWrite hc hp (by simp [CommitPc.holds]) rfl htail rfl
    (.inr hdata) (fun t ht he => hdata) ?_ ?_ ?_
  · exact fun t ht _ => ht
  · intro t ht he
    exact absurd he.symm (h.block_ne htail (h.inLog ht))
  · intro tail' lbuf' dbuf' he
    cases he
    rfl

theorem Inv.jump (hc : s.commit = some (p, c))
    (hp : s.pc p = .idle) (hunpinned : c'.unpinned s.lh.n = c.unpinned s.lh.n)
    (hcopied : c'.copied s.lh.n ≤ c.copied s.lh.n) (hbound : c'.Bound s.lh.n)
    (hholds : c'.holds start s.lh = []) : Inv start { s with commit := some (p, c') } := by
  refine h.advance hc rfl (h.cache_frame rfl rfl rfl rfl rfl rfl ?_) rfl rfl rfl rfl rfl
    (.free hp hbound ?_ hholds)
  · simp only [State.unpinned, hc]
    exact hunpinned
  · exact fun t ht => (h.commit p c hc).copied t (lt_of_lt_of_le ht hcopied)

theorem Inv.installUnpin {tail : Nat} {lbuf dbuf : Fin NBUF}
    (hc : s.commit = some (p, .installUnpin tail lbuf dbuf)) (hp : s.pc p = .idle) :
    Inv start { s.setBuf dbuf fun x => { x with refcnt := x.refcnt - 1 } with
      commit := some (p, .installRelLog tail lbuf dbuf) } := by
  have hok := h.commit p _ hc
  have htail : tail < s.lh.n := hok.bound
  have hown := hok.holds.owned (by simp [hp])
  have hb := (hown (dbuf, s.lh.block tail) (by simp [CommitPc.holds])).2.1
  refine h.advance hc rfl ?_ rfl rfl rfl rfl rfl ⟨htail, hok.copied, by simp, ?_⟩
  · refine h.cache.unpin hb ⟨tail, ?_, htail, rfl⟩ (hok.installed _ _ _ rfl) (fun b' => ?_) rfl rfl
      rfl rfl
    · simp [State.unpinned, hc, unpinned]
    simp only [State.Pin, State.unpinned, hc, unpinned, State.setBuf]
    constructor
    · rintro ⟨t, hle, ht, rfl⟩
      refine ⟨⟨t, by omega, ht, rfl⟩, fun he => ?_⟩
      have := h.distinct t ht tail htail he
      omega
    · rintro ⟨⟨t, hle, ht, rfl⟩, hne⟩
      have htne : t ≠ tail := fun he => hne (by rw [he])
      exact ⟨t, by omega, ht, rfl⟩
  · refine .of_owned (by simp [State.setBuf, hp]) fun x hx => ?_
    exact (hown x hx).of_update rfl fun hl => ⟨hl, rfl, rfl⟩

theorem Inv.clear (hc : s.commit = some (p, .clear)) (hp : s.pc p = .idle) :
    Inv start { s with lh := { s.lh with n := 0 }, commit := some (p, .head true) } := by
  have hold : ∀ b, ¬s.Pin b := by
    rintro b ⟨t, hle, hlt, -⟩
    simp only [State.unpinned, hc, unpinned] at hle
    omega
  have hpin : State.Pin { s with lh := { s.lh with n := 0 }, commit := some (p, .head true) } =
      s.Pin := by
    funext b
    refine propext ⟨?_, fun hb => absurd hb (hold b)⟩
    rintro ⟨t, -, ht, -⟩
    exact absurd ht (Nat.not_lt_zero t)
  refine { h with
    cache := by rw [hpin]; exact h.cache.frame rfl rfl rfl rfl
    quiet := fun _ => h.quiet (by simp [hc]), distinct := by simp, listed := by simp
    size := Nat.zero_le _, commit := ?_ }
  intro q d hq
  obtain ⟨rfl, rfl⟩ : p = q ∧ .head true = d := by simpa using hq
  exact .free hp trivial (by simp [copied]) rfl

theorem Inv.finish (hc : s.commit = some (p, .finish)) :
    Inv start { s with commit := none } :=
  { h with
    cache := h.cache_frame rfl rfl rfl rfl rfl rfl (by simp [State.unpinned, hc, unpinned])
    quiet := fun he => absurd rfl he, commit := nofun }

end

theorem Owned.ne {x y : Fin NBUF × Nat} (hx : Owned s p x) (hy : Owned s p y) (hne : x.2 ≠ y.2) :
    x.1 ≠ y.1 := by
  intro he
  have hblock := hx.2.1
  rw [he, hy.2.1] at hblock
  exact hne (Option.some.inj hblock).symm

end Xv6.Bio
