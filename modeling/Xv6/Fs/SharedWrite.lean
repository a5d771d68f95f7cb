import Xv6.Fs.Reclaim

/-! `filewrite` on an inode: processes that share one `struct file` write to it in chunks, each
under the lock of the inode, in any order. The chunks lie one after the other in the file. -/

namespace Xv6.Fs

open Function List

/-- The most that `filewrite` writes in one transaction. -/
abbrev MAXCHUNK : Nat := (MAXOPBLOCKS - 1 - 1 - 2) / 2 * BSIZE

/-- A call of `filewrite`: the bytes at the address of the caller, the first of them that cannot be
read, and the count `i` of the loop. -/
structure Call where
  src : List UInt8
  readable : Nat
  done : Nat

def Call.chunk (c : Call) : List UInt8 := (c.src.drop c.done).take MAXCHUNK

/-- A call that has returned `ret`; `count` bytes of it have gone into the file. -/
structure Returned where
  src : List UInt8
  count : Nat
  ret : Int

/-- A process: the call that it is in, and those that it has made before. -/
structure Writer where
  call : Option Call
  past : List Returned

def Writer.written (w : Writer) : List UInt8 :=
  w.past.flatMap (fun r => r.src.take r.count) ++
    match w.call with
    | some c => c.src.take c.done
    | none => []

/-- A chunk of a process that has gone to `off` in the file. -/
structure Chunk where
  proc : Nat
  off : Nat
  bytes : List UInt8

/-- The file system, the offset in the `struct file`, the processes that share it, and the chunks
written so far, in the order in which the lock of the inode was taken. -/
structure Shared where
  fs : State
  off : Nat
  proc : Nat → Writer
  chunks : List Chunk

/-- The part of `filewrite` that runs under the lock. -/
def writeChunk (sb : Superblock) (ip : Ip) (src : List UInt8) (readable off : Nat) :
    Prog State Int := do
  ilock sb ip
  writei sb ip src readable off

/-- The process after a chunk for which `writei` has returned `r`. -/
def Writer.advance (w : Writer) (c : Call) (r : Int) : Writer :=
  if r ≠ c.chunk.length then ⟨none, w.past ++ [⟨c.src, c.done + r.toNat, -1⟩]⟩
  else ⟨some { c with done := c.done + c.chunk.length }, w.past⟩

def Shared.setProc (w : Shared) (p : Nat) (x : Writer) : Shared :=
  { w with proc := update w.proc p x }

/-- The state after a chunk of process `p` for which `writei` has returned `r`. -/
def Shared.advance (w : Shared) (p : Nat) (c : Call) (r : Int) (fs : State) : Shared where
  fs := fs
  off := w.off + r.toNat
  proc := update w.proc p ((w.proc p).advance c r)
  chunks := if 0 < r then w.chunks ++ [⟨p, w.off, c.chunk.take r.toNat⟩] else w.chunks

/-- What the rest of the kernel may do: anything that neither writes nor truncates the file nor
drops the reference of the `struct file`. -/
def Spared (sb : Superblock) (ip : Ip) (s s' : State) : Prop :=
  (s'.itable ip).ref ≠ 0 ∧ (s'.itable ip).inum = (s.itable ip).inum ∧
  ∀ D, Consistent sb s D → ∃ D', Consistent sb s' D' ∧
    (D' (s.itable ip).inum).type = (D (s.itable ip).inum).type ∧
    (D' (s.itable ip).inum).size = (D (s.itable ip).inum).size ∧
    (D' (s.itable ip).inum).addrs = (D (s.itable ip).inum).addrs ∧
    ∀ k, (D (s.itable ip).inum).slot s.disk k ≠ 0 →
      s'.disk ((D (s.itable ip).inum).slot s.disk k) = s.disk ((D (s.itable ip).inum).slot s.disk k)

/-- The steps of the system: a process calls `filewrite`, writes a chunk, or leaves the loop when
all is written; and the rest of the kernel. -/
inductive SharedStep (sb : Superblock) (ip : Ip) : Shared → Shared → Prop
  | call {w : Shared} (p : Nat) (src : List UInt8) (readable : Nat)
      (hidle : (w.proc p).call = none) (hlen : src.length < 2 ^ 31) :
      SharedStep sb ip w (w.setProc p ⟨some ⟨src, readable, 0⟩, (w.proc p).past⟩)
  | chunk {w : Shared} (p : Nat) {c : Call} {r : Int} {fs : State}
      (hcall : (w.proc p).call = some c) (hlt : c.done < c.src.length)
      (hrun : writeChunk sb ip c.chunk (c.readable - c.done) w.off w.fs = .ok (r, fs)) :
      SharedStep sb ip w (w.advance p c r fs)
  | done {w : Shared} (p : Nat) {c : Call} (hcall : (w.proc p).call = some c)
      (hge : c.src.length ≤ c.done) :
      SharedStep sb ip w (w.setProc p
        ⟨none, (w.proc p).past ++ [⟨c.src, c.done, c.src.length⟩]⟩)
  | other {w : Shared} {fs : State} (h : Spared sb ip w.fs fs) :
      SharedStep sb ip w { w with fs }

/-- What all steps keep, from offset `off` on. -/
structure SharedInv (sb : Superblock) (ip : Ip) (i off : Nat) (w : Shared) (D : Nat → Dinode) :
    Prop where
  consistent : Consistent sb w.fs D
  ref : (w.fs.itable ip).ref ≠ 0
  inum : (w.fs.itable ip).inum = i
  lt : i < sb.ninodes
  type : (D i).type ≠ 0
  max : (D i).size ≤ MAXFILE * BSIZE
  offset : w.off = off + (w.chunks.flatMap Chunk.bytes).length
  below : w.chunks ≠ [] → w.off ≤ (D i).size
  place : ∀ k c, w.chunks[k]? = some c →
    c.off = off + ((w.chunks.take k).flatMap Chunk.bytes).length
  stored : ∀ c ∈ w.chunks, ∀ j b, c.bytes[j]? = some b →
    c.off + j < w.off ∧ (D i).addr w.fs.disk ((c.off + j) / BSIZE) ≠ 0 ∧
      (D i).byte w.fs.disk (c.off + j) = b
  order : ∀ p, (w.chunks.filter (·.proc = p)).flatMap Chunk.bytes = (w.proc p).written
  bound : ∀ p c, (w.proc p).call = some c → c.done ≤ c.src.length ∧ c.src.length < 2 ^ 31
  returned : ∀ p, ∀ r ∈ (w.proc p).past, r.count ≤ r.src.length ∧
    (r.ret = -1 ∨ r.ret = r.src.length ∧ r.count = r.src.length)

section

variable {sb : Superblock} {ip : Ip} {i off p : Nat} {w w' : Shared} {D : Nat → Dinode} {c : Call}
  {r : Int} {x : Writer}

theorem Call.length_chunk_le (c : Call) : c.chunk.length ≤ MAXCHUNK := length_take_le _ _

theorem Call.length_chunk (c : Call) : c.chunk.length ≤ c.src.length - c.done := by
  rw [chunk, length_take, length_drop]
  omega

theorem Call.take_chunk (c : Call) {k : Nat} (hk : k ≤ c.chunk.length) :
    c.src.take c.done ++ c.chunk.take k = c.src.take (c.done + k) := by
  have := c.length_chunk_le
  rw [chunk, take_take, Nat.min_eq_left (by omega), take_add]

theorem Writer.written_advance (hcall : x.call = some c) (hr : r.toNat ≤ c.chunk.length) :
    (x.advance c r).written = x.written ++ c.chunk.take r.toNat := by
  unfold advance written
  rw [hcall]
  split
  · rw [flatMap_append, append_nil, append_assoc, c.take_chunk hr]
    simp
  · rename_i hlen
    rw [not_not] at hlen
    rw [append_assoc, hlen, Int.toNat_natCast, c.take_chunk le_rfl]

theorem SharedInv.setProc (h : SharedInv sb ip i off w D) (hw : x.written = (w.proc p).written)
    (hbound : ∀ c, x.call = some c → c.done ≤ c.src.length ∧ c.src.length < 2 ^ 31)
    (hpast : ∀ r ∈ x.past, r.count ≤ r.src.length ∧
      (r.ret = -1 ∨ r.ret = r.src.length ∧ r.count = r.src.length)) :
    SharedInv sb ip i off (w.setProc p x) D := by
  have hproc : ∀ q, (w.setProc p x).proc q = update w.proc p x q := fun _ => rfl
  refine ⟨h.consistent, h.ref, h.inum, h.lt, h.type, h.max, h.offset, h.below, h.place, h.stored,
    fun q => ?_, fun q c hc => ?_, fun q r hr => ?_⟩
  · rw [hproc]
    by_cases hq : q = p
    · rw [hq, update_self, hw]
      exact h.order p
    · rw [update_of_ne hq]
      exact h.order q
  · rw [hproc] at hc
    by_cases hq : q = p
    · rw [hq, update_self] at hc
      exact hbound c hc
    · rw [update_of_ne hq] at hc
      exact h.bound q c hc
  · rw [hproc] at hr
    by_cases hq : q = p
    · rw [hq, update_self] at hr
      exact hpast r hr
    · rw [update_of_ne hq] at hr
      exact h.returned q r hr

theorem SharedInv.spared {fs : State} (h : SharedInv sb ip i off w D) (hs : Spared sb ip w.fs fs) :
    ∃ D', SharedInv sb ip i off { w with fs } D' := by
  obtain ⟨href, hinum, hall⟩ := hs
  rw [h.inum] at hall hinum
  obtain ⟨D', hc, htype, hsize, haddrs, hdata⟩ := hall D h.consistent
  have hslot : ∀ k, (D' i).slot fs.disk k = (D i).slot w.fs.disk k := by
    intro k
    have hind : (D i).slot w.fs.disk NDIRECT = (D i).addrs NDIRECT :=
      Dinode.slot_addrs le_rfl
    have hn := hdata NDIRECT
    rw [hind] at hn
    rw [← Dinode.slot_congr hn k, Dinode.slot, Dinode.slot, haddrs]
  refine ⟨D', hc, href, hinum, h.lt, by rw [htype]; exact h.type, by rw [hsize]; exact h.max,
    h.offset, by rw [hsize]; exact h.below, h.place, fun c hc j b hb => ?_, h.order, h.bound,
    h.returned⟩
  obtain ⟨hlt, haddr, hbyte⟩ := h.stored c hc j b hb
  have haddr' : (D' i).addr fs.disk ((c.off + j) / BSIZE) =
      (D i).addr w.fs.disk ((c.off + j) / BSIZE) := hslot _
  refine ⟨hlt, by rwa [haddr'], ?_⟩
  rw [Dinode.byte_congr haddr' (hdata _ haddr), hbyte]

theorem SharedInv.advance {fs : State} {D' : Nat → Dinode} (h : SharedInv sb ip i off w D)
    (hcall : (w.proc p).call = some c) (hc : Consistent sb fs D') (href : (fs.itable ip).ref ≠ 0)
    (hinum : (fs.itable ip).inum = i) (htype : (D' i).type ≠ 0)
    (hmax : (D' i).size ≤ MAXFILE * BSIZE) (hsize : (D i).size ≤ (D' i).size)
    (hk : r.toNat ≤ c.chunk.length)
    (hnew : 0 < r → w.off + r.toNat ≤ (D' i).size)
    (hkeep : ∀ x < w.off, (D i).addr w.fs.disk (x / BSIZE) ≠ 0 →
      (D' i).addr fs.disk (x / BSIZE) ≠ 0 ∧ (D' i).byte fs.disk x = (D i).byte w.fs.disk x)
    (hin : ∀ j b, (c.chunk.take r.toNat)[j]? = some b →
      (D' i).addr fs.disk ((w.off + j) / BSIZE) ≠ 0 ∧ (D' i).byte fs.disk (w.off + j) = b) :
    SharedInv sb ip i off (w.advance p c r fs) D' := by
  have hlen : (c.chunk.take r.toNat).length = r.toNat := by
    rw [length_take]
    omega
  have hbound := h.bound p c hcall
  have hchunk := c.length_chunk
  have hproc : ∀ q, (w.advance p c r fs).proc q = update w.proc p ((w.proc p).advance c r) q :=
    fun _ => rfl
  have hold : ∀ x ∈ w.chunks, ∀ j b, x.bytes[j]? = some b → x.off + j < w.off + r.toNat ∧
      (D' i).addr fs.disk ((x.off + j) / BSIZE) ≠ 0 ∧ (D' i).byte fs.disk (x.off + j) = b := by
    intro x hx j b hb
    obtain ⟨hlt, haddr, hbyte⟩ := h.stored x hx j b hb
    obtain ⟨haddr', hbyte'⟩ := hkeep _ hlt haddr
    exact ⟨by omega, haddr', hbyte'.trans hbyte⟩
  refine ⟨hc, href, hinum, h.lt, htype, hmax, ?_, ?_, ?_, ?_, fun q => ?_, fun q c' hc' => ?_,
    fun q x hx => ?_⟩
  · show w.off + r.toNat = off + (flatMap Chunk.bytes (if 0 < r then _ else _)).length
    rw [h.offset]
    split
    · simp only [flatMap_append, flatMap_cons, flatMap_nil, append_nil,
        length_append, hlen]
      omega
    · omega
  · intro hne
    show w.off + r.toNat ≤ _
    by_cases hpos : 0 < r
    · exact hnew hpos
    · have hne' : w.chunks ≠ [] := by
        simpa [Shared.advance, if_neg hpos] using hne
      have := h.below hne'
      omega
  · intro k x hx
    by_cases hpos : 0 < r
    · simp only [Shared.advance, if_pos hpos] at hx ⊢
      by_cases hlt : k < w.chunks.length
      · rw [List.getElem?_append_left hlt] at hx
        rw [take_append_of_le_length (by omega)]
        exact h.place k x hx
      · obtain ⟨rfl, rfl⟩ : k = w.chunks.length ∧ x = ⟨p, w.off, c.chunk.take r.toNat⟩ := by
          rw [List.getElem?_append_right (by omega), List.getElem?_singleton] at hx
          split at hx
          · exact ⟨by omega, (Option.some.inj hx).symm⟩
          · cases hx
        rw [take_append_of_le_length le_rfl, take_length]
        exact h.offset
    · simp only [Shared.advance, if_neg hpos] at hx ⊢
      exact h.place k x hx
  · intro x hx j b hb
    by_cases hpos : 0 < r
    · simp only [Shared.advance, if_pos hpos, mem_append, mem_singleton] at hx
      rcases hx with hx | rfl
      · exact hold x hx j b hb
      · have hj : j < r.toNat := hlen ▸ (List.getElem?_eq_some_iff.mp hb).1
        exact ⟨Nat.add_lt_add_left hj _, hin j b hb⟩
    · simp only [Shared.advance, if_neg hpos] at hx
      exact hold x hx j b hb
  · have hwritten := (w.proc p).written_advance hcall hk
    have hzero : ¬0 < r → c.chunk.take r.toNat = [] := fun hpos => by
      rw [← length_eq_zero_iff, hlen]
      omega
    rw [hproc]
    by_cases hq : q = p
    · rw [hq, update_self, hwritten, ← h.order p]
      by_cases hpos : 0 < r
      · simp [Shared.advance, if_pos hpos]
      · simp [Shared.advance, if_neg hpos, hzero hpos]
    · rw [update_of_ne hq, ← h.order q]
      by_cases hpos : 0 < r
      · simp [Shared.advance, if_pos hpos, Ne.symm hq]
      · simp [Shared.advance, if_neg hpos]
  · rw [hproc] at hc'
    by_cases hq : q = p
    · rw [hq, update_self, Writer.advance] at hc'
      split at hc'
      · cases hc'
      · cases hc'
        exact ⟨by dsimp only; omega, hbound.2⟩
    · rw [update_of_ne hq] at hc'
      exact h.bound q c' hc'
  · rw [hproc] at hx
    by_cases hq : q = p
    · rw [hq, update_self, Writer.advance] at hx
      split at hx
      · rw [mem_append, mem_singleton] at hx
        rcases hx with hx | rfl
        · exact h.returned p x hx
        · exact ⟨by dsimp only; omega, .inl rfl⟩
      · exact h.returned p x hx
    · rw [update_of_ne hq] at hx
      exact h.returned q x hx

theorem SharedInv.chunk {fs : State} (h : SharedInv sb ip i off w D)
    (hcall : (w.proc p).call = some c)
    (hrun : writeChunk sb ip c.chunk (c.readable - c.done) w.off w.fs = .ok (r, fs)) :
    ∃ D', SharedInv sb ip i off (w.advance p c r fs) D' := by
  have hlen : c.chunk.length < 2 ^ 32 := lt_of_le_of_lt c.length_chunk_le (by decide)
  have hpos := pos_of_ne_zero h.ref
  have hspec : wp (fun _ => True) (writeChunk sb ip c.chunk (c.readable - c.done) w.off) w.fs
      fun r fs => ∃ D', SharedInv sb ip i off (w.advance p c r fs) D' := by
    refine (ilock_locked h.consistent hpos h.inum h.lt h.type).bind fun _ s1 hl => ?_
    have h1 := hl.consistent h.consistent h.inum h.lt
    have hpos1 : 0 < (s1.itable ip).ref := by rwa [hl.ref]
    refine (writei_spec h1 hpos1 hl.valid (hl.inum.trans h.inum) h.max hlen).mono fun r s2 hr => ?_
    rcases hr with ⟨rfl, rfl, -⟩ | ⟨-, hmax, tot, D', n, rfl, hw⟩
    · refine ⟨D, h.advance hcall h1 (by omega) (hl.inum.trans h.inum) h.type h.max le_rfl
        (Nat.zero_le _) (by omega) (fun x _ ha => ?_) fun j b hb => ?_⟩
      · rw [hl.disk]
        exact ⟨ha, rfl⟩
      · rw [show (-1 : Int).toNat = 0 from rfl, take_zero] at hb
        cases hb
    have hst := hw.stored
    have hle := hw.stored_le
    rw [hl.disk] at hst
    obtain ⟨addrs, size, hfields, -⟩ := hst.fields
    have hsize := hw.size
    refine ⟨D', h.advance hcall hw.consistent ?_ ?_ ?_ ?_ (by omega) ?_ ?_ (fun x hx ha => ?_)
      fun j b hb => ?_⟩
    · rw [hw.itable, update_self]
      exact ne_of_gt hpos1
    · rw [hw.itable, update_self]
      exact hl.inum.trans h.inum
    · rw [hfields]
      exact h.type
    · have := h.max
      omega
    · rw [Int.toNat_natCast]
      omega
    · intro _
      rw [Int.toNat_natCast]
      omega
    · have hkeep := hst.addr_keep ha
      exact ⟨by rwa [hkeep], hst.outside x (.inl hx) ha⟩
    · rw [Int.toNat_natCast] at hb
      have hj : j < (c.chunk.take tot).length := (List.getElem?_eq_some_iff.mp hb).1
      rw [length_take] at hj
      refine ⟨hst.there j (by rw [length_take]; omega), hst.inside j b ?_⟩
      rw [← hb, List.getElem?_take, List.getElem?_take, if_pos (by omega), if_pos (by omega)]
  exact hspec.of_ok hrun

theorem SharedInv.step (h : SharedInv sb ip i off w D) (hs : SharedStep sb ip w w') :
    ∃ D', SharedInv sb ip i off w' D' := by
  cases hs with
  | call p src readable hidle hlen =>
    refine ⟨D, h.setProc ?_ ?_ (h.returned p)⟩
    · simp [Writer.written, hidle]
    · rintro c hc
      cases hc
      exact ⟨Nat.zero_le _, hlen⟩
  | chunk p hcall hlt hrun => exact h.chunk hcall hrun
  | done p hcall hge =>
    have hbound := h.bound p _ hcall
    refine ⟨D, h.setProc ?_ nofun fun r hr => ?_⟩
    · simp [Writer.written, hcall]
    · rw [mem_append, mem_singleton] at hr
      rcases hr with hr | rfl
      · exact h.returned p r hr
      · exact ⟨hbound.1, .inr ⟨rfl, by dsimp only; omega⟩⟩
  | other hs => exact h.spared hs

/-- The start: no call has been made yet, and the file is an inode in use that the table refers
to. -/
structure SharedStart (sb : Superblock) (ip : Ip) (w : Shared) (D : Nat → Dinode) : Prop where
  consistent : Consistent sb w.fs D
  ref : (w.fs.itable ip).ref ≠ 0
  lt : (w.fs.itable ip).inum < sb.ninodes
  type : (D (w.fs.itable ip).inum).type ≠ 0
  max : (D (w.fs.itable ip).inum).size ≤ MAXFILE * BSIZE
  proc : ∀ p, w.proc p = ⟨none, []⟩
  chunks : w.chunks = []

theorem SharedStart.inv (h : SharedStart sb ip w D) :
    SharedInv sb ip (w.fs.itable ip).inum w.off w D := by
  refine ⟨h.consistent, h.ref, rfl, h.lt, h.type, h.max, ?_, ?_, ?_, ?_, fun p => ?_,
    fun p c hc => ?_, fun p r hr => ?_⟩
  · rw [h.chunks]
    rfl
  · exact fun hne => absurd h.chunks hne
  · intro k c hc
    rw [h.chunks] at hc
    cases hc
  · intro c hc
    rw [h.chunks] at hc
    cases hc
  · rw [h.chunks, h.proc p]
    rfl
  · rw [h.proc p] at hc
    cases hc
  · rw [h.proc p] at hr
    cases hr

theorem SharedStart.reach {w0 : Shared} (h : SharedStart sb ip w0 D)
    (hrun : Relation.ReflTransGen (SharedStep sb ip) w0 w) :
    ∃ D', SharedInv sb ip (w0.fs.itable ip).inum w0.off w D' := by
  induction hrun with
  | refl => exact ⟨D, h.inv⟩
  | tail _ hs ih =>
    obtain ⟨D', h'⟩ := ih
    exact h'.step hs

/-- No schedule of the chunks loses a byte: they lie one after the other in the file from the first
offset on, those of one process in its own order, and the offset stands behind the last. -/
theorem shared_writes_kept {w0 : Shared} (h : SharedStart sb ip w0 D)
    (hrun : Relation.ReflTransGen (SharedStep sb ip) w0 w) :
    let d := dinodeAt sb w.fs.disk (w0.fs.itable ip).inum
    w.off = w0.off + (w.chunks.flatMap Chunk.bytes).length ∧
    (∀ k c, w.chunks[k]? = some c →
      c.off = w0.off + ((w.chunks.take k).flatMap Chunk.bytes).length ∧
      ∀ j b, c.bytes[j]? = some b → c.off + j < d.size ∧ d.byte w.fs.disk (c.off + j) = b) ∧
    (∀ p, (w.chunks.filter (·.proc = p)).flatMap Chunk.bytes = (w.proc p).written) ∧
    ∀ p, ∀ r ∈ (w.proc p).past, r.ret = -1 ∨ r.ret = r.src.length ∧ r.count = r.src.length := by
  obtain ⟨D', h'⟩ := h.reach hrun
  have hd := h'.consistent.stored _ h'.lt
  rw [hd]
  refine ⟨h'.offset, fun k c hc => ⟨h'.place k c hc, fun j b hb => ?_⟩, h'.order,
    fun p r hr => (h'.returned p r hr).2⟩
  have hmem := mem_of_getElem? hc
  obtain ⟨hlt, -, hbyte⟩ := h'.stored c hmem j b hb
  have := h'.below (ne_nil_of_mem hmem)
  exact ⟨by omega, hbyte⟩

def tinyShared : Shared :=
  ⟨tinyState 1 ⟨2, 1, false, Dinode.zero⟩, 0, fun _ => ⟨none, []⟩, []⟩

theorem tinyShared_start : SharedStart tiny 0 tinyShared (tinyInodes 1) := by
  have hc : Consistent tiny tinyShared.fs (tinyInodes 1) := tiny_consistent (by decide) nofun
  exact ⟨hc, by decide, by decide, by decide, by decide, fun _ => rfl, rfl⟩

/-- A write that fits in a block of the file does not stop early. -/
theorem writei_fits {s : State} {src : List UInt8} {readable o : Nat} (h : Consistent sb s D)
    (href : 0 < (s.itable ip).ref) (hvalid : (s.itable ip).valid = true)
    (hinum : (s.itable ip).inum = i) (hmax : (D i).size ≤ MAXFILE * BSIZE) (ho : o ≤ (D i).size)
    (hend : o + src.length ≤ MAXFILE * BSIZE) (hone : o % BSIZE + src.length ≤ BSIZE)
    (haddr : (D i).addr s.disk (o / BSIZE) ≠ 0) (hread : src.length ≤ readable)
    (hpos : 0 < src.length) :
    wp (fun _ => False) (writei sb ip src readable o) s fun r _ => r = src.length := by
  have hbig : MAXFILE * BSIZE < 2 ^ 32 := by decide
  refine (writei_spec h href hvalid hinum hmax (by omega)).mono fun r s2 hr => ?_
  rcases hr with ⟨-, -, hbad⟩ | ⟨-, -, tot, D', n, rfl, hw⟩
  · omega
  · rcases hw.oneBlock hpos hone hread with ⟨htot, -⟩ | ⟨-, hfree⟩
    · rw [htot]
    · rw [Dinode.need_there haddr] at hfree
      exact absurd hfree (Nat.not_lt_zero _)

theorem SharedInv.fits {src : List UInt8} {readable o : Nat} (h : SharedInv sb ip i off w D)
    (ho : o ≤ (D i).size) (hend : o + src.length ≤ MAXFILE * BSIZE)
    (hone : o % BSIZE + src.length ≤ BSIZE) (haddr : (D i).addr w.fs.disk (o / BSIZE) ≠ 0)
    (hread : src.length ≤ readable) (hpos : 0 < src.length) :
    ∃ fs, writeChunk sb ip src readable o w.fs = .ok ((src.length : Int), fs) := by
  suffices hspec : wp (fun _ => False) (writeChunk sb ip src readable o) w.fs fun r _ =>
      r = src.length by
    obtain ⟨r, fs, hrun, rfl⟩ := hspec.exists_ok fun _ => id
    exact ⟨fs, hrun⟩
  have href := Nat.pos_of_ne_zero h.ref
  refine (ilock_locked h.consistent href h.inum h.lt h.type).bind fun _ s1 hl => ?_
  have href1 : 0 < (s1.itable ip).ref := by rwa [hl.ref]
  rw [← hl.disk] at haddr
  exact writei_fits (hl.consistent h.consistent h.inum h.lt) href1 hl.valid (hl.inum.trans h.inum)
    h.max ho hend hone haddr hread hpos

/-- Process 7 calls `filewrite` before process 8 does, but the chunk of 8 goes first. -/
theorem shared_writes_kept_tiny : ∃ w, Relation.ReflTransGen (SharedStep tiny 0) tinyShared w ∧
    w.chunks = [⟨8, 0, [66]⟩, ⟨7, 1, [65]⟩] ∧ w.off = 2 ∧
    (dinodeAt tiny w.fs.disk 2).byte w.fs.disk 0 = 66 ∧
    (dinodeAt tiny w.fs.disk 2).byte w.fs.disk 1 = 65 := by
  have hstart := tinyShared_start
  have hcall : SharedStep tiny 0 tinyShared (tinyShared.setProc 7 ⟨some ⟨[65], 1, 0⟩, []⟩) :=
    .call 7 [65] 1 rfl (by decide)
  have hcalls := (Relation.ReflTransGen.single hcall).tail (.call 8 [66] 1 rfl (by decide))
  obtain ⟨fs, hrun⟩ := hstart.inv.fits (Nat.zero_le _) (by decide) (by decide) (by decide) le_rfl
    (show 0 < ([66] : List UInt8).length by decide)
  have hchunk := hcalls.tail (.chunk 8 rfl (by decide) hrun)
  obtain ⟨D, hinv⟩ := hstart.reach hchunk
  obtain ⟨-, haddr, -⟩ := hinv.stored ⟨8, 0, [66]⟩ (.head _) 0 66 rfl
  have hsize : 1 ≤ (D 2).size := hinv.below (cons_ne_nil _ _)
  obtain ⟨fs', hrun'⟩ := hinv.fits hsize (by decide) (by decide) haddr le_rfl
    (show 0 < ([65] : List UInt8).length by decide)
  have hsteps := hchunk.tail (.chunk 7 rfl (by decide) hrun')
  have hkept := (shared_writes_kept hstart hsteps).2.1
  exact ⟨_, hsteps, rfl, rfl, ((hkept 0 ⟨8, 0, [66]⟩ rfl).2 0 66 rfl).2,
    ((hkept 1 ⟨7, 1, [65]⟩ rfl).2 0 65 rfl).2⟩

end

end Xv6.Fs
