import Xv6.Log.Group

/-! The buffer cache of `bio.c` under the log of `log.c`: any number of processes that read blocks
and log changes to them, and the commit that writes the log and installs it, all through the same
`NBUF` buffers. The processes interleave at the granularity of the critical sections of
`bcache.lock` and of the accesses to a locked buffer. -/

namespace Xv6.Bio

open Function
open Log (LogHeader)

abbrev Slot := Fin NPROC

/-- `struct buf`; `blockno` is `none` in a buffer that `bget` has not given a block yet, and `lock`
is the process that has its sleep-lock. `dirty` records that the contents have been changed since
the last `log_write`. -/
structure Buf where
  valid : Bool
  blockno : Option Nat
  lock : Option Slot
  refcnt : Nat
  data : Block
  dirty : Bool

/-- Where a process is inside of `bread`, before it has the sleep-lock of buffer `i` for block `b`
or before it reads the disk, or inside of `brelse`, past `releasesleep`. -/
inductive Pc
  | idle
  | lock (i : Fin NBUF) (b : Nat)
  | fill (i : Fin NBUF) (b : Nat)
  | unref (i : Fin NBUF)

/-- What a commit does next, with the buffers that it has; `dst` and `src` are `to` and `from` of
`write_log`. -/
inductive CommitPc
  | log (tail : Nat)
  | logFrom (tail : Nat) (dst : Fin NBUF)
  | logCopy (tail : Nat) (dst src : Fin NBUF)
  | logRelFrom (tail : Nat) (dst src : Fin NBUF)
  | logRelTo (tail : Nat) (dst : Fin NBUF)
  | head (erase : Bool)
  | headSet (erase : Bool) (buf : Fin NBUF)
  | headRel (erase : Bool) (buf : Fin NBUF)
  | install (tail : Nat)
  | installTo (tail : Nat) (lbuf : Fin NBUF)
  | installCopy (tail : Nat) (lbuf dbuf : Fin NBUF)
  | installUnpin (tail : Nat) (lbuf dbuf : Fin NBUF)
  | installRelLog (tail : Nat) (lbuf dbuf : Fin NBUF)
  | installRel (tail : Nat) (dbuf : Fin NBUF)
  | clear
  | finish

/-- One `bread` that has returned: the block, the contents, and what had been logged for the block
last and was on the disk then. -/
structure Read where
  blockno : Nat
  data : Block
  logged : Option Block
  disk : Block

/-- The cache with its list from the most to the least recently used buffer, the disk, the log with
the process that is committing, and the processes: whether each is between `begin_op` and `end_op`,
and where. The last two fields record the contents logged last for each block, and every `bread`. -/
structure State where
  buf : Fin NBUF → Buf
  order : List (Fin NBUF)
  disk : Nat → Block
  lh : LogHeader
  outstanding : Int
  commit : Option (Slot × CommitPc)
  op : Slot → Bool
  pc : Slot → Pc
  panic : Option String
  logged : Nat → Option Block
  reads : List Read

def State.goto (s : State) (p : Slot) (pc : Pc) : State := { s with pc := update s.pc p pc }

def State.setBuf (s : State) (i : Fin NBUF) (f : Buf → Buf) : State :=
  { s with buf := update s.buf i (f (s.buf i)) }

/-- The buffer that `bget` returns for block `b`, and the cache then: the buffer that has the block,
or the least recently used one without a reference. -/
def bget (s : State) (b : Nat) : Option (Fin NBUF × State) :=
  match s.order.find? fun i => (s.buf i).blockno == some b with
  | some i => some (i, s.setBuf i fun x => { x with refcnt := x.refcnt + 1 })
  | none =>
    match s.order.reverse.find? fun i => (s.buf i).refcnt == 0 with
    | some i =>
      some (i, s.setBuf i fun x => { x with blockno := some b, valid := false, refcnt := 1 })
    | none => none

/-- The start of `bread`, up to `acquiresleep`; `next` is what a commit does with the buffer. -/
def bread (s : State) (p : Slot) (b : Nat) (next : Fin NBUF → Option (Slot × CommitPc)) : State :=
  match bget s b with
  | some (i, s') => { s' with commit := next i }.goto p (.lock i b)
  | none => { s with panic := some "bget: no buffers" }

def breadReturn (s : State) (p : Slot) (i : Fin NBUF) (b : Nat) : State :=
  let read : Read :=
    { blockno := b, data := (s.buf i).data, logged := s.logged b, disk := s.disk b }
  { s with reads := s.reads ++ [read] }.goto p .idle

/-- `acquiresleep`, when the buffer is free, and the test of `valid`. -/
def lockStep (s : State) (p : Slot) (i : Fin NBUF) (b : Nat) : Option State :=
  if (s.buf i).lock = none then
    let s := s.setBuf i fun x => { x with lock := some p }
    if (s.buf i).valid then some (breadReturn s p i b) else some (s.goto p (.fill i b))
  else none

def fillStep (s : State) (p : Slot) (i : Fin NBUF) (b : Nat) : State :=
  breadReturn (s.setBuf i fun x => { x with data := s.disk b, valid := true }) p i b

def bwrite (s : State) (p : Slot) (i : Fin NBUF) : State :=
  if (s.buf i).lock = some p then
    match (s.buf i).blockno with
    | some b => { s with disk := update s.disk b (s.buf i).data }
    | none => s
  else { s with panic := some "bwrite" }

def brelse (s : State) (p : Slot) (i : Fin NBUF) : State :=
  if (s.buf i).lock = some p then
    (s.setBuf i fun x => { x with lock := none }).goto p (.unref i)
  else { s with panic := some "brelse" }

def unrefStep (s : State) (p : Slot) (i : Fin NBUF) : State :=
  let s := s.setBuf i fun x => { x with refcnt := x.refcnt - 1 }
  let order := if (s.buf i).refcnt = 0 then i :: s.order.erase i else s.order
  { s with order }.goto p .idle

def logWrite (s : State) (i : Fin NBUF) (b : Nat) : State :=
  if s.lh.n ≥ LOGBLOCKS then { s with panic := some "too big a transaction" }
  else if s.outstanding < 1 then { s with panic := some "log_write outside of trans" }
  else
    let j := Log.absorb s.lh b
    let block := update s.lh.block j b
    let s := { s with logged := update s.logged b (some (s.buf i).data) }
    let s := s.setBuf i fun x => { x with dirty := false }
    if j = s.lh.n then
      { s.setBuf i fun x => { x with refcnt := x.refcnt + 1 } with
        lh := { n := s.lh.n + 1, block } }
    else { s with lh := { s.lh with block } }

def beginOp (s : State) (p : Slot) : Option State :=
  if s.commit = none ∧ ¬s.lh.n + (s.outstanding + 1) * MAXOPBLOCKS > LOGBLOCKS then
    some { s with outstanding := s.outstanding + 1, op := update s.op p true }
  else none

def endOp (s : State) (p : Slot) : State :=
  let s := { s with outstanding := s.outstanding - 1, op := update s.op p false }
  if s.commit.isSome then { s with panic := some "log.committing" }
  else if s.outstanding = 0 then
    { s with commit := some (p, if s.lh.n > 0 then .log 0 else .finish) }
  else s

/-- `memmove` into a locked buffer and `bwrite`, and the commit goes on at `next`. -/
def writeBuf (s : State) (p : Slot) (i : Fin NBUF) (data : Block) (next : CommitPc) : State :=
  { bwrite (s.setBuf i fun x => { x with data }) p i with commit := some (p, next) }

variable (start : Nat)

/-- The next step of the commit of `p`, outside of `bread` and `brelse`; the log is at `start`. -/
def commitStep (s : State) (p : Slot) : CommitPc → State
  | .log tail =>
    if tail < s.lh.n then bread s p (start + tail + 1) fun dst => some (p, .logFrom tail dst)
    else { s with commit := some (p, .head false) }
  | .logFrom tail dst => bread s p (s.lh.block tail) fun src => some (p, .logCopy tail dst src)
  | .logCopy tail dst src => writeBuf s p dst (s.buf src).data (.logRelFrom tail dst src)
  | .logRelFrom tail dst src => { brelse s p src with commit := some (p, .logRelTo tail dst) }
  | .logRelTo tail dst => { brelse s p dst with commit := some (p, .log (tail + 1)) }
  | .head erase => bread s p start fun buf => some (p, .headSet erase buf)
  | .headSet erase buf => writeBuf s p buf (Log.putHead s.lh (s.buf buf).data) (.headRel erase buf)
  | .headRel erase buf =>
    { brelse s p buf with commit := some (p, if erase then .finish else .install 0) }
  | .install tail =>
    if tail < s.lh.n then bread s p (start + tail + 1) fun lbuf => some (p, .installTo tail lbuf)
    else { s with commit := some (p, .clear) }
  | .installTo tail lbuf =>
    bread s p (s.lh.block tail) fun dbuf => some (p, .installCopy tail lbuf dbuf)
  | .installCopy tail lbuf dbuf =>
    writeBuf s p dbuf (s.buf lbuf).data (.installUnpin tail lbuf dbuf)
  | .installUnpin tail lbuf dbuf =>
    { s.setBuf dbuf fun x => { x with refcnt := x.refcnt - 1 } with
      commit := some (p, .installRelLog tail lbuf dbuf) }
  | .installRelLog tail lbuf dbuf =>
    { brelse s p lbuf with commit := some (p, .installRel tail dbuf) }
  | .installRel tail dbuf => { brelse s p dbuf with commit := some (p, .install (tail + 1)) }
  | .clear => { s with lh := { s.lh with n := 0 }, commit := some (p, .head true) }
  | .finish => { s with commit := none }

/-- What can happen next. The first six are calls and stores by a process that is not committing;
`run` is the next step of a `bread` or `brelse`, and `commit` that of the commit. -/
inductive Event
  | begin (p : Slot)
  | end (p : Slot)
  | bread (p : Slot) (b : Nat)
  | modify (p : Slot) (i : Fin NBUF) (data : Block)
  | logWrite (p : Slot) (i : Fin NBUF)
  | brelse (p : Slot) (i : Fin NBUF)
  | run (p : Slot)
  | commit (p : Slot)

/-- The blocks of the log, which the clients leave to `log.c`. -/
def InLog (b : Nat) : Prop := start ≤ b ∧ b ≤ start + LOGBLOCKS

instance (b : Nat) : Decidable (InLog start b) := inferInstanceAs (Decidable (_ ∧ _))

def Client (s : State) (p : Slot) : Prop :=
  (match s.pc p with | .idle => true | _ => false) = true ∧ (s.commit.all fun c => c.1 != p) = true

instance (s : State) (p : Slot) : Decidable (Client s p) := inferInstanceAs (Decidable (_ ∧ _))

/-- `p` may change and log the block of buffer `i`: it has the buffer and is between `begin_op` and
`end_op`. -/
def MayWrite (s : State) (p : Slot) (i : Fin NBUF) (b : Nat) : Prop :=
  Client s p ∧ (s.buf i).lock = some p ∧ s.op p = true ∧ ¬InLog start b

instance (s : State) (p : Slot) (i : Fin NBUF) (b : Nat) : Decidable (MayWrite start s p i b) :=
  inferInstanceAs (Decidable (_ ∧ _))

/-- One step. A client changes a block only while it has the buffer, between `begin_op` and
`end_op`, and gives the buffer up only after `log_write`. Nothing runs after a panic. -/
def step (s : State) (e : Event) : Option State :=
  if s.panic.isSome then none
  else match e with
    | .begin p => if Client s p ∧ s.op p = false then beginOp s p else none
    | .end p => if Client s p ∧ s.op p = true then some (endOp s p) else none
    | .bread p b => if Client s p then some (bread s p b fun _ => s.commit) else none
    | .modify p i data => (s.buf i).blockno.bind fun b =>
      if MayWrite start s p i b then some (s.setBuf i fun x => { x with data, dirty := true })
      else none
    | .logWrite p i => (s.buf i).blockno.bind fun b =>
      if MayWrite start s p i b then some (logWrite s i b) else none
    | .brelse p i =>
      if Client s p ∧ (s.buf i).lock = some p ∧ (s.buf i).dirty = false then some (brelse s p i)
      else none
    | .run p =>
      match s.pc p with
      | .idle => none
      | .lock i b => lockStep s p i b
      | .fill i b => some (fillStep s p i b)
      | .unref i => some (unrefStep s p i)
    | .commit p =>
      match s.pc p, s.commit with
      | .idle, some (q, c) => if q = p then some (commitStep start s p c) else none
      | _, _ => none

/-- Any cache without references whose valid buffers agree with the disk, as `binit` and `initlog`
leave it, and an empty log. -/
structure Start (s : State) : Prop where
  unique : ∀ i j b, (s.buf i).blockno = some b → (s.buf j).blockno = some b → i = j
  free : ∀ i, (s.buf i).lock = none ∧ (s.buf i).refcnt = 0 ∧ (s.buf i).dirty = false
  data : ∀ i b, (s.buf i).blockno = some b → (s.buf i).valid = true → (s.buf i).data = s.disk b
  order : ∀ i, i ∈ s.order
  lh : s.lh.n = 0
  outstanding : s.outstanding = 0
  commit : s.commit = none
  op : ∀ p, s.op p = false
  pc : ∀ p, s.pc p = .idle
  logged : ∀ b, s.logged b = none
  reads : s.reads = []

end Xv6.Bio
