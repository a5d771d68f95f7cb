import Xv6.Block
import Xv6.Lib.Redo

/-! The disk side of `log.c`: the in-memory log header, the buffers in memory over the disk, and
the functions that read and write them. Every block write is also recorded, in order, so that a
crash between two writes is a prefix of the record. -/

namespace Xv6.Log

/-- `struct logheader`: the block numbers of a transaction, of which the first `n` are in use. -/
structure LogHeader where
  n : Nat
  block : Nat → Nat

/-- What `log.c` reads and writes: the disk, the valid buffers of the cache, the in-memory header
`log.lh`, and the block writes made so far. -/
structure Machine where
  disk : Nat → Block
  cache : Nat → Option Block
  lh : LogHeader
  writes : List (Nat × Block)

def boot (disk : Nat → Block) : Machine :=
  { disk, cache := fun _ => none, lh := { n := 0, block := fun _ => 0 }, writes := [] }

/-- The contents of the buffer that `bread` returns. -/
def Machine.data (m : Machine) (blockno : Nat) : Block := (m.cache blockno).getD (m.disk blockno)

/-- `bread`: a block that is not in memory is read from the disk. -/
def bread (m : Machine) (blockno : Nat) : Machine :=
  { m with cache := Function.update m.cache blockno (some (m.data blockno)) }

/-- `memmove` into the buffer of a block, followed by `bwrite`. -/
def bwrite (m : Machine) (blockno : Nat) (data : Block) : Machine :=
  { m with
    disk := Function.update m.disk blockno data
    cache := Function.update m.cache blockno (some data)
    writes := m.writes ++ [(blockno, data)] }

variable (start : Nat)

/-- One iteration of `install_trans`: copy a log block to its home location. -/
def installBlock (m : Machine) (tail : Nat) : Machine :=
  let m := bread m (start + tail + 1)
  let m := bread m (m.lh.block tail)
  bwrite m (m.lh.block tail) (m.data (start + tail + 1))

/-- `install_trans`. The console message and the unpinning leave disk and contents alone. -/
def installTrans (m : Machine) : Machine := (List.range m.lh.n).foldl (installBlock start) m

def setHead (m : Machine) (lh : LogHeader) : Machine := { m with lh }

/-- The loop bound `lh->n` in a header block; a loop up to a negative `n` does nothing. -/
def headCount (buf : Block) : Nat := (toInt (buf.word 0)).toNat

def headOf (buf : Block) (old : LogHeader) : LogHeader :=
  { n := headCount buf
    block := fun i => if i < headCount buf then buf.word (i + 1) else old.block i }

def readHead (m : Machine) : Machine :=
  let m := bread m start
  setHead m (headOf (m.data start) m.lh)

/-- The header block as `write_head` leaves it: `n` and the first `n` block numbers are stored over
what the buffer holds. -/
def putHead (lh : LogHeader) (buf : Block) : Block :=
  (List.range lh.n).foldl (fun buf i => buf.setWord (i + 1) (lh.block i)) (buf.setWord 0 lh.n)

def writeHead (m : Machine) : Machine :=
  let m := bread m start
  bwrite m start (putHead m.lh (m.data start))

/-- One iteration of `write_log`: copy a modified block from the cache to the log. -/
def logBlock (m : Machine) (tail : Nat) : Machine :=
  let m := bread m (start + tail + 1)
  let m := bread m (m.lh.block tail)
  bwrite m (start + tail + 1) (m.data (m.lh.block tail))

def writeLog (m : Machine) : Machine := (List.range m.lh.n).foldl (logBlock start) m

def clearHead (m : Machine) : Machine := setHead m { m.lh with n := 0 }

def commit (m : Machine) : Machine :=
  if m.lh.n > 0 then
    writeHead start (clearHead (installTrans start (writeHead start (writeLog start m))))
  else m

def recoverFromLog (m : Machine) : Machine :=
  writeHead start (clearHead (installTrans start (readHead start m)))

/-- A transaction as `commit` finds it: the modified blocks, pinned in the cache, and which other
blocks happen to be in memory. It has at most `LOGBLOCKS` distinct block numbers, all outside the
log region. -/
structure Txn where
  data : List (Nat × Block)
  cached : Nat → Bool
  length_le : data.length ≤ LOGBLOCKS
  nodup : (data.map Prod.fst).Nodup
  outside : ∀ p ∈ data, p.1 < start ∨ start + LOGBLOCKS < p.1
  uint : ∀ p ∈ data, p.1 < 2 ^ 32

variable {start}

/-- The machine when `commit` is called for a transaction. A buffer that the transaction has not
modified holds the contents of the disk; the header keeps what earlier transactions left past
its first `n` entries. -/
def stage (m : Machine) (t : Txn start) : Machine :=
  { m with
    cache := fun b => (t.data.lookup b).or (if t.cached b then some (m.disk b) else none)
    lh := {
      n := t.data.length
      block := fun i => if h : i < t.data.length then t.data[i].1 else m.lh.block i } }

/-- The machine after one more transaction is committed, with the writes of that `commit` only. -/
def commitNext (m : Machine) (t : Txn start) : Machine :=
  commit start (stage { m with writes := [] } t)

/-- The block writes of successive calls of `commit`, in order. -/
def runWrites (m : Machine) : List (Txn start) → List (Nat × Block)
  | [] => []
  | t :: ts => (commitNext m t).writes ++ runWrites (commitNext m t) ts

/-- The transactions of a run whose first `write_head` is among the first `k` writes of the run:
the writes to the header block are those of `write_head`. -/
def durable (m : Machine) (k : Nat) : List (Txn start) → List (Txn start)
  | [] => []
  | t :: ts =>
    let ws := (commitNext m t).writes
    (if (ws.take k).any fun w => w.1 == start then [t] else []) ++
      durable (commitNext m t) (k - ws.length) ts

def installed (d : Nat → Block) (ts : List (Txn start)) : Nat → Block :=
  ts.foldl (fun d t => Redo.replay d t.data) d

variable (start) in
/-- The disk left by a recovery that is cut short after `k` writes. -/
def crashRecovery (d : Nat → Block) (k : Nat) : Nat → Block :=
  Redo.replay d ((recoverFromLog start (boot d)).writes.take k)

end Xv6.Log
