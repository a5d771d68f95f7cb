import Xv6.Log.Commit
import Xv6.Lib.Run

/-! Group commit: `begin_op`, `log_write` and `end_op` by any number of processes, at the
granularity of the critical sections of `log.lock`, with `commit` running in many steps outside
the lock. -/

namespace Xv6.Log

open Function

/-- Where a process is inside `commit`. -/
inductive CommitPc
  | start
  | writeLog (tail : Nat)
  | writeHead
  | install (tail : Nat)
  | clear
  | eraseHead
  | finish
  deriving DecidableEq, Repr

/-- Where a process is in its one operation: not started, inside `begin_op` with the lock still to
be taken or asleep on `&log`, between `begin_op` and `end_op`, inside `commit`, or past `end_op`. -/
inductive Pc
  | idle
  | begin
  | sleeping
  | running
  | commit (c : CommitPc)
  | done
  deriving DecidableEq, Repr

/-- A transaction handed to `commit`: the operations that were merged into it, and the block
numbers listed in `log.lh` when it starts. -/
structure Group where
  ops : List Nat
  blocks : List Nat

/-- `struct log`, the pins that the log holds on buffers, where each process is, and the message
of a panic. The last three fields record what happened: the operations begun since the last
commit started, the blocks that each operation has logged, and the commits started so far. -/
structure State where
  outstanding : Int
  committing : Bool
  ncommit : Int
  lh : LogHeader
  pins : Nat → Int
  pc : Nat → Pc
  panic : Option String
  group : List Nat
  logged : Nat → List Nat
  commits : List Group

def LogHeader.blocks (lh : LogHeader) : List Nat := (List.range lh.n).map lh.block

/-- The log after `initlog`, before any operation. -/
def init : State where
  outstanding := 0
  committing := false
  ncommit := 0
  lh := { n := 0, block := fun _ => 0 }
  pins _ := 0
  pc _ := .idle
  panic := none
  group := []
  logged _ := []
  commits := []

def goto (s : State) (p : Nat) (pc : Pc) : State := { s with pc := update s.pc p pc }

def wakeup (s : State) : State :=
  { s with pc := fun q => if s.pc q = .sleeping then .begin else s.pc q }

def beginOp (s : State) (p : Nat) : State :=
  if s.committing then goto s p .sleeping
  else if s.lh.n + (s.outstanding + 1) * MAXOPBLOCKS > LOGBLOCKS then goto s p .sleeping
  else goto { s with outstanding := s.outstanding + 1, group := s.group ++ [p] } p .running

/-- The index at which the loop of `log_write` stops: the first entry that lists the block, or
`log.lh.n`. -/
def absorb (lh : LogHeader) (blockno : Nat) : Nat :=
  ((List.range lh.n).find? fun i => lh.block i == blockno).getD lh.n

def logWrite (s : State) (p blockno : Nat) : State :=
  if s.lh.n ≥ LOGBLOCKS then { s with panic := some "too big a transaction" }
  else if s.outstanding < 1 then { s with panic := some "log_write outside of trans" }
  else
    let i := absorb s.lh blockno
    let block := update s.lh.block i blockno
    let s := { s with logged := update s.logged p (blockno :: s.logged p) }
    if i = s.lh.n then
      { s with
        lh := { n := s.lh.n + 1, block }
        pins := update s.pins blockno (s.pins blockno + 1) }
    else { s with lh := { s.lh with block } }

def endOp (s : State) (p : Nat) : State :=
  let s := { s with outstanding := s.outstanding - 1 }
  if s.committing then { s with panic := some "log.committing" }
  else if s.outstanding = 0 then
    goto { s with
      committing := true
      group := []
      commits := s.commits ++ [{ ops := s.group, blocks := s.lh.blocks }] } p (.commit .start)
  else goto (wakeup s) p .done

/-- One step of `commit`, up to and including the last critical section of `end_op`. A loop body
is one step; what `write_log` and `write_head` do to the disk is in `Xv6.Log.Commit`. -/
def commitStep (s : State) (p : Nat) : CommitPc → State
  | .start => goto s p (.commit (if s.lh.n > 0 then .writeLog 0 else .finish))
  | .writeLog tail =>
    goto s p (.commit (if tail < s.lh.n then .writeLog (tail + 1) else .writeHead))
  | .writeHead => goto s p (.commit (.install 0))
  | .install tail =>
    if tail < s.lh.n then
      let b := s.lh.block tail
      goto { s with pins := update s.pins b (s.pins b - 1) } p
        (.commit (.install (tail + 1)))
    else goto s p (.commit .clear)
  | .clear => goto { s with lh := { s.lh with n := 0 } } p (.commit .eraseHead)
  | .eraseHead => goto s p (.commit .finish)
  | .finish =>
    goto (wakeup { s with committing := false, ncommit := s.ncommit + 1 }) p .done

/-- What a process can do next. -/
inductive Event
  | call (p : Nat)
  | begin (p : Nat)
  | wake (p : Nat)
  | write (p blockno : Nat)
  | end (p : Nat)
  | commit (p : Nat)

/-- One critical section of `log.lock`, or one step of `commit`. A sleeper may also be woken by
something other than `wakeup(&log)`, such as a kill; nothing runs after a panic. -/
def step (s : State) (e : Event) : Option State :=
  if s.panic.isSome then none
  else match e with
    | .call p => if s.pc p = .idle then some (goto s p .begin) else none
    | .begin p => if s.pc p = .begin then some (beginOp s p) else none
    | .wake p => if s.pc p = .sleeping then some (goto s p .begin) else none
    | .write p b => if s.pc p = .running then some (logWrite s p b) else none
    | .end p => if s.pc p = .running then some (endOp s p) else none
    | .commit p =>
      match s.pc p with
      | .commit c => some (commitStep s p c)
      | _ => none

end Xv6.Log
