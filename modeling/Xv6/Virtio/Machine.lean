import Xv6.Block
import Xv6.Lib.Ring
import Xv6.Lib.Run

/-! The driver of `virtio_disk.c`: any number of `virtio_disk_rw` and `virtio_disk_intr` calls, and
the device, which takes requests from the avail ring and reports them in the used ring at any time.
What the device transfers is left out. -/

namespace Xv6.Virtio

open Function

abbrev NUM : Nat := 8

abbrev WRAP : Nat := 2 ^ 16

abbrev VRING_DESC_F_NEXT : Nat := 1
abbrev VRING_DESC_F_WRITE : Nat := 2
abbrev VIRTIO_BLK_T_IN : Nat := 0
abbrev VIRTIO_BLK_T_OUT : Nat := 1

/-- What the driver gives the device the address of: `disk.ops[i]`, `b->data` and
`disk.info[i].status`. -/
inductive Addr (β : Type)
  | null
  | ops (i : Nat)
  | data (b : β)
  | status (i : Nat)
  deriving DecidableEq

/-- `struct virtq_desc`. -/
structure Desc (β : Type) where
  addr : Addr β
  len : Nat
  flags : Nat
  next : Nat

def Desc.zero {β : Type} : Desc β := ⟨.null, 0, 0, 0⟩

/-- `struct virtio_blk_req`. -/
structure BlkReq where
  type : Nat
  reserved : Nat
  sector : Nat

/-- `disk.info[i]`. -/
structure Info (β : Type) where
  b : Option β
  status : Nat

/-- `struct virtq_avail`, and `struct virtq_used` with the `id` of each entry. -/
structure VirtQueue where
  idx : Nat
  ring : Nat → Nat

/-- `struct disk` without its lock. -/
structure Disk (β : Type) where
  desc : Nat → Desc β
  avail : VirtQueue
  used : VirtQueue
  free : Nat → Bool
  usedIdx : Nat
  info : Nat → Info β
  ops : Nat → BlkReq

namespace Disk

variable {β : Type}

def allocDesc (d : Disk β) : Option (Nat × Disk β) :=
  ((List.range NUM).find? d.free).map fun i => (i, { d with free := update d.free i false })

/-- `free_desc`. The `wakeup` is left out, since a sleeper may go on at any time. -/
def freeDesc (d : Disk β) (i : Nat) : Except String (Disk β) :=
  if NUM ≤ i then .error "free_desc 1"
  else if d.free i then .error "free_desc 2"
  else .ok { d with desc := update d.desc i Desc.zero, free := update d.free i true }

/-- The loop of `free_chain`; `none` when `fuel` runs out. -/
def freeChain : (fuel : Nat) → Disk β → Nat → Option (Except String (Disk β))
  | 0, _, _ => none
  | fuel + 1, d, i =>
    let flag := (d.desc i).flags
    let nxt := (d.desc i).next
    match d.freeDesc i with
    | .error msg => some (.error msg)
    | .ok d => if flag &&& VRING_DESC_F_NEXT ≠ 0 then freeChain fuel d nxt else some (.ok d)

/-- The loop in `alloc3_desc` that gives back what it has got. -/
def freeDescs (d : Disk β) : List Nat → Except String (Disk β)
  | [] => .ok d
  | i :: rest => (d.freeDesc i).bind fun d => d.freeDescs rest

/-- The loop of `alloc3_desc` with `n` descriptors to go. -/
def allocDescs (d : Disk β) (idx : List Nat) : Nat → Except String (Option (List Nat) × Disk β)
  | 0 => .ok (some idx, d)
  | n + 1 =>
    match d.allocDesc with
    | some (i, d) => d.allocDescs (idx ++ [i]) n
    | none => (d.freeDescs idx).map (none, ·)

def alloc3Desc (d : Disk β) : Except String (Option (List Nat) × Disk β) := d.allocDescs [] 3

end Disk

/-- A request with its descriptors. -/
structure Req (β : Type) where
  b : β
  write : Bool
  idx0 : Nat
  idx1 : Nat
  idx2 : Nat
  deriving DecidableEq

def Req.idx {β : Type} (r : Req β) : List Nat := [r.idx0, r.idx1, r.idx2]

/-- What `virtio_disk_rw` writes before it tells the device; `blockno` is that of the buffer, a
`uint` as the product with it is. -/
def Disk.format {β : Type} (d : Disk β) (r : Req β) (blockno : Nat) : Disk β :=
  { d with
    ops := update d.ops r.idx0
      ⟨if r.write then VIRTIO_BLK_T_OUT else VIRTIO_BLK_T_IN, 0, blockno * (BSIZE / 512) % 2 ^ 32⟩
    desc := update
      (update
        (update d.desc r.idx0 ⟨.ops r.idx0, 16, VRING_DESC_F_NEXT, r.idx1⟩)
        r.idx1 ⟨.data r.b, BSIZE,
          (if r.write then 0 else VRING_DESC_F_WRITE) ||| VRING_DESC_F_NEXT, r.idx2⟩)
      r.idx2 ⟨.status r.idx0, 1, VRING_DESC_F_WRITE, 0⟩
    info := update d.info r.idx0 ⟨some r.b, 0xff⟩ }

namespace Disk

variable {β : Type}

/-- `disk.avail->ring[disk.avail->idx % NUM] = id`. -/
def putAvail (d : Disk β) (id : Nat) : Disk β :=
  { d with avail := { d.avail with ring := update d.avail.ring (d.avail.idx % NUM) id } }

def incAvail (d : Disk β) : Disk β :=
  { d with avail := { d.avail with idx := (d.avail.idx + 1) % WRAP } }

def incUsedIdx (d : Disk β) : Disk β := { d with usedIdx := (d.usedIdx + 1) % WRAP }

def clearBuf (d : Disk β) (i : Nat) : Disk β :=
  { d with info := update d.info i ⟨none, (d.info i).status⟩ }

/-- The device writes the status of request `id` where its third descriptor says. -/
def complete (d : Disk β) (id : Nat) : Disk β :=
  match (d.desc (d.desc (d.desc id).next).next).addr with
  | .status i => { d with info := update d.info i ⟨(d.info i).b, 0⟩ }
  | _ => d

def putUsed (d : Disk β) (id : Nat) : Disk β :=
  { d with used := ⟨(d.used.idx + 1) % WRAP, update d.used.ring (d.used.idx % NUM) id⟩ }

end Disk

/-- How far a request with descriptors has come. -/
inductive Stage
  | format
  | ring
  | publish
  | wait
  | sleep
  | finish
  deriving DecidableEq

/-- Where a thread is. -/
inductive Pc (β : Type)
  | idle
  -- `virtio_disk_rw` before `acquire`, and in the loop that gets descriptors
  | acquire (b : β) (write : Bool)
  | alloc (b : β) (write : Bool)
  | sleep (b : β) (write : Bool)
  | req (r : Req β) (stage : Stage)
  -- `virtio_disk_intr` before `acquire`, at the head of its loop, and in the loop
  | intr
  | intrLoop
  | intrEntry
  deriving DecidableEq

/-- The device: the next index of the avail ring, the requests that it has taken from there, and
those of them that it has done. -/
structure Device where
  idx : Nat
  taken : List Nat
  done : List Nat

/-- The driver and the device. `inDisk` is the field `disk` of the buffers, and `locked` has the
thread that has locked a buffer. -/
structure State (τ β : Type) where
  disk : Disk β
  blockno : β → Nat
  inDisk : β → Bool
  locked : β → Option τ
  lock : Option τ
  pc : τ → Pc β
  dev : Device
  panic : Option String

inductive Event (τ β : Type)
  | rw (t : τ) (b : β) (write : Bool)
  | intr (t : τ)
  | run (t : τ)
  -- The device takes the next request, is done with one, and reports one.
  | take
  | done (id : Nat)
  | report (id : Nat)

section

variable {τ β : Type} [DecidableEq τ] [DecidableEq β]

def State.goto (s : State τ β) (t : τ) (pc : Pc β) : State τ β := { s with pc := update s.pc t pc }

/-- `acquire` of the lock that another thread may hold. -/
def State.acquire (s : State τ β) (t : τ) (pc : Pc β) : Option (State τ β) :=
  if s.lock = none then some { s with lock := some t, pc := update s.pc t pc } else none

def State.release (s : State τ β) (t : τ) (pc : Pc β) : State τ β :=
  { s with lock := none, pc := update s.pc t pc }

def State.giveBack (s : State τ β) (b : β) : State τ β :=
  { s with disk := s.disk.incUsedIdx, inDisk := update s.inDisk b false }

def State.stop (s : State τ β) (msg : String) : State τ β := { s with panic := some msg }

/-- A step of `virtio_disk_rw` with its descriptors. -/
def reqStep (s : State τ β) (t : τ) (r : Req β) : Stage → Option (State τ β)
  | .format =>
    some ({ s with
      disk := s.disk.format r (s.blockno r.b)
      inDisk := update s.inDisk r.b true }.goto t (.req r .ring))
  | .ring => some ({ s with disk := s.disk.putAvail r.idx0 }.goto t (.req r .publish))
  | .publish => some ({ s with disk := s.disk.incAvail }.goto t (.req r .wait))
  | .wait =>
    some (if s.inDisk r.b then s.release t (.req r .sleep) else s.goto t (.req r .finish))
  | .sleep => s.acquire t (.req r .wait)
  | .finish =>
    ((s.disk.clearBuf r.idx0).freeChain (NUM + 1) r.idx0).map fun
      | .error msg => s.stop msg
      | .ok d => { s with disk := d, locked := update s.locked r.b none }.release t .idle

def run (s : State τ β) (t : τ) : Option (State τ β) :=
  match s.pc t with
  | .idle => none
  | .acquire b write => s.acquire t (.alloc b write)
  | .alloc b write =>
    match s.disk.alloc3Desc with
    | .error msg => some (s.stop msg)
    | .ok (none, d) => some ({ s with disk := d }.release t (.sleep b write))
    | .ok (some [idx0, idx1, idx2], d) =>
      some ({ s with disk := d }.goto t (.req ⟨b, write, idx0, idx1, idx2⟩ .format))
    | .ok (some _, _) => none
  | .sleep b write => s.acquire t (.alloc b write)
  | .req r stage => reqStep s t r stage
  | .intr => s.acquire t .intrLoop
  | .intrLoop =>
    some (if s.disk.usedIdx ≠ s.disk.used.idx then s.goto t .intrEntry else s.release t .idle)
  | .intrEntry =>
    let id := s.disk.used.ring (s.disk.usedIdx % NUM)
    if (s.disk.info id).status ≠ 0 then some (s.stop "virtio_disk_intr status")
    else
      match (s.disk.info id).b with
      -- The store through a null pointer.
      | none => some (s.stop "kerneltrap")
      | some b => some ((s.giveBack b).goto t .intrLoop)

def step (s : State τ β) (e : Event τ β) : Option (State τ β) :=
  if s.panic.isSome then none
  else match e with
  | .rw t b write =>
    match s.pc t, s.locked b with
    | .idle, none => some
      ({ s with locked := update s.locked b (some t) }.goto t (.acquire b write))
    | _, _ => none
  | .intr t =>
    match s.pc t with
    | .idle => some (s.goto t .intr)
    | _ => none
  | .run t => run s t
  | .take =>
    if s.dev.idx ≠ s.disk.avail.idx then
      some { s with dev :=
        { s.dev with
          idx := (s.dev.idx + 1) % WRAP
          taken := s.dev.taken ++ [s.disk.avail.ring (s.dev.idx % NUM)] } }
    else none
  | .done id =>
    if id ∈ s.dev.taken then
      some { s with
        disk := s.disk.complete id
        dev := { s.dev with taken := s.dev.taken.erase id, done := s.dev.done ++ [id] } }
    else none
  | .report id =>
    if id ∈ s.dev.done then
      some { s with
        disk := s.disk.putUsed id
        dev := { s.dev with done := s.dev.done.erase id } }
    else none

end

/-- After `virtio_disk_init`: the rings are zero and all descriptors are free. -/
structure Boot {τ β : Type} (s : State τ β) : Prop where
  desc : s.disk.desc = fun _ => Desc.zero
  avail : s.disk.avail = ⟨0, fun _ => 0⟩
  used : s.disk.used = ⟨0, fun _ => 0⟩
  free : s.disk.free = fun i => decide (i < NUM)
  usedIdx : s.disk.usedIdx = 0
  inDisk : ∀ b, s.inDisk b = false
  locked : ∀ b, s.locked b = none
  lock : s.lock = none
  pc : ∀ t, s.pc t = .idle
  dev : s.dev = ⟨0, [], []⟩
  panic : s.panic = none

end Xv6.Virtio
