import Xv6.Fs.Layout
import Xv6.Lib.Wp

/-! `fs.c`: the block allocator, inodes, their contents, directories and paths. One device,
`ROOTDEV`, holds every inode. A buffer is the block of the disk that it caches; locks, transactions
(so `log_write` and its limit) and the messages of `printk` are left out. -/

namespace Xv6.Fs

open Function

abbrev NINODE : Nat := 50

instance : NeZero NINODE := ⟨by decide⟩

abbrev ROOTINO : Nat := 1

abbrev DIRSIZ : Nat := 14

abbrev T_DIR : Nat := 1

abbrev T_FILE : Nat := 2

/-- An entry of the inode table; `d` is its copy of the inode on the disk. -/
structure Inode where
  inum : Nat
  ref : Nat
  valid : Bool
  d : Dinode

/-- The disk and the inode table. -/
structure State where
  disk : Disk
  itable : Fin NINODE → Inode

abbrev Ip := Fin NINODE

def bread (b : Nat) : Prog State Block := do
  pure ((← get).disk b)

/-- Change the data in the buffer of block `b`. -/
def bmod (b : Nat) (f : Block → Block) : Prog State Unit :=
  modify fun s => { s with disk := update s.disk b (f (s.disk b)) }

def getInode (ip : Ip) : Prog State Inode := do
  pure ((← get).itable ip)

def modInode (ip : Ip) (f : Inode → Inode) : Prog State Unit :=
  modify fun s => { s with itable := update s.itable ip (f (s.itable ip)) }

def modDinode (ip : Ip) (f : Dinode → Dinode) : Prog State Unit :=
  modInode ip fun e => { e with d := f e.d }

def bzero (bno : Nat) : Prog State Unit := bmod bno fun _ => Block.zero

/-- One pass of the inner loop of `balloc`, at bit `bi` of the group that starts with block
`b`. -/
def ballocBit (sb : Superblock) (b bi : Nat) : Prog State (Option Nat) := do
  let data ← bread (sb.bblock b)
  let m := 1 <<< (bi % 8)
  if (data.byte (bi / 8)).toNat &&& m = 0 then do
    bmod (sb.bblock b) fun data =>
      data.setNum (bi / 8) 1 ((data.byte (bi / 8)).toNat ||| m)
    bzero (b + bi)
    pure (some (b + bi))
  else pure none

def balloc (sb : Superblock) : Prog State Nat := do
  let found ← Prog.search
    (fun j => Prog.search (ballocBit sb (j * BPB)) 0 (min BPB (sb.size - j * BPB)))
    0 ((sb.size + BPB - 1) / BPB)
  pure (found.getD 0)

def bfree (sb : Superblock) (b : Nat) : Prog State Unit := do
  let data ← bread (sb.bblock b)
  let bi := b % BPB
  let m := 1 <<< (bi % 8)
  if (data.byte (bi / 8)).toNat &&& m = 0 then
    Prog.panic "freeing free block"
  else
    bmod (sb.bblock b) fun data =>
      data.setNum (bi / 8) 1 ((data.byte (bi / 8)).toNat &&& (255 ^^^ m))

def iget (inum : Nat) : Prog State Ip := do
  let s ← get
  match (List.finRange NINODE).find? fun ip =>
      0 < (s.itable ip).ref ∧ (s.itable ip).inum = inum with
  | some ip => do
    modInode ip fun e => { e with ref := e.ref + 1 }
    pure ip
  | none =>
    match (List.finRange NINODE).find? fun ip => (s.itable ip).ref = 0 with
    | none => Prog.panic "iget: no inodes"
    | some ip => do
      modInode ip fun e => { e with inum := inum, ref := 1, valid := false }
      pure ip

def iupdate (sb : Superblock) (ip : Ip) : Prog State Unit := do
  let e ← getInode ip
  bmod (sb.iblock e.inum) fun data => data.setDinode (64 * (e.inum % IPB)) e.d

def idup (ip : Ip) : Prog State Ip := do
  modInode ip fun e => { e with ref := e.ref + 1 }
  pure ip

def ilock (sb : Superblock) (ip : Ip) : Prog State Unit := do
  let e ← getInode ip
  if e.ref < 1 then
    Prog.panic "ilock"
  else if e.valid then
    pure ()
  else do
    let data ← bread (sb.iblock e.inum)
    let d := data.dinode (64 * (e.inum % IPB))
    modInode ip fun e => { e with d := d, valid := true }
    if d.type = 0 then
      Prog.panic "ilock: no type"
    else pure ()

/-- Entry `k` of `ip->addrs`, with a new block in it if it was empty. -/
def loadAddr (sb : Superblock) (ip : Ip) (k : Nat) : Prog State Nat := do
  let addr := (← getInode ip).d.addrs k
  if addr = 0 then do
    let addr ← balloc sb
    if addr = 0 then pure 0
    else do
      modDinode ip fun d => { d with addrs := update d.addrs k addr }
      pure addr
  else pure addr

def bmap (sb : Superblock) (ip : Ip) (bn : Nat) : Prog State Nat :=
  if bn < NDIRECT then
    loadAddr sb ip bn
  else if bn - NDIRECT < NINDIRECT then do
    let ind ← loadAddr sb ip NDIRECT
    if ind = 0 then pure 0
    else do
      let a ← bread ind
      if a.word (bn - NDIRECT) = 0 then do
        let addr ← balloc sb
        if addr = 0 then pure 0
        else do
          bmod ind fun a => a.setWord (bn - NDIRECT) addr
          pure addr
      else pure (a.word (bn - NDIRECT))
  else Prog.panic "bmap: out of range"

def itrunc (sb : Superblock) (ip : Ip) : Prog State Unit := do
  Prog.loop (fun i => do
    let addr := (← getInode ip).d.addrs i
    if addr ≠ 0 then do
      bfree sb addr
      modDinode ip fun d => { d with addrs := update d.addrs i 0 }
    else pure ()) 0 NDIRECT
  let ind := (← getInode ip).d.addrs NDIRECT
  if ind ≠ 0 then do
    let a ← bread ind
    Prog.loop (fun j => if a.word j ≠ 0 then bfree sb (a.word j) else pure ()) 0 NINDIRECT
    bfree sb ind
    modDinode ip fun d => { d with addrs := update d.addrs NDIRECT 0 }
  else pure ()
  modDinode ip fun d => { d with size := 0 }
  iupdate sb ip

def iput (sb : Superblock) (ip : Ip) : Prog State Unit := do
  let e ← getInode ip
  if e.ref = 1 ∧ e.valid ∧ e.d.nlink = 0 then do
    itrunc sb ip
    modDinode ip fun d => { d with type := 0 }
    iupdate sb ip
    modInode ip fun e => { e with valid := false }
  else pure ()
  modInode ip fun e => { e with ref := e.ref - 1 }

def ireclaim (sb : Superblock) : Prog State Unit :=
  Prog.loop (fun inum => do
    let data ← bread (sb.iblock inum)
    let dip := data.dinode (64 * (inum % IPB))
    if dip.type ≠ 0 ∧ dip.nlink = 0 then do
      let ip ← iget inum
      ilock sb ip
      iput sb ip
    else pure ()) 1 (sb.ninodes - 1)

end Xv6.Fs

namespace Xv6.Block

def bytes (b : Block) (off m : Nat) : List UInt8 := (List.range m).map fun i => b.byte (off + i)

def setBytes (b : Block) (off : Nat) (bs : List UInt8) : Block :=
  ofBytes fun i => if off ≤ i ∧ i < off + bs.length then bs.getD (i - off) 0 else b.byte i

end Xv6.Block

namespace Xv6.Fs

open Function

/-- The loop of `readi`, with `n` bytes to go and `out` at the destination, which has room for
`room` bytes in all. -/
def readiLoop (sb : Superblock) (ip : Ip) (room off n : Nat) (out : List UInt8) :
    Prog State (Int × List UInt8) :=
  if _h : n = 0 then pure (out.length, out)
  else do
    let addr ← bmap sb ip (off / BSIZE)
    if addr = 0 then pure (out.length, out)
    else do
      let data ← bread addr
      let m := min n (BSIZE - off % BSIZE)
      if room < out.length + m then pure (-1, out)
      else readiLoop sb ip room (off + m) (n - m) (out ++ data.bytes (off % BSIZE) m)
termination_by n
decreasing_by
  have : off % BSIZE < BSIZE := Nat.mod_lt _ (by decide)
  omega

/-- Read up to `n` bytes at `off`: what is returned, and the bytes at the destination. -/
def readi (sb : Superblock) (ip : Ip) (room off n : Nat) : Prog State (Int × List UInt8) := do
  let size := (← getInode ip).d.size
  if off > size ∨ (off + n) % 2 ^ 32 < off then pure (0, [])
  else readiLoop sb ip room off (if (off + n) % 2 ^ 32 > size then size - off else n) []

/-- The loop of `writei`, which has written `tot` of the bytes of `src`; the first byte of `src`
that cannot be read is number `readable`. It returns the offset after the last byte and how many
bytes it has written. -/
def writeiLoop (sb : Superblock) (ip : Ip) (src : List UInt8) (readable off tot : Nat) :
    Prog State (Nat × Nat) :=
  if _h : tot < src.length then do
    let addr ← bmap sb ip (off / BSIZE)
    if addr = 0 then pure (off, tot)
    else do
      let m := min (src.length - tot) (BSIZE - off % BSIZE)
      if readable < tot + m then do
        -- The copy has stored what comes before the byte at which it fails.
        bmod addr fun data => data.setBytes (off % BSIZE) ((src.take readable).drop tot)
        pure (off, tot)
      else do
        bmod addr fun data => data.setBytes (off % BSIZE) ((src.drop tot).take m)
        writeiLoop sb ip src readable (off + m) (tot + m)
  else pure (off, tot)
termination_by src.length - tot
decreasing_by
  have : off % BSIZE < BSIZE := Nat.mod_lt _ (by decide)
  omega

def writei (sb : Superblock) (ip : Ip) (src : List UInt8) (readable off : Nat) :
    Prog State Int := do
  let size := (← getInode ip).d.size
  if off > size ∨ (off + src.length) % 2 ^ 32 < off then pure (-1)
  else if (off + src.length) % 2 ^ 32 > MAXFILE * BSIZE then pure (-1)
  else do
    let (off, tot) ← writeiLoop sb ip src readable off 0
    if off > size then modDinode ip fun d => { d with size := off } else pure ()
    iupdate sb ip
    pure (tot : Int)

/-- Compare at most `n` bytes of two strings; the end of a list is its final NUL. -/
def strncmp : Nat → List UInt8 → List UInt8 → Int
  | 0, _, _ => 0
  | n + 1, p, q =>
    if p.headD 0 ≠ 0 ∧ p.headD 0 = q.headD 0 then strncmp n p.tail q.tail
    else (p.headD 0).toNat - (q.headD 0).toNat

def namecmp (s t : List UInt8) : Int := strncmp DIRSIZ s t

def strncpy : List UInt8 → Nat → List UInt8
  | _, 0 => []
  | [], n + 1 => 0 :: strncpy [] n
  | c :: t, n + 1 => c :: strncpy (if c = 0 then [] else t) n

def dirent (inum : Nat) (name : List UInt8) : List UInt8 :=
  UInt8.ofNat inum :: UInt8.ofNat (inum / 256) :: strncpy name DIRSIZ

def direntInum (de : List UInt8) : Nat := (de.getD 0 0).toNat + 256 * (de.getD 1 0).toNat

/-- The number of the inode that `name` has in a directory, and the offset of its entry. -/
def dirscan (sb : Superblock) (dp : Ip) (name : List UInt8) :
    Prog State (Option (Nat × Nat)) := do
  let size := (← getInode dp).d.size
  Prog.search (fun j => do
    let (r, de) ← readi sb dp 16 (16 * j) 16
    if r ≠ 16 then Prog.panic "dirlookup read"
    else if direntInum de = 0 then pure none
    else if namecmp name (de.drop 2) = 0 then pure (some (direntInum de, 16 * j))
    else pure none) 0 ((size + 15) / 16)

def dirlookup (sb : Superblock) (dp : Ip) (name : List UInt8) :
    Prog State (Option (Ip × Nat)) := do
  if (← getInode dp).d.type ≠ T_DIR then
    Prog.panic "dirlookup not DIR"
  else
    match ← dirscan sb dp name with
    | some (inum, off) => do
      let ip ← iget inum
      pure (some (ip, off))
    | none => pure none

def emptySlot (sb : Superblock) (dp : Ip) : Prog State Nat := do
  let size := (← getInode dp).d.size
  let found ← Prog.search (fun j => do
    let (r, de) ← readi sb dp 16 (16 * j) 16
    if r ≠ 16 then Prog.panic "dirlink read"
    else if direntInum de = 0 then pure (some (16 * j))
    else pure none) 0 ((size + 15) / 16)
  pure (found.getD (16 * ((size + 15) / 16)))

def dirlink (sb : Superblock) (dp : Ip) (name : List UInt8) (inum : Nat) : Prog State Int := do
  match ← dirlookup sb dp name with
  | some (ip, _) => do
    iput sb ip
    pure (-1)
  | none => do
    let off ← emptySlot sb dp
    let r ← writei sb dp (dirent inum name) 16 off
    if r ≠ 16 then pure (-1) else pure 0

def skipelem (path : List UInt8) : Option (List UInt8 × List UInt8) :=
  let path := path.dropWhile (· = 47)
  if path = [] then none
  else some ((path.takeWhile (· ≠ 47)).take DIRSIZ,
    (path.dropWhile (· ≠ 47)).dropWhile (· = 47))

theorem skipelem_length {path name rest : List UInt8} (h : skipelem path = some (name, rest)) :
    rest.length < path.length := by
  unfold skipelem at h
  dsimp only at h
  split at h
  · cases h
  rename_i hne
  simp only [Option.some.injEq, Prod.mk.injEq] at h
  rw [← h.2]
  have h1 := (List.dropWhile_suffix (· = 47) (l := path)).length_le
  have h2 := (List.dropWhile_suffix (· = 47)
    (l := (path.dropWhile (· = 47)).dropWhile (· ≠ 47))).length_le
  -- The first byte of the rest is not a slash, so the element is not empty.
  obtain ⟨c, cs, hcs⟩ := List.exists_cons_of_ne_nil hne
  have hc : c ≠ 47 := by
    have := List.head_dropWhile_not (· = (47 : UInt8)) hne
    simpa [hcs] using this
  have h3 : ((path.dropWhile (· = 47)).dropWhile (· ≠ 47)).length ≤ cs.length := by
    rw [hcs, List.dropWhile_cons_of_pos (by simpa using hc)]
    exact (List.dropWhile_suffix _).length_le
  rw [hcs, List.length_cons] at h1
  omega

def namexLoop (sb : Superblock) (nameiparent : Bool) (ip : Ip) (path name : List UInt8) :
    Prog State (Option (Ip × List UInt8)) :=
  match _h : skipelem path with
  | none =>
    if nameiparent then do
      iput sb ip
      pure none
    else pure (some (ip, name))
  | some (name, path) => do
    ilock sb ip
    if (← getInode ip).d.type ≠ T_DIR then do
      iput sb ip
      pure none
    else if nameiparent ∧ path = [] then pure (some (ip, name))
    else
      match ← dirlookup sb ip name with
      | none => do
        iput sb ip
        pure none
      | some (next, _) => do
        iput sb ip
        namexLoop sb nameiparent next path name
termination_by path.length
decreasing_by exact skipelem_length _h

def namex (sb : Superblock) (cwd : Ip) (path : List UInt8) (nameiparent : Bool) :
    Prog State (Option (Ip × List UInt8)) := do
  let ip ← if path.headD 0 = 47 then iget ROOTINO else idup cwd
  namexLoop sb nameiparent ip path []

def dot : List UInt8 := [46]

/-- The name `..` of the parent of a directory. -/
def dotdot : List UInt8 := [46, 46]

end Xv6.Fs
