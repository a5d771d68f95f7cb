import Xv6.Fs.Inode
import Xv6.Fs.Slots

/-! `mkfs.c`: the program that writes the first image of a file system. The image is a file of
`FSSIZE` blocks, and every block that `mkfs` stores it has read before, except in `main` itself. An
assertion that fails and a call of `die` end the program with a status other than 0. -/

namespace Xv6.Mkfs

open Function Fs

abbrev FSSIZE : Nat := 2000

abbrev NINODES : Nat := 200

abbrev FSMAGIC : Nat := 0x10203040

abbrev nbitmap : Nat := FSSIZE / BPB + 1

abbrev ninodeblocks : Nat := NINODES / IPB + 1

abbrev nlog : Nat := LOGBLOCKS + 1

abbrev nmeta : Nat := 2 + nlog + ninodeblocks + nbitmap

abbrev nblocks : Nat := FSSIZE - nmeta

/-- The fields of `sb` that say where inodes, the free map and the data blocks are. -/
def sb : Superblock where
  size := FSSIZE
  nblocks := nblocks
  ninodes := NINODES
  inodestart := 2 + nlog
  bmapstart := 2 + nlog + ninodeblocks
  inodes_lt := by decide
  bmap_lt := by decide
  size_lt := by decide
  root_lt := by decide
  ninodes_le := by decide

/-- The image, and the next inode and block to hand out. -/
structure State where
  img : Disk
  freeinode : Nat
  freeblock : Nat

def rsect (sec : Nat) : Prog State Block := fun s =>
  if sec < FSSIZE then .ok (s.img sec, s) else .error "read"

def wsect (sec : Nat) (buf : Block) : Prog State Unit :=
  modify fun s => { s with img := update s.img sec buf }

def winode (inum : Nat) (ip : Dinode) : Prog State Unit := do
  let buf ← rsect (sb.iblock inum)
  wsect (sb.iblock inum) (buf.setDinode (64 * (inum % IPB)) ip)

def rinode (inum : Nat) : Prog State Dinode := do
  let buf ← rsect (sb.iblock inum)
  pure (buf.dinode (64 * (inum % IPB)))

def ialloc (type : Nat) : Prog State Nat := do
  let inum := (← get).freeinode
  modify fun s => { s with freeinode := s.freeinode + 1 }
  winode inum { Dinode.zero with type := type, nlink := 1 }
  pure inum

def takeBlock : Prog State Nat := do
  let b := (← get).freeblock
  modify fun s => { s with freeblock := s.freeblock + 1 }
  pure b

/-- Address `k` of the inode, with a new block in it if it was empty. -/
def fillAddr (din : Dinode) (k : Nat) : Prog State Dinode :=
  if din.addrs k = 0 then do
    let b ← takeBlock
    pure { din with addrs := update din.addrs k b }
  else pure din

/-- The block for file block `fbn`, and the inode with it. -/
def blockFor (din : Dinode) (fbn : Nat) : Prog State (Dinode × Nat) :=
  if fbn < NDIRECT then do
    let din ← fillAddr din fbn
    pure (din, din.addrs fbn)
  else do
    let din ← fillAddr din NDIRECT
    let indirect ← rsect (din.addrs NDIRECT)
    if indirect.word (fbn - NDIRECT) = 0 then do
      let b ← takeBlock
      wsect (din.addrs NDIRECT) (indirect.setWord (fbn - NDIRECT) b)
      pure (din, b)
    else pure (din, indirect.word (fbn - NDIRECT))

/-- The loop of `iappend`, with the bytes `p` to go. -/
def iappendLoop (din : Dinode) (off : Nat) (p : List UInt8) : Prog State (Dinode × Nat) :=
  if _h : p.length = 0 then pure (din, off)
  else if MAXFILE ≤ off / BSIZE then Prog.panic "fbn < MAXFILE"
  else do
    let (din, x) ← blockFor din (off / BSIZE)
    let n1 := min p.length ((off / BSIZE + 1) * BSIZE - off)
    let buf ← rsect x
    wsect x (buf.setBytes (off - off / BSIZE * BSIZE) (p.take n1))
    iappendLoop din (off + n1) (p.drop n1)
termination_by p.length
decreasing_by
  rw [List.length_drop]
  simp only [BSIZE]
  omega

def iappend (inum : Nat) (p : List UInt8) : Prog State Unit := do
  let din ← rinode inum
  let (din, off) ← iappendLoop din din.size p
  winode inum { din with size := off }

/-- The map in which the first `used` blocks are marked. -/
def bitmap : Nat → Block
  | 0 => Block.zero
  | used + 1 =>
    let buf := bitmap used
    buf.setNum (used / 8) 1 ((buf.byte (used / 8)).toNat ||| 1 <<< (used % 8))

def balloc (used : Nat) : Prog State Unit :=
  if BPB ≤ used then Prog.panic "used < BPB"
  else wsect sb.bmapstart (bitmap used)

/-- A file on the command line: its argument, which is a string without its final NUL, and what the
calls of `read` return in turn. -/
structure File where
  arg : List UInt8
  chunks : List (List UInt8)
  nul : 0 ∉ arg

def userDir : List UInt8 := [117, 115, 101, 114, 47]

def File.base (f : File) : List UInt8 :=
  if strncmp 5 f.arg userDir = 0 then f.arg.drop 5 else f.arg

def File.shortname (f : File) : List UInt8 :=
  if f.base.headD 0 = 95 then f.base.tail else f.base

def appendAll (inum : Nat) : List (List UInt8) → Prog State Unit
  | [] => pure ()
  | buf :: bufs => do
    iappend inum buf
    appendAll inum bufs

def addFile (f : File) : Prog State Unit :=
  if 47 ∈ f.base then Prog.panic "index(shortname, '/') == 0"
  else if DIRSIZ < f.shortname.length then Prog.panic "strlen(shortname) <= DIRSIZ"
  else do
    let inum ← ialloc T_FILE
    iappend ROOTINO (dirent inum f.shortname)
    appendAll inum f.chunks

def addFiles : List File → Prog State Unit
  | [] => pure ()
  | f :: fs => do
    addFile f
    addFiles fs

def fixRoot : Prog State Unit := do
  let din ← rinode ROOTINO
  winode ROOTINO { din with size := (din.size / BSIZE + 1) * BSIZE }

def sbBlock : Block :=
  (((((((Block.zero.setWord 0 FSMAGIC).setWord 1 FSSIZE).setWord 2 nblocks).setWord 3
    NINODES).setWord 4 nlog).setWord 5 2).setWord 6 sb.inodestart).setWord 7 sb.bmapstart

def blank : State where
  img := update (fun _ => Block.zero) 1 sbBlock
  freeinode := 1
  freeblock := nmeta

def makeRoot : Prog State Unit := do
  let rootino ← ialloc T_DIR
  if rootino ≠ ROOTINO then Prog.panic "rootino == ROOTINO"
  else do
    iappend rootino (dirent rootino dot)
    iappend rootino (dirent rootino dotdot)

def main (files : List File) : Prog State Unit := do
  makeRoot
  addFiles files
  fixRoot
  balloc (← get).freeblock

end Xv6.Mkfs
