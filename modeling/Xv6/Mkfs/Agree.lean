import Xv6.Mkfs.WellFormed

/-! `mkfs` and the kernel agree on the format of the disk: `readi` returns what was appended to an
inode, and `dirlookup` finds the files in the root directory. -/

namespace Xv6.Mkfs

open Function Fs List
open Fs.Dinode (blocks slotOf)

/-- A call that changes an inode of the image. -/
inductive Op where
  | ialloc (type : Nat)
  | iappend (inum : Nat) (chunk : List UInt8)

def Op.run : Op → Prog State Unit
  | .ialloc type => do
    let _ ← Mkfs.ialloc type
    pure ()
  | .iappend inum chunk => Mkfs.iappend inum chunk

def runOps : List Op → Prog State Unit
  | [] => pure ()
  | op :: ops => do
    op.run
    runOps ops

/-- The calls give each inode a type and append to inodes that they have allocated, if inode `k` is
the next one. -/
def Proper : Nat → List Op → Prop
  | _, [] => True
  | k, .ialloc type :: ops => k < NINODES ∧ 0 < type ∧ type < 2 ^ 16 ∧ Proper (k + 1) ops
  | k, .iappend inum _ :: ops => 0 < inum ∧ inum < k ∧ Proper k ops

/-- The chunks that the calls append to inode `i`, one after the other. -/
def chunks (i : Nat) : List Op → List UInt8
  | [] => []
  | .ialloc _ :: ops => chunks i ops
  | .iappend inum chunk :: ops => (if inum = i then chunk else []) ++ chunks i ops

def allocs : List Op → Nat
  | [] => 0
  | .ialloc _ :: ops => allocs ops + 1
  | .iappend _ _ :: ops => allocs ops

variable {E : String → Prop} {s : State} {t : Nat → Nat} {c : Nat → List UInt8} {ops : List Op}
  {files : List File}

def Typed (s : State) (t : Nat → Nat) : Prop := ∀ i, 0 < i → i < s.freeinode → t i ≠ 0

theorem runOps_spec (h : Holds s t c) (hproper : Proper s.freeinode ops)
    (hnum : s.freeinode ≤ NINODES) (htyped : Typed s t)
    (hfit : Fit E fun i => c i ++ chunks i ops) :
    wp E (runOps ops) s fun _ s' => (∃ t', Holds s' t' (fun i => c i ++ chunks i ops) ∧
      Typed s' t') ∧ s'.freeinode = s.freeinode + allocs ops := by
  induction ops generalizing s t c with
  | nil =>
    simp only [chunks, append_nil]
    exact ⟨⟨t, h, htyped⟩, rfl⟩
  | cons op ops ih =>
    rw [runOps]
    cases op with
    | ialloc type =>
      obtain ⟨hlt, hpos, htype, hrest⟩ := hproper
      refine wp.bind (R := fun _ s' => Holds s' (update t s.freeinode type) c ∧
        s'.freeinode = s.freeinode + 1) ?_ fun _ s' ⟨h', hfi⟩ => ?_
      · exact (ialloc_spec h hlt htype).bind fun i s' ⟨_, h', hfi⟩ => ⟨h', hfi⟩
      refine (ih h' (by rwa [hfi]) (by omega) (fun i hi hlt' => ?_) hfit).mono
        fun _ s'' ⟨hs'', hfi'⟩ => ⟨hs'', ?_⟩
      · rcases eq_or_ne i s.freeinode with rfl | hne
        · rw [update_self]
          omega
        · rw [update_of_ne hne]
          exact htyped i hi (by omega)
      · rw [hfi', hfi, allocs]
        omega
    | iappend inum chunk =>
      obtain ⟨_, hlt, hrest⟩ := hproper
      have hchunks : (fun i => update c inum (c inum ++ chunk) i ++ chunks i ops) =
          fun i => c i ++ chunks i (.iappend inum chunk :: ops) := by
        funext i
        rw [chunks]
        rcases eq_or_ne i inum with rfl | hne
        · rw [update_self, if_pos rfl, append_assoc]
        · rw [update_of_ne hne, if_neg (Ne.symm hne), nil_append]
      rw [← hchunks] at hfit
      refine (iappend_spec h (by omega) hlt (hfit.mono fun i => ?_)).bind
        fun _ s' ⟨h', hfi⟩ => ?_
      · rw [length_append]
        omega
      · refine (ih h' (by rwa [hfi]) (by omega) (fun i hi hlt' => htyped i hi (by omega))
          hfit).mono fun _ s'' ⟨hs'', hfi'⟩ => ⟨?_, ?_⟩
        · rwa [← hchunks]
        · rw [hfi', hfi, allocs]

/-- Entry `ip` of the table is for inode `inum`, which has not been read yet. -/
structure Unread (k : Fs.State) (img : Disk) (ip : Ip) (inum : Nat) : Prop where
  disk : k.disk = img
  inum : (k.itable ip).inum = inum
  ref : 0 < (k.itable ip).ref
  valid : (k.itable ip).valid = false

def lockRead (ip : Ip) (room off n : Nat) : Prog Fs.State (Int × List UInt8) := do
  ilock sb ip
  readi sb ip room off n

def lockLookup (dp : Ip) (name : List UInt8) : Prog Fs.State (Option (Ip × Nat)) := do
  ilock sb dp
  dirlookup sb dp name

/-- The bytes from `off` on, at most `n`, and their number. -/
def slice (bytes : List UInt8) (off n : Nat) : Int × List UInt8 :=
  (((min n (bytes.length - off) : Nat) : Int), (bytes.drop off).take n)

theorem lockRead_spec {img : Disk} {free : Nat} {k : Fs.State} {ip : Ip} {i room off n : Nat}
    (h : Image (inodes img) img free (fun i => blocks (c i).length) c) (hi : i < NINODES)
    (hsize : (inodes img i).size = (c i).length) (htype : (inodes img i).type ≠ 0)
    (hk : Unread k img ip i) (hn : off + n < 2 ^ 32) (hroom : n ≤ room) :
    ∃ k', lockRead ip room off n k = .ok (slice (c i) off n, k') := by
  have hnode : dinodeAt sb k.disk i = inodes img i := by
    rw [hk.disk, inodes_eq img hi]
  have hfull : (inodes img i).There img (c i).length := by
    refine ⟨?_, fun bn hbn => (h.addr i bn).mpr hbn⟩
    exact le_trans (le_blocks_mul _) (Nat.mul_le_mul_right _ (h.nb_le i))
  have hcontent : (inodes img i).content img = c i := by
    rw [← h.take_content (le_blocks_mul _) (le_of_eq hsize.symm), take_of_length_le]
    rw [Dinode.length_content, hsize]
  have hwp : wp (fun _ => False) (lockRead ip room off n) k fun r _ => r = slice (c i) off n := by
    refine (ilock_read hk.inum hk.ref hk.valid (by rwa [hnode])).bind
      fun _ k' ⟨hdisk, hd, _⟩ => ?_
    rw [hk.disk] at hdisk
    rw [hnode] at hd
    refine (readi_spec hd ?_ hn (by omega)).mono fun r k'' ⟨_, hr⟩ => ?_
    · rw [hdisk, hsize]
      exact hfull.mono (Nat.min_le_right _ _)
    · rw [hr, hdisk, hcontent, hsize, slice]
  obtain ⟨r, k', hrun, hr⟩ := hwp.exists_ok fun _ => id
  exact ⟨k', by rw [hrun, hr]⟩

theorem entries_entry {k j : Nat} (hj : j < files.length) :
    ((entries k files).drop (16 * j)).take 16 = dirent (k + j) files[j].shortname := by
  induction files generalizing k j with
  | nil => cases hj
  | cons f fs ih =>
    rw [entries]
    cases j with
    | zero =>
      rw [mul_zero, drop_zero, take_left' (length_dirent _ _)]
      rfl
    | succ j =>
      rw [show 16 * (j + 1) = 16 + 16 * j by omega, ← drop_drop,
        drop_left' (length_dirent _ _), ih (Nat.lt_of_succ_lt_succ hj),
        getElem_cons_succ, show k + 1 + j = k + (j + 1) by omega]

/-- The inode and the name of entry `j` of the root directory. -/
def rootEntry (files : List File) : Nat → Nat × List UInt8
  | 0 => (ROOTINO, dot)
  | 1 => (ROOTINO, dotdot)
  | j + 2 => (j + 2, (files.map File.shortname).getD j [])

theorem contents_entry {j : Nat} (hj : j < files.length + 2) :
    ((contents files ROOTINO).drop (16 * j)).take 16 =
      dirent (rootEntry files j).1 (rootEntry files j).2 := by
  have hlen : ∀ i name, (dirent i name).length = 16 := length_dirent
  rw [contents_root, append_assoc]
  match j with
  | 0 => rw [mul_zero, drop_zero, take_left' (hlen _ _), rootEntry]
  | 1 => rw [mul_one, drop_left' (hlen _ _), take_left' (hlen _ _), rootEntry]
  | j + 2 =>
    have hj' : j < files.length := by omega
    rw [show 16 * (j + 2) = 16 + (16 + 16 * j) by omega, ← drop_drop,
      drop_left' (hlen _ _), ← drop_drop, drop_left' (hlen _ _),
      entries_entry hj', rootEntry]
    simp only [getD_eq_getElem?_getD, getElem?_map, getElem?_eq_getElem hj',
      Option.map_some, Option.getD_some, add_comm]

theorem Made.entry (h : Made files s) {j : Nat} (hj : j < files.length + 2) :
    (inodes s.img ROOTINO).entry s.img j = dirent (rootEntry files j).1 (rootEntry files j).2 := by
  have hlen := length_contents_root files
  have hsize : (contents files ROOTINO).length ≤ (inodes s.img ROOTINO).size := by
    rw [h.root]
    simp only [BSIZE]
    omega
  have htake := h.image.take_content (le_blocks_mul _) hsize
  rw [← contents_entry hj, ← htake, drop_take, take_take, Dinode.entry, hlen]
  congr 1
  omega

theorem rootEntry_inum {j : Nat} (hj : j < files.length + 2) (hn : files.length + 1 < NINODES) :
    (rootEntry files j).1 ≠ 0 ∧ (rootEntry files j).1 < 2 ^ 16 := by
  match j with
  | 0 | 1 => exact ⟨show ROOTINO ≠ 0 by decide, show ROOTINO < 2 ^ 16 by decide⟩
  | j + 2 =>
    simp only [rootEntry, NINODES] at *
    omega

theorem rootEntry_named {j : Nat} (hj : j < files.length + 2) (hn : files.length + 1 < NINODES)
    (name : List UInt8) :
    Named name (dirent (rootEntry files j).1 (rootEntry files j).2) ↔
      namecmp name (rootEntry files j).2 = 0 := by
  obtain ⟨hne, hlt⟩ := rootEntry_inum hj hn
  rw [Named, direntInum_dirent hlt, drop_dirent, namecmp_strncpy]
  exact and_iff_right hne

theorem lookup_first (h : Made files s) {j : Nat} (hj : j < files.length + 2)
    (hn : files.length + 1 < NINODES) {name : List UInt8}
    (hname : namecmp name (rootEntry files j).2 = 0)
    (hfirst : ∀ i < j, namecmp name (rootEntry files i).2 ≠ 0) {k : Fs.State} {dp jp : Ip}
    (hk : Unread k s.img dp ROOTINO) (hfree : (k.itable jp).ref = 0) :
    ∃ k' ip, lockLookup dp name k = .ok (some (ip, 16 * j), k') ∧
      (k'.itable ip).inum = (rootEntry files j).1 := by
  have hnode : dinodeAt sb k.disk ROOTINO = inodes s.img ROOTINO := by
    rw [hk.disk, inodes_eq s.img (by decide)]
  have htype : (inodes s.img ROOTINO).type = T_DIR := by
    rw [h.type, withTypes, if_neg fun h => absurd h.1 (by decide), rootType, update_self]
  have hjp : jp ≠ dp := by
    rintro rfl
    exact ne_of_gt hk.ref hfree
  have hlen := length_contents_root files
  have hthere : (inodes s.img ROOTINO).There s.img (16 * (j + 1)) := by
    refine ⟨?_, fun bn hbn => (h.image.addr ROOTINO bn).mpr ?_⟩
    · simp only [MAXFILE, NDIRECT, NINDIRECT, BSIZE, NINODES] at *
      omega
    · exact lt_of_lt_of_le hbn (Dinode.blocks_mono (by omega))
  have hsize : 16 * (j + 1) ≤ (inodes s.img ROOTINO).size := by
    rw [h.root]
    simp only [BSIZE]
    omega
  have hwp : wp (fun _ => False) (lockLookup dp name) k fun r k' => ∃ ip, r = some (ip, 16 * j) ∧
      (k'.itable ip).inum = (rootEntry files j).1 := by
    refine (ilock_read hk.inum hk.ref hk.valid (by rw [hnode, htype]; decide)).bind
      fun _ k' ⟨hdisk, hd, hother⟩ => ?_
    rw [hk.disk] at hdisk
    rw [hnode] at hd
    have hfree' : (k'.itable jp).ref = 0 := by rw [hother jp hjp, hfree]
    refine (dirlookup_first (by rw [hd, htype]) hfree' hd
      (by rwa [hdisk]) hsize ?_ fun i hi => ?_).mono fun r k'' ⟨_, ip, hr, hinum, _⟩ => ?_
    · rw [hdisk, h.entry hj, rootEntry_named hj hn]
      exact hname
    · rw [hdisk, h.entry (by omega), rootEntry_named (by omega) hn]
      exact hfirst i hi
    · rw [hdisk, h.entry hj, direntInum_dirent (rootEntry_inum hj hn).2] at hinum
      exact ⟨ip, hr, hinum⟩
  obtain ⟨r, k', hrun, ip, hr, hinum⟩ := hwp.exists_ok fun _ => id
  exact ⟨k', ip, by rw [hrun, hr], hinum⟩

theorem shortname_nul (f : File) : 0 ∉ f.shortname := by
  have hbase : 0 ∉ f.base := by
    unfold File.base
    split
    · exact fun h => f.nul (mem_of_mem_drop h)
    · exact f.nul
  unfold File.shortname
  split
  · exact fun h => hbase (mem_of_mem_tail h)
  · exact hbase

def rootNames (files : List File) : List (List UInt8) := dot :: dotdot :: files.map File.shortname

theorem namecmp_rootEntry (hvalid : ∀ f ∈ files, f.Valid) (hnames : (rootNames files).Nodup)
    {i j : Nat} (hj : j < files.length) (hi : i < files.length + 2) :
    namecmp files[j].shortname (rootEntry files i).2 = 0 ↔ i = j + 2 := by
  have hname : ∀ i, i < files.length + 2 → (rootEntry files i).2 = (rootNames files).getD i [] ∧
      0 ∉ (rootEntry files i).2 ∧ (rootEntry files i).2.length ≤ DIRSIZ := by
    intro i hi
    match i with
    | 0 => exact ⟨rfl, by simp [rootEntry, dot], by simp [rootEntry, dot]⟩
    | 1 => exact ⟨rfl, by simp [rootEntry, dotdot], show dotdot.length ≤ DIRSIZ by decide⟩
    | i + 2 =>
      have hi' : i < files.length := by omega
      refine ⟨rfl, ?_⟩
      have : (rootEntry files (i + 2)).2 = files[i].shortname := by
        simp [rootEntry, hi']
      rw [this]
      exact ⟨shortname_nul _, (hvalid _ (getElem_mem hi')).2⟩
  have hlen : (rootNames files).length = files.length + 2 := by simp [rootNames]
  have hself : files[j].shortname = (rootNames files).getD (j + 2) [] := by
    simp [rootNames, hj]
  obtain ⟨heq, hnul, hle⟩ := hname i hi
  rw [namecmp_eq_zero (shortname_nul _) (hvalid _ (getElem_mem hj)).2 hnul hle, heq, hself,
    getD_eq_getElem _ _ (by omega), getD_eq_getElem _ _ (by omega),
    hnames.getElem_inj_iff]
  exact eq_comm

theorem ops_read (hproper : Proper 1 ops)
    (hlen : ∀ i < NINODES, (chunks i ops).length ≤ MAXFILE * BSIZE)
    (hfit : nmeta + total (fun i => chunks i ops) ≤ FSSIZE) :
    ∃ s, runOps ops blank = .ok ((), s) ∧ ∀ i, 0 < i → i ≤ allocs ops → ∀ k ip,
      Unread k s.img ip i → ∀ room off n, off + n < 2 ^ 32 → n ≤ room →
        ∃ k', lockRead ip room off n k = .ok (slice (chunks i ops) off n, k') := by
  have hwp := runOps_spec (E := fun _ => False) blank_holds hproper (by decide)
    (fun i hi hlt => absurd hi (Nat.not_lt.mpr (Nat.le_of_lt_succ hlt))) (.inr ⟨hlen, hfit⟩)
  obtain ⟨_, s, hrun, ⟨t, h, htyped⟩, hfi⟩ := hwp.exists_ok fun _ => id
  refine ⟨s, hrun, fun i hi hle k ip hk room off n hn hroom => ?_⟩
  have hfi' : s.freeinode = 1 + allocs ops := hfi
  have htype : (inodes s.img i).type ≠ 0 := by
    rw [h.type]
    exact htyped i hi (by omega)
  -- an inode with a type is in the table
  have hi' : i < NINODES := by
    by_contra hge
    exact htype (by rw [inodes, if_neg hge]; rfl)
  exact lockRead_spec h.image hi' (h.size i) htype hk hn hroom

theorem Made.read (h : Made files s) (hn : files.length + 1 < NINODES) {j : Nat}
    (hj : j < files.length) {k : Fs.State} {ip : Ip} (hk : Unread k s.img ip (j + 2))
    {room off n : Nat} (hoff : off + n < 2 ^ 32) (hroom : n ≤ room) :
    ∃ k', lockRead ip room off n k = .ok (slice files[j].chunks.flatten off n, k') := by
  have hne : j + 2 ≠ ROOTINO := by
    simp only [ROOTINO]
    omega
  have hcontents : contents files (j + 2) = files[j].chunks.flatten := by
    rw [add_comm]
    exact withFiles_file (by decide) hj (by rw [rootOnly, update_of_ne (by omega)])
  have htype : (inodes s.img (j + 2)).type ≠ 0 := by
    rw [h.type, withTypes, if_pos (by omega)]
    decide
  rw [← hcontents]
  exact lockRead_spec h.image (by omega) (h.size _ hne) htype hk hoff hroom

/-- `readi` returns what the calls of `iappend` appended to an inode, in order, and after `main`
with different names for its files, other than those that every directory has, `dirlookup` finds
each file with the number of the inode that has its contents. -/
theorem mkfs_kernel_agree :
    (∀ ops, Proper 1 ops → (∀ i < NINODES, (chunks i ops).length ≤ MAXFILE * BSIZE) →
      nmeta + total (fun i => chunks i ops) ≤ FSSIZE →
      ∃ s, runOps ops blank = .ok ((), s) ∧ ∀ i, 0 < i → i ≤ allocs ops → ∀ k ip,
        Unread k s.img ip i → ∀ room off n, off + n < 2 ^ 32 → n ≤ room →
          ∃ k', lockRead ip room off n k = .ok (slice (chunks i ops) off n, k')) ∧
    (∀ files : List File, files.length + 1 < NINODES → (∀ f ∈ files, f.Valid) →
      (rootNames files).Nodup →
      (∀ i < NINODES, (contents files i).length ≤ MAXFILE * BSIZE) →
      nmeta + total (contents files) ≤ FSSIZE →
      ∃ s, main files blank = .ok ((), s) ∧ ∀ j (hj : j < files.length),
        (∀ k dp jp, Unread k s.img dp ROOTINO → (k.itable jp).ref = 0 → ∃ k' ip off,
          lockLookup dp files[j].shortname k = .ok (some (ip, off), k') ∧
            (k'.itable ip).inum = j + 2) ∧
        ∀ k ip, Unread k s.img ip (j + 2) → ∀ room off n, off + n < 2 ^ 32 → n ≤ room →
          ∃ k', lockRead ip room off n k = .ok (slice files[j].chunks.flatten off n, k')) := by
  refine ⟨fun ops => ops_read, fun files hn hvalid hnames hlen hfit => ?_⟩
  obtain ⟨s, hrun, hs⟩ := main_ok hn hvalid hlen hfit
  refine ⟨s, hrun, fun j hj => ⟨fun k dp jp hk hfree => ?_, fun k ip hk room off n =>
    hs.read hn hj hk⟩⟩
  have hcmp := fun i => namecmp_rootEntry hvalid hnames (i := i) hj
  obtain ⟨k', ip, hlook, hinum⟩ := lookup_first hs (j := j + 2) (by omega) hn
    ((hcmp _ (by omega)).mpr rfl) (fun i hi => (hcmp i (by omega)).not.mpr (by omega)) hk hfree
  exact ⟨k', ip, _, hlook, hinum⟩

def booted (img : Disk) : Fs.State where
  disk := img
  itable := fun ip => ⟨ROOTINO, if ip = 0 then 1 else 0, false, Dinode.zero⟩

theorem booted_unread (img : Disk) : Unread (booted img) img 0 ROOTINO :=
  ⟨rfl, rfl, one_pos, rfl⟩

theorem mkfs_kernel_agree_cat :
    (∃ s, runOps [.ialloc T_FILE, .iappend 1 [7], .iappend 1 [8, 9]] blank = .ok ((), s) ∧
      ∃ k', lockRead 0 512 0 512 (booted s.img) = .ok ((3, [7, 8, 9]), k')) ∧
    ∃ s, main [cat] blank = .ok ((), s) ∧ ∃ k' ip off,
      lockLookup 0 cat.shortname (booted s.img) = .ok (some (ip, off), k') ∧
        (k'.itable ip).inum = 2 := by
  obtain ⟨hops, hmain⟩ := mkfs_kernel_agree
  obtain ⟨s, hrun, hread⟩ := hops [.ialloc T_FILE, .iappend 1 [7], .iappend 1 [8, 9]]
    (by simp [Proper, T_FILE]) (by decide +kernel) (by decide +kernel)
  obtain ⟨s', hrun', hfiles⟩ := hmain [cat] (by decide) (by decide) (by decide) (by decide +kernel)
    (by decide +kernel)
  obtain ⟨hlook, -⟩ := hfiles 0 (by decide)
  exact ⟨⟨s, hrun, hread 1 (by decide) (by decide) _ 0 (booted_unread _) 512 0 512 (by decide)
    (by decide)⟩, s', hrun', hlook _ 0 1 (booted_unread _) rfl⟩

/-- The file `cat`, which has the short name of `user/_cat`. -/
def cat₂ : File := ⟨[99, 97, 116], [[4]], by decide⟩

/-- The name of the second file leads to the first one. -/
theorem second_cat_not_found : ∃ s, main [cat, cat₂] blank = .ok ((), s) ∧ ∃ k' ip off,
    lockLookup 0 cat₂.shortname (booted s.img) = .ok (some (ip, off), k') ∧
      (k'.itable ip).inum ≠ 3 := by
  obtain ⟨s, hrun, hs⟩ := main_ok (show [cat, cat₂].length + 1 < NINODES by decide) (by decide)
    (by decide +kernel) (by decide +kernel)
  obtain ⟨k', ip, hlook, hinum⟩ := lookup_first hs (j := 2) (by decide) (by decide)
    (show namecmp cat₂.shortname _ = 0 by decide) (by decide) (booted_unread _)
    (show ((booted s.img).itable 1).ref = 0 from rfl)
  exact ⟨s, hrun, k', ip, _, hlook, by rw [hinum]; decide⟩

end Xv6.Mkfs
