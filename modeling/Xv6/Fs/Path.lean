import Xv6.Fs.DirMap

/-! Paths: `skipelem` produces the components of a path, and `namex` follows them through the
directories. The buffer `name` is used for one component after the other, so it holds what the ones
before have left behind. -/

namespace Xv6.Fs

open Function List Option

/-- The components of a path: what stands between slashes, cut to `DIRSIZ` bytes. -/
def components (path : List UInt8) : List (List UInt8) :=
  ((path.splitOn 47).filter (· ≠ [])).map (·.take DIRSIZ)

section components

variable {path name rest : List UInt8}

theorem components_slash (path : List UInt8) : components (47 :: path) = components path := by
  have hsplit : (47 :: path).splitOn 47 = [] :: path.splitOn 47 :=
    splitOn_append_cons_self_of_not_mem not_mem_nil path
  rw [components, hsplit]
  rfl

theorem components_slashes (path : List UInt8) :
    components (path.dropWhile (· = 47)) = components path := by
  induction path with
  | nil => rfl
  | cons c path ih =>
    by_cases hc : c = 47
    · rw [dropWhile_cons_of_pos (by simpa using hc), ih, hc, components_slash]
    · rw [dropWhile_cons_of_neg (by simpa using hc)]

theorem components_word {word : List UInt8} (hword : 47 ∉ word) (hne : word ≠ [])
    (hrest : rest = [] ∨ rest.head? = some 47) :
    components (word ++ rest) = word.take DIRSIZ :: components rest := by
  rcases hrest with rfl | hslash
  · rw [append_nil, components, splitOn_eq_singleton hword, components, splitOn_nil]
    simp [hne]
  obtain ⟨rest, rfl⟩ : ∃ tail, rest = 47 :: tail := by
    cases rest with
    | nil => cases hslash
    | cons c tail =>
      rw [head?_cons, some.injEq] at hslash
      exact ⟨tail, by rw [hslash]⟩
  rw [components_slash, components, splitOn_append_cons_self_of_not_mem hword, components]
  simp [hne]

theorem head_dropWhile {p : UInt8 → Bool} {path : List UInt8} {c : UInt8} {tail : List UInt8}
    (h : path.dropWhile p = c :: tail) : p c = false := by
  have := head?_dropWhile_not p path
  rwa [h] at this

theorem skipelem_some (h : skipelem path = some (name, rest)) :
    components path = name :: components rest := by
  unfold skipelem at h
  dsimp only at h
  split at h
  · cases h
  rename_i hne
  simp only [some.injEq, Prod.mk.injEq] at h
  obtain ⟨c, tail, hct⟩ := exists_cons_of_ne_nil hne
  have hc : c ≠ 47 := by simpa using head_dropWhile hct
  have hword : (47 : UInt8) ∉ (path.dropWhile (· = 47)).takeWhile (· ≠ 47) := fun hmem => by
    simpa using mem_takeWhile_imp hmem
  have hwne : (path.dropWhile (· = 47)).takeWhile (· ≠ 47) ≠ [] := by
    rw [hct, takeWhile_cons_of_pos (by simpa using hc)]
    exact nofun
  have hrest : (path.dropWhile (· = 47)).dropWhile (· ≠ 47) = [] ∨
      ((path.dropWhile (· = 47)).dropWhile (· ≠ 47)).head? = some 47 := by
    cases hd : (path.dropWhile (· = 47)).dropWhile (· ≠ 47) with
    | nil => exact .inl rfl
    | cons b bs =>
      have hb : b = 47 := by simpa using head_dropWhile hd
      exact .inr (by rw [head?_cons, hb])
  rw [← components_slashes path, ← takeWhile_append_dropWhile
    (p := (· ≠ (47 : UInt8))) (l := path.dropWhile (· = 47)), components_word hword hwne hrest,
    h.1, ← components_slashes, h.2]

theorem skipelem_none (h : skipelem path = none) : components path = [] := by
  unfold skipelem at h
  dsimp only at h
  split at h
  · rename_i hnil
    rw [← components_slashes, hnil]
    rfl
  · cases h

theorem skipelem_rest (h : skipelem path = some (name, rest)) :
    rest = [] ↔ components rest = [] := by
  have hrest : rest.dropWhile (· = 47) = rest := by
    unfold skipelem at h
    dsimp only at h
    split at h
    · cases h
    · simp only [some.injEq, Prod.mk.injEq] at h
      rw [← h.2]
      exact dropWhile_idempotent ..
  constructor
  · rintro rfl
    rfl
  intro hnil
  cases hsk : skipelem rest with
  | none =>
    unfold skipelem at hsk
    dsimp only at hsk
    rw [hrest] at hsk
    split at hsk
    · assumption
    · cases hsk
  | some a =>
    rw [skipelem_some hsk] at hnil
    cases hnil

end components

/-- The map `M i` is the one that directory `i` holds. -/
structure Tree (D : Nat → Dinode) (disk : Disk) (M : Nat → List UInt8 → Option Nat) : Prop where
  whole : ∀ i, (D i).type = T_DIR → (D i).size % 16 = 0
  full : ∀ i, (D i).type = T_DIR → (D i).Full disk
  maps : ∀ i, (D i).type = T_DIR → Stores ((D i).row disk) (M i)

/-- The inode is allocated, and to give up one more reference to it does not free it. -/
structure InUse (sb : Superblock) (D : Nat → Dinode) (s : State) (n : Nat) : Prop where
  lt : n < sb.ninodes
  type : (D n).type ≠ 0
  held : (D n).nlink ≠ 0 ∨ ∃ jp, 0 < (s.itable jp).ref ∧ (s.itable jp).inum = n

/-- The inodes in which a walk from `i` looks for the components are in use. An entry may lead to
one that is not: a removed directory keeps its `..`. -/
def InUseAlong (sb : Superblock) (D : Nat → Dinode) (s : State)
    (M : Nat → List UInt8 → Option Nat) : Nat → List (List UInt8) → Prop
  | _, [] => True
  | i, c :: cs => InUse sb D s i ∧
    ((D i).type = T_DIR → ∀ n, M i (dirKey c) = some n → InUseAlong sb D s M n cs)

def walk (D : Nat → Dinode) (M : Nat → List UInt8 → Option Nat) : Nat → List (List UInt8) →
    Option Nat
  | i, [] => some i
  | i, c :: cs => if (D i).type = T_DIR then (M i (dirKey c)).bind fun n => walk D M n cs else none

def walkParent (D : Nat → Dinode) (M : Nat → List UInt8 → Option Nat) (i : Nat)
    (cs : List (List UInt8)) : Option (Nat × List UInt8) :=
  cs.getLast?.bind fun last => (walk D M i cs.dropLast).bind fun n =>
    if (D n).type = T_DIR then some (n, last) else none

def aim (D : Nat → Dinode) (M : Nat → List UInt8 → Option Nat) (parent : Bool) (i : Nat)
    (cs : List (List UInt8)) : Option (Nat × List UInt8) :=
  if parent then walkParent D M i cs else (walk D M i cs).map fun n => (n, [])

section aim

variable {D : Nat → Dinode} {M : Nat → List UInt8 → Option Nat} {parent : Bool} {i : Nat}
  {c : List UInt8} {cs : List (List UInt8)}

theorem aim_nil : aim D M parent i [] = if parent then none else some (i, []) := rfl

theorem aim_file (h : (D i).type ≠ T_DIR) : aim D M parent i (c :: cs) = none := by
  unfold aim walkParent
  cases parent with
  | false => simp [walk, h]
  | true =>
    cases cs with
    | nil => simp [walk, h]
    | cons c' cs => simp [walk, h, getLast?_cons]

theorem aim_last (h : (D i).type = T_DIR) : aim D M true i [c] = some (i, c) := by
  simp [aim, walkParent, walk, h]

theorem aim_cons (h : (D i).type = T_DIR) (hlast : ¬(parent = true ∧ cs = [])) :
    aim D M parent i (c :: cs) = (M i (dirKey c)).bind fun n => aim D M parent n cs := by
  unfold aim walkParent
  cases parent with
  | false =>
    simp only [Bool.false_eq_true, if_false, walk, if_pos h]
    cases M i (dirKey c) <;> rfl
  | true =>
    cases cs with
    | nil => exact absurd ⟨rfl, rfl⟩ hlast
    | cons c' cs =>
      simp only [if_true, getLast?_cons_cons, dropLast_cons_cons, walk, if_pos h]
      cases M i (dirKey c) with
      | none => simp
      | some n => simp

end aim

/-- `namex` has come to the inode `n`, at `ip`: it holds one reference more than there were. -/
structure Walked (sb : Superblock) (D : Nat → Dinode) (s : State) (ip : Ip) (n : Nat)
    (t : State) : Prop where
  consistent : Consistent sb t D
  disk : t.disk = s.disk
  inum : (t.itable ip).inum = n
  ref : ∀ jp, (t.itable jp).ref = (s.itable jp).ref + if jp = ip then 1 else 0
  keep : ∀ jp, 0 < (s.itable jp).ref → (t.itable jp).inum = (s.itable jp).inum
  held : 0 < (s.itable ip).ref ∨ (t.itable ip).valid = false ∨ (D n).nlink ≠ 0

/-- All references are as they were. -/
structure Restored (sb : Superblock) (D : Nat → Dinode) (s t : State) : Prop where
  consistent : Consistent sb t D
  disk : t.disk = s.disk
  ref : ∀ jp, (t.itable jp).ref = (s.itable jp).ref
  keep : ∀ jp, 0 < (s.itable jp).ref → (t.itable jp).inum = (s.itable jp).inum

def TableShort (s : State) (msg : String) : Prop :=
  msg = "iget: no inodes" ∧ ∀ ip jp, (s.itable ip).ref = 0 → (s.itable jp).ref = 0 → ip = jp

section walk

variable {E : String → Prop} {sb : Superblock} {s t t' : State} {ip nxt : Ip} {D : Nat → Dinode}
  {M : Nat → List UInt8 → Option Nat} {n k : Nat} {parent : Bool} {path name : List UInt8}

theorem Got.refs (hg : Got s k ip t) (jp : Ip) :
    (t.itable jp).ref = (s.itable jp).ref + if jp = ip then 1 else 0 := by
  by_cases hj : jp = ip
  · rw [hj, hg.ref, if_pos rfl]
  · rw [hg.others jp hj, if_neg hj, add_zero]

theorem Dropped.inums (hd : Dropped s ip t) (jp : Ip) :
    (t.itable jp).inum = (s.itable jp).inum := by
  by_cases hj : jp = ip
  · rw [hj, hd.inum]
  · rw [hd.others jp hj]

theorem Consistent.iput_dropped (h : Consistent sb t D) (hinum : (t.itable ip).inum = n)
    (hheld : 1 < (t.itable ip).ref ∨ (t.itable ip).valid = false ∨ (D n).nlink ≠ 0) :
    wp E (iput sb ip) t fun _ t' => Dropped t ip t' := by
  refine Fs.iput_dropped fun ⟨href, hvalid, hnlink⟩ => ?_
  rw [(h.cached ip (by omega) hvalid).2, hinum] at hnlink
  rcases hheld with hlt | hnot | hne
  · omega
  · exact absurd hvalid (by rw [hnot]; simp)
  · exact hne hnlink

section

variable (h : Walked sb D s ip n t)

include h

theorem Walked.pos : 0 < (t.itable ip).ref := by
  rw [h.ref ip, if_pos rfl]
  exact Nat.succ_pos _

theorem Walked.locked (hn : InUse sb D s n) (hl : Locked t ip (D n) t') :
    Walked sb D s ip n t' := by
  refine ⟨hl.consistent h.consistent h.inum hn.lt, hl.disk.trans h.disk, hl.inum.trans h.inum,
    fun jp => ?_, fun jp hr => ?_, ?_⟩
  · rw [← h.ref jp]
    by_cases hj : jp = ip
    · rw [hj, hl.ref]
    · rw [hl.others jp hj]
  · rw [← h.keep jp hr]
    by_cases hj : jp = ip
    · rw [hj, hl.inum]
    · rw [hl.others jp hj]
  · rcases hn.held with hlink | ⟨jp, hr, hi⟩
    · exact .inr (.inr hlink)
    · -- the inode has one entry of the table
      have hjp : jp = ip := h.consistent.unique jp ip (by rw [h.ref jp]; omega) h.pos (by
        rw [h.keep jp hr, hi, h.inum])
      exact .inl (hjp ▸ hr)

theorem Walked.put :
    wp E (iput sb ip) t fun _ t' => Restored sb D s t' := by
  have href := h.ref ip
  rw [if_pos rfl] at href
  refine (h.consistent.iput_dropped h.inum (h.held.imp_left (by omega))).mono fun _ t' hd => ?_
  refine ⟨hd.consistent h.consistent, hd.disk.trans h.disk, fun jp => ?_, fun jp hr => ?_⟩
  · by_cases hj : jp = ip
    · rw [hj, hd.ref, href, Nat.add_sub_cancel]
    · rw [hd.others jp hj, h.ref jp, if_neg hj, add_zero]
  · rw [hd.inums, h.keep jp hr]

theorem Walked.next (hg : Got t k nxt t') :
    wp E (iput sb ip) t' fun _ t'' => Walked sb D s nxt k t'' := by
  have hc := hg.consistent h.consistent
  have hkeep := hg.keep h.pos
  have href := h.ref ip
  rw [if_pos rfl] at href
  refine (hc.iput_dropped (hkeep.1.trans h.inum) (h.held.imp (by omega)
    (Or.imp_left (hkeep.2.2.1.trans ·)))).mono fun _ t'' hd => ?_
  have hvalid : ∀ jp, (t''.itable jp).valid = (t'.itable jp).valid := by
    intro jp
    by_cases hj : jp = ip
    · rw [hj, hd.valid]
    · rw [hd.others jp hj]
  refine ⟨hd.consistent hc, (hd.disk.trans hg.disk).trans h.disk, (hd.inums nxt).trans hg.inum,
    fun jp => ?_, fun jp hr => ?_, ?_⟩
  · have hjp := h.ref jp
    by_cases hj : jp = ip
    · subst hj
      rw [hd.ref, hg.refs, href]
      omega
    · rw [if_neg hj] at hjp
      rw [hd.others jp hj, hg.refs, hjp, add_zero]
  · have hpos : 0 < (t.itable jp).ref := by
      rw [h.ref jp]
      omega
    rw [hd.inums, (hg.keep hpos).1, h.keep jp hr]
  · rw [hvalid nxt]
    rcases Nat.eq_zero_or_pos (t.itable nxt).ref with h0 | hpos
    · exact .inr (.inl (hg.new h0).1)
    · by_cases hj : nxt = ip
      · subst hj
        obtain ⟨hk, hval, -⟩ := hg.old hpos
        rw [hval, ← hk, h.inum]
        exact h.held
      · rw [h.ref nxt, if_neg hj] at hpos
        exact .inl hpos

theorem Walked.isDir (htree : Tree D s.disk M)
    (hvalid : (t.itable ip).valid = true) (hdir : (D n).type = T_DIR) :
    IsDir sb ip (M n) t D := by
  have hd := (h.consistent.cached ip h.pos hvalid).2
  rw [h.inum] at hd
  refine ⟨h.consistent, h.pos, hvalid, ?_, ?_, ?_, ?_⟩
  all_goals rw [hd]
  · exact hdir
  · exact htree.whole n hdir
  · rw [h.disk]
    exact htree.full n hdir
  · rw [h.disk]
    exact htree.maps n hdir

theorem Walked.tableShort (hall : ∀ jp, 0 < (t.itable jp).ref) :
    TableShort s "iget: no inodes" := by
  have hone : ∀ jp, (s.itable jp).ref = 0 → jp = ip := by
    intro jp h0
    have := hall jp
    rw [h.ref jp, h0] at this
    by_contra hne
    rw [if_neg hne] at this
    omega
  exact ⟨rfl, fun jp kp hj hk => (hone jp hj).trans (hone kp hk).symm⟩

end

theorem namexLoop_none (h : skipelem path = none) : namexLoop sb parent ip path name =
    if parent then do
      iput sb ip
      pure none
    else pure (some (ip, name)) := by
  rw [namexLoop]
  split
  · rfl
  · rename_i h'
    rw [h] at h'
    cases h'

theorem namexLoop_some {elem rest : List UInt8} (h : skipelem path = some (elem, rest)) :
    namexLoop sb parent ip path name = (do
      ilock sb ip
      if (← getInode ip).d.type ≠ T_DIR then do
        iput sb ip
        pure none
      else if parent ∧ rest = [] then pure (some (ip, elem))
      else
        match ← dirlookup sb ip elem with
        | none => do
          iput sb ip
          pure none
        | some (next, _) => do
          iput sb ip
          namexLoop sb parent next rest elem) := by
  rw [namexLoop]
  split
  · rename_i h'
    rw [h] at h'
    cases h'
  · rename_i h'
    rw [h] at h'
    cases h'
    rfl

/-- The outcome of `namex` for a path whose components lead to `goal`. -/
def Reached (sb : Superblock) (D : Nat → Dinode) (s : State) (parent : Bool)
    (goal : Option (Nat × List UInt8)) (r : Option (Ip × List UInt8)) (t : State) : Prop :=
  match goal with
  | some (n, last) => ∃ ip name, r = some (ip, name) ∧ Walked sb D s ip n t ∧
      (parent = true → name = last)
  | none => r = none ∧ Restored sb D s t

theorem namexLoop_spec (htree : Tree D s.disk M) (h : Walked sb D s ip n t)
    (hlook : InUseAlong sb D s M n (components path)) :
    wp (TableShort s) (namexLoop sb parent ip path name) t
      (Reached sb D s parent (aim D M parent n (components path))) := by
  induction hlen : path.length using Nat.strong_induction_on generalizing ip n t path name with
  | _ len ih =>
    cases hskip : skipelem path with
    | none =>
      rw [namexLoop_none hskip, skipelem_none hskip, aim_nil]
      cases parent with
      | true => exact h.put.bind fun _ t' ht' => ⟨rfl, ht'⟩
      | false => exact ⟨ip, name, rfl, h, nofun⟩
    | some a =>
      obtain ⟨elem, rest⟩ := a
      have hrest := skipelem_rest hskip
      rw [skipelem_some hskip] at hlook
      obtain ⟨hn, hlook⟩ := hlook
      rw [namexLoop_some hskip, skipelem_some hskip]
      refine (ilock_locked h.consistent h.pos h.inum hn.lt hn.type).bind fun _ t1 hl => ?_
      have h1 := h.locked hn hl
      rw [wp_bind, wp_getInode, hl.dinode]
      by_cases hdir : (D n).type = T_DIR
      case neg =>
        rw [if_pos hdir, aim_file hdir]
        exact h1.put.bind fun _ t' ht' => ⟨rfl, ht'⟩
      rw [if_neg (not_not.mpr hdir)]
      by_cases hlast : parent = true ∧ rest = []
      · obtain ⟨rfl, hnil⟩ := hlast
        rw [if_pos ⟨rfl, hnil⟩, hrest.mp hnil, aim_last hdir]
        exact ⟨ip, elem, rfl, h1, fun _ => rfl⟩
      rw [if_neg hlast, aim_cons hdir fun hh => hlast ⟨hh.1, hrest.mpr hh.2⟩]
      refine (dirlookup_map (h1.isDir htree hl.valid hdir) h1.tableShort).bind fun r t2 hr => ?_
      cases r with
      | none =>
        obtain ⟨rfl, hm⟩ := hr
        rw [hm]
        exact h1.put.bind fun _ t' ht' => ⟨rfl, ht'⟩
      | some b =>
        obtain ⟨nxt, off⟩ := b
        obtain ⟨j, k, -, -, hm, hg⟩ := hr
        rw [hm]
        refine (h1.next hg).bind fun _ t3 h3 => ?_
        exact ih rest.length (by have := skipelem_length hskip; omega) h3 (hlook hdir k hm) rfl

def startInum (s : State) (cwd : Ip) (path : List UInt8) : Nat :=
  if path.headD 0 = 47 then ROOTINO else (s.itable cwd).inum

theorem idup_walked {cwd : Ip} (h : Consistent sb s D) (hcwd : 0 < (s.itable cwd).ref) :
    wp E (idup cwd) s fun ip t => Walked sb D s ip (s.itable cwd).inum t := by
  rw [idup, wp_bind, wp_modInode, wp_pure]
  have hentry : ∀ jp, update s.itable cwd { s.itable cwd with ref := (s.itable cwd).ref + 1 } jp =
      { s.itable jp with ref := (s.itable jp).ref + if jp = cwd then 1 else 0 } := by
    intro jp
    by_cases hj : jp = cwd
    · rw [hj, update_self, if_pos rfl]
    · rw [update_of_ne hj, if_neg hj]
      rfl
  have hpos : ∀ jp, 0 < (s.itable jp).ref + (if jp = cwd then 1 else 0) →
    0 < (s.itable jp).ref := by
    intro jp hr
    by_cases hj : jp = cwd
    · rwa [hj]
    · rwa [if_neg hj] at hr
  refine ⟨?_, rfl, ?_, fun jp => ?_, fun jp _ => ?_, .inl hcwd⟩
  · refine h.table rfl (fun jp hr hv => ?_) fun jp kp hr hr' he => ?_
    · simp only [hentry] at hr hv ⊢
      exact h.cached jp (hpos jp hr) hv
    · simp only [hentry] at hr hr' he
      exact h.unique jp kp (hpos jp hr) (hpos kp hr') he
  all_goals simp only [hentry]

/-- `namex` starts at the root or at the current directory. -/
theorem namex_start {cwd : Ip} {Q : Option (Ip × List UInt8) → State → Prop}
    (h : Consistent sb s D) (hcwd : 0 < (s.itable cwd).ref)
    (hE : (∀ jp, 0 < (s.itable jp).ref) → E "iget: no inodes")
    (hloop : ∀ ip t name, Walked sb D s ip (startInum s cwd path) t →
      wp E (namexLoop sb parent ip path name) t Q) : wp E (namex sb cwd path parent) s Q := by
  unfold namex
  unfold startInum at hloop
  split
  · rw [if_pos ‹_›] at hloop
    refine (iget_got fun hall => hE fun jp => (hall jp).1).bind fun ip t hg => hloop ip t _
      ⟨hg.consistent h, hg.disk, hg.inum, hg.refs, fun jp hr => (hg.keep hr).1, ?_⟩
    rcases Nat.eq_zero_or_pos (s.itable ip).ref with h0 | hpos
    · exact .inr (.inl (hg.new h0).1)
    · exact .inl hpos
  · rw [if_neg ‹_›] at hloop
    exact (idup_walked h hcwd).bind fun ip t ht => hloop ip t _ ht

theorem namex_spec {cwd : Ip} (h : Consistent sb s D) (htree : Tree D s.disk M)
    (hcwd : 0 < (s.itable cwd).ref)
    (hlook : InUseAlong sb D s M (startInum s cwd path) (components path)) :
    wp (TableShort s) (namex sb cwd path parent) s
      (Reached sb D s parent (aim D M parent (startInum s cwd path) (components path))) :=
  namex_start h hcwd (fun hall => ⟨rfl, fun jp _ hj _ => absurd hj (ne_of_gt (hall jp))⟩)
    fun _ _ _ ht => namexLoop_spec htree ht hlook

end walk

/-- `skipelem` with the buffer that it writes to: what follows the element, and the buffer. -/
def skipelemBuf (path buf : List UInt8) : Option (List UInt8 × List UInt8) :=
  let path := path.dropWhile (· = 47)
  if path = [] then none
  else
    let s := path.takeWhile (· ≠ 47)
    let buf := if DIRSIZ ≤ s.length then s.take DIRSIZ ++ buf.drop DIRSIZ
      else s ++ 0 :: buf.drop (s.length + 1)
    some ((path.dropWhile (· ≠ 47)).dropWhile (· = 47), buf)

theorem skipelemBuf_length {path buf rest buf' : List UInt8}
    (h : skipelemBuf path buf = some (rest, buf')) : rest.length < path.length := by
  have hlist : skipelem path =
      some ((((path.dropWhile (· = 47)).takeWhile (· ≠ 47)).take DIRSIZ), rest) := by
    unfold skipelemBuf at h
    unfold skipelem
    dsimp only at h ⊢
    split at h
    · cases h
    · rename_i hne
      simp only [some.injEq, Prod.mk.injEq] at h
      rw [if_neg hne, h.1]
  exact skipelem_length hlist

/-- The elements that `skipelem` leaves in the buffer, one after the other. -/
def elements (path buf : List UInt8) : List (List UInt8) :=
  match _h : skipelemBuf path buf with
  | none => []
  | some (rest, buf) => (buf.take DIRSIZ).takeWhile (· ≠ 0) :: elements rest buf
termination_by path.length
decreasing_by exact skipelemBuf_length _h

def namexBufLoop (sb : Superblock) (nameiparent : Bool) (ip : Ip) (path name : List UInt8) :
    Prog State (Option (Ip × List UInt8)) :=
  match _h : skipelemBuf path name with
  | none =>
    if nameiparent then do
      iput sb ip
      pure none
    else pure (some (ip, name))
  | some (path, name) => do
    ilock sb ip
    if (← getInode ip).d.type ≠ T_DIR then do
      iput sb ip
      pure none
    else if nameiparent ∧ path = [] then pure (some (ip, name))
    else
      match ← dirlookup sb ip name with
      | none => do
        iput sb ip
        pure none
      | some (next, _) => do
        iput sb ip
        namexBufLoop sb nameiparent next path name
termination_by path.length
decreasing_by exact skipelemBuf_length _h

def namexBuf (sb : Superblock) (cwd : Ip) (path : List UInt8) (nameiparent : Bool)
    (name : List UInt8) : Prog State (Option (Ip × List UInt8)) := do
  let ip ← if path.headD 0 = 47 then iget ROOTINO else idup cwd
  namexBufLoop sb nameiparent ip path name

/-- `namei`, whose buffer holds what happens to be on the stack. -/
def nameiBuf (sb : Superblock) (cwd : Ip) (path junk : List UInt8) : Prog State (Option Ip) := do
  return (← namexBuf sb cwd path false junk).map Prod.fst

/-- `nameiparent` with the buffer of its caller. -/
def nameiparentBuf (sb : Superblock) (cwd : Ip) (path name : List UInt8) :
    Prog State (Option (Ip × List UInt8)) :=
  namexBuf sb cwd path true name

/-- A buffer of `DIRSIZ` bytes holds a component: with a NUL behind it, if there is room. -/
structure Holds (buf elem : List UInt8) : Prop where
  length : buf.length = DIRSIZ
  string : (buf.take DIRSIZ).takeWhile (· ≠ 0) = elem
  key : dirKey buf = dirKey elem

section buffer

variable {E : String → Prop} {sb : Superblock} {t : State} {ip : Ip} {parent : Bool}
  {path name buf elem rest : List UInt8}

theorem strncpy_append {p q : List UInt8} (h0 : 0 ∉ p) {n : Nat} (hn : p.length < n) :
    strncpy (p ++ 0 :: q) n = strncpy p n := by
  induction p generalizing n with
  | nil =>
    obtain ⟨n, rfl⟩ := Nat.exists_eq_add_of_lt hn
    rw [nil_append, strncpy_succ, strncpy_succ]
    rfl
  | cons c p ih =>
    obtain ⟨n, rfl⟩ : ∃ k, n = k + 1 := ⟨n - 1, by omega⟩
    rw [mem_cons, not_or] at h0
    rw [cons_append, strncpy, strncpy, if_neg (Ne.symm h0.1), if_neg (Ne.symm h0.1),
      ih h0.2 (by simpa using hn)]

theorem takeWhile_nul {p q : List UInt8} (h0 : 0 ∉ p) :
    (p ++ 0 :: q).takeWhile (· ≠ 0) = p := by
  rw [takeWhile_append_of_pos fun c hc => ?_]
  · simp
  · simp only [ne_eq, decide_not, Bool.not_eq_true', decide_eq_false_iff_not]
    rintro rfl
    exact h0 hc

theorem skipelemBuf_some (h : skipelem path = some (elem, rest)) (h0 : 0 ∉ path)
    (hbuf : buf.length = DIRSIZ) : ∃ buf', skipelemBuf path buf = some (rest, buf') ∧
      Holds buf' elem := by
  unfold skipelem at h
  unfold skipelemBuf
  dsimp only at h ⊢
  split at h
  · cases h
  rename_i hne
  simp only [some.injEq, Prod.mk.injEq] at h
  obtain ⟨helem, hrest⟩ := h
  rw [if_neg hne, hrest]
  have hword : 0 ∉ (path.dropWhile (· = 47)).takeWhile (· ≠ 47) := fun hmem =>
    h0 ((dropWhile_sublist _).mem ((takeWhile_sublist _).mem hmem))
  generalize (path.dropWhile (· = 47)).takeWhile (· ≠ 47) = word at *
  refine ⟨_, rfl, ?_⟩
  split
  · rename_i hlen
    -- the element fills the buffer, and no NUL stands behind it
    have hbuf' : word.take DIRSIZ ++ buf.drop DIRSIZ = elem := by
      rw [drop_of_length_le (by omega), append_nil, helem]
    have hlen' : elem.length = DIRSIZ := by
      rw [← helem, length_take]
      omega
    rw [hbuf']
    refine ⟨hlen', ?_, rfl⟩
    rw [take_of_length_le (by omega), takeWhile_eq_self_iff]
    intro c hc
    simp only [ne_eq, decide_not, Bool.not_eq_true', decide_eq_false_iff_not]
    rintro rfl
    exact hword (mem_of_mem_take (helem ▸ hc))
  · rename_i hlen
    obtain rfl : word = elem := by rw [← helem, take_of_length_le (by omega)]
    have hlen' : (word ++ 0 :: buf.drop (word.length + 1)).length = DIRSIZ := by
      rw [length_append, length_cons, length_drop]
      omega
    refine ⟨hlen', ?_, strncpy_append hword (by omega)⟩
    rw [take_of_length_le (by omega), takeWhile_nul hword]

theorem skipelemBuf_none (h : skipelem path = none) : skipelemBuf path buf = none := by
  unfold skipelem at h
  unfold skipelemBuf
  dsimp only at h ⊢
  split at h
  · rw [if_pos ‹_›]
  · cases h

theorem skipelem_mem (h : skipelem path = some (elem, rest)) {c : UInt8} (hc : c ∈ rest) :
    c ∈ path := by
  unfold skipelem at h
  dsimp only at h
  split at h
  · cases h
  · simp only [some.injEq, Prod.mk.injEq] at h
    rw [← h.2] at hc
    exact (dropWhile_sublist _).mem ((dropWhile_sublist _).mem
      ((dropWhile_sublist _).mem hc))

theorem elements_eq (h0 : 0 ∉ path) (hbuf : buf.length = DIRSIZ) :
    elements path buf = components path := by
  induction hlen : path.length using Nat.strong_induction_on generalizing path buf with
  | _ len ih =>
    rw [elements]
    cases hskip : skipelem path with
    | none =>
      rw [skipelem_none hskip]
      split
      · rfl
      · rename_i h'
        rw [skipelemBuf_none hskip] at h'
        cases h'
    | some a =>
      obtain ⟨elem, rest⟩ := a
      obtain ⟨buf', hsome, hholds⟩ := skipelemBuf_some hskip h0 hbuf
      rw [skipelem_some hskip]
      split
      · rename_i h'
        rw [hsome] at h'
        cases h'
      · rename_i h'
        rw [hsome] at h'
        cases h'
        rw [hholds.string, ih rest.length (by have := skipelem_length hskip; omega)
          (fun hc => h0 (skipelem_mem hskip hc)) hholds.length rfl]

theorem dirlookup_key {p q : List UInt8} (h : dirKey p = dirKey q) :
    dirlookup sb ip p = dirlookup sb ip q := by
  have hcmp : ∀ x, (namecmp p x = 0) = (namecmp q x = 0) := fun x => by
    rw [namecmp_key, namecmp_key, h]
  unfold dirlookup dirscan
  simp [hcmp]

/-- The same inode, and for `nameiparent` the buffer holds the name. -/
def SameResult (parent : Bool) : Option (Ip × List UInt8) → Option (Ip × List UInt8) → Prop
  | none, none => True
  | some (ip, buf), some (ip', name) => ip = ip' ∧ (parent = true → Holds buf name)
  | _, _ => False

/-- The loop with the buffer does what the loop without it does. -/
theorem namexBufLoop_refines {Q : Option (Ip × List UInt8) → State → Prop}
    (hq : wp E (namexLoop sb parent ip path name) t Q) (h0 : 0 ∉ path)
    (hbuf : buf.length = DIRSIZ) : wp E (namexBufLoop sb parent ip path buf) t fun r t' =>
      ∃ r', Q r' t' ∧ SameResult parent r r' := by
  induction hlen : path.length using Nat.strong_induction_on generalizing ip t path name buf with
  | _ len ih =>
    rw [namexBufLoop]
    cases hskip : skipelem path with
    | none =>
      rw [namexLoop_none hskip] at hq
      split
      case h_2 h' =>
        rw [skipelemBuf_none hskip] at h'
        cases h'
      cases parent with
      | true =>
        simp only [if_true] at hq ⊢
        rw [wp_bind] at hq ⊢
        exact hq.mono fun _ t' hQ => ⟨none, hQ, trivial⟩
      | false => exact ⟨_, hq, rfl, nofun⟩
    | some a =>
      obtain ⟨elem, rest⟩ := a
      obtain ⟨buf', hsome, hholds⟩ := skipelemBuf_some hskip h0 hbuf
      rw [namexLoop_some hskip] at hq
      split
      case h_1 h' =>
        rw [hsome] at h'
        cases h'
      case h_2 h' =>
      rw [hsome] at h'
      cases h'
      rw [wp_bind] at hq ⊢
      refine hq.mono fun _ t1 hq => ?_
      rw [wp_bind, wp_getInode] at hq ⊢
      by_cases hdir : (t1.itable ip).d.type ≠ T_DIR
      · rw [if_pos hdir, wp_bind] at hq ⊢
        exact hq.mono fun _ t' hQ => ⟨none, hQ, trivial⟩
      rw [if_neg hdir] at hq ⊢
      by_cases hlast : parent = true ∧ rest = []
      · rw [if_pos hlast] at hq ⊢
        exact ⟨_, hq, rfl, fun _ => hholds⟩
      rw [if_neg hlast, wp_bind] at hq ⊢
      rw [dirlookup_key hholds.key]
      refine hq.mono fun r t2 hq => ?_
      cases r with
      | none =>
        rw [wp_bind] at hq ⊢
        exact hq.mono fun _ t' hQ => ⟨none, hQ, trivial⟩
      | some b =>
        rw [wp_bind] at hq ⊢
        refine hq.mono fun _ t3 hq => ?_
        exact ih rest.length (by have := skipelem_length hskip; omega) hq
          (fun hc => h0 (skipelem_mem hskip hc)) hholds.length rfl

theorem namexBuf_refines {cwd : Ip} {Q : Option (Ip × List UInt8) → State → Prop}
    (hq : wp E (namex sb cwd path parent) t Q) (h0 : 0 ∉ path) (hbuf : buf.length = DIRSIZ) :
    wp E (namexBuf sb cwd path parent buf) t fun r t' => ∃ r', Q r' t' ∧
      SameResult parent r r' := by
  unfold namex at hq
  unfold namexBuf
  split at hq
  · rw [if_pos ‹_›, wp_bind]
    rw [wp_bind] at hq
    exact hq.mono fun ip t1 hq => namexBufLoop_refines hq h0 hbuf
  · rw [if_neg ‹_›, wp_bind]
    rw [wp_bind] at hq
    exact hq.mono fun ip t1 hq => namexBufLoop_refines hq h0 hbuf

end buffer

section resolution

variable {sb : Superblock} {s : State} {D : Nat → Dinode} {M : Nat → List UInt8 → Option Nat}
  {cwd : Ip} {path buf : List UInt8}

/-- The reference counts after a path has been resolved to `r`. -/
def CountsRefs (s t : State) (r : Option Ip) : Prop :=
  (∀ jp, (t.itable jp).ref = (s.itable jp).ref + if r = some jp then 1 else 0) ∧
  ∀ jp, 0 < (s.itable jp).ref → (t.itable jp).inum = (s.itable jp).inum

theorem Reached.result {parent : Bool} {goal : Option (Nat × List UInt8)} {t : State}
    {r r' : Option (Ip × List UInt8)} (hr : Reached sb D s parent goal r' t)
    (hsame : SameResult parent r r') :
    r.map (fun a => (t.itable a.1).inum) = goal.map Prod.fst ∧
      (parent = true → r.map (fun a => (a.2.take DIRSIZ).takeWhile (· ≠ 0)) = goal.map Prod.snd) ∧
      CountsRefs s t (r.map Prod.fst) ∧ t.disk = s.disk := by
  cases goal with
  | none =>
    obtain ⟨rfl, ht⟩ := hr
    cases r with
    | some a => exact hsame.elim
    | none => exact ⟨rfl, fun _ => rfl, ⟨fun jp => by simp [ht.ref jp], ht.keep⟩, ht.disk⟩
  | some a =>
    obtain ⟨n, last⟩ := a
    obtain ⟨ip, name, rfl, ht, hname⟩ := hr
    cases r with
    | none => exact hsame.elim
    | some b =>
      obtain ⟨ip', buf⟩ := b
      obtain ⟨rfl, hholds⟩ := hsame
      refine ⟨congrArg some ht.inum, fun hp => ?_, ⟨fun jp => ?_, ht.keep⟩, ht.disk⟩
      · exact congrArg some ((hholds hp).string.trans (hname hp))
      · rw [ht.ref jp]
        simp [eq_comm]

/-- Paths are resolved component by component, if the inodes in which `namex` looks for components
are in use. -/
theorem path_resolution (h : Consistent sb s D) (htree : Tree D s.disk M)
    (hcwd : 0 < (s.itable cwd).ref)
    (hlook : InUseAlong sb D s M (startInum s cwd path) (components path)) (h0 : 0 ∉ path)
    (hbuf : buf.length = DIRSIZ) : elements path buf = components path ∧
    wp (TableShort s) (nameiBuf sb cwd path buf) s (fun r t =>
      r.map (fun ip => (t.itable ip).inum) =
        walk D M (startInum s cwd path) (components path) ∧
      CountsRefs s t r ∧ t.disk = s.disk) ∧
    wp (TableShort s) (nameiparentBuf sb cwd path buf) s (fun r t =>
      r.map (fun a => ((t.itable a.1).inum, (a.2.take DIRSIZ).takeWhile (· ≠ 0))) =
        walkParent D M (startInum s cwd path) (components path) ∧
      CountsRefs s t (r.map Prod.fst) ∧ t.disk = s.disk) := by
  refine ⟨elements_eq h0 hbuf, ?_, ?_⟩
  · rw [nameiBuf, wp_bind]
    refine (namexBuf_refines (namex_spec h htree hcwd hlook) h0 hbuf).mono fun r t
      ⟨r', hr', hsame⟩ => ?_
    obtain ⟨hinum, -, hrefs, hdisk⟩ := hr'.result hsame
    refine ⟨?_, hrefs, hdisk⟩
    rw [Option.map_map]
    refine hinum.trans ?_
    simp only [aim, Bool.false_eq_true, if_false, Option.map_map]
    exact map_id'
  refine (namexBuf_refines (namex_spec h htree hcwd hlook) h0 hbuf).mono fun r t
    ⟨r', hr', hsame⟩ => ?_
  obtain ⟨hinum, hname, hrefs, hdisk⟩ := hr'.result hsame
  refine ⟨?_, hrefs, hdisk⟩
  have hname := hname rfl
  simp only [aim, if_true] at hinum hname
  cases hgoal : walkParent D M (startInum s cwd path) (components path) with
  | none =>
    rw [hgoal] at hinum
    simpa using hinum
  | some a =>
    rw [hgoal] at hinum hname
    cases r with
    | none => cases hinum
    | some b =>
      simp only [map_some, some.injEq] at hinum hname ⊢
      exact Prod.ext hinum hname

section tiny

variable {t : State} {D' : Nat → Dinode} {m : List UInt8 → Option Nat} (h : IsDir tiny 0 m t D')
  (hb : Beside 0 tinyRoot (tinyInodes 1) t D')

include hb

theorem linked_ref (jp : Ip) : (t.itable jp).ref = if jp = 0 then 1 else 0 := by
  rw [hb.itable]
  by_cases hj : jp = 0
  · rw [hj, update_self]
    rfl
  · rw [update_of_ne hj]
    simp [tinyRoot, tinyState, hj]

theorem linked_room (msg : String) : ¬TableShort t msg := fun hs =>
  absurd (hs.2 1 2 (linked_ref hb 1) (linked_ref hb 2)) (by decide)

theorem linked_inum : (t.itable 0).inum = 1 := by
  rw [hb.itable, update_self]
  rfl

include h

/-- The root after an entry has been linked into it. -/
theorem linked_root : (D' 1).type = T_DIR ∧ Tree D' t.disk (fun _ => m) ∧ InUse tiny D' t 1 := by
  have hd : (t.itable 0).d = D' 1 := by
    rw [hb.itable, update_self]
    rfl
  have hroot : ∀ i, (D' i).type = T_DIR → i = 1 := by
    intro i hi
    by_contra hne
    rw [hb.inodes i hne, tinyInodes, if_neg hne] at hi
    split at hi <;> cases hi
  have htype : (D' 1).type = T_DIR := hd ▸ h.type
  refine ⟨htype, ⟨fun i hi => ?_, fun i hi => ?_, fun i hi => ?_⟩, by decide, ?_, .inl ?_⟩
  all_goals try rw [hroot i hi, ← hd]
  · exact h.whole
  · exact h.full
  · exact h.maps
  · rw [htype]
    decide
  · exact hb.nlink ▸ one_ne_zero

omit h hb

/-- In a root directory with the entry `a` for the root itself, `//a` leads to the root, and `a/b`
to the root and the name `b`. -/
theorem path_resolution_tiny : ∃ t, dirlink tiny 0 [97] 1 tinyRoot = .ok (0, t) ∧
    (∃ r t', nameiBuf tiny 0 [47, 47, 97] (replicate DIRSIZ 7) t = .ok (r, t') ∧
      r.map (fun ip => (t'.itable ip).inum) = some 1) ∧
    ∃ r t', nameiparentBuf tiny 0 [97, 47, 98] (replicate DIRSIZ 7) t = .ok (r, t') ∧
      r.map (fun a => ((t'.itable a.1).inum, (a.2.take DIRSIZ).takeWhile (· ≠ 0))) =
        some (1, [98]) := by
  obtain ⟨t, D', hrun, hdir, hb⟩ := tinyRoot_link [97] one_pos (by decide)
  obtain ⟨htype, htree, huse⟩ := linked_root hdir hb
  have hcwd := hdir.ref
  have hbuf : (replicate DIRSIZ (7 : UInt8)).length = DIRSIZ := rfl
  have hstart : ∀ path, startInum t 0 path = 1 := fun path => by
    rw [startInum, linked_inum hb]
    exact ite_self 1
  have h1 : components [47, 47, 97] = [[97]] := by decide
  have h2 : components [97, 47, 98] = [[97], [98]] := by decide
  have hkey : update (fun _ => none) (dirKey [97]) (some 1) (dirKey [97]) = some 1 := update_self ..
  generalize update (fun _ => none) (dirKey [97]) (some 1) = m at htree hkey
  have hone : InUseAlong tiny D' t (fun _ => m) (startInum t 0 [47, 47, 97])
    (components [47, 47, 97]) := by
    rw [hstart, h1]
    exact ⟨huse, fun _ _ _ => trivial⟩
  have htwo : InUseAlong tiny D' t (fun _ => m) (startInum t 0 [97, 47, 98])
    (components [97, 47, 98]) := by
    rw [hstart, h2]
    refine ⟨huse, fun _ n hn => ?_⟩
    obtain rfl := some.inj (hn.symm.trans hkey)
    exact ⟨huse, fun _ _ _ => trivial⟩
  refine ⟨t, hrun, ?_, ?_⟩
  · obtain ⟨r, t', hr, hres, -⟩ := (path_resolution hdir.consistent htree hcwd hone (by decide)
      hbuf).2.1.exists_ok (linked_room hb)
    refine ⟨r, t', hr, hres.trans ?_⟩
    rw [hstart, h1, walk, if_pos htype, hkey]
    rfl
  · obtain ⟨r, t', hr, hres, -⟩ := (path_resolution hdir.consistent htree hcwd htwo (by decide)
      hbuf).2.2.exists_ok (linked_room hb)
    refine ⟨r, t', hr, hres.trans ?_⟩
    simp [hstart, h2, walkParent, walk, htype, hkey]

theorem namexLoop_free {sb : Superblock} {s : State} {D : Nat → Dinode} {ip : Ip} {n : Nat}
    {parent : Bool} {path name elem rest : List UInt8} (h : Walked sb D s ip n t)
    (hskip : skipelem path = some (elem, rest)) (hn : n < sb.ninodes) (hzero : D n = Dinode.zero)
    (href : (s.itable ip).ref = 0) :
    wp (· = "ilock: no type") (namexLoop sb parent ip path name) t fun _ _ => False := by
  have hpos := h.pos
  have hvalid : (t.itable ip).valid = false := by
    rcases h.held with hpos | hvalid | hlink
    · omega
    · exact hvalid
    · exact absurd (hzero ▸ rfl) hlink
  have hread : (t.disk (sb.iblock n)).dinode (64 * (n % IPB)) = Dinode.zero :=
    (h.consistent.stored n hn).trans hzero
  rw [namexLoop_some hskip, wp_bind, ilock, wp_bind, wp_getInode, if_neg (by omega), hvalid,
    if_neg (by simp), wp_bind, wp_bread, h.inum, hread, wp_bind, wp_modInode]
  exact rfl

/-- A directory with an entry `..` for an inode that is free, such as a process has after it has
removed its directory and the parent of that. -/
theorem dotdot_of_removed : ∃ t D' M, dirlink tiny 0 [46, 46] 3 tinyRoot = .ok (0, t) ∧
    Consistent tiny t D' ∧ Tree D' t.disk M ∧ 0 < (t.itable 0).ref ∧
    nameiBuf tiny 0 [46, 46, 47, 120] (replicate DIRSIZ 7) t = .error "ilock: no type" := by
  obtain ⟨t, D', hrun, hdir, hb⟩ := tinyRoot_link [46, 46] (show 0 < 3 by decide) (by decide)
  obtain ⟨htype, htree, huse⟩ := linked_root hdir hb
  have hcwd := hdir.ref
  have hinum := linked_inum hb
  have hskip : skipelem [46, 46, 47, 120] = some ([46, 46], [120]) := by decide
  have hskip' : skipelem [120] = some ([120], []) := by decide
  have hstart : startInum t 0 [46, 46, 47, 120] = 1 := by rw [startInum, hinum]; decide
  refine ⟨t, D', _, hrun, hdir.consistent, htree, hcwd, ?_⟩
  have hpanic : wp (· = "ilock: no type") (namex tiny 0 [46, 46, 47, 120] false) t
      fun _ _ => False := by
    refine namex_start hdir.consistent hcwd
      (fun hall => absurd (hall 1) (by rw [linked_ref hb]; decide)) fun ip t0 name h => ?_
    rw [hstart] at h
    rw [namexLoop_some hskip]
    refine (ilock_locked h.consistent h.pos h.inum huse.lt huse.type).bind fun _ t1 hl => ?_
    have h1 := h.locked huse hl
    rw [wp_bind, wp_getInode, hl.dinode, if_neg (not_not.mpr htype), if_neg (by simp)]
    refine (dirlookup_map (h1.isDir htree hl.valid htype)
      fun hall => absurd (h1.tableShort hall) (linked_room hb _)).bind fun r t2 hr => ?_
    cases r with
    | none =>
      obtain ⟨-, hm⟩ := hr
      rw [update_self] at hm
      cases hm
    | some b =>
      obtain ⟨nxt, off⟩ := b
      obtain ⟨j, k, -, -, hm, hg⟩ := hr
      rw [update_self] at hm
      obtain rfl := some.inj hm
      refine (h1.next hg).bind fun _ t3 h3 => namexLoop_free h3 hskip' (by decide) ?_ ?_
      · rw [hb.inodes 3 (by decide)]
        rfl
      · rw [linked_ref hb, if_neg]
        rintro rfl
        have := h3.keep 0 hcwd
        rw [h3.inum, hinum] at this
        cases this
  have hbuf : wp (· = "ilock: no type") (nameiBuf tiny 0 [46, 46, 47, 120] (replicate DIRSIZ 7))
      t fun _ _ => False := by
    rw [nameiBuf, wp_bind]
    refine (namexBuf_refines hpanic (by decide) rfl).mono ?_
    rintro r t' ⟨r', hfalse, -⟩
    exact hfalse
  unfold wp at hbuf
  split at hbuf
  · exact hbuf.elim
  next msg hmsg => rw [hmsg, hbuf]

end tiny

end resolution

end Xv6.Fs
