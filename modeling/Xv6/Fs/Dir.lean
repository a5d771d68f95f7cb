import Xv6.Fs.Read

/-! Directories: names as they are stored and compared, and what `dirlookup` finds. -/

namespace Xv6.Fs

open Function List

theorem strncpy_succ (p : List UInt8) (n : Nat) :
    strncpy p (n + 1) = p.headD 0 :: strncpy (if p.headD 0 = 0 then [] else p.tail) n := by
  cases p <;> rfl

@[simp] theorem length_strncpy (p : List UInt8) (n : Nat) : (strncpy p n).length = n := by
  induction n generalizing p with
  | zero => cases p <;> rfl
  | succ n ih => rw [strncpy_succ, length_cons, ih]

@[simp] theorem length_dirent (inum : Nat) (name : List UInt8) :
    (dirent inum name).length = 16 := by
  simp [dirent]

/-- `strncmp` compares what `strncpy` would store. -/
theorem strncmp_eq_zero {n : Nat} {p q : List UInt8} :
    strncmp n p q = 0 ↔ strncpy p n = strncpy q n := by
  induction n generalizing p q with
  | zero => cases p <;> cases q <;> simp [strncmp, strncpy]
  | succ n ih =>
    rw [strncmp, strncpy_succ, strncpy_succ, cons.injEq]
    by_cases heq : p.headD 0 = q.headD 0
    · by_cases h0 : p.headD 0 = 0
      · have h0' : q.headD 0 = 0 := by rw [← heq, h0]
        rw [if_neg fun h => h.1 h0, h0, h0', if_pos rfl]
        simp
      · rw [if_pos ⟨h0, heq⟩, ih, if_neg h0, if_neg (by rwa [← heq])]
        simp only [heq, true_and]
    · rw [if_neg fun h => heq h.2]
      have hne : (p.headD 0).toNat ≠ (q.headD 0).toNat := fun h => heq (UInt8.toNat_inj.mp h)
      constructor
      · intro h
        omega
      · intro h
        exact absurd h.1 heq

theorem strncpy_strncpy (p : List UInt8) (n : Nat) : strncpy (strncpy p n) n = strncpy p n := by
  induction n generalizing p with
  | zero => cases p <;> rfl
  | succ n ih =>
    rw [strncpy_succ p, strncpy_succ, headD_cons, tail_cons]
    split
    · rfl
    · rw [ih]

theorem strncpy_eq {p : List UInt8} {n : Nat} (hp : 0 ∉ p) (hn : p.length ≤ n) :
    strncpy p n = p ++ replicate (n - p.length) 0 := by
  induction n generalizing p with
  | zero =>
    obtain rfl : p = [] := length_eq_zero_iff.mp (Nat.le_zero.mp hn)
    rfl
  | succ n ih =>
    cases p with
    | nil =>
      rw [strncpy, ih (by simp) (by simp)]
      rfl
    | cons c p =>
      rw [mem_cons, not_or] at hp
      rw [strncpy, if_neg (Ne.symm hp.1), ih hp.2 (Nat.le_of_succ_le_succ hn), length_cons,
        Nat.succ_sub_succ, cons_append]

theorem takeWhile_replicate {p : List UInt8} (hp : 0 ∉ p) (m : Nat) :
    (p ++ replicate m 0).takeWhile (· ≠ 0) = p := by
  induction p with
  | nil => cases m <;> rfl
  | cons c p ih =>
    rw [mem_cons, not_or] at hp
    rw [cons_append, takeWhile_cons_of_pos (by simpa using Ne.symm hp.1), ih hp.2]

/-- Names of at most `DIRSIZ` bytes are compared in full. -/
theorem namecmp_eq_zero {p q : List UInt8} (hp : 0 ∉ p) (hp' : p.length ≤ DIRSIZ) (hq : 0 ∉ q)
    (hq' : q.length ≤ DIRSIZ) : namecmp p q = 0 ↔ p = q := by
  rw [namecmp, strncmp_eq_zero, strncpy_eq hp hp', strncpy_eq hq hq']
  constructor
  · intro h
    rw [← takeWhile_replicate hp, h, takeWhile_replicate hq]
  · rintro rfl
    rfl

theorem namecmp_strncpy (p q : List UInt8) :
    namecmp p (strncpy q DIRSIZ) = 0 ↔ namecmp p q = 0 := by
  rw [namecmp, namecmp, strncmp_eq_zero, strncmp_eq_zero, strncpy_strncpy]

@[simp] theorem drop_dirent (inum : Nat) (name : List UInt8) :
    (dirent inum name).drop 2 = strncpy name DIRSIZ := rfl

theorem direntInum_dirent {inum : Nat} (h : inum < 2 ^ 16) (name : List UInt8) :
    direntInum (dirent inum name) = inum := by
  show (UInt8.ofNat inum).toNat + 256 * (UInt8.ofNat (inum / 256)).toNat = inum
  rw [UInt8.toNat_ofNat', UInt8.toNat_ofNat']
  omega

/-- The `j`th `struct dirent` of a directory. -/
def Dinode.entry (d : Dinode) (disk : Disk) (j : Nat) : List UInt8 :=
  ((d.content disk).drop (16 * j)).take 16

/-- The entry is in use and has the name. -/
def Named (name de : List UInt8) : Prop := direntInum de ≠ 0 ∧ namecmp name (de.drop 2) = 0

variable {E : String → Prop} {sb : Superblock} {s : State} {dp : Ip} {d : Dinode} {j : Nat}
  {name : List UInt8}

theorem readi_entry (hd : (s.itable dp).d = d) (hthere : d.There s.disk (16 * (j + 1)))
    (hsize : 16 * (j + 1) ≤ d.size) :
    wp E (readi sb dp 16 (16 * j) 16) s fun r s' => s' = s ∧ r = (16, d.entry s.disk j) := by
  have hmax : MAXFILE * BSIZE < 2 ^ 32 := by decide
  have hle := hthere.le
  refine (readi_spec hd (hthere.mono (by omega)) (by omega) (by omega)).mono
    fun r s' ⟨hs, hr⟩ => ⟨hs, ?_⟩
  rw [hr, show min 16 (d.size - 16 * j) = 16 by omega]
  rfl

theorem dirscan_first (hd : (s.itable dp).d = d) (hthere : d.There s.disk (16 * (j + 1)))
    (hsize : 16 * (j + 1) ≤ d.size) (hnamed : Named name (d.entry s.disk j))
    (hfirst : ∀ i < j, ¬Named name (d.entry s.disk i)) :
    wp E (dirscan sb dp name) s fun r s' => s' = s ∧
      r = some (direntInum (d.entry s.disk j), 16 * j) := by
  rw [dirscan, wp_bind, wp_getInode, hd]
  refine (wp_search (Q := fun a s' => s' = s ∧ a = (direntInum (d.entry s.disk j), 16 * j))
    (fun i s' => s' = s ∧ i ≤ j) ⟨rfl, Nat.zero_le _⟩ fun i s' _ _ ⟨hs, hi⟩ => ?_).mono
    fun r s' hr => ?_
  · subst hs
    refine (readi_entry hd (hthere.mono (by omega)) (by omega)).bind fun r s'' ⟨hs, hr⟩ => ?_
    subst hs hr
    dsimp only
    rw [if_neg (by decide)]
    rcases lt_or_eq_of_le hi with hlt | rfl
    · by_cases hzero : direntInum (d.entry s''.disk i) = 0
      · rw [if_pos hzero]
        exact ⟨rfl, hlt⟩
      · rw [if_neg hzero, if_neg fun h => hfirst i hlt ⟨hzero, h⟩]
        exact ⟨rfl, hlt⟩
    · rw [if_neg hnamed.1, if_pos hnamed.2]
      exact ⟨rfl, rfl⟩
  · cases r with
    | some a => exact ⟨hr.1, congrArg some hr.2⟩
    | none =>
      have := hr.2
      omega

theorem iget_spec {inum : Nat} {jp : Ip} (hfree : (s.itable jp).ref = 0) :
    wp E (iget inum) s fun ip s' => s'.disk = s.disk ∧ (s'.itable ip).inum = inum ∧
      0 < (s'.itable ip).ref := by
  rw [iget, wp_bind, wp_get]
  cases hfind : (finRange NINODE).find? fun ip =>
      0 < (s.itable ip).ref ∧ (s.itable ip).inum = inum with
  | some ip =>
    have := find?_some hfind
    simp only [Bool.decide_and, Bool.and_eq_true, decide_eq_true_eq] at this
    rw [wp_bind, wp_modInode, wp_pure]
    refine ⟨rfl, ?_, ?_⟩
    · simp only [update_self]
      exact this.2
    · simp only [update_self]
      exact Nat.succ_pos _
  | none =>
    cases hfind' : (finRange NINODE).find? fun ip => (s.itable ip).ref = 0 with
    | none =>
      rw [find?_eq_none] at hfind'
      exact absurd hfree (by simpa using hfind' jp (mem_finRange jp))
    | some ip =>
      rw [wp_bind, wp_modInode, wp_pure]
      refine ⟨rfl, ?_, ?_⟩
      · simp
      · simp only [update_self]
        exact one_pos

/-- `dirlookup` returns the first entry that has the name. -/
theorem dirlookup_first {jp : Ip} (htype : (s.itable dp).d.type = T_DIR)
    (hfree : (s.itable jp).ref = 0) (hd : (s.itable dp).d = d)
    (hthere : d.There s.disk (16 * (j + 1))) (hsize : 16 * (j + 1) ≤ d.size)
    (hnamed : Named name (d.entry s.disk j))
    (hfirst : ∀ i < j, ¬Named name (d.entry s.disk i)) :
    wp E (dirlookup sb dp name) s fun r s' => s'.disk = s.disk ∧ ∃ ip, r = some (ip, 16 * j) ∧
      (s'.itable ip).inum = direntInum (d.entry s.disk j) ∧ 0 < (s'.itable ip).ref := by
  rw [dirlookup, wp_bind, wp_getInode, if_neg (by simpa using htype)]
  refine (dirscan_first hd hthere hsize hnamed hfirst).bind fun r s' ⟨hs, hr⟩ => ?_
  subst hs hr
  refine (iget_spec hfree).bind fun ip s'' ⟨hdisk, hinum, href⟩ => ?_
  exact ⟨hdisk, ip, rfl, hinum, href⟩

theorem ilock_read {inum : Nat} (hinum : (s.itable dp).inum = inum) (href : 0 < (s.itable dp).ref)
    (hvalid : (s.itable dp).valid = false) (htype : (dinodeAt sb s.disk inum).type ≠ 0) :
    wp E (ilock sb dp) s fun _ s' => s'.disk = s.disk ∧
      (s'.itable dp).d = dinodeAt sb s.disk inum ∧ ∀ ip ≠ dp, s'.itable ip = s.itable ip := by
  rw [ilock, wp_bind, wp_getInode, if_neg (by omega), hvalid]
  simp only [Bool.false_eq_true, if_false, wp_bind, wp_bread, wp_modInode, hinum]
  rw [dinodeAt] at htype ⊢
  rw [if_neg htype]
  exact ⟨rfl, by simp only [update_self], fun ip hip => update_of_ne hip _ _⟩

end Xv6.Fs
