import Xv6.Fs.Dir
import Xv6.Mkfs.Inodes

/-! What `main` puts in the image: the root directory with its entries and the contents of the
files. -/

namespace Xv6.Mkfs

open Function Fs List
open Fs.Dinode (blocks slotOf)

/-- The entries of the files in the root directory, if the first has inode `k`. -/
def entries : Nat → List File → List UInt8
  | _, [] => []
  | k, f :: fs => dirent k f.shortname ++ entries (k + 1) fs

/-- The contents with one more file, in inode `k`. -/
def withFile (k : Nat) (f : File) (c : Nat → List UInt8) : Nat → List UInt8 :=
  let c := update c ROOTINO (c ROOTINO ++ dirent k f.shortname)
  update c k (c k ++ f.chunks.flatten)

/-- The contents with more files, from inode `k` on. -/
def withFiles : Nat → List File → (Nat → List UInt8) → Nat → List UInt8
  | _, [], c => c
  | k, f :: fs, c => withFiles (k + 1) fs (withFile k f c)

/-- The types with `n` more files, from inode `k` on. -/
def withTypes (k n : Nat) (t : Nat → Nat) (i : Nat) : Nat :=
  if k ≤ i ∧ i < k + n then T_FILE else t i

def rootOnly : Nat → List UInt8 :=
  update (fun _ => []) ROOTINO (dirent ROOTINO dot ++ dirent ROOTINO dotdot)

/-- The checks that `main` makes of a file name. -/
def File.Valid (f : File) : Prop := 47 ∉ f.base ∧ f.shortname.length ≤ DIRSIZ

instance (f : File) : Decidable f.Valid := inferInstanceAs (Decidable (_ ∧ _))

variable {E : String → Prop} {s : State} {t : Nat → Nat} {c : Nat → List UInt8} {i k : Nat}
  {f : File} {fs : List File}

theorem withFile_root (hk : k ≠ ROOTINO) :
    withFile k f c ROOTINO = c ROOTINO ++ dirent k f.shortname := by
  simp [withFile, update_of_ne hk.symm]

theorem withFile_self (hk : k ≠ ROOTINO) : withFile k f c k = c k ++ f.chunks.flatten := by
  simp [withFile, update_of_ne hk]

theorem withFile_ne (hi : i ≠ ROOTINO) (hk : i ≠ k) : withFile k f c i = c i := by
  simp [withFile, update_of_ne hi, update_of_ne hk]

theorem length_le_update (c : Nat → List UInt8) (k : Nat) (p : List UInt8) (i : Nat) :
    (c i).length ≤ (update c k (c k ++ p) i).length := by
  rcases eq_or_ne i k with rfl | hi
  · simp
  · rw [update_of_ne hi]

theorem length_le_withFile (k : Nat) (f : File) (c : Nat → List UInt8) (i : Nat) :
    (c i).length ≤ (withFile k f c i).length :=
  le_trans (length_le_update c ROOTINO _ i) (length_le_update _ k _ i)

theorem length_le_withFiles (c : Nat → List UInt8) (i : Nat) :
    (c i).length ≤ (withFiles k fs c i).length := by
  induction fs generalizing k c with
  | nil => exact le_rfl
  | cons f fs ih => exact le_trans (length_le_withFile k f c i) (ih _)

theorem withFiles_root (hk : ROOTINO < k) :
    withFiles k fs c ROOTINO = c ROOTINO ++ entries k fs := by
  induction fs generalizing k c with
  | nil => simp [withFiles, entries]
  | cons f fs ih =>
    rw [withFiles, ih (by omega), withFile_root (by omega), entries, append_assoc]

theorem withFiles_lt (hi : i ≠ ROOTINO) (hk : i < k) : withFiles k fs c i = c i := by
  induction fs generalizing k c with
  | nil => rfl
  | cons f fs ih => rw [withFiles, ih (by omega), withFile_ne hi (by omega)]

theorem withFiles_file (hk : ROOTINO < k) {j : Nat} (hj : j < fs.length) (hc : c (k + j) = []) :
    withFiles k fs c (k + j) = fs[j].chunks.flatten := by
  induction fs generalizing k c j with
  | nil => cases hj
  | cons f fs ih =>
    cases j with
    | zero =>
      rw [withFiles, withFiles_lt (by omega) (by omega)]
      show withFile k f c k = _
      rw [withFile_self (by omega)]
      exact congrArg (· ++ _) hc
    | succ j =>
      rw [withFiles, show k + (j + 1) = k + 1 + j by omega]
      refine ih (by omega) (Nat.lt_of_succ_lt_succ hj) ?_
      rw [withFile_ne (by omega) (by omega), show k + 1 + j = k + (j + 1) by omega, hc]

theorem length_entries : (entries k fs).length = 16 * fs.length := by
  induction fs generalizing k with
  | nil => rfl
  | cons f fs ih =>
    rw [entries, length_append, length_dirent, ih, length_cons]
    omega

theorem appendAll_spec {bufs : List (List UInt8)} (h : Holds s t c) (hi : i < NINODES)
    (hused : i < s.freeinode) (hfit : Fit E (update c i (c i ++ bufs.flatten))) :
    wp E (appendAll i bufs) s fun _ s' => Holds s' t (update c i (c i ++ bufs.flatten)) ∧
      s'.freeinode = s.freeinode := by
  induction bufs generalizing s c with
  | nil =>
    rw [appendAll, wp_pure, flatten_nil, append_nil, update_eq_self]
    exact ⟨h, rfl⟩
  | cons buf bufs ih =>
    rw [flatten_cons, ← append_assoc] at hfit ⊢
    rw [appendAll]
    refine (iappend_spec h hi hused (hfit.mono fun j => ?_)).bind fun _ s' ⟨hs', hfi⟩ => ?_
    · rcases eq_or_ne j i with rfl | hj
      · simp only [update_self, length_append]
        omega
      · rw [update_of_ne hj, update_of_ne hj]
    · have hrest := ih hs' (by rwa [hfi]) (by rwa [update_self, update_idem])
      rw [update_self, update_idem] at hrest
      exact hrest.mono fun _ t ⟨ht, hfi'⟩ => ⟨ht, hfi'.trans hfi⟩

theorem addFile_spec (h : Holds s t c) (hroot : ROOTINO < s.freeinode)
    (hi : s.freeinode < NINODES) (hvalid : (∀ msg, E msg) ∨ f.Valid)
    (hfit : Fit E (withFile s.freeinode f c)) :
    wp E (addFile f) s fun _ s' => Holds s' (update t s.freeinode T_FILE)
      (withFile s.freeinode f c) ∧ s'.freeinode = s.freeinode + 1 := by
  unfold addFile
  by_cases hslash : 47 ∈ f.base
  · rw [if_pos hslash, wp_panic]
    exact (hvalid.resolve_right fun hv => hv.1 hslash) _
  rw [if_neg hslash]
  by_cases hlen : DIRSIZ < f.shortname.length
  · rw [if_pos hlen, wp_panic]
    exact (hvalid.resolve_right fun hv => absurd hv.2 (by omega)) _
  rw [if_neg hlen]
  refine (ialloc_spec h hi (by decide)).bind fun i s₁ ⟨hin, h₁, hfi₁⟩ => ?_
  subst hin
  refine (iappend_spec h₁ (by decide) (by omega)
    (hfit.mono (length_le_update _ _ _))).bind fun _ s₂ ⟨h₂, hfi₂⟩ => ?_
  refine (appendAll_spec h₂ hi (by omega) hfit).mono fun _ s₃ ⟨h₃, hfi₃⟩ => ⟨h₃, ?_⟩
  omega

theorem addFiles_spec (h : Holds s t c) (hroot : ROOTINO < s.freeinode)
    (hi : s.freeinode + fs.length ≤ NINODES) (hvalid : ∀ f ∈ fs, (∀ msg, E msg) ∨ f.Valid)
    (hfit : Fit E (withFiles s.freeinode fs c)) :
    wp E (addFiles fs) s fun _ s' => Holds s' (withTypes s.freeinode fs.length t)
      (withFiles s.freeinode fs c) ∧ s'.freeinode = s.freeinode + fs.length := by
  induction fs generalizing s t c with
  | nil =>
    have ht : withTypes s.freeinode 0 t = t := by
      funext i
      exact if_neg (by omega)
    rw [addFiles, wp_pure, length_nil, ht]
    exact ⟨h, rfl⟩
  | cons f fs ih =>
    rw [length_cons] at hi
    rw [addFiles]
    refine (addFile_spec h hroot (by omega) (hvalid f mem_cons_self)
      (hfit.mono (length_le_withFiles _))).bind fun _ s₁ ⟨h₁, hfi⟩ => ?_
    have hrest := ih h₁ (by omega) (by omega) (fun g hg => hvalid g (mem_cons_of_mem _ hg))
      (by rwa [hfi])
    rw [hfi] at hrest
    refine hrest.mono fun _ s₂ ⟨h₂, hfi₂⟩ => ⟨?_, by rw [length_cons]; omega⟩
    have ht : withTypes (s.freeinode + 1) fs.length (update t s.freeinode T_FILE) =
        withTypes s.freeinode (f :: fs).length t := by
      funext i
      unfold withTypes
      rw [length_cons]
      rcases eq_or_ne i s.freeinode with rfl | hne
      · rw [if_neg (by omega), if_pos (by omega), update_self]
      · rw [update_of_ne hne]
        congr 1
        simp only [eq_iff_iff]
        omega
    rwa [← ht]

def rootType : Nat → Nat := update (fun _ => 0) ROOTINO T_DIR

theorem makeRoot_spec (hfit : Fit E rootOnly) :
    wp E makeRoot blank fun _ s' => Holds s' rootType rootOnly ∧ s'.freeinode = 2 := by
  unfold makeRoot
  refine (ialloc_spec blank_holds (by decide) (by decide)).bind fun i s₁ ⟨hin, h₁, hfi₁⟩ => ?_
  subst hin
  have hfree : blank.freeinode = ROOTINO := rfl
  rw [hfree] at h₁ hfi₁ ⊢
  rw [if_neg (by decide)]
  refine (iappend_spec h₁ (by decide) (by omega)
    (hfit.mono fun j => ?_)).bind fun _ s₂ ⟨h₂, hfi₂⟩ => ?_
  · unfold rootOnly
    rcases eq_or_ne j ROOTINO with rfl | hj
    · simp only [update_self, nil_append, length_append]
      omega
    · rw [update_of_ne hj, update_of_ne hj]
  · have hroot : update (update (fun _ => []) ROOTINO ([] ++ dirent ROOTINO dot)) ROOTINO
        (update (fun _ => []) ROOTINO ([] ++ dirent ROOTINO dot) ROOTINO ++
          dirent ROOTINO dotdot) = rootOnly := by
      rw [update_idem, update_self, nil_append, rootOnly]
    have hlast := iappend_spec (p := dirent ROOTINO dotdot) h₂ (i := ROOTINO) (by decide)
      (by omega) (by rw [hroot]; exact hfit)
    rw [hroot] at hlast
    refine hlast.mono fun _ s₃ ⟨h₃, hfi₃⟩ => ⟨h₃, ?_⟩
    rw [hfi₃, hfi₂, hfi₁]

end Xv6.Mkfs
