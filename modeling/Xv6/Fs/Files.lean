import Xv6.Fs.DirMap
import Xv6.Fs.SharedWrite

/-! Files as strings of bytes: `readi` returns what `writei` has put there. -/

namespace Xv6.Fs

open Function

def files (sb : Superblock) (s : State) (i : Nat) : List UInt8 :=
  (dinodeAt sb s.disk i).content s.disk

def Whole (sb : Superblock) (s : State) : Prop := ∃ D, Consistent sb s D ∧ ∀ i, (D i).Full s.disk

def Held (s : State) (ip : Ip) (i : Nat) : Prop :=
  0 < (s.itable ip).ref ∧ (s.itable ip).valid = true ∧ (s.itable ip).inum = i

variable {sb : Superblock} {s s' : State} {ip : Ip} {D D' : Nat → Dinode}
  {i off readable tot w : Nat} {src : List UInt8}

theorem Consistent.files (h : Consistent sb s D) (hi : i < sb.ninodes) :
    Fs.files sb s i = (D i).content s.disk := by rw [Fs.files, h.stored i hi]

section

variable (h : Written sb i D s ip src readable off D' s' tot w) (hD : ∀ m, (D m).Full s.disk)
  (hoff : off ≤ (D i).size)
include h hD hoff

theorem Written.full (hmax : off + src.length ≤ MAXFILE * BSIZE) (m : Nat) :
    (D' m).Full s'.disk := by
  have := h.stored_le
  by_cases hm : m = i
  · subst hm
    refine h.stored.full (hD m) (by have := (hD m).le; rw [h.size]; omega) fun bn hle hlt => ?_
    rw [h.size] at hlt
    have := h.stored.there (bn * BSIZE - off) (by rw [List.length_take]; omega)
    rwa [Nat.add_sub_cancel' (by omega), Nat.mul_div_cancel _ (by decide)] at this
  · rw [h.stored.same m hm]
    refine ⟨(hD m).le, fun bn hbn => ?_⟩
    have := (hD m).addr bn hbn
    rwa [← h.stored.addr_keep this, h.stored.same m hm] at this

theorem Written.content : let c := (D i).content s.disk
    (D' i).content s'.disk =
      (c.take off ++ src.take w ++ c.drop (off + w)).take (max c.length (off + tot)) := by
  have := h.stored_le
  have hout := fun x hx hlt => h.stored.outside x hx ((hD i).addr _ (Dinode.lt_blocks hlt))
  refine List.ext_getElem (by simp [h.size]; omega) fun x hx _ => ?_
  rw [Dinode.length_content, h.size] at hx
  simp only [Dinode.content, List.getElem_take, List.getElem_append, List.getElem_map,
    List.getElem_range, List.getElem_drop, List.length_append, List.length_take, List.length_map,
    List.length_range] at *
  split_ifs
  · exact hout x (by omega) (by omega)
  · have := h.stored.inside (x - off) src[x - off] (by grind)
    grind
  · grind

end

/-- A read returns the bytes of the file, and a write puts its bytes there and changes no other
file; more of them than it returns if the source ends inside of a block. A write is a chunk of
`filewrite`, in a transaction of its own: the calls of `log_write`, which the model leaves out, then
log at most four blocks of data, five of the bitmap, the indirect block and the block of the inode,
fewer than `LOGBLOCKS`. -/
theorem files_are_strings (h : Whole sb s) (hip : Held s ip i) :
    let c := files sb s i
    (∀ off n, off + n < 2 ^ 32 → wp (fun _ => False) (readi sb ip n off n) s fun r s' => s' = s ∧
      r.2 = (c.drop off).take n ∧ r.1 = r.2.length) ∧
    ∀ src readable off, src.length ≤ MAXCHUNK →
      wp (fun _ => False) (writei sb ip src readable off) s fun r s' =>
        Whole sb s' ∧ (∀ jp j, Held s' jp j ↔ Held s jp j) ∧
        (r = -1 ∧ s' = s ∧ (c.length < off ∨ MAXFILE * BSIZE < off + src.length) ∨
        ∃ tot w : Nat, r = tot ∧ (tot ≤ w ∧ w ≤ src.length) ∧
          (w = tot ∨ w = readable ∧ readable < src.length) ∧
          (tot < src.length → readable < src.length ∨ ∀ b < sb.size, bit sb s'.disk b = true) ∧
          ∀ j < sb.ninodes, files sb s' j = update (files sb s) i
            ((c.take off ++ src.take w ++ c.drop (off + w)).take (max c.length (off + tot)))
            j) := by
  obtain ⟨D, hc, hD⟩ := h
  obtain ⟨href, hvalid, rfl⟩ := hip
  obtain ⟨hi, hd⟩ := hc.cached ip href hvalid
  dsimp only
  rw [hc.files hi, Dinode.length_content]
  refine ⟨fun off n hn => ?_, fun src readable off hsrc => ?_⟩
  · refine (readi_spec hd ((hD _).mono (min_le_right _ _)) hn (by omega)).mono ?_
    rintro r s' ⟨rfl, rfl⟩
    simp
  have hchunk : MAXCHUNK < 2 ^ 32 := by decide
  refine (writei_spec hc href hvalid rfl (hD _).le (by omega)).mono ?_
  rintro r s' (⟨rfl, rfl, hbad⟩ | ⟨hoff, hmax, tot, D', w, rfl, hw⟩)
  · exact ⟨⟨D, hc, hD⟩, fun _ _ => .rfl, .inl ⟨rfl, rfl, hbad⟩⟩
  refine ⟨⟨D', hw.consistent, hw.full hD hoff hmax⟩, fun jp j => ?_,
    .inr ⟨tot, w, rfl, hw.stored_le, hw.junk, hw.early, fun j hj => ?_⟩⟩
  · simp only [Held, hw.itable, update_apply]
    split_ifs with hjp <;> simp [hjp]
  rw [hw.consistent.files hj]
  by_cases hne : j = (s.itable ip).inum
  · subst hne
    rw [update_self, hw.content hD hoff, Dinode.length_content]
  · rw [update_of_ne hne, hc.files hj, hw.stored.same j hne]
    exact Dinode.content_congr rfl fun x hx =>
      hw.stored.files j hne x ((hD j).addr _ (Dinode.lt_blocks hx))

/-- The tiny disk with its file open: inode 2, of one block. -/
def tinyFile : State := tinyState 1 ⟨2, 1, true, tinyInodes 1 2⟩

theorem tinyFile_consistent : Consistent tiny tinyFile (tinyInodes 1) :=
  tiny_consistent (by decide) fun _ => ⟨by decide, rfl⟩

theorem tinyFile_whole : Whole tiny tinyFile := by
  refine ⟨_, tinyFile_consistent, fun i => ⟨?_, fun bn hbn => ?_⟩⟩
  · simp only [tinyInodes]
    split_ifs <;> decide
  · rw [Dinode.lt_blocks_iff] at hbn
    refine (tiny_slot 1 (i, Dinode.slotOf bn)).trans_ne ?_
    simp only [tinyInodes] at hbn
    split_ifs at hbn <;> simp_all [BSIZE, Dinode.slotOf, Dinode.zero]

/-- A byte is written at the start of the file, and nine are read back. -/
theorem files_are_strings_tiny : ∃ t, writei tiny 0 [65] 1 0 tinyFile = .ok (1, t) ∧
    readi tiny 0 9 0 9 t = .ok ((9, 65 :: ((files tiny tinyFile 2).drop 1).take 8), t) := by
  have hfits : wp (fun _ => False) (writei tiny 0 [65] 1 0) tinyFile _ :=
    writei_fits tinyFile_consistent (by decide) rfl rfl (by decide) (by decide) (by decide)
      (by decide) (by decide) le_rfl (by decide)
  obtain ⟨_, t, hwrite, rfl⟩ := hfits.exists_ok fun _ => id
  have hheld : Held tinyFile 0 2 := ⟨by decide, rfl, rfl⟩
  have hspec := (files_are_strings tinyFile_whole hheld).2 [65] 1 0 (by decide)
  obtain ⟨hwhole, hheld', ⟨hbad, -⟩ | ⟨tot, w, htot, hle, -, -, hfiles⟩⟩ := hspec.of_ok hwrite
  · exact absurd hbad (by decide)
  obtain rfl : tot = 1 := by simpa using htot.symm
  obtain rfl : w = 1 := le_antisymm hle.2 hle.1
  have hread := (files_are_strings hwhole ((hheld' 0 2).mpr hheld)).1 0 9 (by decide)
  obtain ⟨⟨n, bytes⟩, t', hrun, rfl, hbytes, hn⟩ := hread.exists_ok fun _ => id
  -- Over any contents, for what the disk holds is not to be evaluated.
  have hany : ∀ c : List UInt8, c.length = 1024 →
      files tiny t' 2 = (c.take 0 ++ [65] ++ c.drop 1).take (max c.length 1) →
      readi tiny 0 9 0 9 t' = .ok ((9, 65 :: (c.drop 1).take 8), t') := by
    intro c hlen hfile
    rw [List.take_of_length_le (by simp [hlen])] at hfile
    rw [hfile] at hbytes
    obtain rfl : bytes = 65 :: (c.drop 1).take 8 := hbytes
    obtain rfl : n = 9 := by simpa [hlen] using hn
    exact hrun
  refine ⟨t', hwrite, hany _ ?_ ((hfiles 2 (by decide)).trans (update_self _ _ _))⟩
  rw [tinyFile_consistent.files (by decide), Dinode.length_content]
  rfl

end Xv6.Fs
