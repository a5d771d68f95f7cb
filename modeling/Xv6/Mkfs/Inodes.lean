import Xv6.Lib.Own
import Xv6.Mkfs.Append

/-! The inodes in the image: which contents and types they have after calls of `ialloc` and
`iappend`, and how many blocks they take. -/

namespace Xv6.Mkfs

open Function Fs Finset
open Fs.Dinode (blocks slotOf blocks_mono)

def inodes (img : Disk) (i : Nat) : Dinode := if i < NINODES then dinodeAt sb img i else Dinode.zero

theorem zero_fits : Dinode.zero.Fits :=
  ⟨by decide, by decide, by decide, by decide, by decide, fun _ => by simp [Dinode.zero],
    fun _ _ => rfl⟩

theorem inodes_fits (img : Disk) (i : Nat) : (inodes img i).Fits := by
  unfold inodes
  split
  · exact Block.dinode_fits _ _
  · exact zero_fits

theorem iblock_lt {i : Nat} (hi : i < NINODES) : sb.iblock i < nmeta := sb.iblock_lt_nmeta hi

theorem one_ne_iblock (i : Nat) : 1 ≠ sb.iblock i :=
  Nat.ne_of_lt (Nat.lt_of_lt_of_le (show 1 < sb.inodestart by decide) (Nat.le_add_left _ _))

def total (c : Nat → List UInt8) : Nat := ∑ i ∈ range NINODES, cost (blocks (c i).length)

/-- The image has inodes of types `t` with contents `c`. -/
structure Holds (s : State) (t : Nat → Nat) (c : Nat → List UInt8) : Prop where
  image : Image (inodes s.img) s.img s.freeblock (fun i => blocks (c i).length) c
  type : ∀ i, (inodes s.img i).type = t i
  size : ∀ i, (inodes s.img i).size = (c i).length
  free : s.freeblock = nmeta + total c
  unused : ∀ i, s.freeinode ≤ i → c i = []
  sup : s.img 1 = sbBlock

def Fit (E : String → Prop) (c : Nat → List UInt8) : Prop :=
  (∀ msg, E msg) ∨ (∀ i < NINODES, (c i).length ≤ MAXFILE * BSIZE) ∧ nmeta + total c ≤ FSSIZE

variable {E : String → Prop} {s : State} {t : Nat → Nat} {c c' : Nat → List UInt8} {i : Nat}
  {p : List UInt8} {d : Dinode}

theorem Fit.mono (h : Fit E c') (hle : ∀ i, (c i).length ≤ (c' i).length) : Fit E c := by
  refine h.imp id fun ⟨hlen, htotal⟩ => ⟨fun i hi => le_trans (hle i) (hlen i hi), ?_⟩
  have : total c ≤ total c' := sum_le_sum fun i _ => cost_mono (blocks_mono (hle i))
  omega

theorem total_append (c : Nat → List UInt8) (hi : i < NINODES) (p : List UInt8) :
    total (update c i (c i ++ p)) + cost (blocks (c i).length) =
      total c + cost (blocks ((c i).length + p.length)) := by
  have h := sum_add_of_ne (mem_range.mpr hi)
    (f := fun j => cost (blocks (update c i (c i ++ p) j).length))
    (g := fun j => cost (blocks (c j).length)) fun j hj => by rw [update_of_ne hj]
  simpa only [update_self, List.length_append, total] using h

namespace Image

variable {D D' : Nat → Dinode} {disk disk' : Disk} {free : Nat} {nb : Nat → Nat}

theorem congr (h : Image D disk free nb c) (hD : ∀ i, (D' i).addrs = (D i).addrs)
    (hdisk : ∀ b, nmeta ≤ b → disk' b = disk b) : Image D' disk' free nb c := by
  have hind : ∀ i, (D' i).addrs NDIRECT ≠ 0 →
      disk' ((D' i).addrs NDIRECT) = disk ((D' i).addrs NDIRECT) := by
    intro i hne
    refine hdisk _ ?_
    have hslot : slot D disk (i, NDIRECT) = (D' i).addrs NDIRECT := by
      rw [hD]
      exact Dinode.slot_addrs le_rfl
    have := (h.slot_lt (p := (i, NDIRECT)) (by rwa [hslot])).1
    rwa [hslot] at this
  have hslot : slot D' disk' = slot D disk := by
    rw [slot_congr hind]
    funext p
    simp [slot, Dinode.slot, hD]
  have haddr : ∀ i bn, (D' i).addr disk' bn = (D i).addr disk bn := fun i bn =>
    congrFun hslot (i, slotOf bn)
  refine ⟨by rw [hslot]; exact h.tracks, h.lo, h.hi, fun b hb => ?_, fun i bn => ?_, fun i => ?_,
    fun i j hj => ?_⟩
  · rw [hdisk b (le_trans h.lo hb)]
    exact h.blank b hb
  · rw [haddr]
    exact h.addr i bn
  · rw [hD]
    exact h.indirect i
  · have hlt := h.addr_lt ((Nat.div_lt_iff_lt_mul (by decide)).mpr hj)
    have := h.byte i j hj
    rwa [Dinode.byte, haddr, hdisk _ hlt.1]

end Image

theorem winode_spec (hi : i < NINODES) (hd : d.Fits) :
    wp E (winode i d) s fun _ s' => inodes s'.img = update (inodes s.img) i d ∧
      (∀ b, b ≠ sb.iblock i → s'.img b = s.img b) ∧ s'.freeblock = s.freeblock ∧
      s'.freeinode = s.freeinode := by
  have hlt := iblock_lt hi
  rw [winode, wp_bind, wp_rsect (lt_trans hlt (by decide)), wp_wsect]
  refine ⟨?_, fun b hb => update_of_ne hb _ _, rfl, rfl⟩
  have hstore : dinodeAt sb (update s.img (sb.iblock i) _) = _ := dinodeAt_store hd i
  funext j
  rcases eq_or_ne j i with rfl | hj
  · rw [inodes, if_pos hi, hstore, update_self, update_self]
  · rw [update_of_ne hj, inodes, hstore, update_of_ne hj, inodes]

theorem rinode_spec (hi : i < NINODES) :
    wp E (rinode i) s fun d s' => s' = s ∧ d = inodes s.img i := by
  have hlt := iblock_lt hi
  rw [rinode, wp_bind, wp_rsect (lt_trans hlt (by decide)), wp_pure]
  refine ⟨rfl, ?_⟩
  rw [inodes, if_pos hi]
  rfl

theorem Image.lt_max {D : Nat → Dinode} {disk : Disk} {free : Nat}
    (h : Image D disk free (fun i => blocks (c i).length) c) (i : Nat) :
    (c i).length < 2 ^ 32 := by
  have := h.nb_le i
  simp only [blocks, BSIZE, MAXFILE, NDIRECT, NINDIRECT] at this
  omega

theorem iappend_spec (h : Holds s t c) (hi : i < NINODES) (hused : i < s.freeinode)
    (hfit : Fit E (update c i (c i ++ p))) :
    wp E (iappend i p) s fun _ s' => Holds s' t (update c i (c i ++ p)) ∧
      s'.freeinode = s.freeinode := by
  have htotal := total_append c hi p
  have hfree := h.free
  unfold iappend
  refine (rinode_spec hi).bind ?_
  rintro d s' ⟨hs, hd⟩
  subst hs hd
  rw [h.size i]
  refine (iappendLoop_spec h.image rfl ?_).bind fun r s₁ hr => ?_
  · refine hfit.imp id fun hfit => ⟨?_, by omega⟩
    have := hfit.1 i hi
    rwa [update_self, List.length_append] at this
  obtain ⟨a, ha, hrest⟩ := hr.addrs
  have hnb : update (fun i => blocks (c i).length) i (blocks ((c i).length + p.length)) =
      fun j => blocks (update c i (c i ++ p) j).length := by
    funext j
    rcases eq_or_ne j i with rfl | hj
    · rw [update_self, update_self, List.length_append]
    · rw [update_of_ne hj, update_of_ne hj]
  have himage := hr.image
  rw [hnb] at himage
  have hinodes : inodes s₁.img = inodes s'.img := by
    funext j
    unfold inodes
    split
    · rename_i hj
      rw [dinodeAt, hr.low _ (iblock_lt hj), dinodeAt]
    · rfl
  have hfits : ({ r.1 with size := r.2 } : Dinode).Fits := by
    have hold := inodes_fits s'.img i
    have hlen := himage.lt_max i
    rw [update_self, List.length_append, ← hr.size] at hlen
    have haddrs : ∀ k, NDIRECT < k → r.1.addrs k = 0 := fun k hk => by
      rw [ha]
      exact (hrest k hk).trans (hold.rest k hk)
    refine ⟨?_, ?_, ?_, ?_, hlen, fun k => ?_, haddrs⟩
    · rw [ha]
      exact hold.type
    · rw [ha]
      exact hold.major
    · rw [ha]
      exact hold.minor
    · rw [ha]
      exact hold.nlink
    · by_cases hk : NDIRECT < k
      · show r.1.addrs k < _
        rw [haddrs k hk]
        decide
      · have hlt := himage.addrs_lt i (Nat.le_of_not_lt hk)
        rwa [update_self] at hlt
  refine (winode_spec hi hfits).mono ?_
  rintro _ s₂ ⟨hin, hother, hfb, hfi⟩
  refine ⟨?_, hfi.trans hr.inode⟩
  have hcost := hr.cost
  rw [hinodes] at hin
  refine ⟨?_, fun j => ?_, fun j => ?_, by omega, fun j hj => ?_, ?_⟩
  · rw [hin, hfb]
    refine himage.congr (fun j => ?_) fun b hb => hother b ?_
    · rcases eq_or_ne j i with rfl | hj
      · rw [update_self, update_self]
      · rw [update_of_ne hj, update_of_ne hj]
    · have := iblock_lt hi
      omega
  · rw [hin]
    rcases eq_or_ne j i with rfl | hj
    · rw [update_self, ← h.type, ha]
    · rw [update_of_ne hj]
      exact h.type j
  · rw [hin]
    rcases eq_or_ne j i with rfl | hj
    · rw [update_self, update_self, List.length_append]
      exact hr.size
    · rw [update_of_ne hj, update_of_ne hj]
      exact h.size j
  · rw [hfi, hr.inode] at hj
    rw [update_of_ne (by omega)]
    exact h.unused j hj
  · rw [hother 1 (one_ne_iblock i), hr.low 1 (by decide)]
    exact h.sup

theorem Holds.addrs_zero (h : Holds s t c) (hc : c i = []) :
    (inodes s.img i).addrs = fun _ => 0 := by
  have hnb : blocks (c i).length = 0 := by
    rw [hc]
    decide
  funext k
  rcases Nat.lt_trichotomy k NDIRECT with hk | rfl | hk
  · have := (h.image.addr i k).not.mpr (by rw [hnb]; omega)
    rwa [not_not, Dinode.addr_direct hk] at this
  · have := (h.image.indirect i).not.mpr (by rw [hnb]; decide)
    rwa [not_not] at this
  · exact (inodes_fits s.img i).rest k hk

theorem ialloc_spec {type : Nat} (h : Holds s t c) (hi : s.freeinode < NINODES)
    (htype : type < 2 ^ 16) :
    wp E (ialloc type) s fun i s' => i = s.freeinode ∧
      Holds s' (update t s.freeinode type) c ∧ s'.freeinode = s.freeinode + 1 := by
  have hempty := h.unused s.freeinode le_rfl
  have hfits : ({ Dinode.zero with type := type, nlink := 1 } : Dinode).Fits :=
    { zero_fits with type := htype, nlink := show 1 < 2 ^ 16 by decide }
  rw [ialloc, wp_bind, wp_get, wp_bind, wp_modify, wp_bind]
  refine (winode_spec hi hfits).mono fun _ s' ⟨hin, hother, hfb, hfi⟩ => ?_
  refine (wp_pure _).mpr ⟨rfl, ?_, hfi⟩
  refine ⟨?_, fun j => ?_, fun j => ?_, by rw [hfb]; exact h.free, fun j hj => ?_, ?_⟩
  · rw [hin, hfb]
    refine h.image.congr (fun j => ?_) fun b hb => hother b ?_
    · rcases eq_or_ne j s.freeinode with rfl | hj
      · rw [update_self, h.addrs_zero hempty]
        rfl
      · rw [update_of_ne hj]
    · have := iblock_lt hi
      omega
  · rw [hin]
    rcases eq_or_ne j s.freeinode with rfl | hj
    · rw [update_self, update_self]
    · rw [update_of_ne hj, update_of_ne hj]
      exact h.type j
  · rw [hin]
    rcases eq_or_ne j s.freeinode with rfl | hj
    · rw [update_self, hempty]
      rfl
    · rw [update_of_ne hj]
      exact h.size j
  · rw [hfi] at hj
    exact h.unused j (le_trans (Nat.le_succ _) hj)
  · rw [hother 1 (one_ne_iblock _)]
    exact h.sup

theorem blank_holds : Holds blank (fun _ => 0) (fun _ => []) := by
  have hzero : inodes blank.img = fun _ => Dinode.zero := by
    funext i
    unfold inodes
    split
    · rw [dinodeAt, blank]
      show Block.dinode (update (fun _ => Block.zero) 1 sbBlock (sb.iblock i)) _ = _
      rw [update_of_ne (one_ne_iblock i).symm]
      simp [Block.dinode, Dinode.zero, Block.num_zero]
    · rfl
  have hslot : ∀ p, slot (fun _ => Dinode.zero) blank.img p = 0 := fun p => by
    simp [slot, Dinode.slot, Dinode.zero]
  have hnb : blocks ([] : List UInt8).length = 0 := by decide
  have htotal : total (fun _ => []) = 0 := sum_eq_zero fun _ _ => show cost (blocks 0) = 0 by decide
  have hsup : blank.img 1 = sbBlock := by simp only [blank, update_self]
  have hdisk : ∀ b, nmeta ≤ b → blank.img b = Block.zero := by
    intro b hb
    have hne : b ≠ 1 := by
      simp only [nmeta] at hb
      omega
    simp [blank, update_of_ne hne]
  refine ⟨?_, fun i => ?_, fun i => ?_, ?_, fun _ _ => rfl, hsup⟩
  · rw [hzero]
    refine ⟨?_, le_rfl, by decide, hdisk, fun i bn => ?_, fun i => ?_, fun i j hj => ?_⟩
    · refine ⟨by decide, fun p hp => absurd (hslot p) hp, fun p _ hp => absurd (hslot p) hp,
        fun b _ => ?_⟩
      simp only [hslot, ne_eq, not_true, false_and, exists_false, or_false]
      exact decide_eq_true_iff
    · have : Dinode.zero.addr blank.img bn = 0 := hslot (i, slotOf bn)
      rw [hnb]
      exact ⟨fun hne => absurd this hne, fun hlt => absurd hlt (Nat.not_lt_zero _)⟩
    · rw [hnb]
      exact ⟨fun hne => absurd rfl hne, fun hlt => absurd hlt (Nat.not_lt_zero _)⟩
    · rw [hnb, Nat.zero_mul] at hj
      exact absurd hj (Nat.not_lt_zero _)
  · rw [hzero]
    rfl
  · rw [hzero]
    rfl
  · rw [htotal]
    rfl

end Xv6.Mkfs
