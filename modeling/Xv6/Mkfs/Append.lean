import Xv6.Fs.Read
import Xv6.Mkfs.Main

/-! What `iappend` does to an image: it extends the contents of one inode, takes blocks in order and
leaves all other contents alone. -/

namespace Xv6.Mkfs

open Function Fs List Dinode
open Fs.Dinode (blocks slotOf blocks_mono)

/-- The blocks that a file of `nb` blocks takes, with its indirect block. -/
def cost (nb : Nat) : Nat := nb + if NDIRECT < nb then 1 else 0

/-- The inodes `D` have the contents `c`, in `nb` blocks each, and the blocks from `free` on are
not used yet. Past the end of the contents a block holds zeros. -/
structure Image (D : Nat → Dinode) (disk : Disk) (free : Nat) (nb : Nat → Nat)
    (c : Nat → List UInt8) : Prop where
  tracks : Tracks nmeta FSSIZE (fun b => decide (b < free)) (slot D disk)
  lo : nmeta ≤ free
  hi : free ≤ FSSIZE
  blank : ∀ b, free ≤ b → disk b = Block.zero
  addr : ∀ i bn, (D i).addr disk bn ≠ 0 ↔ bn < nb i
  indirect : ∀ i, (D i).addrs NDIRECT ≠ 0 ↔ NDIRECT < nb i
  byte : ∀ i j, j < nb i * BSIZE → (D i).byte disk j = (c i).getD j 0

namespace Image

variable {D : Nat → Dinode} {disk disk' : Disk} {free : Nat} {nb : Nat → Nat}
  {c : Nat → List UInt8} {i : Nat}

section

variable (h : Image D disk free nb c)

include h

theorem nb_le (i : Nat) : nb i ≤ MAXFILE := by
  by_contra hlt
  exact (h.addr i MAXFILE).mpr (by omega) (slot_none (by decide) (.inr (by decide)))

theorem slot_lt {p : Nat × Nat} (hp : slot D disk p ≠ 0) :
    nmeta ≤ slot D disk p ∧ slot D disk p < free := by
  refine ⟨(h.tracks.range p hp).1, ?_⟩
  simpa using h.tracks.used_slot hp

theorem addr_lt {bn : Nat} (hbn : bn < nb i) :
    nmeta ≤ (D i).addr disk bn ∧ (D i).addr disk bn < free :=
  h.slot_lt (p := (i, slotOf bn)) ((h.addr i bn).mpr hbn)

theorem addrs_lt (i : Nat) {k : Nat} (hk : k ≤ NDIRECT) :
    (D i).addrs k < 2 ^ 32 := by
  have hslot : slot D disk (i, k) = (D i).addrs k := slot_addrs hk
  rcases Nat.eq_zero_or_pos ((D i).addrs k) with h0 | hpos
  · rw [h0]
    decide
  · have hlt := (h.slot_lt (p := (i, k)) (by rw [hslot]; omega)).2
    have hhi := h.hi
    simp only [FSSIZE] at hhi
    omega

theorem take_content (hnb : (c i).length ≤ nb i * BSIZE)
    (hsize : (c i).length ≤ (D i).size) :
    ((D i).content disk).take (c i).length = c i := by
  apply ext_getElem
  · rw [length_take, length_content, Nat.min_eq_left hsize]
  · intro j _ hj
    have hbyte := h.byte i j (lt_of_lt_of_le hj hnb)
    simp only [content, getElem_take, getElem_map, getElem_range]
    rw [hbyte, getD_eq_getElem _ _ hj]

theorem grow {d : Dinode} {free' : Nat}
    (htracks : Tracks nmeta FSSIZE (fun b => decide (b < free')) (slot (update D i d) disk'))
    (hle : free ≤ free') (hfree : free' ≤ FSSIZE) (hblank : ∀ b, free' ≤ b → disk' b = Block.zero)
    (hnew : d.addr disk' (nb i) ≠ 0) (hzero : disk' (d.addr disk' (nb i)) = Block.zero)
    (hsame : ∀ bn ≠ nb i, d.addr disk' bn = (D i).addr disk bn)
    (hother : ∀ j ≠ i, ∀ bn, (D j).addr disk' bn = (D j).addr disk bn)
    (hdata : ∀ j bn, bn < nb j → disk' ((D j).addr disk bn) = disk ((D j).addr disk bn))
    (hind : d.addrs NDIRECT ≠ 0 ↔ NDIRECT < nb i + 1)
    (hc : (c i).length ≤ nb i * BSIZE) :
    Image (update D i d) disk' free' (update nb i (nb i + 1)) c := by
  refine ⟨htracks, le_trans h.lo hle, hfree, hblank, fun j bn => ?_, fun j => ?_,
    fun j m hm => ?_⟩
  · rcases eq_or_ne j i with rfl | hj
    · rw [update_self, update_self]
      rcases eq_or_ne bn (nb j) with rfl | hbn
      · simp [hnew]
      · rw [hsame bn hbn, h.addr]
        omega
    · rw [update_of_ne hj, update_of_ne hj, hother j hj, h.addr]
  · rcases eq_or_ne j i with rfl | hj
    · rw [update_self, update_self]
      exact hind
    · rw [update_of_ne hj, update_of_ne hj]
      exact h.indirect j
  · unfold Dinode.byte
    rcases eq_or_ne j i with rfl | hj
    · rw [update_self] at hm ⊢
      rcases eq_or_ne (m / BSIZE) (nb j) with hbn | hbn
      · have hend := Nat.div_mul_le_self m BSIZE
        rw [hbn] at hend
        rw [hbn, hzero, Block.byte_zero, getD_eq_default]
        exact le_trans hc hend
      · have hle := (Nat.div_lt_iff_lt_mul (by decide)).mpr hm
        have hlt : m / BSIZE < nb j := by omega
        rw [hsame _ hbn, hdata j _ hlt]
        exact h.byte j m ((Nat.div_lt_iff_lt_mul (by decide)).mp hlt)
    · rw [update_of_ne hj] at hm ⊢
      rw [hother j hj, hdata j _ ((Nat.div_lt_iff_lt_mul (by decide)).mpr hm)]
      exact h.byte j m hm

end

theorem decide_update (free : Nat) : update (fun b => decide (b < free)) free true =
    fun b => decide (b < free + 1) := by
  funext b
  rcases eq_or_ne b free with rfl | hb
  · simp
  · rw [update_of_ne hb]
    congr 1
    simp only [eq_iff_iff]
    omega

section

variable (h : Image D disk free nb c)

include h

theorem take (hfree : free < FSSIZE) {p : Nat × Nat}
    (hp : slot D disk p = 0) {D' : Nat → Dinode}
    (hslot : slot D' disk' = update (slot D disk) p free) :
    Tracks nmeta FSSIZE (fun b => decide (b < free + 1)) (slot D' disk') := by
  rw [hslot, ← decide_update]
  exact h.tracks.take hfree (by simp) hp

theorem growDirect (hfree : free < FSSIZE) (hbn : nb i < NDIRECT)
    (hc : (c i).length ≤ nb i * BSIZE) :
    Image (update D i { D i with addrs := update (D i).addrs (nb i) free }) disk (free + 1)
      (update nb i (nb i + 1)) c := by
  have hpos : free ≠ 0 := by
    have := h.lo
    simp only [nmeta] at this
    omega
  have hslot : Dinode.slot _ disk = update ((D i).slot disk) (nb i) free :=
    slot_setAddr (by omega) (by omega)
  have hof : slotOf (nb i) = nb i := if_pos hbn
  have hp : slot D disk (i, nb i) = 0 := by
    have := (h.addr i (nb i)).not.mpr (by omega)
    rw [not_not, Dinode.addr, hof] at this
    exact this
  have hnew : ({ D i with addrs := update (D i).addrs (nb i) free } : Dinode).addr disk (nb i) =
      free := by
    rw [Dinode.addr, hslot, hof, update_self]
  have hzero := h.blank free le_rfl
  refine h.grow (h.take hfree hp (slot_update hslot)) (Nat.le_succ _) hfree
    (fun b hb => h.blank b (by omega)) (by rwa [hnew]) (by rwa [hnew]) (fun bn hne => ?_)
    (fun _ _ _ => rfl) (fun _ _ _ => rfl) ?_ hc
  · rw [Dinode.addr, hslot, update_of_ne]
    · rfl
    · intro he
      exact hne (slotOf_inj (he.trans hof.symm))
  · show update (D i).addrs (nb i) free NDIRECT ≠ 0 ↔ _
    rw [update_of_ne (by omega), h.indirect]
    omega

theorem growEntry (hfree : free < FSSIZE) (hlo : NDIRECT < nb i)
    (hbn : nb i < MAXFILE) (hc : (c i).length ≤ nb i * BSIZE) :
    Image D (update disk ((D i).addrs NDIRECT)
      ((disk ((D i).addrs NDIRECT)).setWord (nb i - NDIRECT) free)) (free + 1)
      (update nb i (nb i + 1)) c := by
  have hpos : free ≠ 0 := by
    have := h.lo
    simp only [nmeta] at this
    omega
  have hind : (D i).addrs NDIRECT ≠ 0 := (h.indirect i).mpr hlo
  have hj : nb i - NDIRECT < NINDIRECT := by
    simp only [MAXFILE] at hbn
    omega
  have hlt : free < 2 ^ 32 := by
    simp only [FSSIZE] at hfree
    omega
  have hof : slotOf (nb i) = NDIRECT + 1 + (nb i - NDIRECT) := by
    rw [slotOf, if_neg (by omega)]
    omega
  have hslot := Track.slot_setWord h.tracks hind hj hlt
  have hindslot : slot D disk (i, NDIRECT) = (D i).addrs NDIRECT :=
    slot_addrs le_rfl
  have hindlt := (h.slot_lt (p := (i, NDIRECT)) (by rwa [hindslot])).2
  rw [hindslot] at hindlt
  have hp : slot D disk (i, NDIRECT + 1 + (nb i - NDIRECT)) = 0 := by
    have := (h.addr i (nb i)).not.mpr (by omega)
    rw [not_not, Dinode.addr, hof] at this
    exact this
  have haddr : ∀ j bn, (D j).addr (update disk ((D i).addrs NDIRECT)
      ((disk ((D i).addrs NDIRECT)).setWord (nb i - NDIRECT) free)) bn =
      update (slot D disk) (i, NDIRECT + 1 + (nb i - NDIRECT)) free (j, slotOf bn) := fun j bn =>
    congrFun hslot (j, slotOf bn)
  have hnew := haddr i (nb i)
  rw [hof, update_self] at hnew
  have htracks := h.take hfree hp hslot
  have hgrow := h.grow (by rwa [update_eq_self])
    (Nat.le_succ _) hfree (fun b hb => ?_) (by rwa [hnew]) ?_ (fun bn hne => ?_)
    (fun j hj bn => ?_) (fun j bn hlt => ?_) ?_ hc
  · rwa [update_eq_self] at hgrow
  · rw [update_of_ne (by omega)]
    exact h.blank b (by omega)
  · rw [hnew, update_of_ne (by omega)]
    exact h.blank _ le_rfl
  · rw [haddr, update_of_ne]
    · rfl
    · intro he
      exact hne (slotOf_inj ((congrArg Prod.snd he).trans hof.symm))
  · rw [haddr, update_of_ne (by simp [hj])]
    rfl
  · -- a data block is no indirect block
    refine update_of_ne (Ne.symm ?_) _ _
    exact Track.ne_indirect h.tracks (p := (j, slotOf bn)) (slotOf_ne bn) i hind
  · simp only [hind, ne_eq, not_false_eq_true, true_iff]
    omega

theorem growIndirect (hfree : free + 1 < FSSIZE)
    (hbn : nb i = NDIRECT) (hc : (c i).length ≤ nb i * BSIZE) :
    Image (update D i { D i with addrs := update (D i).addrs NDIRECT free })
      (update disk free (Block.zero.setWord 0 (free + 1))) (free + 2)
      (update nb i (nb i + 1)) c := by
  have hpos : free ≠ 0 := by
    have := h.lo
    simp only [nmeta] at this
    omega
  have hind0 : (D i).addrs NDIRECT = 0 := by
    have := (h.indirect i).not.mpr (by omega)
    rwa [not_not] at this
  have hblank := h.blank free le_rfl
  have hslot : Dinode.slot _ disk = update ((D i).slot disk) NDIRECT free :=
    slot_setAddr le_rfl fun _ => ⟨hind0, hblank⟩
  generalize hd : ({ D i with addrs := update (D i).addrs NDIRECT free } : Dinode) = d at *
  have hdind : d.addrs NDIRECT = free := by
    rw [← hd]
    exact update_self (f := (D i).addrs) NDIRECT free
  -- first the block, then its entry
  have htracks := h.take (p := (i, NDIRECT)) (by omega)
    (by rw [← hind0]; exact slot_addrs le_rfl) (slot_update hslot)
  have hslot2 := Track.slot_setWord htracks (i := i) (j := 0) (b := free + 1)
    (by rw [update_self, hdind]; exact hpos) (by decide) (by simp only [FSSIZE] at hfree; omega)
  rw [update_self, hdind, hblank, add_zero] at hslot2
  have hdisk : ∀ b ≠ free, update disk free (Block.zero.setWord 0 (free + 1)) b = disk b :=
    fun b hb => update_of_ne hb _ _
  have hof : slotOf NDIRECT = NDIRECT + 1 := by decide
  generalize update disk free (Block.zero.setWord 0 (free + 1)) = disk' at *
  have haddr : ∀ j bn, (update D i d j).addr disk' bn =
      update (slot (update D i d) disk) (i, NDIRECT + 1) (free + 1) (j, slotOf bn) := fun j bn =>
    congrFun hslot2 (j, slotOf bn)
  have hother : ∀ j bn, (j, slotOf bn) ≠ (i, NDIRECT + 1) →
      (update D i d j).addr disk' bn = (D j).addr disk bn := by
    intro j bn hne
    rw [haddr, update_of_ne hne, slot_update hslot,
      update_of_ne (fun he => slotOf_ne bn (congrArg Prod.snd he))]
    rfl
  have hnew := haddr i NDIRECT
  rw [hof, update_self, update_self] at hnew
  refine h.grow ?_ (by omega) (by omega) (fun b hb => ?_) ?_ ?_ (fun bn hne => ?_)
    (fun j hj bn => ?_) (fun j bn hlt => ?_) ?_ hc
  · rw [hslot2, ← decide_update]
    refine htracks.take hfree (by simp) ?_
    rw [slot_update hslot, update_of_ne (by simp)]
    exact slot_none (Nat.lt_succ_self _) (.inl hind0)
  · rw [hdisk b (by omega)]
    exact h.blank b (by omega)
  · rw [hbn, hnew]
    omega
  · rw [hbn, hnew, hdisk _ (by omega)]
    exact h.blank _ (Nat.le_succ _)
  · have := hother i bn (fun he => hne (slotOf_inj
      ((congrArg Prod.snd he).trans (by rw [hbn, hof]))))
    rwa [update_self] at this
  · have := hother j bn (by simp [hj])
    rwa [update_of_ne hj] at this
  · have hlt' := (h.slot_lt (p := (j, slotOf bn)) ((h.addr j bn).mpr hlt)).2
    exact hdisk _ (ne_of_lt hlt')
  · rw [hdind, hbn]
    simp [hpos]

theorem write {q : List UInt8} {bn : Nat} (hnb : nb i = bn + 1)
    (hbn : (c i).length / BSIZE = bn) (hq : (c i).length % BSIZE + q.length ≤ BSIZE) :
    Image D (update disk ((D i).addr disk bn)
      ((disk ((D i).addr disk bn)).setBytes ((c i).length % BSIZE) q)) free nb
      (update c i (c i ++ q)) := by
  have hx : slot D disk (i, slotOf bn) ≠ 0 := (h.addr i bn).mpr (by omega)
  have hlt := (h.slot_lt hx).2
  have haddr : ∀ j bn', (D j).addr disk bn' = slot D disk (j, slotOf bn') := fun _ _ => rfl
  rw [haddr]
  generalize hb : (disk (slot D disk (i, slotOf bn))).setBytes ((c i).length % BSIZE) q = b
  have hslot : slot D (update disk (slot D disk (i, slotOf bn)) b) = slot D disk :=
    slot_congr fun j hj => update_of_ne
      (Track.ne_indirect h.tracks (p := (i, slotOf bn)) (slotOf_ne bn) j hj) _ _
  have haddr' : ∀ j bn', (D j).addr (update disk (slot D disk (i, slotOf bn)) b) bn' =
      (D j).addr disk bn' := fun j bn' => congrFun hslot (j, slotOf bn')
  refine ⟨by rw [hslot]; exact h.tracks, h.lo, h.hi, fun m hm => ?_, fun j bn' => ?_, h.indirect,
    fun j m hm => ?_⟩
  · rw [update_of_ne (by omega)]
    exact h.blank m hm
  · rw [haddr']
    exact h.addr j bn'
  have hold := h.byte j m hm
  have hm' := (Nat.div_lt_iff_lt_mul (by decide)).mpr hm
  simp only [Dinode.byte, haddr'] at hold ⊢
  by_cases hj : j = i ∧ m / BSIZE = bn
  · obtain ⟨rfl, hmb⟩ := hj
    rw [hmb] at hold ⊢
    rw [haddr, update_self, ← hb, Block.byte_setBytes _ hq, update_self]
    have hdiv := Nat.div_add_mod m BSIZE
    have hdiv' := Nat.div_add_mod (c j).length BSIZE
    rw [hmb] at hdiv
    rw [hbn] at hdiv'
    by_cases hin : (c j).length % BSIZE ≤ m % BSIZE
    · rw [getD_append_right _ _ _ _ (by omega)]
      have hsub : m - (c j).length = m % BSIZE - (c j).length % BSIZE := by omega
      rw [hsub]
      split
      · rfl
      · rw [getD_eq_default _ _ (by omega)]
        rw [haddr] at hold
        rw [hold, getD_eq_default _ _ (by omega)]
    · rw [if_neg (by omega), getD_append _ _ _ _ (by omega)]
      exact hold
  · have hne : (D j).addr disk (m / BSIZE) ≠ slot D disk (i, slotOf bn) := by
      intro he
      have hu := h.tracks.unique (j, slotOf (m / BSIZE)) (i, slotOf bn)
        ((h.addr j _).mpr hm') he
      exact hj ⟨congrArg Prod.fst hu, slotOf_inj (congrArg Prod.snd hu)⟩
    rw [update_of_ne hne, hold]
    by_cases hji : j = i
    · subst hji
      have hlt : m < (c j).length := by
        have hmlt : m / BSIZE < (c j).length / BSIZE := by omega
        exact Nat.lt_of_div_lt_div hmlt
      rw [update_self, getD_append _ _ _ _ hlt]
    · rw [update_of_ne hji]

end

end Image

section

variable {E : String → Prop} {D : Nat → Dinode} {nb : Nat → Nat} {c : Nat → List UInt8}
  {s : State} {i : Nat}

theorem wp_rsect {Q : Block → State → Prop} {sec : Nat} (h : sec < FSSIZE) :
    wp E (rsect sec) s Q ↔ Q (s.img sec) s := by
  rw [wp, rsect, if_pos h]

theorem wp_rsect_fails {Q : Block → State → Prop} {sec : Nat} (h : FSSIZE ≤ sec) :
    wp E (rsect sec) s Q ↔ E "read" := by
  rw [wp, rsect, if_neg (by omega)]

theorem wp_wsect {Q : Unit → State → Prop} {sec : Nat} {b : Block} :
    wp E (wsect sec b) s Q ↔ Q () { s with img := update s.img sec b } := Iff.rfl

theorem wp_takeBlock {Q : Nat → State → Prop} :
    wp E takeBlock s Q ↔ Q s.freeblock { s with freeblock := s.freeblock + 1 } := Iff.rfl

/-- The inode that `blockFor` makes of inode `i`, and the block. -/
structure Grown (D : Nat → Dinode) (nb : Nat → Nat) (c : Nat → List UInt8) (i bn : Nat)
    (s : State) (r : Dinode × Nat) (s' : State) : Prop where
  image : Image (update D i r.1) s'.img s'.freeblock (update nb i (bn + 1)) c
  block : r.2 = r.1.addr s'.img bn
  addrs : ∃ a, r.1 = { D i with addrs := a } ∧ ∀ k, NDIRECT < k → a k = (D i).addrs k
  inode : s'.freeinode = s.freeinode
  low : ∀ b < nmeta, s'.img b = s.img b
  cost : s'.freeblock + cost (nb i) = s.freeblock + cost (bn + 1)

theorem fillAddr_there {k : Nat} {d : Dinode} (h : d.addrs k ≠ 0) : fillAddr d k = pure d :=
  if_neg h

section

variable {bn : Nat} (h : Image D s.img s.freeblock nb c)

include h

theorem Grown.refl (hbn : nb i = bn + 1) :
    Grown D nb c i bn s (D i, (D i).addr s.img bn) s where
  image := by rwa [update_eq_self, ← hbn, update_eq_self]
  block := rfl
  addrs := ⟨_, rfl, fun _ _ => rfl⟩
  inode := rfl
  low := fun _ _ => rfl
  cost := by rw [hbn]

theorem blockFor_direct (hbn : bn < NDIRECT)
    (hnb : nb i = bn ∨ nb i = bn + 1) (hc : (c i).length ≤ nb i * BSIZE)
    (hroom : E "read" ∨ s.freeblock + cost (bn + 1) ≤ FSSIZE + cost (nb i)) :
    wp E (blockFor (D i) bn) s fun r s' =>
      FSSIZE ≤ r.2 ∧ E "read" ∨ Grown D nb c i bn s r s' := by
  have haddr : ∀ d : Dinode, d.addr s.img bn = d.addrs bn := fun d => addr_direct hbn
  rw [blockFor, if_pos hbn]
  rcases hnb with hnb | hnb
  · have hzero : (D i).addrs bn = 0 := by
      have := (h.addr i bn).not.mpr (by omega)
      rwa [not_not, haddr] at this
    subst hnb
    rw [fillAddr, if_pos hzero]
    simp only [wp_bind, wp_takeBlock, wp_pure, update_self]
    have hcost : cost (nb i + 1) = cost (nb i) + 1 := by
      rw [cost, cost, if_neg (by omega), if_neg (by omega)]
    by_cases hfree : s.freeblock < FSSIZE
    · refine .inr ⟨h.growDirect hfree hbn hc, ?_, ⟨_, rfl, fun k hk => ?_⟩, rfl,
        fun _ _ => rfl, ?_⟩
      · rw [addr_direct hbn]
        exact (update_self (f := (D i).addrs) (nb i) s.freeblock).symm
      · exact update_of_ne (by omega) _ _
      · show s.freeblock + 1 + _ = _
        omega
    · exact .inl ⟨Nat.le_of_not_lt hfree, hroom.resolve_right (by omega)⟩
  · have hne : (D i).addrs bn ≠ 0 := by
      rw [← haddr]
      exact (h.addr i bn).mpr (by omega)
    rw [fillAddr_there hne, pure_bind, wp_pure, ← haddr]
    exact .inr (Grown.refl h hnb)

theorem blockFor_indirect (hlo : NDIRECT ≤ bn)
    (hbn : bn < MAXFILE) (hnb : nb i = bn ∨ nb i = bn + 1) (hc : (c i).length ≤ nb i * BSIZE)
    (hroom : E "read" ∨ s.freeblock + cost (bn + 1) ≤ FSSIZE + cost (nb i)) :
    wp E (blockFor (D i) bn) s fun r s' =>
      FSSIZE ≤ r.2 ∧ E "read" ∨ Grown D nb c i bn s r s' := by
  rw [blockFor, if_neg (by omega)]
  rcases Nat.eq_or_lt_of_le (show NDIRECT ≤ nb i by omega) with hind | hind
  · -- neither the indirect block nor the entry is there
    obtain rfl : bn = NDIRECT := by omega
    have hzero : (D i).addrs NDIRECT = 0 := by
      have := (h.indirect i).not.mpr (by omega)
      rwa [not_not] at this
    have hcost : cost (NDIRECT + 1) = cost (nb i) + 2 := by
      rw [← hind]
      decide
    rw [fillAddr, if_pos hzero]
    simp only [wp_bind, wp_takeBlock, wp_pure, update_self]
    by_cases hfree : s.freeblock < FSSIZE
    · rw [wp_rsect hfree]
      simp only [h.blank s.freeblock le_rfl, Block.word_zero, if_true, wp_bind,
        wp_takeBlock, wp_wsect, wp_pure]
      by_cases hfree' : s.freeblock + 1 < FSSIZE
      · have hgrow := h.growIndirect hfree' hind.symm hc
        rw [← hind] at hgrow
        have hne : ∀ b < nmeta, b ≠ s.freeblock := fun b hb => by
          have := h.lo
          omega
        refine .inr ⟨hgrow, ?_, ⟨_, rfl, fun k hk => update_of_ne (by omega) _ _⟩, rfl,
          fun b hb => update_of_ne (hne b hb) _ _, ?_⟩
        · rw [addr_indirect _ le_rfl (by decide)]
          · simp only [update_self]
            rw [Block.word_setWord_same _ (by decide) (by simp only [FSSIZE] at hfree; omega)]
          · simp only [update_self]
            have := h.lo
            simp only [nmeta] at this
            omega
        · show s.freeblock + 1 + 1 + _ = _
          omega
      · exact .inl ⟨by show FSSIZE ≤ s.freeblock + 1; omega, hroom.resolve_right (by omega)⟩
    · rw [wp_rsect_fails (by omega)]
      exact hroom.resolve_right (by omega)
  · have hne : (D i).addrs NDIRECT ≠ 0 := (h.indirect i).mpr hind
    have hslot : slot D s.img (i, NDIRECT) = (D i).addrs NDIRECT :=
      slot_addrs le_rfl
    obtain ⟨hge, hlt⟩ := h.slot_lt (p := (i, NDIRECT)) (by rwa [hslot])
    rw [hslot] at hge hlt
    have haddr : (D i).addr s.img bn = (s.img ((D i).addrs NDIRECT)).word (bn - NDIRECT) :=
      addr_indirect hne hlo hbn
    have hhi := h.hi
    rw [fillAddr_there hne, pure_bind]
    simp only [wp_bind, wp_rsect (lt_of_lt_of_le hlt hhi)]
    rw [← haddr]
    rcases hnb with hnb | hnb
    · have hzero : (D i).addr s.img bn = 0 := by
        have := (h.addr i bn).not.mpr (by omega)
        rwa [not_not] at this
      subst hnb
      have hcost : cost (nb i + 1) = cost (nb i) + 1 := by
        rw [cost, cost, if_pos (by omega), if_pos (by omega)]
      rw [if_pos hzero]
      simp only [wp_bind, wp_takeBlock, wp_wsect, wp_pure]
      by_cases hfree : s.freeblock < FSSIZE
      · have hgrow := h.growEntry hfree hind hbn hc
        refine .inr ⟨by rwa [update_eq_self], ?_, ⟨_, rfl, fun _ _ => rfl⟩, rfl,
          fun b hb => ?_, ?_⟩
        · rw [addr_indirect hne hlo hbn]
          simp only [update_self]
          have hj : nb i - NDIRECT < NINDIRECT := by
            simp only [MAXFILE] at hbn
            omega
          rw [Block.word_setWord_same _ hj (by simp only [FSSIZE] at hfree; omega)]
        · exact update_of_ne (by omega) _ _
        · show s.freeblock + 1 + _ = _
          omega
      · exact .inl ⟨Nat.le_of_not_lt hfree, hroom.resolve_right (by omega)⟩
    · rw [if_neg ((h.addr i bn).mpr (by omega)), wp_pure]
      exact .inr (Grown.refl h hnb)

/-- `blockFor` finds or adds block `bn` at the end of inode `i`, or hands out a number past the end
of the image. -/
theorem blockFor_spec (hbn : bn < MAXFILE)
    (hnb : nb i = bn ∨ nb i = bn + 1) (hc : (c i).length ≤ nb i * BSIZE)
    (hroom : E "read" ∨ s.freeblock + cost (bn + 1) ≤ FSSIZE + cost (nb i)) :
    wp E (blockFor (D i) bn) s fun r s' =>
      FSSIZE ≤ r.2 ∧ E "read" ∨ Grown D nb c i bn s r s' := by
  rcases lt_or_ge bn NDIRECT with hlt | hge
  · exact blockFor_direct h hlt hnb hc hroom
  · exact blockFor_indirect h hge hbn hnb hc hroom

end

/-- Inode `i` with the bytes `p` at the end of its contents, and the new size. -/
structure Appended (D : Nat → Dinode) (nb : Nat → Nat) (c : Nat → List UInt8) (i : Nat)
    (p : List UInt8) (s : State) (r : Dinode × Nat) (s' : State) : Prop where
  image : Image (update D i r.1) s'.img s'.freeblock
    (update nb i (blocks ((c i).length + p.length))) (update c i (c i ++ p))
  size : r.2 = (c i).length + p.length
  addrs : ∃ a, r.1 = { D i with addrs := a } ∧ ∀ k, NDIRECT < k → a k = (D i).addrs k
  inode : s'.freeinode = s.freeinode
  low : ∀ b < nmeta, s'.img b = s.img b
  cost : s'.freeblock + cost (nb i) = s.freeblock + cost (blocks ((c i).length + p.length))

/-- There is room for `n` more bytes in a file with `len` bytes, or a message may be printed. -/
def Room (E : String → Prop) (s : State) (len n : Nat) : Prop :=
  (∀ msg, E msg) ∨ len + n ≤ MAXFILE * BSIZE ∧
    s.freeblock + cost (blocks (len + n)) ≤ FSSIZE + cost (blocks len)

/-- The blocks of a file that ends in the block before its last byte or at the end of one. -/
theorem blocks_add {len m : Nat} (hm : 0 < m) (hle : len % BSIZE + m ≤ BSIZE) :
    blocks (len + m) = len / BSIZE + 1 := by
  simp only [blocks, BSIZE] at *
  omega

theorem blocks_eq_or (len : Nat) : blocks len = len / BSIZE ∨ blocks len = len / BSIZE + 1 := by
  simp only [blocks, BSIZE]
  omega

theorem le_blocks_mul (len : Nat) : len ≤ blocks len * BSIZE := by
  simp only [blocks, BSIZE]
  omega

theorem cost_mono {m n : Nat} (h : m ≤ n) : cost m ≤ cost n := by
  unfold cost
  split <;> split <;> omega

theorem iappendLoop_spec {p : List UInt8} (h : Image D s.img s.freeblock nb c)
    (hnb : nb i = blocks (c i).length) (hroom : Room E s (c i).length p.length) :
    wp E (iappendLoop (D i) (c i).length p) s (Appended D nb c i p s) := by
  induction hn : p.length using Nat.strong_induction_on generalizing p D nb c s with
  | _ n ih =>
    subst hn
    unfold iappendLoop
    by_cases hp : p.length = 0
    · rw [dif_pos hp, wp_pure]
      obtain rfl : p = [] := length_eq_zero_iff.mp hp
      have hcost : cost (nb i) = cost (blocks ((c i).length + ([] : List UInt8).length)) := by
        rw [hnb]
        rfl
      refine ⟨?_, rfl, ⟨_, rfl, fun _ _ => rfl⟩, rfl, fun _ _ => rfl, congrArg _ hcost⟩
      rw [update_eq_self, append_nil, update_eq_self, length_nil, add_zero, ← hnb,
        update_eq_self]
      exact h
    rw [dif_neg hp]
    by_cases hmax : MAXFILE ≤ (c i).length / BSIZE
    · rw [if_pos hmax, wp_panic]
      rcases hroom with hE | ⟨hlen, -⟩
      · exact hE _
      · have := (Nat.le_div_iff_mul_le (by decide)).mp hmax
        omega
    rw [if_neg hmax]
    have hmod : (c i).length % BSIZE < BSIZE := Nat.mod_lt _ (by decide)
    have hdiv := Nat.div_add_mod (c i).length BSIZE
    have hoff : (c i).length - (c i).length / BSIZE * BSIZE = (c i).length % BSIZE := by
      rw [mul_comm]
      omega
    have hend : ((c i).length / BSIZE + 1) * BSIZE - (c i).length =
        BSIZE - (c i).length % BSIZE := by
      rw [add_mul, mul_comm]
      omega
    simp only [hoff, hend]
    generalize hm : min p.length (BSIZE - (c i).length % BSIZE) = m
    have hblocks : blocks ((c i).length + m) = _ := blocks_add (by omega) (by omega)
    have htake : (p.take m).length = m := by
      rw [length_take]
      omega
    have hle := cost_mono (blocks_mono (show (c i).length + m ≤ (c i).length + p.length by omega))
    refine (blockFor_spec h (by omega) (by rw [hnb]; exact blocks_eq_or _)
      (by rw [hnb]; exact le_blocks_mul _) ?_).bind fun r s' hr => ?_
    · refine hroom.imp (fun hE => hE _) fun hfits => ?_
      rw [hnb, ← hblocks]
      omega
    rcases hr with ⟨hge, hE⟩ | hr
    · rw [wp_bind, wp_rsect_fails hge]
      exact hE
    -- the block is there: store the bytes that fit, then go on
    have himage := hr.image
    have hbn : (c i).length / BSIZE < update nb i ((c i).length / BSIZE + 1) i := by
      rw [update_self]
      omega
    obtain ⟨hlo, hhi⟩ := himage.addr_lt hbn
    have hwrite := himage.write (i := i) (q := p.take m) (update_self ..) rfl (by omega)
    rw [update_self, ← hr.block] at hlo hhi hwrite
    rw [wp_bind, wp_rsect (lt_of_lt_of_le hhi himage.hi), wp_bind, wp_wsect]
    generalize (s'.img r.2).setBytes ((c i).length % BSIZE) (p.take m) = b at hwrite ⊢
    have hrest := ih (p.drop m).length (by rw [length_drop]; omega)
      (s := { s' with img := update s'.img r.2 b }) hwrite
      (by rw [update_self, update_self, length_append, htake, hblocks])
      (hroom.imp id fun hfits => ?_) rfl
    · simp only [update_self, length_append, htake] at hrest
      refine hrest.mono fun r' t ht => ?_
      have himage' := ht.image
      have hcost := hr.cost
      have hcost' := ht.cost
      have hlen : (c i).length + m + (p.drop m).length = (c i).length + p.length := by
        rw [length_drop]
        omega
      simp only [update_self, update_idem, length_append, htake, append_assoc,
        take_append_drop, hlen] at himage' hcost'
      refine ⟨himage', ?_, ?_, ht.inode.trans hr.inode, fun b hb => ?_, by omega⟩
      · rw [ht.size, update_self, length_append, htake, hlen]
      · obtain ⟨a, ha, hrest⟩ := hr.addrs
        obtain ⟨a', ha', hrest'⟩ := ht.addrs
        rw [update_self, ha] at ha' hrest'
        exact ⟨a', ha', fun k hk => (hrest' k hk).trans (hrest k hk)⟩
      · rw [ht.low b hb, ← hr.low b hb]
        exact update_of_ne (by omega) _ _
    · have hcost := hr.cost
      have hlen : (c i).length + m + (p.length - m) = (c i).length + p.length := by omega
      rw [update_self, length_append, htake, length_drop, hlen, hblocks]
      rw [hnb] at hcost
      exact ⟨hfits.1, by show s'.freeblock + _ ≤ _; omega⟩

end

end Xv6.Mkfs
