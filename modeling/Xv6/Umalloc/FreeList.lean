import Xv6.Lib.Circle
import Xv6.Umalloc.Machine

/-! The free list as a circle of blocks in address order, and what `free` does to it. -/

namespace Xv6.Umalloc

open Function List

namespace Heap

variable (h : Heap) (a q n : Nat)

@[simp] theorem ptr_setPtr : (h.setPtr a q).ptr = update h.ptr a q := by
  funext x
  by_cases hx : x = a <;> simp [ptr, setPtr, hx]

@[simp] theorem size_setPtr : (h.setPtr a q).size = h.size := by
  funext x
  by_cases hx : x = a <;> simp [size, setPtr, hx]

@[simp] theorem ptr_setSize : (h.setSize a n).ptr = h.ptr := by
  funext x
  by_cases hx : x = a <;> simp [ptr, setSize, hx]

@[simp] theorem size_setSize : (h.setSize a n).size = update h.size a (n % 2 ^ 32) := by
  funext x
  by_cases hx : x = a <;> simp [size, setSize, hx]

@[simp] theorem ptr_freep : ({ h with freep := a } : Heap).ptr = h.ptr := rfl

@[simp] theorem size_freep : ({ h with freep := a } : Heap).size = h.size := rfl

end Heap

def addrs (F : List Block) : List Nat := F.map (·.addr)

@[simp] theorem addrs_cons (b : Block) (F : List Block) : addrs (b :: F) = b.addr :: addrs F := rfl

@[simp] theorem addrs_append (l r : List Block) : addrs (l ++ r) = addrs l ++ addrs r :=
  map_append

/-- Blocks behind `base` in address order, no two of them adjacent. -/
structure Sorted (base : Nat) (F : List Block) : Prop where
  above : ∀ b ∈ F, base + HDR ≤ b.addr
  pos : ∀ b ∈ F, 0 < b.size
  gaps : F.Pairwise fun a b => a.stop < b.addr

/-- The heap links `base` and the blocks `F` to a circle, and their headers hold their sizes. -/
structure FreeList (h : Heap) (base : Nat) (F : List Block) : Prop where
  circle : Path h.ptr base (addrs F) base
  sizes : ∀ b ∈ F, h.size b.addr = b.size
  baseSize : h.size base = 0

variable {h : Heap} {base : Nat} {F l r : List Block} {b : Block}

theorem Block.addr_lt_stop (hb : 0 < b.size) : b.addr + HDR ≤ b.stop := by
  unfold Block.stop HDR
  omega

namespace Sorted

theorem left (h : Sorted base (l ++ r)) : Sorted base l :=
  ⟨fun b hb => h.above b (mem_append_left r hb), fun b hb => h.pos b (mem_append_left r hb),
    (pairwise_append.mp h.gaps).1⟩

theorem right (h : Sorted base (l ++ r)) : Sorted base r :=
  ⟨fun b hb => h.above b (mem_append_right l hb),
    fun b hb => h.pos b (mem_append_right l hb), (pairwise_append.mp h.gaps).2.1⟩

theorem nodes (h : Sorted base F) : (base :: addrs F).Pairwise (· < ·) := by
  refine pairwise_cons.mpr ⟨fun a ha => ?_, pairwise_map.mpr ?_⟩
  · obtain ⟨b, hb, rfl⟩ := mem_map.mp ha
    have := h.above b hb
    have : 0 < HDR := by decide
    omega
  · refine h.gaps.imp fun {a b} hab => ?_
    unfold Block.stop at hab
    omega

theorem nodup (h : Sorted base F) : (base :: addrs F).Nodup := h.nodes.imp Nat.ne_of_lt

theorem split (h : Sorted base F)
    (hap : ∀ x ∈ F, x.stop ≤ b.addr ∨ b.stop ≤ x.addr) : ∃ l r, F = l ++ r ∧
      (∀ x ∈ l, x.stop ≤ b.addr) ∧ ∀ x ∈ r, b.stop ≤ x.addr := by
  induction F with
  | nil => exact ⟨[], [], rfl, nofun, nofun⟩
  | cons x F ih =>
    obtain ⟨hx, hF⟩ := forall_mem_cons.mp hap
    rcases hx with hx | hx
    · obtain ⟨l, r, rfl, hl, hr⟩ := ih (right (l := [x]) h) hF
      exact ⟨x :: l, r, rfl, forall_mem_cons.mpr ⟨hx, hl⟩, hr⟩
    · refine ⟨[], x :: F, rfl, nofun, forall_mem_cons.mpr ⟨hx, fun y hy => ?_⟩⟩
      have := (pairwise_cons.mp h.gaps).1 y hy
      unfold Block.stop at this
      omega

end Sorted

def Apart (a b : Block) : Prop := a.stop ≤ b.addr ∨ b.stop ≤ a.addr

def total (F : List Block) : Nat := (F.map (·.size)).sum

@[simp] theorem total_nil : total [] = 0 := rfl

@[simp] theorem total_cons (b : Block) (F : List Block) : total (b :: F) = b.size + total F := rfl

@[simp] theorem total_append (l r : List Block) : total (l ++ r) = total l + total r := by
  simp [total]

/-- `F'` covers what `F` covers, perhaps with fewer blocks. -/
structure Joined (F F' : List Block) : Prop where
  total : total F' = total F
  apart : ∀ c : Block, 0 < c.size → (∀ x ∈ F, Apart x c) → ∀ x ∈ F', Apart x c
  stop : ∀ m, (∀ x ∈ F, x.stop ≤ m) → ∀ x ∈ F', x.stop ≤ m
  large : ∀ n, (∃ x ∈ F, n ≤ x.size) → ∃ x ∈ F', n ≤ x.size

namespace Joined

theorem refl (F : List Block) : Joined F F := ⟨rfl, fun _ _ h => h, fun _ h => h, fun _ h => h⟩

theorem trans {F₁ F₂ F₃ : List Block} (h : Joined F₁ F₂) (h' : Joined F₂ F₃) : Joined F₁ F₃ :=
  ⟨h'.total.trans h.total, fun c hc ha => h'.apart c hc (h.apart c hc ha),
    fun m hm => h'.stop m (h.stop m hm), fun n hn => h'.large n (h.large n hn)⟩

theorem stop_merged {x y : Block} (hxy : x.stop = y.addr) :
    Block.stop ⟨x.addr, x.size + y.size⟩ = y.stop := by
  unfold Block.stop at *
  dsimp only
  rw [Nat.mul_add]
  omega

theorem merge {x y : Block} (l r : List Block) (hxy : x.stop = y.addr) :
    Joined (l ++ x :: y :: r) (l ++ ⟨x.addr, x.size + y.size⟩ :: r) := by
  have hstop := stop_merged hxy
  refine ⟨?_, fun c hc ha => ?_, fun m hm => ?_, fun n hn => ?_⟩
  · simp [Nat.add_assoc]
  · simp only [forall_mem_append, forall_mem_cons] at ha ⊢
    obtain ⟨hl, hx, hy, hr⟩ := ha
    refine ⟨hl, ?_, hr⟩
    have := Block.addr_lt_stop hc
    have : 0 < HDR := by decide
    unfold Apart at hx hy ⊢
    rw [hstop]
    dsimp only
    omega
  · simp only [forall_mem_append, forall_mem_cons] at hm ⊢
    obtain ⟨hl, hx, hy, hr⟩ := hm
    exact ⟨hl, hstop ▸ hy, hr⟩
  · obtain ⟨z, hz, hn⟩ := hn
    rw [mem_append, mem_cons, mem_cons] at hz
    rcases hz with hz | rfl | rfl | hz
    · exact ⟨z, mem_append_left _ hz, hn⟩
    · exact ⟨_, mem_append_right l mem_cons_self, Nat.le_add_right_of_le hn⟩
    · exact ⟨_, mem_append_right l mem_cons_self, Nat.le_add_left_of_le hn⟩
    · exact ⟨z, mem_append_right l (mem_cons_of_mem _ hz), hn⟩

end Joined

/-- The block `b` belongs between `l` and `r`. -/
structure Place (base : Nat) (l : List Block) (b : Block) (r : List Block) : Prop where
  sorted : Sorted base (l ++ r)
  above : base + HDR ≤ b.addr
  pos : 0 < b.size
  left : ∀ x ∈ l, x.stop ≤ b.addr
  right : ∀ x ∈ r, b.stop ≤ x.addr

/-- The last node before the blocks that come after `l`. -/
def pred (base : Nat) (l : List Block) : Nat :=
  (base :: addrs l).getLast (cons_ne_nil base (addrs l))

@[simp] theorem pred_nil : pred base [] = base := rfl

@[simp] theorem pred_concat {x : Block} : pred base (l ++ [x]) = x.addr := by
  simp [pred, addrs]

theorem pred_mem : pred base l ∈ base :: addrs l := getLast_mem _

namespace Place

theorem lt_left (hp : Place base l b r) {a : Nat} (ha : a ∈ base :: addrs l) : a < b.addr := by
  rcases mem_cons.mp ha with rfl | ha
  · have := hp.above
    have : 0 < HDR := by decide
    omega
  · obtain ⟨x, hx, rfl⟩ := mem_map.mp ha
    have := hp.left x hx
    have := Block.addr_lt_stop (hp.sorted.pos x (mem_append_left r hx))
    have : 0 < HDR := by decide
    omega

theorem lt_right (hp : Place base l b r) {a : Nat} (ha : a ∈ addrs r) : b.addr < a := by
  obtain ⟨x, hx, rfl⟩ := mem_map.mp ha
  have := hp.right x hx
  have := Block.addr_lt_stop hp.pos
  have : 0 < HDR := by decide
  omega

theorem not_mem (hp : Place base l b r) : b.addr ∉ base :: addrs (l ++ r) := by
  rw [addrs_append, ← cons_append]
  rintro hm
  rcases mem_append.mp hm with hm | hm
  · exact Nat.lt_irrefl _ (hp.lt_left hm)
  · exact Nat.lt_irrefl _ (hp.lt_right hm)

theorem ne_of_mem (hp : Place base l b r) {x : Block} (hx : x ∈ l ++ r) : x.addr ≠ b.addr :=
  fun he => hp.not_mem (mem_cons_of_mem base (he ▸ mem_map_of_mem hx))

end Place

def others (base : Nat) (l : List Block) : List Nat := (base :: addrs l).dropLast

theorem circle_pred {next : Nat → Nat} : Path next base (addrs (l ++ r)) base ↔
    Path next (pred base l) (addrs r ++ others base l) (pred base l) := by
  rw [addrs_append]
  exact circle_getLast

theorem perm_pred : (pred base l :: (addrs r ++ others base l)).Perm (base :: addrs (l ++ r)) := by
  rw [addrs_append]
  exact perm_getLast ..

theorem Sorted.pred_not_mem (hs : Sorted base (l ++ r)) :
    pred base l ∉ addrs r ++ others base l :=
  (nodup_cons.mp (perm_pred.nodup_iff.mpr hs.nodup)).1

theorem FreeList.next_pred_cons {q : Block} (hf : FreeList h base (l ++ q :: r)) :
    h.ptr (pred base l) = q.addr := (path_cons.mp (circle_pred.mp hf.circle)).1

theorem FreeList.next_pred_nil (hf : FreeList h base l) : h.ptr (pred base l) = base :=
  hf.circle.getLast_next

/-- What the block `b` has become once `free` has joined it to the blocks behind it. -/
structure JoinedNext (h : Heap) (base : Nat) (l : List Block) (b : Block) (r : List Block)
    (b' : Block) (r' : List Block) : Prop where
  addr : b'.addr = b.addr
  joined : Joined (l ++ b :: r) (l ++ b' :: r')
  list : FreeList ((h.joinNext b.addr (pred base l)).setPtr (pred base l) b.addr) base
    (l ++ b' :: r')
  place : Place base l b' r'
  gap : ∀ x ∈ r', b'.stop < x.addr

theorem Place.sizes_update (hp : Place base l b r) (hf : FreeList h base (l ++ r)) (n : Nat) :
    (∀ x ∈ l ++ r, update h.size b.addr n x.addr = x.size) ∧ update h.size b.addr n base = 0 := by
  refine ⟨fun x hx => ?_, ?_⟩
  · rw [update_of_ne (hp.ne_of_mem hx)]
    exact hf.sizes x hx
  · have hne : base ≠ b.addr := fun he => hp.not_mem (he ▸ mem_cons_self)
    rw [update_of_ne hne]
    exact hf.baseSize

theorem joinNext_apart (hf : FreeList h base (l ++ r)) (hp : Place base l b r)
    (hsize : h.size b.addr = b.size) (hgap : ∀ x ∈ r, b.stop < x.addr) :
    JoinedNext h base l b r b r := by
  have hne : b.addr + HDR * h.size b.addr ≠ h.ptr (pred base l) := by
    rw [hsize]
    change b.stop ≠ _
    cases r with
    | nil =>
      rw [append_nil] at hf
      rw [hf.next_pred_nil]
      have := hp.above
      unfold Block.stop
      have : 0 < HDR := by decide
      omega
    | cons q r =>
      rw [hf.next_pred_cons]
      exact Nat.ne_of_lt (hgap q mem_cons_self)
  refine ⟨rfl, .refl _, ⟨?_, ?_, ?_⟩, hp, hgap⟩
  · rw [circle_pred, Heap.joinNext, if_neg hne, Heap.ptr_setPtr, Heap.ptr_setPtr]
    exact (circle_pred.mp hf.circle).insert hp.sorted.pred_not_mem
      (mt perm_pred.mem_iff.mp hp.not_mem)
  · rw [Heap.joinNext, if_neg hne, Heap.size_setPtr, Heap.size_setPtr]
    have hl := fun x hx => hf.sizes x (mem_append_left r hx)
    have hr := fun x hx => hf.sizes x (mem_append_right l hx)
    exact forall_mem_append.mpr ⟨hl, forall_mem_cons.mpr ⟨hsize, hr⟩⟩
  · rw [Heap.joinNext, if_neg hne, Heap.size_setPtr, Heap.size_setPtr]
    exact hf.baseSize

theorem joinNext_adjacent {q : Block} (hf : FreeList h base (l ++ q :: r))
    (hp : Place base l b (q :: r)) (hsize : h.size b.addr = b.size) (hq : b.stop = q.addr)
    (hlt : b.size + q.size < 2 ^ 32) :
    JoinedNext h base l b (q :: r) ⟨b.addr, b.size + q.size⟩ r := by
  have hnext := hf.next_pred_cons
  have heq : b.addr + HDR * h.size b.addr = h.ptr (pred base l) := by
    rw [hsize, hnext]
    exact hq
  have hstop := Joined.stop_merged hq
  have hqsize : h.size q.addr = q.size := hf.sizes q (by simp)
  have hpred := hp.sorted.pred_not_mem
  have hgap : ∀ x ∈ r, q.stop < x.addr := (pairwise_cons.mp hp.sorted.right.gaps).1
  have hsorted : Sorted base (l ++ r) := by
    have hsub : (l ++ r).Sublist (l ++ q :: r) := (sublist_cons_self q r).append_left l
    exact ⟨fun x hx => hp.sorted.above x (hsub.subset hx),
      fun x hx => hp.sorted.pos x (hsub.subset hx), hp.sorted.gaps.sublist hsub⟩
  have hplace : Place base l ⟨b.addr, b.size + q.size⟩ r :=
    ⟨hsorted, hp.above, Nat.add_pos_left hp.pos _, hp.left,
      fun x hx => hstop ▸ Nat.le_of_lt (hgap x hx)⟩
  refine ⟨rfl, .merge l r hq, ⟨?_, ?_, ?_⟩, hplace, fun x hx => hstop ▸ hgap x hx⟩
  · have hcircle := circle_pred.mp hf.circle
    rw [circle_pred, Heap.joinNext, if_pos heq, Heap.ptr_setPtr, Heap.ptr_setPtr, Heap.ptr_setSize,
      hnext]
    have herase := hcircle.erase hpred
    have hb : b.addr ∉ pred base l :: (addrs r ++ others base l) := fun hm =>
      hp.not_mem (perm_pred.mem_iff.mp ((sublist_cons_self q.addr _).cons_cons _ |>.subset hm))
    have hinsert := herase.insert (mt (mem_cons_of_mem _) hpred) hb
    have hne : pred base l ≠ b.addr := fun he => hb (he ▸ mem_cons_self)
    rw [update_self, update_comm hne, update_idem] at hinsert
    exact hinsert
  · rw [Heap.joinNext, if_pos heq, Heap.size_setPtr, Heap.size_setPtr, Heap.size_setSize, hsize,
      hnext, hqsize, Nat.mod_eq_of_lt hlt]
    have hsizes := (hp.sizes_update hf (b.size + q.size)).1
    simp only [forall_mem_append, forall_mem_cons] at hsizes ⊢
    exact ⟨hsizes.1, update_self .., hsizes.2.2⟩
  · rw [Heap.joinNext, if_pos heq, Heap.size_setPtr, Heap.size_setPtr, Heap.size_setSize]
    exact (hp.sizes_update hf _).2

theorem joinNext_spec (hf : FreeList h base (l ++ r)) (hp : Place base l b r)
    (hsize : h.size b.addr = b.size) (hlt : b.size + total r < 2 ^ 32) :
    ∃ b' r', JoinedNext h base l b r b' r' := by
  by_cases hadj : ∃ q r', r = q :: r' ∧ b.stop = q.addr
  · obtain ⟨q, r', rfl, hq⟩ := hadj
    rw [total_cons] at hlt
    exact ⟨_, r', joinNext_adjacent hf hp hsize hq (by omega)⟩
  refine ⟨b, r, joinNext_apart hf hp hsize ?_⟩
  cases r with
  | nil => nofun
  | cons q r =>
    have hq : b.stop < q.addr :=
      Nat.lt_of_le_of_ne (hp.right q mem_cons_self) fun he => hadj ⟨q, r, rfl, he⟩
    refine forall_mem_cons.mpr ⟨hq, fun x hx => ?_⟩
    have := (pairwise_cons.mp hp.sorted.right.gaps).1 x hx
    unfold Block.stop at this hq ⊢
    omega

theorem Place.sorted_insert (hp : Place base l b r) (hl : ∀ x ∈ l, x.stop < b.addr)
    (hr : ∀ x ∈ r, b.stop < x.addr) : Sorted base (l ++ b :: r) := by
  obtain ⟨hgl, hgr, hlr⟩ := pairwise_append.mp hp.sorted.gaps
  have habove := forall_mem_append.mp hp.sorted.above
  have hpos := forall_mem_append.mp hp.sorted.pos
  refine ⟨?_, ?_, pairwise_append.mpr ⟨hgl, pairwise_cons.mpr ⟨hr, hgr⟩, ?_⟩⟩
  · exact forall_mem_append.mpr ⟨habove.1, forall_mem_cons.mpr ⟨hp.above, habove.2⟩⟩
  · exact forall_mem_append.mpr ⟨hpos.1, forall_mem_cons.mpr ⟨hp.pos, hpos.2⟩⟩
  · exact fun x hx => forall_mem_cons.mpr ⟨hl x hx, hlr x hx⟩

theorem joinPrev_adjacent {x : Block}
    (hf : FreeList (h.setPtr x.addr b.addr) base (l ++ [x] ++ b :: r))
    (hp : Place base (l ++ [x]) b r) (hgap : ∀ y ∈ r, b.stop < y.addr) (hadj : x.stop = b.addr)
    (hlt : x.size + b.size < 2 ^ 32) :
    FreeList (h.joinPrev b.addr x.addr) base (l ++ ⟨x.addr, x.size + b.size⟩ :: r) ∧
      Sorted base (l ++ ⟨x.addr, x.size + b.size⟩ :: r) := by
  have hsizes := hf.sizes
  have hbase := hf.baseSize
  rw [Heap.size_setPtr] at hsizes hbase
  simp only [forall_mem_append, forall_mem_cons] at hsizes
  obtain ⟨⟨hl, hx, -⟩, hb, hr⟩ := hsizes
  have heq : x.addr + HDR * h.size x.addr = b.addr := hx ▸ hadj
  have hxb : x.addr ≠ b.addr := hp.ne_of_mem (by simp)
  have hs := hp.sorted
  rw [append_assoc, singleton_append] at hs
  obtain ⟨hgl, hgr, hlr⟩ := pairwise_append.mp hs.gaps
  have hne : ∀ y, y ∈ l ∨ y ∈ r → y.addr ≠ x.addr := by
    have hnd := (nodup_cons.mp hs.nodup).2
    rw [addrs_append, addrs_cons] at hnd
    have hx := (nodup_middle.mp hnd).notMem
    rintro y hy he
    refine hx (mem_append.mpr ?_)
    exact hy.imp (he ▸ mem_map_of_mem ·) (he ▸ mem_map_of_mem ·)
  constructor
  · rw [Heap.joinPrev, if_pos heq]
    have hsize : h.size x.addr + h.size b.addr = x.size + b.size := by rw [hx, hb]
    refine ⟨?_, ?_, ?_⟩
    · have hcircle := circle_pred.mp hf.circle
      have hnot : x.addr ∉ b.addr :: (addrs r ++ others base (l ++ [x])) := by
        have := hp.sorted.pred_not_mem
        rw [pred_concat] at this
        exact fun hm => (mem_cons.mp hm).elim hxb this
      rw [pred_concat, Heap.ptr_setPtr] at hcircle
      have herase := hcircle.erase hnot
      rw [update_of_ne hxb.symm, update_idem] at herase
      have hlist : addrs (l ++ ⟨x.addr, x.size + b.size⟩ :: r) = addrs (l ++ [x] ++ r) := by simp
      rw [Heap.ptr_setPtr, Heap.ptr_setSize, hlist, circle_pred, pred_concat]
      exact herase
    · rw [Heap.size_setPtr, Heap.size_setSize, hsize, Nat.mod_eq_of_lt hlt]
      simp only [forall_mem_append, forall_mem_cons]
      refine ⟨fun y hy => ?_, update_self .., fun y hy => ?_⟩
      · rw [update_of_ne (hne y (.inl hy)), hl y hy]
      · rw [update_of_ne (hne y (.inr hy)), hr y hy]
    · have hbx : base ≠ x.addr := by
        have := hs.above x (by simp)
        have : 0 < HDR := by decide
        omega
      rw [Heap.size_setPtr, Heap.size_setSize, update_of_ne hbx, hbase]
  · have habove := hs.above
    have hpos := hs.pos
    simp only [forall_mem_append, forall_mem_cons] at habove hpos
    refine ⟨?_, ?_, pairwise_append.mpr
      ⟨hgl, pairwise_cons.mpr ⟨?_, (pairwise_cons.mp hgr).2⟩, fun y hy => ?_⟩⟩
    · simp only [forall_mem_append, forall_mem_cons]
      exact habove
    · simp only [forall_mem_append, forall_mem_cons]
      exact ⟨hpos.1, Nat.add_pos_left hpos.2.1 _, hpos.2.2⟩
    · exact fun y hy => Joined.stop_merged hadj ▸ hgap y hy
    · have := hlr y hy
      rw [forall_mem_cons] at this ⊢
      exact this

theorem joinPrev_spec (hf : FreeList (h.setPtr (pred base l) b.addr) base (l ++ b :: r))
    (hp : Place base l b r) (hgap : ∀ x ∈ r, b.stop < x.addr) (hlt : total l + b.size < 2 ^ 32) :
    ∃ F, FreeList (h.joinPrev b.addr (pred base l)) base F ∧ Sorted base F ∧
      Joined (l ++ b :: r) F ∧ pred base l ∈ base :: addrs F := by
  have hsizes := hf.sizes
  have hbase := hf.baseSize
  rw [Heap.size_setPtr] at hsizes hbase
  have hmem : pred base l ∈ base :: addrs (l ++ b :: r) := by
    rw [addrs_append, ← cons_append]
    exact mem_append_left _ pred_mem
  -- Only the last of the blocks before it can be adjacent.
  rcases eq_nil_or_concat l with rfl | ⟨l, x, rfl⟩
  · have hne : pred base [] + HDR * h.size (pred base []) ≠ b.addr := by
      have := hp.above
      have : 0 < HDR := by decide
      rw [pred_nil, hbase]
      omega
    refine ⟨_, ?_, hp.sorted_insert nofun hgap, .refl _, hmem⟩
    rwa [Heap.joinPrev, if_neg hne]
  rw [concat_eq_append] at *
  have hx : h.size x.addr = x.size := hsizes x (by simp)
  rw [pred_concat] at *
  by_cases hadj : x.stop = b.addr
  · have hsum : x.size + b.size < 2 ^ 32 := by
      simp only [total_append, total_cons, total_nil] at hlt
      omega
    obtain ⟨hf', hs⟩ := joinPrev_adjacent hf hp hgap hadj hsum
    refine ⟨_, hf', hs, ?_, by simp⟩
    rw [append_assoc, singleton_append]
    exact .merge l r hadj
  · have hne : x.addr + HDR * h.size x.addr ≠ b.addr := hx ▸ hadj
    have hlast : x.stop < b.addr := Nat.lt_of_le_of_ne (hp.left x (by simp)) hadj
    refine ⟨_, ?_, hp.sorted_insert ?_ hgap, .refl _, hmem⟩
    · rwa [Heap.joinPrev, if_neg hne]
    · have hs := hp.sorted
      rw [append_assoc, singleton_append] at hs
      obtain ⟨-, -, hlr⟩ := pairwise_append.mp hs.gaps
      refine forall_mem_append.mpr ⟨fun y hy => ?_, forall_mem_singleton.mpr hlast⟩
      have := hlr y hy x mem_cons_self
      unfold Block.stop at this hlast ⊢
      omega

def Stops (h : Heap) (bp p : Nat) : Prop :=
  (p < bp ∧ bp < h.ptr p) ∨ (h.ptr p ≤ p ∧ (p < bp ∨ bp < h.ptr p))

theorem seek_of_stops {bp p : Nat} (hs : Stops h bp p) (k : Nat) :
    h.seek bp (k + 1) p = some p := by
  rw [Heap.seek]
  rcases hs with hs | hs
  · rw [if_pos hs]
  · rw [if_pos hs, ite_self]

theorem seek_of_not_stops {bp p : Nat} (hs : ¬ Stops h bp p) (k : Nat) :
    h.seek bp (k + 1) p = h.seek bp k (h.ptr p) := by
  rw [Stops, not_or] at hs
  rw [Heap.seek, if_neg hs.1, if_neg hs.2]

theorem seek_walk {bp p q : Nat} {m : List Nat} (hm : Path h.ptr p m q)
    (hs : ∀ x ∈ p :: m, ¬ Stops h bp x) (k : Nat) :
    h.seek bp (k + m.length + 1) p = h.seek bp k q := by
  induction m generalizing p with
  | nil => rw [← path_nil.mp hm, length_nil, Nat.add_zero, seek_of_not_stops (hs p (by simp))]
  | cons x m ih =>
    obtain ⟨hx, hm⟩ := path_cons.mp hm
    obtain ⟨hp, hs⟩ := forall_mem_cons.mp hs
    rw [seek_of_not_stops hp, hx, length_cons, ← Nat.add_assoc]
    exact ih hm hs

theorem Sorted.le_pred (hs : Sorted base l) {a : Nat} (ha : a ∈ base :: addrs l) :
    a ≤ pred base l := by
  have hcat := dropLast_append_getLast (cons_ne_nil base (addrs l))
  have hn := hs.nodes
  rw [← hcat] at hn ha
  rcases mem_append.mp ha with ha | ha
  · exact Nat.le_of_lt ((pairwise_append.mp hn).2.2 a ha _ (by simp [pred]))
  · exact Nat.le_of_eq (mem_singleton.mp ha)

theorem exists_pred {a : Nat} (ha : a ∈ base :: addrs F) :
    ∃ l r, F = l ++ r ∧ a = pred base l := by
  rcases mem_cons.mp ha with rfl | ha
  · exact ⟨[], F, rfl, rfl⟩
  · obtain ⟨x, hx, rfl⟩ := mem_map.mp ha
    obtain ⟨l, r, rfl⟩ := append_of_mem hx
    exact ⟨l ++ [x], r, by simp, by simp⟩

theorem Sorted.mem_of_lt {q : Block} (hs : Sorted base (l ++ q :: r)) {a : Nat}
    (ha : a ∈ base :: addrs (l ++ q :: r)) (hlt : a < q.addr) : a ∈ base :: addrs l := by
  rw [addrs_append, ← cons_append] at ha
  refine (mem_append.mp ha).resolve_right fun ha => ?_
  rw [addrs_cons] at ha
  rcases mem_cons.mp ha with rfl | ha
  · exact Nat.lt_irrefl _ hlt
  · have hq : q.addr < a := (pairwise_cons.mp (pairwise_cons.mp hs.right.nodes).2).1 a ha
    omega

section

variable (hf : FreeList h base (l ++ r)) (hp : Place base l b r)

include hf hp

theorem stops_pred :
    Stops h b.addr (pred base l) := by
  have hlt := hp.lt_left pred_mem
  cases r with
  | nil =>
    rw [append_nil] at hf
    refine .inr ⟨?_, .inl hlt⟩
    rw [hf.next_pred_nil]
    exact hp.sorted.left.le_pred mem_cons_self
  | cons q r =>
    refine .inl ⟨hlt, ?_⟩
    rw [hf.next_pred_cons]
    exact hp.lt_right mem_cons_self

theorem not_stops {a : Nat}
    (ha : a ∈ base :: addrs (l ++ r)) (hne : a ≠ pred base l) : ¬ Stops h b.addr a := by
  have hbase : base < b.addr := hp.lt_left mem_cons_self
  have hle : a < b.addr → a ≤ pred base l := fun hlt => by
    rw [addrs_append, ← cons_append] at ha
    rcases mem_append.mp ha with ha | ha
    · exact hp.sorted.left.le_pred ha
    · have := hp.lt_right ha
      omega
  have hpred : pred base l ∈ base :: addrs (l ++ r) := by
    rw [addrs_append, ← cons_append]
    exact mem_append_left _ pred_mem
  have hplt := hp.lt_left pred_mem
  have hsorted := hp.sorted
  obtain ⟨l', r', heq, rfl⟩ := exists_pred ha
  rw [heq] at hf hsorted hpred
  cases r' with
  | nil =>
    rw [append_nil] at hf hsorted hpred
    rw [Stops, hf.next_pred_nil]
    have := hsorted.le_pred hpred
    omega
  | cons q r' =>
    rw [Stops, hf.next_pred_cons]
    have hlt : pred base l' < q.addr := by
      have hn := hsorted.nodes
      rw [addrs_append, ← cons_append] at hn
      exact (pairwise_append.mp hn).2.2 _ pred_mem _ mem_cons_self
    have : b.addr < q.addr → pred base l ≤ pred base l' := fun hb =>
      hsorted.left.le_pred (hsorted.mem_of_lt hpred (Nat.lt_trans hplt hb))
    omega

theorem seek_spec {a : Nat}
    (ha : a ∈ base :: addrs (l ++ r)) :
    ∃ N, ∀ fuel, N ≤ fuel → h.seek b.addr fuel a = some (pred base l) := by
  by_cases hne : a = pred base l
  · refine ⟨1, fun fuel hfuel => ?_⟩
    obtain ⟨k, rfl⟩ := Nat.exists_eq_add_of_le' hfuel
    rw [hne]
    exact seek_of_stops (stops_pred hf hp) k
  obtain ⟨t, ht, hperm⟩ := hf.circle.tour ha
  have hpred : pred base l ∈ a :: t := by
    rw [hperm.mem_iff, addrs_append, ← cons_append]
    exact mem_append_left _ pred_mem
  obtain ⟨m, m', rfl⟩ := append_of_mem ((mem_cons.mp hpred).resolve_left (Ne.symm hne))
  have hnd := hperm.nodup_iff.mpr hp.sorted.nodup
  refine ⟨m.length + 2, fun fuel hfuel => ?_⟩
  obtain ⟨k, rfl⟩ := Nat.exists_eq_add_of_le' hfuel
  have hwalk : ∀ x ∈ a :: m, ¬ Stops h b.addr x := fun x hx => by
    have hmem : x ∈ a :: (m ++ pred base l :: m') := by
      rw [← cons_append]
      exact mem_append_left _ hx
    refine not_stops hf hp (hperm.mem_iff.mp hmem) fun he => ?_
    rw [← cons_append] at hnd
    exact (nodup_append.mp hnd).2.2 x hx x (he ▸ mem_cons_self) rfl
  have hk : k + (m.length + 2) = k + 1 + m.length + 1 := by omega
  rw [hk, seek_walk (path_append.mp ht).1 hwalk]
  exact seek_of_stops (stops_pred hf hp) k

end

theorem free_spec (hf : FreeList h base F) (hs : Sorted base F) (hfreep : h.freep ∈ base :: addrs F)
    (habove : base + HDR ≤ b.addr) (hpos : 0 < b.size) (hsize : h.size b.addr = b.size)
    (hap : ∀ x ∈ F, Apart x b) (hlt : total F + b.size < 2 ^ 32) :
    ∃ h' F' N, (∀ fuel, N ≤ fuel → h.free fuel (b.addr + HDR) = some h') ∧
      FreeList h' base F' ∧ Sorted base F' ∧ h'.freep ∈ base :: addrs F' ∧ Joined (b :: F) F' ∧
      ∀ a, a ∉ base :: addrs F → a ≠ b.addr → h'.hdr a = h.hdr a := by
  obtain ⟨l, r, rfl, hl, hr⟩ := hs.split hap
  have hp : Place base l b r := ⟨hs, habove, hpos, hl, hr⟩
  obtain ⟨N, hN⟩ := seek_spec hf hp hfreep
  rw [total_append] at hlt
  obtain ⟨b', r', hj⟩ := joinNext_spec hf hp hsize (by omega)
  have htotal := hj.joined.total
  simp only [total_append, total_cons] at htotal
  have hprev := joinPrev_spec (h := h.joinNext b.addr (pred base l)) (hj.addr ▸ hj.list) hj.place
    hj.gap (by omega)
  rw [hj.addr] at hprev
  obtain ⟨F', hf', hs', hj', hmem⟩ := hprev
  refine ⟨{ (h.joinNext b.addr (pred base l)).joinPrev b.addr (pred base l) with
    freep := pred base l }, F', N, fun fuel hfuel => ?_, ⟨hf'.circle, hf'.sizes, hf'.baseSize⟩,
    hs', hmem, ?_, fun a ha hab => ?_⟩
  · simp [Heap.free, hN fuel hfuel]
  · have hperm : (b :: (l ++ r)).Perm (l ++ b :: r) := perm_middle.symm
    have hsame : Joined (b :: (l ++ r)) (l ++ b :: r) :=
      ⟨by simp only [total_append, total_cons]; omega,
        fun c _ hc x hx => hc x (hperm.mem_iff.mpr hx),
        fun m hm x hx => hm x (hperm.mem_iff.mpr hx),
        fun n ⟨x, hx, hn⟩ => ⟨x, hperm.mem_iff.mp hx, hn⟩⟩
    exact (hsame.trans hj.joined).trans hj'
  · have hap : a ≠ pred base l := fun he => ha (he ▸ ?_)
    · unfold Heap.joinPrev Heap.joinNext
      split <;> split <;> simp [Heap.setPtr, Heap.setSize, hab, hap]
    · rw [addrs_append, ← cons_append]
      exact mem_append_left _ pred_mem

end Xv6.Umalloc
