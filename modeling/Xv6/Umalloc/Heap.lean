import Xv6.Umalloc.FreeList

/-! The invariant of the user heap: the free list and the live blocks share the memory that `sbrk`
has given. `malloc` and `free` keep it, and their loops end. -/

namespace Xv6.Umalloc

open Function List

/-- The blocks `F` are free and `s.live` are in use; no byte is in two of them, and together they
are the units from `sbrk`. -/
structure Inv (mem base : Nat) (s : State) (F : List Block) : Prop where
  list : FreeList s.heap base F
  sorted : Sorted base F
  freep : s.heap.freep ∈ base :: addrs F
  live : s.live.Pairwise Apart
  sizes : ∀ b ∈ s.live, s.heap.size b.addr = b.size
  pos : ∀ b ∈ s.live, 0 < b.size
  above : ∀ b ∈ s.live, base + HDR ≤ b.addr
  apart : ∀ x ∈ F, ∀ b ∈ s.live, Apart x b
  brk : ∀ b ∈ F ++ s.live, b.stop ≤ s.brk
  low : base + HDR ≤ s.brk
  units : total F + total s.live = s.units
  mem : s.units ≤ mem

theorem Apart.symm {a b : Block} (h : Apart a b) : Apart b a := Or.symm h

instance : Std.Symm Apart := ⟨fun _ _ => Apart.symm⟩

theorem Apart.addr_ne {a b : Block} (h : Apart a b) (ha : 0 < a.size) (hb : 0 < b.size) :
    a.addr ≠ b.addr := by
  have := Block.addr_lt_stop ha
  have := Block.addr_lt_stop hb
  have : 0 < HDR := by decide
  unfold Apart at h
  omega

variable {mem base : Nat} {s : State} {F l r : List Block} {b c f : Block}

namespace Inv

section

variable (h : Inv mem base s F)

include h

theorem live_not_node (hb : b ∈ s.live) : b.addr ∉ base :: addrs F := by
  intro hm
  rcases mem_cons.mp hm with he | hm
  · have := h.above b hb
    have : 0 < HDR := by decide
    omega
  · obtain ⟨x, hx, he⟩ := mem_map.mp hm
    exact (h.apart x hx b hb).addr_ne (h.sorted.pos x hx) (h.pos b hb) he

theorem free_apart (hmem : mem < 2 ^ 32) {heap : Heap} {live : List Block}
    {units brk : Nat} (hlist : FreeList heap base F) (hfreep : heap.freep ∈ base :: addrs F)
    (hsub : live.Sublist s.live) (hsizes : ∀ x ∈ live, heap.size x.addr = x.size)
    (habove : base + HDR ≤ b.addr) (hpos : 0 < b.size) (hsize : heap.size b.addr = b.size)
    (hF : ∀ x ∈ F, Apart x b) (hlive : ∀ x ∈ live, Apart b x) (hbrk : b.stop ≤ brk)
    (hle : s.brk ≤ brk) (hunits : total F + b.size + total live = units) (hcap : units ≤ mem) :
    ∃ heap' F' N, (∀ fuel, N ≤ fuel → heap.free fuel (b.addr + HDR) = some heap') ∧
      Inv mem base ⟨heap', live, units, brk⟩ F' ∧ ∃ x ∈ F', b.size ≤ x.size := by
  obtain ⟨heap', F', N, hN, hlist', hsorted, hfreep', hj, hsame⟩ :=
    free_spec hlist h.sorted hfreep habove hpos hsize hF (by omega)
  have hmemlive := fun x (hx : x ∈ live) => hsub.subset hx
  refine ⟨heap', F', N, hN, ?_, hj.large _ ⟨b, mem_cons_self, Nat.le_refl _⟩⟩
  refine ⟨hlist', hsorted, hfreep', h.live.sublist hsub, fun x hx => ?_,
    fun x hx => h.pos x (hmemlive x hx), fun x hx => h.above x (hmemlive x hx), fun x hx y hy => ?_,
    ?_, Nat.le_trans h.low hle, ?_, hcap⟩
  · have hne := (hlive x hx).addr_ne hpos (h.pos x (hmemlive x hx))
    have hnode := h.live_not_node (hmemlive x hx)
    change (heap'.hdr x.addr).size = x.size
    rw [hsame x.addr hnode hne.symm]
    exact hsizes x hx
  · refine hj.apart y (h.pos y (hmemlive y hy)) ?_ x hx
    exact forall_mem_cons.mpr ⟨hlive y hy, fun z hz => h.apart z hz y (hmemlive y hy)⟩
  · refine forall_mem_append.mpr ⟨hj.stop brk ?_, fun x hx => ?_⟩
    · refine forall_mem_cons.mpr ⟨hbrk, fun x hx => ?_⟩
      exact Nat.le_trans (h.brk x (mem_append_left _ hx)) hle
    · exact Nat.le_trans (h.brk x (mem_append_right _ (hmemlive x hx))) hle
  · have := hj.total
    rw [total_cons] at this
    dsimp only
    omega

theorem release (hmem : mem < 2 ^ 32) (hb : b ∈ s.live) :
    ∃ s' F' N, (∀ fuel, N ≤ fuel → Umalloc.release s fuel b = some s') ∧ Inv mem base s' F' ∧
      s'.live = s.live.erase b := by
  have hperm := perm_cons_erase hb
  have hlive : ∀ x ∈ s.live.erase b, Apart b x :=
    (pairwise_cons.mp ((hperm.pairwise_iff fun h => h.symm).mp h.live)).1
  have hsub : (s.live.erase b).Sublist s.live := erase_sublist
  have htotal : total s.live = b.size + total (s.live.erase b) := (hperm.map _).sum_nat
  obtain ⟨heap', F', N, hN, hinv, -⟩ := h.free_apart hmem h.list h.freep hsub
    (fun x hx => h.sizes x (hsub.subset hx)) (h.above b hb) (h.pos b hb) (h.sizes b hb)
    (fun x hx => h.apart x hx b hb) hlive (h.brk b (mem_append_right F hb)) (Nat.le_refl _)
    (show total F + b.size + total (s.live.erase b) = s.units by have := h.units; omega) h.mem
  refine ⟨_, F', N, fun fuel hfuel => ?_, hinv, rfl⟩
  rw [Umalloc.release, hN fuel hfuel, Option.map_some]

theorem lt_of_node {a : Nat} (ha : a ∈ base :: addrs F) : a < s.brk := by
  rcases mem_cons.mp ha with rfl | ha
  · have := h.low
    have : 0 < HDR := by decide
    omega
  · obtain ⟨x, hx, rfl⟩ := mem_map.mp ha
    have := h.brk x (mem_append_left _ hx)
    have := Block.addr_lt_stop (h.sorted.pos x hx)
    have : 0 < HDR := by decide
    omega

theorem morecore (hmem : mem < 2 ^ 32) (nu : Nat) (answer : Option Nat) :
    (∀ fuel, Umalloc.morecore mem s fuel nu answer = some (s, 0)) ∨
    ∃ s' F' N, (∀ fuel, N ≤ fuel →
        Umalloc.morecore mem s fuel nu answer = some (s', s'.heap.freep)) ∧
      Inv mem base s' F' ∧ s'.live = s.live ∧ ∃ x ∈ F', nu ≤ x.size := by
  by_cases hroom : s.units + (if nu < 4096 then 4096 else nu) ≤ mem
  swap
  · exact .inl fun fuel => by simp only [Umalloc.morecore, sbrk, if_neg hroom]
  cases answer with
  | none => exact .inl fun fuel => by simp only [Umalloc.morecore, sbrk, if_pos hroom,
    Option.map_none]
  | some gap =>
    refine .inr ?_
    generalize hn : (if nu < 4096 then 4096 else nu) = n at hroom
    have hpos : 0 < n ∧ nu ≤ n := by split at hn <;> omega
    have hlt : n < 2 ^ 32 := by omega
    have hnode : ∀ {a}, a ∈ base :: addrs F → a ≠ s.brk + gap := fun ha => by
      have := h.lt_of_node ha
      omega
    have hlist : FreeList (s.heap.setSize (s.brk + gap) n) base F := by
      refine ⟨by rw [Heap.ptr_setSize]; exact h.list.circle, fun x hx => ?_, ?_⟩
      · rw [Heap.size_setSize, update_of_ne (hnode (mem_cons_of_mem _ (mem_map_of_mem hx)))]
        exact h.list.sizes x hx
      · rw [Heap.size_setSize, update_of_ne (hnode mem_cons_self)]
        exact h.list.baseSize
    have hle : ∀ x ∈ s.live, x.addr < s.brk := fun x hx => by
      have := h.brk x (mem_append_right F hx)
      have := Block.addr_lt_stop (h.pos x hx)
      have : 0 < HDR := by decide
      omega
    have hsizes : ∀ x ∈ s.live, (s.heap.setSize (s.brk + gap) n).size x.addr = x.size :=
      fun x hx => by
        rw [Heap.size_setSize, update_of_ne (by have := hle x hx; omega)]
        exact h.sizes x hx
    have hsize : (s.heap.setSize (s.brk + gap) n).size (s.brk + gap) = n := by
      rw [Heap.size_setSize, update_self, Nat.mod_eq_of_lt hlt]
    have hF : ∀ x ∈ F, Apart x ⟨s.brk + gap, n⟩ := fun x hx =>
      .inl (Nat.le_add_right_of_le (h.brk x (mem_append_left _ hx)))
    have hlive : ∀ x ∈ s.live, Apart ⟨s.brk + gap, n⟩ x := fun x hx =>
      .inr (Nat.le_add_right_of_le (h.brk x (mem_append_right F hx)))
    have hstop : s.brk ≤ Block.stop ⟨s.brk + gap, n⟩ := by
      unfold Block.stop
      dsimp only
      omega
    have hunits : total F + n + total s.live = s.units + n := by
      have := h.units
      omega
    obtain ⟨heap', F', N, hN, hinv, x, hx, hsize⟩ := h.free_apart hmem hlist
      h.freep (Sublist.refl s.live) hsizes (Nat.le_add_right_of_le h.low) hpos.1 hsize hF hlive
      (Nat.le_refl _) hstop hunits hroom
    refine ⟨_, F', N, fun fuel hfuel => ?_, hinv, rfl, x, hx, Nat.le_trans hpos.2 hsize⟩
    simp only [Umalloc.morecore, sbrk, hn, if_pos hroom, Option.map_some, hN fuel hfuel]
    rfl

end

section

variable (h : Inv mem base s (l ++ f :: r))

include h

theorem carve {heap : Heap} {R : List Block}
    (hlist : FreeList heap base (l ++ (R ++ r)))
    (hfreep : heap.freep ∈ base :: addrs (l ++ (R ++ r)))
    (hsizes : ∀ b ∈ c :: s.live, heap.size b.addr = b.size) (hpos : 0 < c.size)
    (hc : f.addr ≤ c.addr ∧ c.stop = f.stop) (hR : ∀ x ∈ R, f.addr ≤ x.addr ∧ x.stop ≤ c.addr)
    (hgaps : Sorted base R) (htotal : total R + c.size = f.size) :
    Inv mem base { s with heap, live := c :: s.live } (l ++ (R ++ r)) := by
  obtain ⟨hl, hfr, hlfr⟩ := pairwise_append.mp h.sorted.gaps
  obtain ⟨hfr', hr⟩ := pairwise_cons.mp hfr
  have habove := h.sorted.above
  have hspos := h.sorted.pos
  have hbrk := h.brk
  have hap := h.apart
  simp only [forall_mem_append, forall_mem_cons] at habove hspos hbrk hap
  have hfc : 0 < HDR := by decide
  have hcs := Block.addr_lt_stop hpos
  have hstop : ∀ {x : Block}, x ∈ R → x.stop ≤ f.stop := fun hx => by
    have := (hR _ hx).2
    omega
  have hxf : ∀ {b : Block}, b ∈ s.live → Apart f b := fun hb => hap.2.1 _ hb
  refine ⟨hlist, ⟨?_, ?_, ?_⟩, hfreep, pairwise_cons.mpr ⟨fun b hb => ?_, h.live⟩, hsizes,
    forall_mem_cons.mpr ⟨hpos, h.pos⟩, forall_mem_cons.mpr ⟨?_, h.above⟩, ?_, ?_, h.low,
    ?_, h.mem⟩
  · simp only [forall_mem_append]
    exact ⟨habove.1, hgaps.above, habove.2.2⟩
  · simp only [forall_mem_append]
    exact ⟨hspos.1, hgaps.pos, hspos.2.2⟩
  · refine pairwise_append.mpr ⟨hl, pairwise_append.mpr ⟨hgaps.gaps, hr, ?_⟩, ?_⟩
    · exact fun x hx y hy => Nat.lt_of_le_of_lt (hstop hx) (hfr' y hy)
    · refine fun x hx => forall_mem_append.mpr ⟨fun y hy => ?_, fun y hy => ?_⟩
      · exact Nat.lt_of_lt_of_le (hlfr x hx f mem_cons_self) (hR y hy).1
      · exact hlfr x hx y (mem_cons_of_mem f hy)
  · have := hxf hb
    unfold Apart at this ⊢
    omega
  · omega
  · simp only [forall_mem_append, forall_mem_cons]
    refine ⟨fun x hx => ⟨.inl ?_, hap.1 x hx⟩, fun x hx => ⟨.inl (hR x hx).2, fun b hb => ?_⟩,
      fun x hx => ⟨.inr ?_, hap.2.2 x hx⟩⟩
    · have := hlfr x hx f mem_cons_self
      omega
    · have := hxf hb
      have := hR x hx
      have := hstop hx
      unfold Apart at *
      omega
    · have := hfr' x hx
      omega
  · simp only [forall_mem_append, forall_mem_cons]
    refine ⟨⟨hbrk.1.1, fun x hx => ?_, hbrk.1.2.2⟩, hc.2 ▸ hbrk.1.2.1, hbrk.2⟩
    exact Nat.le_trans (hstop hx) hbrk.1.2.1
  · have := h.units
    simp only [total_append, total_cons] at this ⊢
    omega

theorem eq_pred {prevp : Nat}
    (hmem : prevp ∈ base :: addrs (l ++ f :: r)) (hptr : s.heap.ptr prevp = f.addr) :
    prevp = pred base l := by
  refine h.list.circle.injOn h.sorted.nodup hmem ?_ (hptr.trans h.list.next_pred_cons.symm)
  rw [addrs_append, ← cons_append]
  exact mem_append_left _ pred_mem

theorem take_all :
    Inv mem base
      { s with
        heap := { s.heap.setPtr (pred base l) (s.heap.ptr f.addr) with freep := pred base l }
        live := f :: s.live } (l ++ ([] ++ r)) := by
  have hf : f ∈ l ++ f :: r := by simp
  have hsub : (l ++ r).Sublist (l ++ f :: r) := (sublist_cons_self f r).append_left l
  refine h.carve ⟨?_, ?_, ?_⟩ ?_ ?_ (h.sorted.pos f hf) ⟨Nat.le_refl _, rfl⟩ nofun
    ⟨nofun, nofun, .nil⟩ (Nat.zero_add _)
  · rw [Heap.ptr_freep, Heap.ptr_setPtr, nil_append, circle_pred]
    exact (circle_pred.mp h.list.circle).erase h.sorted.pred_not_mem
  · rw [Heap.size_freep, Heap.size_setPtr]
    exact fun b hb => h.list.sizes b (hsub.subset hb)
  · rw [Heap.size_freep, Heap.size_setPtr]
    exact h.list.baseSize
  · change pred base l ∈ _
    rw [nil_append, addrs_append, ← cons_append]
    exact mem_append_left _ pred_mem
  · rw [Heap.size_freep, Heap.size_setPtr]
    exact forall_mem_cons.mpr ⟨h.list.sizes f hf, h.sizes⟩

theorem take_end (hmem : mem < 2 ^ 32) {n prevp : Nat}
    (hn : 0 < n) (hlt : n < f.size) (hprev : prevp ∈ base :: addrs (l ++ f :: r)) :
    Inv mem base
      { s with
        heap :=
          { (s.heap.setSize f.addr (f.size - n)).setSize (f.addr + HDR * (f.size - n)) n with
            freep := prevp }
        live := ⟨f.addr + HDR * (f.size - n), n⟩ :: s.live }
      (l ++ ([⟨f.addr, f.size - n⟩] ++ r)) := by
  have hf : f ∈ l ++ f :: r := by simp
  have hfsize : f.size < 2 ^ 32 := by
    have := h.units
    have := h.mem
    simp only [total_append, total_cons] at *
    omega
  have hrest : HDR ≤ HDR * (f.size - n) := Nat.le_mul_of_pos_right HDR (by omega)
  have hend : f.addr + HDR * (f.size - n) + HDR * n = f.stop := by
    unfold Block.stop
    rw [Nat.add_assoc, ← Nat.mul_add, Nat.sub_add_cancel (Nat.le_of_lt hlt)]
  have hn' : HDR ≤ HDR * n := Nat.le_mul_of_pos_right HDR hn
  have hHDR : 0 < HDR := by decide
  -- The two headers that are written are inside of `f`.
  have hout : ∀ {x : Block}, Apart x f → 0 < x.size →
      x.addr ≠ f.addr ∧ x.addr ≠ f.addr + HDR * (f.size - n) := fun hx hpos => by
    have := Block.addr_lt_stop hpos
    unfold Apart at hx
    omega
  have hsame : ∀ a, a ≠ f.addr → a ≠ f.addr + HDR * (f.size - n) →
      ((s.heap.setSize f.addr (f.size - n)).setSize (f.addr + HDR * (f.size - n)) n).size a =
        s.heap.size a := fun a h₁ h₂ => by
    rw [Heap.size_setSize, update_of_ne h₂, Heap.size_setSize, update_of_ne h₁]
  obtain ⟨-, hfr, hlfr⟩ := pairwise_append.mp h.sorted.gaps
  have hapl : ∀ x ∈ l, Apart x f := fun x hx => .inl (Nat.le_of_lt (hlfr x hx f mem_cons_self))
  have hapr : ∀ x ∈ r, Apart x f := fun x hx =>
    .inr (Nat.le_of_lt ((pairwise_cons.mp hfr).1 x hx))
  have haddrs : addrs (l ++ ([⟨f.addr, f.size - n⟩] ++ r)) = addrs (l ++ f :: r) := by simp
  refine h.carve ⟨?_, ?_, ?_⟩ ?_ ?_ hn ⟨Nat.le_add_right _ _, hend⟩ ?_ ⟨?_, ?_, ?_⟩ ?_
  · rw [haddrs]
    rw [Heap.ptr_freep, Heap.ptr_setSize, Heap.ptr_setSize]
    exact h.list.circle
  · rw [Heap.size_freep]
    simp only [forall_mem_append, forall_mem_singleton]
    refine ⟨fun x hx => ?_, ?_, fun x hx => ?_⟩
    · have hx' : x ∈ l ++ f :: r := by simp [hx]
      have := hout (hapl x hx) (h.sorted.pos x hx')
      rw [hsame _ this.1 this.2]
      exact h.list.sizes x hx'
    · rw [Heap.size_setSize, update_of_ne (by omega), Heap.size_setSize, update_self,
        Nat.mod_eq_of_lt (by omega)]
    · have hx' : x ∈ l ++ f :: r := by simp [hx]
      have := hout (hapr x hx) (h.sorted.pos x hx')
      rw [hsame _ this.1 this.2]
      exact h.list.sizes x hx'
  · have := h.sorted.above f hf
    exact (hsame base (by omega) (by omega)).trans h.list.baseSize
  · rw [haddrs]
    exact hprev
  · rw [Heap.size_freep]
    refine forall_mem_cons.mpr ⟨?_, fun b hb => ?_⟩
    · rw [Heap.size_setSize, update_self, Nat.mod_eq_of_lt (by omega)]
    · have := hout (h.apart f hf b hb).symm (h.pos b hb)
      rw [hsame _ this.1 this.2]
      exact h.sizes b hb
  · exact forall_mem_singleton.mpr ⟨Nat.le_refl _, Nat.le_refl _⟩
  · exact forall_mem_singleton.mpr (h.sorted.above f hf)
  · exact forall_mem_singleton.mpr (Nat.sub_pos_of_lt hlt)
  · exact pairwise_singleton _ _
  · simp only [total_cons, total_nil]
    omega

end

theorem take (h : Inv mem base s F) (hmem : mem < 2 ^ 32) (hf : f ∈ F) {n prevp : Nat} (hn : 0 < n)
    (hle : n ≤ f.size) (hprev : prevp ∈ base :: addrs F) (hptr : s.heap.ptr prevp = f.addr) :
    ∃ F' a, Inv mem base (Umalloc.take s n prevp f.addr).1 F' ∧
      (Umalloc.take s n prevp f.addr).2 = a + HDR ∧
      (Umalloc.take s n prevp f.addr).1.live = ⟨a, n⟩ :: s.live := by
  obtain ⟨l, r, rfl⟩ := append_of_mem hf
  have hsize := h.list.sizes f hf
  by_cases he : f.size = n
  · subst he
    rw [Umalloc.take, if_pos hsize, h.eq_pred hprev hptr]
    exact ⟨_, f.addr, h.take_all, rfl, rfl⟩
  have hlt : n < f.size := by omega
  have hmod : f.size - n < 2 ^ 32 := by
    have := h.units
    have := h.mem
    simp only [total_append, total_cons] at *
    omega
  rw [Umalloc.take, if_neg (hsize ▸ he), hsize]
  simp only [Heap.size_setSize, update_self, Nat.mod_eq_of_lt hmod]
  exact ⟨_, _, h.take_end hmem hn hlt hprev, rfl, rfl⟩

end Inv

theorem mallocLoop_walk {n q a : Nat} {m : List Nat} (hm : Path s.heap.ptr q m a)
    (hs : ∀ x ∈ m, s.heap.size x < n ∧ x ≠ s.heap.freep) (k : Nat) (answers : List (Option Nat)) :
    mallocLoop mem n (k + m.length) s q (s.heap.ptr q) answers =
      mallocLoop mem n k s ((q :: m).getLast (cons_ne_nil q m)) a answers := by
  induction m generalizing q with
  | nil => rw [path_nil.mp hm, length_nil, Nat.add_zero, getLast_singleton]
  | cons x m ih =>
    obtain ⟨hx, hm⟩ := path_cons.mp hm
    obtain ⟨⟨hsize, hfreep⟩, hs⟩ := forall_mem_cons.mp hs
    rw [hx, length_cons, ← Nat.add_assoc, mallocLoop, if_neg (Nat.not_le_of_lt hsize),
      if_neg hfreep, getLast_cons (cons_ne_nil x m)]
    exact ih hm hs

/-- What the loop of `malloc` does after `j` rounds: it takes from a block that is large enough, or
all are too small and it calls `morecore`. -/
theorem search (h : Inv mem base s F) {n : Nat} (hn : 0 < n) :
    (∃ f ∈ F, ∃ prevp ∈ base :: addrs F, ∃ j, n ≤ f.size ∧ s.heap.ptr prevp = f.addr ∧
      ∀ k answers, mallocLoop mem n (k + 1 + j) s s.heap.freep (s.heap.ptr s.heap.freep) answers =
        some (Umalloc.take s n prevp f.addr)) ∨
    (∀ f ∈ F, f.size < n) ∧ ∃ j, ∀ k answers,
      mallocLoop mem n (k + 1 + j) s s.heap.freep (s.heap.ptr s.heap.freep) answers =
        (Umalloc.morecore mem s k n answers.head?.join).bind fun (s, p) =>
          if p = 0 then some (s, 0) else mallocLoop mem n k s p (s.heap.ptr p) answers.tail := by
  obtain ⟨t, ht, hperm⟩ := h.list.circle.tour h.freep
  have hnd := hperm.nodup_iff.mpr h.sorted.nodup
  have hnot : s.heap.freep ∉ t := (nodup_cons.mp hnd).1
  cases hfind : (t ++ [s.heap.freep]).find? fun x => decide (n ≤ s.heap.size x) with
  | some a =>
    obtain ⟨ha, m, m', hsplit, hm⟩ := find?_eq_some_iff_append.mp hfind
    -- The blocks before it are not `freep`, which comes last.
    have hpath : Path s.heap.ptr s.heap.freep m a ∧ ∀ x ∈ m, x ∈ t := by
      rcases eq_nil_or_concat m' with rfl | ⟨m', z, rfl⟩
      · obtain ⟨rfl, he⟩ := append_inj' hsplit rfl
        obtain rfl := (cons.inj he).1
        exact ⟨ht, fun x hx => hx⟩
      · rw [concat_eq_append, ← cons_append, ← append_assoc] at hsplit
        obtain ⟨rfl, -⟩ := append_inj' hsplit rfl
        exact ⟨(path_append.mp ht).1, fun x hx => mem_append_left _ hx⟩
    have hnode : a ∈ base :: addrs F := by
      have hmem : a ∈ t ++ [s.heap.freep] := mem_of_find?_eq_some hfind
      exact hperm.mem_iff.mp ((perm_append_singleton _ t).mem_iff.mp hmem)
    have hsize : n ≤ s.heap.size a := of_decide_eq_true ha
    have hbase : a ≠ base := fun he => by
      rw [he, h.list.baseSize] at hsize
      omega
    obtain ⟨f, hf, rfl⟩ := mem_map.mp ((mem_cons.mp hnode).resolve_left hbase)
    have hlast : (s.heap.freep :: m).getLast (cons_ne_nil _ m) ∈ base :: addrs F := by
      refine hperm.mem_iff.mp ?_
      rcases mem_cons.mp (getLast_mem (cons_ne_nil s.heap.freep m)) with he | he
      · exact mem_cons.mpr (.inl he)
      · exact mem_cons_of_mem _ (hpath.2 _ he)
    refine .inl ⟨f, hf, _, hlast, m.length, h.list.sizes f hf ▸ hsize, hpath.1.getLast_next,
      fun k answers => ?_⟩
    rw [mallocLoop_walk hpath.1 fun x hx => ⟨?_, fun he => hnot (he ▸ hpath.2 x hx)⟩, mallocLoop,
      if_pos hsize]
    simpa using hm x hx
  | none =>
    have hall : ∀ x ∈ base :: addrs F, s.heap.size x < n := fun x hx => by
      have hmem := (perm_append_singleton _ t).mem_iff.mpr (hperm.mem_iff.mpr hx)
      simpa using find?_eq_none.mp hfind x hmem
    refine .inr ⟨fun f hf => ?_, t.length, fun k answers => ?_⟩
    · rw [← h.list.sizes f hf]
      exact hall _ (mem_cons_of_mem _ (mem_map_of_mem hf))
    · have ht' : ∀ x ∈ t, s.heap.size x < n ∧ x ≠ s.heap.freep := fun x hx =>
        ⟨hall x (hperm.mem_iff.mp (mem_cons_of_mem _ hx)), fun he => hnot (he ▸ hx)⟩
      rw [mallocLoop_walk ht ht', mallocLoop, if_neg (Nat.not_le_of_lt (hall _ h.freep)),
        if_pos rfl]

/-- Before the first call of `malloc`, or with the invariant. -/
def Heaped (mem base : Nat) (s : State) : Prop :=
  (s.heap.freep = 0 ∧ s.live = [] ∧ s.units = 0 ∧ base + HDR ≤ s.brk) ∨ ∃ F, Inv mem base s F

theorem Inv.freep_ne (h : Inv mem base s F) (hbase : 0 < base) : s.heap.freep ≠ 0 := by
  rcases mem_cons.mp h.freep with he | hm
  · omega
  · obtain ⟨x, hx, he⟩ := mem_map.mp hm
    have := h.sorted.above x hx
    omega

theorem Heaped.init (h : Heaped mem base s) (hbase : 0 < base) :
    ∃ F, Inv mem base { s with heap := Umalloc.init base s.heap } F := by
  rcases h with ⟨hfreep, hlive, hunits, hbrk⟩ | ⟨F, h⟩
  · refine ⟨[], ?_⟩
    rw [Umalloc.init, if_pos hfreep]
    refine ⟨⟨?_, nofun, ?_⟩, ⟨nofun, nofun, .nil⟩, mem_cons_self, ?_, ?_, ?_, ?_, nofun, ?_,
      hbrk, ?_, ?_⟩
    · rw [Heap.ptr_setSize, Heap.ptr_freep, Heap.ptr_setPtr]
      exact path_nil.mpr (update_self ..)
    · rw [Heap.size_setSize, update_self, Nat.zero_mod]
    all_goals simp [hlive, hunits]
  · refine ⟨F, ?_⟩
    rw [Umalloc.init, if_neg (h.freep_ne hbase)]
    exact h

theorem malloc_spec (hmem : mem < 2 ^ 32) (hbase : 0 < base) (h : Heaped mem base s) (nbytes : Nat)
    (answers : List (Option Nat)) : ∃ N s' p,
      (∀ fuel, N ≤ fuel → malloc mem base s fuel nbytes answers = some (s', p)) ∧
      (∃ F, Inv mem base s' F) ∧
      ((p = 0 ∧ s'.live = s.live) ∨
        ∃ a, p = a + HDR ∧ s'.live = ⟨a, unitsFor nbytes⟩ :: s.live) := by
  obtain ⟨F, hinv⟩ := h.init hbase
  have hn : 0 < unitsFor nbytes := Nat.succ_pos _
  have hfuel : ∀ {N fuel : Nat}, N ≤ fuel → ∃ k, fuel = k + N := Nat.exists_eq_add_of_le'
  rcases search hinv hn with ⟨f, hf, prevp, hprev, j, hsize, hptr, hloop⟩ | ⟨hsmall, j, hloop⟩
  · obtain ⟨F', a, hinv', hp, hlive⟩ := hinv.take hmem hf hn hsize hprev hptr
    refine ⟨1 + j, _, _, fun fuel hf => ?_, ⟨F', hinv'⟩, .inr ⟨a, hp, hlive⟩⟩
    obtain ⟨k, rfl⟩ := hfuel hf
    rw [← Nat.add_assoc]
    exact hloop k answers
  rcases hinv.morecore hmem (unitsFor nbytes) answers.head?.join with
    hfail | ⟨s₁, F₁, N, hmore, hinv₁, hlive₁, x, hx, hxsize⟩
  · refine ⟨1 + j, _, 0, fun fuel hf => ?_, ⟨F, hinv⟩, .inl ⟨rfl, rfl⟩⟩
    obtain ⟨k, rfl⟩ := hfuel hf
    rw [← Nat.add_assoc]
    exact (hloop k answers).trans (by rw [hfail]; rfl)
  -- The free list now has a block that is large enough, and the second search finds one.
  rcases search hinv₁ hn with ⟨f, hf, prevp, hprev, j₁, hsize, hptr, hloop₁⟩ | ⟨hsmall₁, -⟩
  · obtain ⟨F', a, hinv', hp, hlive⟩ := hinv₁.take hmem hf hn hsize hprev hptr
    refine ⟨N + (1 + j₁) + 1 + j, _, _, fun fuel hf => ?_, ⟨F', hinv'⟩,
      .inr ⟨a, hp, hlive.trans (congrArg _ hlive₁)⟩⟩
    obtain ⟨k, rfl⟩ := hfuel hf
    have hk : k + (N + (1 + j₁) + 1 + j) = k + N + 1 + j₁ + 1 + j := by omega
    rw [hk]
    refine (hloop (k + N + 1 + j₁) answers).trans ?_
    rw [hmore _ (by omega), Option.bind_some]
    dsimp only
    rw [if_neg (hinv₁.freep_ne hbase)]
    exact hloop₁ (k + N) answers.tail
  · exact absurd (hsmall₁ x hx) (Nat.not_lt_of_le hxsize)

end Xv6.Umalloc
