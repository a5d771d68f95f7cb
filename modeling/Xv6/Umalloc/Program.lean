import Xv6.Umalloc.Heap

/-! Programs that allocate, free and write: the heap invariant holds in every state they reach, as
long as the units from `sbrk` can be counted in a `uint`. -/

namespace Xv6.Umalloc

open Function Option

variable {mem base : Nat} {s s' : State} {F : List Block} {b : Block}

theorem Inv.store (h : Inv mem base s F) (hb : b ∈ s.live) {a : Nat} (hlo : b.addr + HDR ≤ a)
    (hhi : a + HDR ≤ b.stop) (v : Header) :
    Inv mem base { s with heap := { s.heap with hdr := update s.heap.hdr a v } } F := by
  have hHDR : 0 < HDR := by decide
  have hout : ∀ x : Block, Apart x b → 0 < x.size → x.addr ≠ a := fun x hx hpos => by
    have := Block.addr_lt_stop hpos
    unfold Apart at hx
    omega
  have hne : ∀ {c}, c ≠ a → update s.heap.hdr a v c = s.heap.hdr c := fun hc => update_of_ne hc ..
  have hfree : ∀ x ∈ F, x.addr ≠ a := fun x hx =>
    hout x (h.apart x hx b hb) (h.sorted.pos x hx)
  have hbase : base ≠ a := by
    have := h.above b hb
    omega
  refine ⟨⟨h.list.circle.congr ?_, fun x hx => ?_, ?_⟩, h.sorted, h.freep, h.live, fun x hx => ?_,
    h.pos, h.above, h.apart, h.brk, h.low, h.units, h.mem⟩
  · refine List.forall_mem_cons.mpr ⟨congrArg Header.ptr (hne hbase), fun c hc => ?_⟩
    obtain ⟨x, hx, rfl⟩ := List.mem_map.mp hc
    exact congrArg Header.ptr (hne (hfree x hx))
  · exact (congrArg Header.size (hne (hfree x hx))).trans (h.list.sizes x hx)
  · exact (congrArg Header.size (hne hbase)).trans h.list.baseSize
  · refine (congrArg Header.size (hne ?_)).trans (h.sizes x hx)
    by_cases hxb : x = b
    · rw [hxb]
      omega
    · have hap : Apart x b := h.live.forall hx hb hxb
      exact hout x hap (h.pos x hx)

/-! A loop that ends, ends in the same way with more fuel. -/

section Fuel

theorem seek_mono {h : Heap} {bp p q : Nat} (k : Nat) {fuel : Nat}
    (hs : h.seek bp fuel p = some q) : h.seek bp (fuel + k) p = some q := by
  induction fuel generalizing p with
  | zero => cases hs
  | succ fuel ih =>
    rw [Nat.succ_add]
    by_cases hstop : Stops h bp p
    · rwa [seek_of_stops hstop] at hs ⊢
    · rw [seek_of_not_stops hstop] at hs ⊢
      exact ih hs

theorem free_mono {h h' : Heap} {ap : Nat} (k : Nat) {fuel : Nat} (hs : h.free fuel ap = some h') :
    h.free (fuel + k) ap = some h' := by
  obtain ⟨p, hp, rfl⟩ := map_eq_some_iff.mp hs
  exact map_eq_some_iff.mpr ⟨p, seek_mono k hp, rfl⟩

theorem morecore_mono {nu : Nat} {answer : Option Nat} {x : State × Nat} (k : Nat) {fuel : Nat}
    (hs : morecore mem s fuel nu answer = some x) :
    morecore mem s (fuel + k) nu answer = some x := by
  unfold morecore at hs ⊢
  dsimp only at hs ⊢
  split at hs
  · exact hs
  · obtain ⟨heap, hheap, rfl⟩ := map_eq_some_iff.mp hs
    exact map_eq_some_iff.mpr ⟨heap, free_mono k hheap, rfl⟩

theorem mallocLoop_mono {n prevp p : Nat} {answers : List (Option Nat)} {x : State × Nat} (k : Nat)
    {fuel : Nat} (hs : mallocLoop mem n fuel s prevp p answers = some x) :
    mallocLoop mem n (fuel + k) s prevp p answers = some x := by
  induction fuel generalizing s prevp p answers with
  | zero => cases hs
  | succ fuel ih =>
    rw [Nat.succ_add]
    unfold mallocLoop at hs ⊢
    by_cases hfit : n ≤ s.heap.size p
    · rwa [if_pos hfit] at hs ⊢
    rw [if_neg hfit] at hs ⊢
    by_cases hend : p = s.heap.freep
    · rw [if_pos hend] at hs ⊢
      obtain ⟨⟨t, q⟩, ht, hs⟩ := bind_eq_some_iff.mp hs
      refine bind_eq_some_iff.mpr ⟨(t, q), morecore_mono k ht, ?_⟩
      dsimp only at hs ⊢
      by_cases hq : q = 0
      · rwa [if_pos hq] at hs ⊢
      · rw [if_neg hq] at hs ⊢
        exact ih hs
    · rw [if_neg hend] at hs ⊢
      exact ih hs

end Fuel

theorem Heaped.step (hmem : mem < 2 ^ 32) (hbase : 0 < base) (h : Heaped mem base s) {e : Event}
    (hs : Umalloc.step mem base s e = some s') : Heaped mem base s' := by
  -- A block is live only after the first call of `malloc`.
  have hinv : ∀ {b}, b ∈ s.live → ∃ F, Inv mem base s F := fun hb => by
    rcases h with ⟨-, hlive, -⟩ | h
    · exact absurd (hlive ▸ hb) List.not_mem_nil
    · exact h
  cases e with
  | malloc fuel nbytes answers =>
    simp only [Umalloc.step] at hs
    split at hs
    · obtain ⟨⟨t, p⟩, ht, rfl⟩ := map_eq_some_iff.mp hs
      obtain ⟨N, t', p', hN, hF, -⟩ := malloc_spec hmem hbase h nbytes answers
      have heq := (mallocLoop_mono N ht).symm.trans (hN _ (Nat.le_add_left N fuel))
      cases heq
      exact .inr hF
    · cases hs
  | free fuel b =>
    simp only [Umalloc.step] at hs
    split at hs
    · obtain ⟨F, hF⟩ := hinv ‹_›
      obtain ⟨t, F', N, hN, hF', -⟩ := hF.release hmem ‹_›
      obtain ⟨heap, hheap, rfl⟩ := map_eq_some_iff.mp hs
      have heq := hN (fuel + N) (Nat.le_add_left N fuel)
      rw [release, free_mono N hheap, map_some] at heq
      cases heq
      exact .inr ⟨F', hF'⟩
    · cases hs
  | store b a v =>
    simp only [Umalloc.step] at hs
    split at hs
    · rename_i hc
      cases hs
      obtain ⟨F, hF⟩ := hinv hc.1
      exact .inr ⟨F, hF.store hc.1 hc.2.1 hc.2.2 v⟩
    · cases hs

theorem Heaped.of_reachable (hmem : mem < 2 ^ 32) (hbase : 0 < base)
    (h : Reachable (Boot base) (Umalloc.step mem base) s) : Heaped mem base s :=
  h.invariant (fun _ hs => .inl ⟨hs.freep, hs.live, hs.units, hs.brk⟩)
    fun _ _ _ hi hs => hi.step hmem hbase hs

theorem nbytes_le (nbytes : Nat) : nbytes + HDR ≤ HDR * unitsFor nbytes := by
  unfold unitsFor HDR
  omega

/-- The user heap, where the units from `sbrk` are fewer than `2 ^ 32`. In every state that a
program reaches, the free list is a circle from `base` in address order, no two of its blocks are
adjacent, no byte is in two blocks, and the free and live units are those from `sbrk`. Every
`malloc` ends and returns `0` or `nbytes` bytes that are in no live block; every `free` of a live
block ends. -/
theorem user_heap (hmem : mem < 2 ^ 32) (hbase : 0 < base)
    (h : Reachable (Boot base) (step mem base) s) :
    ((s.heap.freep = 0 ∧ s.live = [] ∧ s.units = 0) ∨ ∃ F, Inv mem base s F) ∧
    (∀ nbytes answers, Fits nbytes → ∃ N s' p,
      (∀ fuel, N ≤ fuel → malloc mem base s fuel nbytes answers = some (s', p)) ∧
      (p = 0 ∧ s'.live = s.live ∨
        HDR ≤ p ∧ s'.live = ⟨p - HDR, unitsFor nbytes⟩ :: s.live ∧
        p + nbytes ≤ Block.stop ⟨p - HDR, unitsFor nbytes⟩ ∧
        ∀ b ∈ s.live, p + nbytes ≤ b.addr ∨ b.stop ≤ p)) ∧
    (∀ b ∈ s.live, ∃ N s', (∀ fuel, N ≤ fuel → release s fuel b = some s') ∧
      s'.live = s.live.erase b) := by
  have hheap := Heaped.of_reachable hmem hbase h
  refine ⟨hheap.imp_left fun h => ⟨h.1, h.2.1, h.2.2.1⟩, fun nbytes answers _ => ?_, fun b hb => ?_⟩
  · obtain ⟨N, s', p, hN, ⟨F, hF⟩, hp⟩ := malloc_spec hmem hbase hheap nbytes answers
    refine ⟨N, s', p, hN, hp.imp_right ?_⟩
    rintro ⟨a, rfl, hlive⟩
    have hn := nbytes_le nbytes
    have hap := hF.live
    rw [hlive] at hap
    rw [Nat.add_sub_cancel]
    refine ⟨Nat.le_add_left _ _, hlive, ?_, fun b hb => ?_⟩
    · unfold Block.stop
      dsimp only
      omega
    · rcases (List.pairwise_cons.mp hap).1 b hb with hb | hb
      · refine .inl (Nat.le_trans ?_ hb)
        unfold Block.stop
        dsimp only
        omega
      · exact .inr (Nat.le_add_right_of_le hb)
  · rcases hheap with ⟨-, hlive, -⟩ | ⟨F, hF⟩
    · exact absurd (hlive ▸ hb) List.not_mem_nil
    · obtain ⟨s', F', N, hN, -, hlive⟩ := hF.release hmem hb
      exact ⟨N, s', hN, hlive⟩

def fresh : State := ⟨⟨fun _ => ⟨0, 0⟩, 0⟩, [], 0, 8192⟩

theorem boot_fresh : Boot 4096 fresh := ⟨rfl, rfl, rfl, by decide⟩

def smallRun : List Event :=
  [.malloc 10 100 [some 0], .malloc 10 5000 [], .store ⟨68576, 314⟩ 68592 ⟨1, 2⟩,
    .free 10 ⟨73600, 8⟩]

theorem user_heap_small : ∃ s, Reachable (Boot 4096) (step (2 ^ 23) 4096) s ∧
    s.live = [⟨68576, 314⟩] ∧ s.units = 4096 ∧ Fits 200 ∧ ∃ N s' p,
      (∀ fuel, N ≤ fuel → malloc (2 ^ 23) 4096 s fuel 200 [] = some (s', p)) ∧
      (p = 0 ∧ s'.live = s.live ∨
        HDR ≤ p ∧ s'.live = ⟨p - HDR, unitsFor 200⟩ :: s.live ∧
        p + 200 ≤ Block.stop ⟨p - HDR, unitsFor 200⟩ ∧
        ∀ b ∈ s.live, p + 200 ≤ b.addr ∨ b.stop ≤ p) := by
  have hany : (runEvents (step (2 ^ 23) 4096) fresh smallRun).any (fun s => decide
      (s.live = [⟨68576, 314⟩] ∧ s.units = 4096)) = true := by decide +kernel
  obtain ⟨s, hreach, hlive, hunits⟩ := Reachable.exists_run boot_fresh hany
  have hfits : Fits 200 := by decide
  exact ⟨s, hreach, hlive, hunits, hfits,
    (user_heap (by decide) (by decide) hreach).2.1 200 [] hfits⟩

def HUGE : Nat := 2 ^ 27 - 1

def hugeRun : List Event :=
  (List.range 33).map (fun _ => .malloc 10 (HDR * (HUGE - 1)) [some 0]) ++
    (List.range 33).map fun i => .free 10 ⟨8192 + HDR * HUGE * i, HUGE⟩

/-- Without a bound on the units from `sbrk` the size of a block, a `uint`, wraps as blocks are
joined: all blocks are free, and yet the free list has fewer units than `sbrk` has given. -/
theorem size_wraps : ∃ s, Reachable (Boot 4096) (step (2 ^ 33) 4096) s ∧ s.live = [] ∧
    ∀ F, FreeList s.heap 4096 F → Sorted 4096 F → total F + total s.live < s.units := by
  have hany : (runEvents (step (2 ^ 33) 4096) fresh hugeRun).any (fun s => decide
      (s.live = [] ∧ s.units = 33 * HUGE ∧ s.heap.ptr 4096 = 8192 ∧ s.heap.ptr 8192 = 4096 ∧
        s.heap.size 8192 = 33 * HUGE - 2 ^ 32)) = true := by decide +kernel
  obtain ⟨s, hs, hd⟩ := (any_eq_true _ _).mp hany
  obtain ⟨hlive, hunits, hbase, hblock, hsize⟩ := of_decide_eq_true hd
  refine ⟨s, Reachable.run (.start boot_fresh) _ hs, hlive, fun F hF hsorted => ?_⟩
  rw [hlive, hunits, total_nil, Nat.add_zero]
  have hcircle := hF.circle
  match F with
  | [] => exact (by decide : 0 < 33 * HUGE)
  | [x] =>
    have hx : x.addr = 8192 := (path_cons.mp hcircle).1.symm.trans hbase
    have hxsize := hF.sizes x List.mem_cons_self
    rw [hx, hsize] at hxsize
    rw [total_cons, total_nil, ← hxsize]
    decide
  | x :: y :: F =>
    -- The block after the first is `base`.
    obtain ⟨hx, hcircle⟩ := path_cons.mp hcircle
    have hx : x.addr = 8192 := hx.symm.trans hbase
    have hy : s.heap.ptr x.addr = y.addr := (path_cons.mp hcircle).1
    rw [hx, hblock] at hy
    have := hsorted.above y (by simp)
    have : 0 < HDR := by decide
    omega

end Xv6.Umalloc
