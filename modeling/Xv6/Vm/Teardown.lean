import Xv6.Vm.Space

/-! Freeing a page table: `freewalk` gives back every page of a table without entries. -/

namespace Xv6.Vm

open Finset Function

variable {E : String → Prop} {L : Layout} {k : Kmem} {t : Table} {used rest : Multiset Nat}

theorem link_pointer (p : Nat) : link (some p) &&& (PTE_R ||| PTE_W ||| PTE_X) = 0 := by
  rw [link_some, and_pte p (by decide) (by decide)]
  decide

theorem freewalk_empty {p depth : Nat} (h : Owns L k (p ::ₘ used)) (hp : ∀ j < 512, k.mem p j = 0) :
    wp E (freewalk L (depth + 1) p) k fun _ k' => Owns L k' used ∧ Same used k k' := by
  unfold freewalk
  refine (wp_loop (fun _ k' => k' = k) rfl fun j k' _ hj hk => ?_).bind fun _ k' hk => ?_
  · subst hk
    rw [wp_bind]
    show wp E (if k'.mem p j &&& PTE_V ≠ 0 ∧ _ then _ else _) k' _
    rw [hp j (by omega), if_neg (by simp), if_neg (by simp)]
    rfl
  · subst hk
    exact kfree_spec h

/-- `freewalk` of a page whose word `j` leads to the page `c j`, where the pages `S j` hang. -/
theorem freewalk_node {q depth : Nat} {c : Nat → Option Nat} {S : Nat → Multiset Nat}
    (h : Owns L k (q ::ₘ (∑ j ∈ range 512, S j + used))) (hq : ∀ j < 512, k.mem q j = link (c j))
    (hnone : ∀ j, c j = none → S j = 0) (hsome : ∀ j p, c j = some p → p ∈ S j)
    (hchild : ∀ j p, j < 512 → c j = some p → ∀ (used' : Multiset Nat) (k' : Kmem),
      Owns L k' (S j + used') → Same (S j) k k' →
      wp E (freewalk L depth p) k' fun _ k'' => Owns L k'' used' ∧ Same used' k' k'') :
    wp E (freewalk L (depth + 1) q) k fun _ k' => Owns L k' used ∧ Same used k k' := by
  have hsum : ∀ j < 512, ∑ i ∈ Ico j 512, S i = S j + ∑ i ∈ Ico (j + 1) 512, S i :=
    fun j hj => Finset.sum_eq_sum_Ico_succ_bot hj S
  have hloop := wp_loop (E := E) (s := k) (i := 0) (n := 512)
    (f := fun i => do
      let pte ← readWord q i
      if pte &&& PTE_V ≠ 0 ∧ pte &&& (PTE_R ||| PTE_W ||| PTE_X) = 0 then do
        freewalk L depth (pte2pa pte)
        writeWord q i 0
      else if pte &&& PTE_V ≠ 0 then Prog.panic "freewalk: leaf"
      else pure ())
    (fun j k' => Owns L k' (q ::ₘ (∑ i ∈ Ico j 512, S i + used)) ∧
      (∀ i, j ≤ i → i < 512 → k'.mem q i = link (c i)) ∧
      Same (∑ i ∈ Ico j 512, S i + used) k k')
    ⟨by rwa [← Finset.range_eq_Ico], fun i _ hi => hq i hi, Same.refl _ _⟩ ?_
  · unfold freewalk
    refine hloop.bind fun _ k' ⟨hown, _, hs⟩ => ?_
    rw [zero_add, Ico_self, sum_empty, zero_add] at hown hs
    refine (kfree_spec hown).mono fun _ k'' ⟨hown', hs'⟩ => ⟨hown', hs.trans hs'⟩
  intro j k1 _ hj ⟨hown, hword, hs⟩
  rw [zero_add] at hj
  rw [hsum j hj] at hown hs
  rw [wp_bind]
  show wp E (if k1.mem q j &&& PTE_V ≠ 0 ∧ k1.mem q j &&& (PTE_R ||| PTE_W ||| PTE_X) = 0
    then _ else _) k1 _
  rw [hword j le_rfl hj]
  cases hc : c j with
  | none =>
    rw [if_neg (by simp), if_neg (by simp)]
    rw [hnone j hc, zero_add] at hown hs
    exact ⟨hown, fun i hi hi' => hword i (by omega) hi', hs⟩
  | some p =>
    obtain ⟨hp, -, hp'⟩ :=
      hown.mem (Multiset.mem_cons_of_mem
        (Multiset.subset_add_left (Multiset.subset_add_left (hsome j p hc))) : p ∈ _)
    rw [if_pos ⟨link_valid p, link_pointer p⟩, pte2pa_link hp hp']
    refine (hchild j p hj hc (q ::ₘ (∑ i ∈ Ico (j + 1) 512, S i + used)) k1 ?_ ?_).bind
      fun _ k2 ⟨hown2, hs2⟩ => ?_
    · rw [add_assoc] at hown
      rwa [Multiset.add_cons]
    · exact hs.left.left
    · have hqnot := hown2.notMem
      refine ⟨hown2, fun i hi hi' => ?_, fun r hr => ?_⟩
      · show update k2.mem q (update (k2.mem q) j 0) q i = _
        rw [update_self, update_of_ne (by omega),
          hs2 q (Multiset.mem_cons_self _ _), hword i (by omega) hi']
      · show update k2.mem q (update (k2.mem q) j 0) r = _
        rw [update_of_ne (fun he : r = q => hqnot (he ▸ hr)),
          hs2 r (Multiset.mem_cons_of_mem hr)]
        refine hs r ?_
        rw [add_assoc]
        exact Multiset.subset_add_right hr

/-- The pages of the table that hang from entry `i` of the root. -/
def Table.branch (t : Table) (i : Nat) : Multiset Nat :=
  held (t.mid i) + own (range 512) fun j => t.low (i * 512 + j)

theorem own_split {α : Type*} (f : Nat → Option α) (n : Nat) :
    own (range (n * 512)) f = ∑ i ∈ range n, own (range 512) fun j => f (i * 512 + j) := by
  induction n with
  | zero => simp [own_def]
  | succ n ih =>
    rw [sum_range_succ, ← ih, Nat.succ_mul, own_def, own_def, own_def, sum_range_add]

theorem Table.tables_eq (t : Table) : t.tables = t.root ::ₘ ∑ i ∈ range 512, t.branch i := by
  simp only [Table.branch, sum_add_distrib, ← own_split]
  rw [Table.tables, ← Multiset.singleton_add, add_assoc, own_def (range 512)]

theorem Table.branch_none {t : Table} {i : Nat} (h : t.mid i = none) : t.branch i = 0 := by
  have hlow : ∀ j ∈ range 512, t.low (i * 512 + j) = none := by
    intro j hj
    have hj := mem_range.mp hj
    by_contra hne
    obtain ⟨p, hp⟩ := Option.ne_none_iff_exists'.mp hne
    obtain ⟨q, hq⟩ := t.low_mid _ p hp
    rw [show (i * 512 + j) / 512 = i by omega, h] at hq
    cases hq
  rw [Table.branch, h, held_none, zero_add, own_congr hlow, own_none]

theorem freewalk_spec (h : Heap L k t rest) (h0 : ∀ v, t.pte v = 0) :
    wp E (freewalk L 3 t.root) k fun _ k' => Owns L k' rest ∧ Same rest k k' := by
  have hown := h.own
  rw [t.tables_eq, Multiset.cons_add] at hown
  refine freewalk_node hown h.rep.root (fun i => Table.branch_none) (fun i p hp => by
    simp [Table.branch, hp]) fun i q hi hq used' k1 hown1 hs1 => ?_
  have hq1 : q ∈ t.branch i := by simp [Table.branch, hq]
  have hbranch : t.branch i = q ::ₘ ∑ j ∈ range 512, held (t.low (i * 512 + j)) := by
    rw [Table.branch, hq, held_some, Multiset.singleton_add, own_def]
  rw [hbranch, Multiset.cons_add] at hown1
  refine freewalk_node (c := fun j => t.low (i * 512 + j)) hown1 (fun j hj => ?_)
    (fun j hj => by simp [hj]) (fun j p hp => by simp [hp]) fun j p hj hp used'' k2 hown2 hs2 => ?_
  · rw [hs1 q hq1, h.rep.mid i q hq j hj]
  · have hp1 : p ∈ t.branch i := by
      rw [hbranch, Multiset.mem_cons, Multiset.mem_sum]
      exact .inr ⟨j, mem_range.mpr hj, by simp [hp]⟩
    rw [hp, held_some, Multiset.singleton_add] at hown2
    refine freewalk_empty hown2 fun x hx => ?_
    rw [hs2 p (by simp [hp]), hs1 p hp1, h.rep.low _ p hp x hx, h0]

theorem uvmfree_spec (sz : Nat) (h : Space L k t rest) (hsz : sz ≤ TRAPFRAME)
    (h0 : ∀ v, npages sz ≤ v → t.pte v = 0) :
    wp E (uvmfree L t.root sz) k fun _ k' => Owns L k' rest ∧ Same rest k k' := by
  -- once no entry is left, the table can go
  have hlast : ∀ {k1 : Kmem} {t1 : Table}, Space L k1 t1 rest → (∀ v, t1.pte v = 0) →
      t1.root = t.root → Same rest k k1 →
      wp E (freewalk L 3 t.root) k1 fun _ k' => Owns L k' rest ∧ Same rest k k' := by
    intro k1 t1 h1 hz hroot hs
    have hu : userPages t1.pte = 0 := by
      rw [userPages, own_congr fun v _ => by rw [hz v, leafPage_zero], own_none]
    have hheap := h1.heap
    rw [hu, zero_add] at hheap
    rw [← hroot]
    exact (freewalk_spec hheap hz).mono fun _ k' h' => ⟨h'.1, hs.trans h'.2⟩
  unfold uvmfree
  split
  case isTrue hpos =>
    have hr : pgroundup sz / PGSIZE = npages sz := by
      rw [pgroundup_eq (by simp only [TRAPFRAME, MAXSZ] at *; omega),
        Nat.mul_div_cancel _ (by decide)]
    have hsp := uvmunmap_spec (E := E) (v := 0) (n := npages sz) h (by have := npages_le hsz; omega)
    rw [hr, zero_mul] at *
    refine hsp.bind ?_
    rintro _ k1 ⟨t1, hsp1, hroot1, hpte1, hs1⟩
    refine hlast hsp1 (fun v => ?_) hroot1 hs1.right
    rw [hpte1, cleared]
    split
    · rfl
    · exact h0 v (by omega)
  case isFalse hpos =>
    refine hlast h (fun v => h0 v ?_) rfl (Same.refl _ _)
    simp only [npages, PGSIZE]
    omega

end Xv6.Vm
