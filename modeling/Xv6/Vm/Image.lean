import Xv6.Vm.Exec
import Xv6.Vm.Teardown

/-! The address space of a process: what its page table maps, and that building, copying, faulting
and freeing it keep this. -/

namespace Xv6.Vm

open Finset Function

variable {E : String → Prop} {L : Layout} {k k' : Kmem} {t t' : Table} {used rest : Multiset Nat}
  {sz tf : Nat}

/-- The entries of a process of size `sz` with the trap frame `tf`: user pages below `sz`, and the
trap frame and the trampoline without `PTE_U`. -/
structure AddrSpace (L : Layout) (pte : Nat → Nat) (sz tf : Nat) : Prop where
  size : sz ≤ TRAPFRAME
  user : ∀ v, pte v ≠ 0 → v < npages sz ∨ v = UPAGES ∨ v = UPAGES + 1
  trapframe : pte UPAGES = pa2pte tf ||| (PTE_R ||| PTE_W) ||| PTE_V
  trampoline : pte (UPAGES + 1) = pa2pte L.trampoline ||| (PTE_R ||| PTE_X) ||| PTE_V

theorem AddrSpace.unmapped {pte : Nat → Nat} (h : AddrSpace L pte sz tf) {v : Nat}
    (h1 : npages sz ≤ v) (h2 : v < UPAGES) : pte v = 0 := by
  by_contra hne
  have := h.user v hne
  omega

theorem AddrSpace.change {pte pte' : Nat → Nat} {sz' : Nat} (h : AddrSpace L pte sz tf)
    (hsz : sz' ≤ TRAPFRAME) (hhigh : ∀ v, UPAGES ≤ v → pte' v = pte v)
    (huser : ∀ v, v < UPAGES → pte' v ≠ 0 → v < npages sz') : AddrSpace L pte' sz' tf := by
  refine ⟨hsz, fun v hv => ?_, ?_, ?_⟩
  · by_cases hlt : v < UPAGES
    · exact .inl (huser v hlt hv)
    · rw [hhigh v (by omega)] at hv
      have hn := npages_le h.size
      rcases h.user v hv with hv | hv
      · omega
      · exact .inr hv
  · rw [hhigh _ le_rfl, h.trapframe]
  · rw [hhigh _ (Nat.le_succ _), h.trampoline]

theorem Space.mapHigh {v pa perm : Nat} (h : Space L k t rest) (hv : UPAGES ≤ v)
    (hv' : v * PGSIZE < MAXVA) (hn : t.pte v = 0) (hperm : perm < 1024) :
    wp E (mappages t.root (v * PGSIZE) PGSIZE pa perm) k fun r k' => ∃ t', Space L k' t' rest ∧
      t'.root = t.root ∧ Same (userPages t.pte + rest) k k' ∧
      (r = 0 ∧ t'.pte = update t.pte v (pa2pte pa ||| perm ||| PTE_V) ∨
        r = -1 ∧ t'.pte = t.pte) := by
  have hva := mul_div_pgsize v
  refine (mappages_spec h.heap (Nat.mul_mod_left _ _) hv' (by rwa [hva])).mono fun r k' hr => ?_
  obtain ⟨t', ⟨hr, hmov⟩ | ⟨hr, hmov⟩⟩ := hr
  · rw [hva] at hmov
    have hu : userPages t'.pte = userPages t.pte := userPages_congr fun w hw => by
      rw [hmov.pte, update_of_ne (by omega)]
    refine ⟨t', ⟨hu ▸ hmov.heap, ?_⟩, hmov.root, hmov.same, .inl ⟨hr, hmov.pte⟩⟩
    rw [hmov.pte]
    exact valid_update h.valid (.inr (valid_pte pa hperm))
  · refine ⟨t', ⟨?_, ?_⟩, hmov.root, hmov.same, .inr ⟨hr, hmov.pte⟩⟩
    · rw [hmov.pte]
      exact hmov.heap
    · rw [hmov.pte]
      exact h.valid

theorem userPages_empty (root : Nat) : userPages (Table.empty root).pte = 0 := by
  simp [userPages, Table.empty, own_none]

theorem rep_empty {m : Nat → Page} {root : Nat} (h : m root = Page.fill 0) :
    Rep m (Table.empty root) :=
  ⟨fun i _ => by show m root i = 0; simp [h, Page.fill], nofun, nofun⟩

theorem procPagetable_spec (h : Owns L k used) (tf : Nat) :
    wp E (procPagetable L tf) k fun r k' => Same used k k' ∧ (r = 0 ∧ Owns L k' used ∨
      r ≠ 0 ∧ ∃ t, t.root = r ∧ Space L k' t used ∧ AddrSpace L t.pte 0 tf ∧
        ∀ v < UPAGES, t.pte v = 0) := by
  have htramp : TRAMPOLINE = (UPAGES + 1) * PGSIZE := by decide
  have htrap : TRAPFRAME = UPAGES * PGSIZE := by decide
  refine (wp_bind _ _).mpr ?_
  refine (kalloc_spec h).bind fun r k1 hr => ?_
  cases r with
  | none =>
    obtain ⟨rfl, -⟩ := hr
    exact ⟨Same.refl _ _, .inl ⟨rfl, h⟩⟩
  | some root =>
    obtain ⟨hown, hs1⟩ := hr
    have hpos : root ≠ 0 := hown.pos (Multiset.mem_cons_self root used)
    have hnot := hown.notMem
    let k2 := k1.setPage root (Page.fill 0)
    have hs2 : Same used k k2 := hs1.trans fun q hq =>
      update_of_ne (fun he : q = root => hnot (he ▸ hq)) _ _
    have hsp : Space L k2 (Table.empty root) used := by
      refine ⟨⟨rep_empty (update_self _ _ _), ?_⟩, fun v hv => absurd rfl hv⟩
      rw [Table.tables_empty, userPages_empty, zero_add, Multiset.singleton_add]
      exact hown
    show wp E (if root = 0 then _ else _) k2 _
    rw [if_neg hpos, htramp, htrap]
    refine (hsp.mapHigh (Nat.le_succ _) (by decide) rfl (by decide)).bind
      fun r k3 ⟨t3, hsp3, hroot3, hs3, hr3⟩ => ?_
    have hs3' : Same used k k3 := hs2.trans hs3.right
    rcases hr3 with ⟨rfl, hpte3⟩ | ⟨rfl, hpte3⟩
    · rw [if_neg (by decide), show root = t3.root from hroot3.symm]
      refine (hsp3.mapHigh le_rfl (by decide) ?_ (by decide)).bind
        fun r k4 ⟨t4, hsp4, hroot4, hs4, hr4⟩ => ?_
      · rw [hpte3, update_of_ne (by decide)]
        rfl
      have hs4' : Same used k k4 := hs3'.trans hs4.right
      rcases hr4 with ⟨rfl, hpte4⟩ | ⟨rfl, hpte4⟩
      · rw [if_neg (by decide)]
        refine ⟨hs4', .inr ⟨hroot3 ▸ hpos, t4, hroot4, hsp4, ⟨by decide, fun v hv => ?_, ?_, ?_⟩,
          fun v hv => ?_⟩⟩
        · right
          by_contra hne
          rw [not_or] at hne
          rw [hpte4, hpte3, update_of_ne hne.1, update_of_ne hne.2] at hv
          exact hv rfl
        · rw [hpte4, update_self]
        · rw [hpte4, update_of_ne (by decide), hpte3, update_self]
        · rw [hpte4, hpte3, update_of_ne (by omega), update_of_ne (by omega)]
          rfl
      · rw [if_pos (by decide), ← hroot4]
        refine (unmapHigh_spec hsp4 (Nat.le_succ _) (by decide)).bind
          fun _ k5 ⟨t5, hsp5, hroot5, hpte5, hs5⟩ => ?_
        rw [← hroot5]
        refine (uvmfree_spec 0 hsp5 (by decide) fun v _ => ?_).bind
          fun _ k6 ⟨hown6, hs6⟩ => ⟨?_, .inl ⟨rfl, hown6⟩⟩
        · rw [hpte5, hpte4, hpte3]
          by_cases hv : v = UPAGES + 1
          · rw [hv, update_self]
          · rw [update_of_ne hv, update_of_ne hv]
            rfl
        · exact (hs4'.trans hs5.right).trans hs6
    · rw [if_pos (by decide), show root = t3.root from hroot3.symm]
      refine (uvmfree_spec 0 hsp3 (by decide) fun v _ => ?_).bind
        fun _ k4 ⟨hown4, hs4⟩ => ⟨hs3'.trans hs4, .inl ⟨rfl, hown4⟩⟩
      rw [hpte3]
      rfl

theorem procFreepagetable_spec (h : Space L k t rest) (ha : AddrSpace L t.pte sz tf) :
    wp E (procFreepagetable L t.root sz) k fun _ k' => Owns L k' rest ∧ Same rest k k' := by
  have htramp : TRAMPOLINE = (UPAGES + 1) * PGSIZE := by decide
  have htrap : TRAPFRAME = UPAGES * PGSIZE := by decide
  rw [procFreepagetable, htramp, htrap]
  refine (unmapHigh_spec h (Nat.le_succ _) (by decide)).bind
    fun _ k1 ⟨t1, hsp1, hroot1, hpte1, hs1⟩ => ?_
  rw [← hroot1]
  refine (unmapHigh_spec hsp1 le_rfl (by decide)).bind
    fun _ k2 ⟨t2, hsp2, hroot2, hpte2, hs2⟩ => ?_
  rw [← hroot2]
  refine (uvmfree_spec sz hsp2 ha.size fun v hv => ?_).mono fun _ k3 ⟨hown3, hs3⟩ => ⟨hown3, ?_⟩
  · rw [hpte2, hpte1]
    by_cases h1 : v = UPAGES
    · rw [h1, update_self]
    · rw [update_of_ne h1]
      by_cases h2 : v = UPAGES + 1
      · rw [h2, update_self]
      · rw [update_of_ne h2]
        by_contra hne
        have := ha.user v hne
        omega
  · exact (Same.trans hs1.right
      hs2.right).trans hs3

end Xv6.Vm
