import Xv6.Vm.Ownership

/-! The address space of every process in every reachable state, as the hardware reads it from
memory, and that no operation panics over it. -/

namespace Xv6.Vm

open Multiset

open Wait (Slot)

variable {L : Layout} {s s' : Sys} {T T' : Slot → Table} {p : Slot}

/-- The entry of the process `p` for the virtual page `v`. -/
def Sys.pte (s : Sys) (p : Slot) (v : Nat) : Nat := entry s.k.mem (s.proc p).pagetable v

abbrev VPAGES : Nat := 134217728

theorem Inv.pte_eq {hand : Multiset Nat} {R : Multiset (Fin NFILE)} (h : Inv L s T hand R)
    (hp : (s.proc p).state ≠ .unused) {v : Nat} (hv : v < VPAGES) : s.pte p v = (T p).pte v := by
  obtain ⟨hrep, hroot, -, -⟩ := (h.procs p).live hp
  rw [Sys.pte, ← hroot]
  exact entry_eq hrep (fun x => (h.space hp).heap.page) (by simp only [VPAGES] at hv; omega)

/-- The mapped pages lie below the size, but for the trap frame and the trampoline, each of which is
mapped once and not for the user. -/
structure SpaceOk (L : Layout) (s : Sys) (p : Slot) : Prop where
  size : (s.proc p).sz ≤ TRAPFRAME
  user : ∀ v < UPAGES, s.pte p v ≠ 0 → v * PGSIZE < pgroundup (s.proc p).sz
  trapframe : leafPage (s.pte p UPAGES) = some (s.proc p).trapframe ∧ s.pte p UPAGES &&& PTE_U = 0
  trampoline : leafPage (s.pte p (UPAGES + 1)) = some L.trampoline ∧
    s.pte p (UPAGES + 1) &&& PTE_U = 0
  trapframe_once : ∀ v < VPAGES, leafPage (s.pte p v) = some (s.proc p).trapframe → v = UPAGES
  trampoline_once : ∀ v < VPAGES, leafPage (s.pte p v) = some L.trampoline → v = UPAGES + 1
  above : ∀ v < VPAGES, UPAGES + 1 < v → s.pte p v = 0

theorem leafPage_trampoline (L : Layout) (pte : Nat → Nat) {sz tf : Nat}
    (h : AddrSpace L pte sz tf) : leafPage (pte (UPAGES + 1)) = some L.trampoline := by
  have h1 := L.inside
  have h2 := L.below
  simp only [PGSIZE] at h1
  rw [h.trampoline]
  exact leafPage_pte L.aligned (by omega) (by decide)

theorem AddrSpace.leaf {pte : Nat → Nat} {sz tf v x : Nat} (h : AddrSpace L pte sz tf)
    (htf : leafPage (pte UPAGES) = some tf) (hx : leafPage (pte v) = some x) :
    v < UPAGES ∧ x ∈ userPages pte ∨ v = UPAGES ∧ x = tf ∨ v = UPAGES + 1 ∧ x = L.trampoline := by
  have hne : pte v ≠ 0 := fun h0 => by
    rw [h0, leafPage_zero] at hx
    cases hx
  rcases h.user v hne with hv | rfl | rfl
  · have hv' : v < UPAGES := lt_of_lt_of_le hv (npages_le h.size)
    exact .inl ⟨hv', mem_userPages.mpr ⟨v, hv', hx⟩⟩
  · exact .inr (.inl ⟨rfl, Option.some.inj (hx.symm.trans htf)⟩)
  · exact .inr (.inr ⟨rfl, Option.some.inj (hx.symm.trans (leafPage_trampoline L pte h))⟩)

theorem Inv.spaceOk {R : Multiset (Fin NFILE)} (h : Inv L s T 0 R)
    (hp : (s.proc p).state ≠ .unused) : SpaceOk L s p := by
  obtain ⟨-, -, haddr, -⟩ := (h.procs p).live hp
  have hsp := h.space hp
  have hU : UPAGES < VPAGES := by decide
  have hU' : UPAGES + 1 < VPAGES := by decide
  have hmem : (s.proc p).trapframe ∈ userPages (T p).pte + (s.proc p).trapframe ::ₘ
      (rest s T p + 0) := by simp
  have htf := hsp.own.mem (subset_add_right hmem)
  have hleaf : leafPage ((T p).pte UPAGES) = some (s.proc p).trapframe := by
    rw [haddr.trapframe]
    exact leafPage_pte htf.1 htf.2.2 (by decide)
  -- the trap frame is not a user page, and the trampoline lies below all pages of the allocator
  have htramp : L.trampoline < L.kernelEnd := by
    have := L.inside
    simp only [PGSIZE] at this
    omega
  have huser : (s.proc p).trapframe ∉ userPages (T p).pte := fun hu => by
    have := hsp.own.nodup
    rw [nodup_add, nodup_add, nodup_add] at this
    exact disjoint_left.mp this.1.2.1.2.2 hu (mem_cons_self _ _)
  have huser' : L.trampoline ∉ userPages (T p).pte := fun hu => by
    have := (hsp.own.mem (subset_add_right (subset_add_left hu))).2.1
    omega
  have hne : (s.proc p).trapframe ≠ L.trampoline := by omega
  constructor
  · exact haddr.size
  · intro v hv hpte
    rw [h.pte_eq hp (lt_trans hv hU)] at hpte
    have hvn : v < npages (s.proc p).sz := by
      have := haddr.user v hpte
      omega
    rw [pgroundup_eq (le_trans haddr.size (by decide))]
    exact Nat.mul_lt_mul_of_pos_right hvn (by decide)
  · rw [h.pte_eq hp hU]
    exact ⟨hleaf, by rw [haddr.trapframe, and_pte _ (by decide) (by decide)]; rfl⟩
  · rw [h.pte_eq hp hU']
    exact ⟨leafPage_trampoline L _ haddr, by
      rw [haddr.trampoline, and_pte _ (by decide) (by decide)]; rfl⟩
  · intro v hv hl
    rw [h.pte_eq hp hv] at hl
    rcases haddr.leaf hleaf hl with ⟨-, hu⟩ | ⟨hv, -⟩ | ⟨-, he⟩
    · exact absurd hu huser
    · exact hv
    · exact absurd he hne
  · intro v hv hl
    rw [h.pte_eq hp hv] at hl
    rcases haddr.leaf hleaf hl with ⟨-, hu⟩ | ⟨-, he⟩ | ⟨hv, -⟩
    · exact absurd hu huser'
    · exact absurd he.symm hne
    · exact hv
  · intro v hv hlt
    rw [h.pte_eq hp hv]
    by_contra hpte
    have := npages_le haddr.size
    have := haddr.user v hpte
    omega

/-- In every reachable state all address spaces are sound, no operation panics unless `init` exits,
and an `sbrk` that fails changes neither the size nor any entry of the process. -/
theorem address_space_invariant (h : Reachable (Boot L) (step L) s) :
    (∀ p, (s.proc p).state ≠ .unused → SpaceOk L s p) ∧
    (∀ (e : Event) msg, e.enabled s = true → e.run L s = .error msg → msg = "init exiting") ∧
    ∀ p n t r s', (s.proc p).state = .runnable → sysSbrk L p n t s = .ok (r, s') → r < 0 →
      (s'.proc p).sz = (s.proc p).sz ∧ ∀ v < VPAGES, s'.pte p v = s.pte p v := by
  obtain ⟨T, hinv⟩ := reachable_inv h
  refine ⟨fun p hp => hinv.spaceOk hp, fun e msg he hm => ?_, fun p n t r s' hp hr hneg => ?_⟩
  · exact (run_spec hinv he (.inr fun _ _ => trivial)).of_error hm
  · have hlive := Life.live hp
    have hspec := sysSbrk_spec (E := fun _ => True) (A := fun _ => True) n t hinv hp trivial
    obtain ⟨T', hinv', -, hsame⟩ := hspec.of_ok hr
    obtain ⟨hstate, hsz, hpte⟩ := hsame hneg
    refine ⟨hsz, fun v hv => ?_⟩
    rw [hinv'.pte_eq (hstate ▸ hlive) hv, hinv.pte_eq hlive hv, hpte]

/-- With one page left after `userinit`, a growth by a page gets that page but no page for the
table, and fails. -/
theorem address_space_invariant_small : ∃ s r s',
    runEvents (step small) smallBoot [.userinit] = some s ∧ SpaceOk small s 0 ∧
    sysSbrk small 0 4096 1 s = .ok (r, s') ∧ r = -1 ∧
    (s'.proc 0).sz = (s.proc 0).sz ∧ ∀ v < VPAGES, s'.pte 0 v = s.pte 0 v := by
  have hrun : (runEvents (step small) smallBoot [.userinit]).any (fun s =>
      (s.proc 0).state = .runnable &&
      match sysSbrk small 0 4096 1 s with
      | .ok (r, _) => r = -1
      | .error _ => false) := by decide +kernel
  obtain ⟨s, hs, hp⟩ := (Option.any_eq_true _ _).mp hrun
  obtain ⟨hstate, hsbrk⟩ := Bool.and_eq_true_iff.mp hp
  replace hstate := of_decide_eq_true hstate
  have hstart : Reachable (Boot small) (step small) smallBoot := .start boot_small
  have h := address_space_invariant (hstart.run [.userinit] hs)
  split at hsbrk
  case h_1 r s' hr =>
    have hr1 : r = -1 := of_decide_eq_true hsbrk
    obtain ⟨hsz, hpte⟩ := h.2.2 0 4096 1 r s' hstate hr (by omega)
    exact ⟨s, r, s', hs, h.1 0 (by rw [hstate]; simp), hr, hr1, hsz, hpte⟩
  case h_2 => cases hsbrk

end Xv6.Vm
