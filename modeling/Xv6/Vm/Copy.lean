import Xv6.Vm.Image

/-! Copies between kernel and user memory, and the copy of an address space by `uvmcopy`. -/

namespace Xv6.Vm

open Finset Function Multiset

variable {E : String → Prop} {L : Layout} {k k' : Kmem} {t t' : Table} {used rest : Multiset Nat}
  {sz tf : Nat}

theorem walkaddr_spec (h : Space L k t rest) (va : Nat) :
    wp E (walkaddr t.root va) k fun r k' => k' = k ∧
      r = if va < MAXVA ∧ t.pte (va / PGSIZE) &&& PTE_U ≠ 0 then pte2pa (t.pte (va / PGSIZE))
        else 0 := by
  unfold walkaddr
  split
  case isTrue hge =>
    rw [if_neg (by omega)]
    exact ⟨rfl, rfl⟩
  case isFalse hlt =>
  have hva : va < MAXVA := Nat.lt_of_not_le hlt
  refine (walk_spec h.heap hva).bind fun r k' ⟨hk, hr⟩ => ?_
  subst hk hr
  cases hl : t.low (va / PGSIZE / 512) with
  | none =>
    rw [t.pte_eq_zero hl, if_neg (by simp)]
    exact ⟨rfl, rfl⟩
  | some p =>
    refine (wp_bind _ _).mpr ?_
    show wp E (if k'.mem p (va / PGSIZE % 512) &&& PTE_V = 0 then _ else _) k' _
    rw [h.heap.read hl]
    split
    case isTrue hv0 =>
      have h0 : t.pte (va / PGSIZE) = 0 := by
        by_contra hne
        exact h.valid _ hne hv0
      rw [h0, if_neg (by simp)]
      exact ⟨rfl, rfl⟩
    case isFalse =>
    split
    case isTrue hu =>
      rw [if_neg (by simp [hu])]
      exact ⟨rfl, rfl⟩
    case isFalse hu =>
      rw [if_pos ⟨hva, hu⟩]
      exact ⟨rfl, rfl⟩

theorem leafPage_user {pte : Nat} (hvalid : pte ≠ 0 → pte &&& PTE_V ≠ 0) (hu : pte &&& PTE_U ≠ 0) :
    leafPage pte = some (pte2pa pte) := by
  refine if_pos (hvalid fun h0 => hu ?_)
  rw [h0, Nat.zero_and]

theorem AddrSpace.user_lt {pte : Nat → Nat} (h : AddrSpace L pte sz tf) {v : Nat}
    (hu : pte v &&& PTE_U ≠ 0) : v < UPAGES := by
  have hne : pte v ≠ 0 := fun h0 => hu (by rw [h0, Nat.zero_and])
  rcases h.user v hne with hv | rfl | rfl
  · have := npages_le h.size
    omega
  · rw [h.trapframe, and_pte _ (by decide) (by decide)] at hu
    exact absurd rfl hu
  · rw [h.trampoline, and_pte _ (by decide) (by decide)] at hu
    exact absurd rfl hu

/-- The space has become one with the same size in which more pages may be mapped. -/
structure Faulted (L : Layout) (k k' : Kmem) (t t' : Table) (rest : Multiset Nat) (sz tf : Nat) :
    Prop where
  space : Space L k' t' rest
  addr : AddrSpace L t'.pte sz tf
  root : t'.root = t.root
  same : Same rest k k'
  kept : ∀ v, t.pte v ≠ 0 → t'.pte v = t.pte v

theorem Faulted.refl (h : Space L k t rest) (ha : AddrSpace L t.pte sz tf) :
    Faulted L k k t t rest sz tf := ⟨h, ha, rfl, Same.refl _ _, fun _ _ => rfl⟩

theorem Faulted.trans {k'' : Kmem} {t'' : Table} (h : Faulted L k k' t t' rest sz tf)
    (h' : Faulted L k' k'' t' t'' rest sz tf) : Faulted L k k'' t t'' rest sz tf :=
  ⟨h'.space, h'.addr, h'.root.trans h.root, h.same.trans h'.same, fun v hv => by
    rw [h'.kept v (by rwa [h.kept v hv]), h.kept v hv]⟩

theorem fault_spec {va : Nat} (h : Space L k t rest) (ha : AddrSpace L t.pte sz tf) :
    wp E (vmfault L ⟨sz, t.root⟩ t.root va) k fun r k' => ∃ t', Faulted L k k' t t' rest sz tf ∧
      (t.pte (va / PGSIZE) ≠ 0 → t' = t) ∧
      (r ≠ 0 → va / PGSIZE < UPAGES ∧ leafPage (t'.pte (va / PGSIZE)) = some r) := by
  refine (vmfault_spec h ha.size).mono fun r k' ⟨t', hsp, hroot, hs, hsame, hr⟩ => ?_
  have hs' : Same rest k k' := hs.right
  rcases hr with ⟨rfl, hpte⟩ | ⟨hlt, hn, hr, hr', hpte⟩
  · exact ⟨t', ⟨hsp, hpte ▸ ha, hroot, hs', fun v _ => by rw [hpte]⟩, hsame,
      fun h0 => absurd rfl h0⟩
  have hn' := npages_le ha.size
  have hv : va / PGSIZE < npages sz := by
    simp only [npages, PGSIZE]
    omega
  refine ⟨t', ⟨hsp, ha.change ha.size (fun v hv' => ?_) (fun v hv' hne => ?_), hroot, hs',
    fun v hv' => ?_⟩, hsame, fun _ => ⟨by omega, ?_⟩⟩
  · rw [hpte, update_of_ne (by omega)]
  · by_cases hvv : v = va / PGSIZE
    · omega
    · rw [hpte, update_of_ne hvv] at hne
      rcases ha.user v hne with hu | hu | hu
      · exact hu
      · omega
      · omega
  · rw [hpte, update_of_ne fun he : v = va / PGSIZE => hv' (he ▸ hn)]
  · rw [hpte, update_self, leafPage_pte hr hr' (by decide)]

theorem userPage_spec {va : Nat} (h : Space L k t rest) (ha : AddrSpace L t.pte sz tf) :
    wp E (userPage L ⟨sz, t.root⟩ t.root va) k fun r k' => ∃ t', Faulted L k k' t t' rest sz tf ∧
      (t.pte (va / PGSIZE) ≠ 0 → t' = t) ∧
      (r ≠ 0 → va / PGSIZE < UPAGES ∧ leafPage (t'.pte (va / PGSIZE)) = some r) := by
  refine (walkaddr_spec h va).bind fun r k' ⟨hk, hr⟩ => ?_
  subst hk
  split
  · exact fault_spec h ha
  · rename_i hne
    refine ⟨t, Faulted.refl h ha, fun _ => rfl, fun _ => ?_⟩
    by_cases hu : va < MAXVA ∧ t.pte (va / PGSIZE) &&& PTE_U ≠ 0
    · rw [hr, if_pos hu]
      exact ⟨ha.user_lt hu.2, leafPage_user (h.valid _) hu.2⟩
    · rw [if_neg hu] at hr
      exact absurd hr hne

theorem Space.write {pa : Nat} (h : Space L k t rest) (hpa : pa ∈ userPages t.pte) (page : Page) :
    Space L (k.setPage pa page) t rest ∧ Same rest k (k.setPage pa page) := by
  refine ⟨⟨h.heap.write (subset_add_left hpa) page, h.valid⟩, fun q hq => ?_⟩
  refine update_of_ne (fun he => ?_) _ _
  have := h.own.nodup
  rw [nodup_add, nodup_add, nodup_add] at this
  exact disjoint_left.mp this.1.2.1.2.2 (he ▸ hpa) hq

theorem store_spec {va c : Nat} (h : Space L k t rest) (ha : AddrSpace L t.pte sz tf) :
    wp E (store t.root va c) k fun _ k' => Faulted L k k' t t rest sz tf := by
  unfold store
  split
  case isTrue => exact Faulted.refl h ha
  case isFalse hva =>
  refine (walk_spec h.heap (Nat.lt_of_not_le hva)).bind ?_
  rintro r k' ⟨rfl, rfl⟩
  cases hl : t.low (va / PGSIZE / 512) with
  | none => exact Faulted.refl h ha
  | some page =>
    rw [Option.map_some]
    refine (wp_bind _ _).mpr (wp_readWord.mpr ?_)
    rw [h.heap.read hl]
    split
    case isTrue => exact Faulted.refl h ha
    case isFalse hpte =>
    simp only [not_or] at hpte
    have hmem := mem_userPages.mpr ⟨_, ha.user_lt hpte.2.1, leafPage_user (h.valid _) hpte.2.1⟩
    obtain ⟨hsp, hs⟩ := h.write hmem
      ((k'.mem (pte2pa (t.pte (va / PGSIZE)))).setByte (va % PGSIZE) c)
    exact ⟨hsp, ha, rfl, hs, fun _ _ => rfl⟩

/-- All of the `len` bytes at `va` are on mapped pages. -/
def Mapped (pte : Nat → Nat) (va len : Nat) : Prop := ∀ i < len, pte ((va + i) / PGSIZE) ≠ 0

theorem Mapped.drop {pte : Nat → Nat} {va len : Nat} (h : Mapped pte va len) :
    Mapped pte (pgrounddown va + PGSIZE)
      (len - min (PGSIZE - (va - pgrounddown va)) len) := by
  intro i hi
  have := h (PGSIZE - (va - pgrounddown va) + i) (by omega)
  rwa [show va + (PGSIZE - (va - pgrounddown va) + i) = pgrounddown va + PGSIZE + i by
    simp only [pgrounddown, PGSIZE] at *
    omega] at this

theorem copyoutLoop_spec {fuel dstva : Nat} {src : List Nat} (h : Space L k t rest)
    (ha : AddrSpace L t.pte sz tf) :
    wp E (copyoutLoop L ⟨sz, t.root⟩ t.root fuel dstva src) k fun _ k' =>
      ∃ t', Faulted L k k' t t' rest sz tf ∧ (Mapped t.pte dstva src.length → t' = t) := by
  induction fuel generalizing k t dstva src with
  | zero => cases src <;> exact ⟨t, Faulted.refl h ha, fun _ => rfl⟩
  | succ fuel ih =>
    cases src with
    | nil => exact ⟨t, Faulted.refl h ha, fun _ => rfl⟩
    | cons c cs =>
      unfold copyoutLoop
      dsimp only
      split
      case isTrue => exact ⟨t, Faulted.refl h ha, fun _ => rfl⟩
      case isFalse hva =>
      refine (userPage_spec h ha).bind ?_
      rintro r k1 ⟨t1, hf1, hq1, hr⟩
      have hquiet : Mapped t.pte dstva (c :: cs).length → t1 = t := fun hm => hq1 (by
        rw [pgrounddown, Nat.mul_div_cancel _ (by decide)]
        exact hm 0 (Nat.zero_lt_succ _))
      split
      case isTrue => exact ⟨t1, hf1, hquiet⟩
      case isFalse hne =>
      obtain ⟨hv, hleaf⟩ := hr hne
      rw [← hf1.root]
      refine (walk_spec hf1.space.heap (Nat.lt_of_not_le hva)).bind ?_
      rintro r k2 ⟨hk, hr⟩
      subst hk hr
      cases hl : t1.low (pgrounddown dstva / PGSIZE / 512) with
      | none =>
        rw [t1.pte_eq_zero hl, leafPage_zero] at hleaf
        cases hleaf
      | some p =>
        refine (wp_bind _ _).mpr ?_
        show wp E (if k2.mem p (pgrounddown dstva / PGSIZE % 512) &&& PTE_W = 0 then _ else _) k2 _
        split
        case isTrue => exact ⟨t1, hf1, hquiet⟩
        case isFalse =>
        rw [wp_bind]
        refine (wp_bind _ _).mpr ?_
        obtain ⟨hsp2, hs2⟩ := hf1.space.write (mem_userPages.mpr ⟨_, hv, hleaf⟩)
          ((k2.mem r).setBytes (dstva - pgrounddown dstva) ((c :: cs).take
            (min (PGSIZE - (dstva - pgrounddown dstva)) (c :: cs).length)))
        refine (ih hsp2 hf1.addr).mono ?_
        rintro _ k3 ⟨t3, hf3, hq3⟩
        refine ⟨t3, ?_, fun hm => ?_⟩
        · exact hf1.trans ⟨hf3.space, hf3.addr, hf3.root, hs2.trans hf3.same, hf3.kept⟩
        · obtain rfl := hquiet hm
          refine hq3 ?_
          rw [List.length_drop]
          exact hm.drop

theorem copyout_spec {dstva : Nat} {src : List Nat} (h : Space L k t rest)
    (ha : AddrSpace L t.pte sz tf) :
    wp E (copyout L ⟨sz, t.root⟩ t.root dstva src) k fun _ k' =>
      ∃ t', Faulted L k k' t t' rest sz tf ∧ (Mapped t.pte dstva src.length → t' = t) :=
  copyoutLoop_spec h ha

theorem copyinLoop_spec {fuel srcva len : Nat} {dst : List Nat} (h : Space L k t rest)
    (ha : AddrSpace L t.pte sz tf) :
    wp E (copyinLoop L ⟨sz, t.root⟩ t.root fuel srcva len dst) k fun _ k' =>
      ∃ t', Faulted L k k' t t' rest sz tf := by
  induction fuel generalizing k t srcva len dst with
  | zero => exact ⟨t, Faulted.refl h ha⟩
  | succ fuel ih =>
    unfold copyinLoop
    split
    case isTrue => exact ⟨t, Faulted.refl h ha⟩
    case isFalse =>
    refine (userPage_spec h ha).bind fun r k1 ⟨t1, hf1, _, hr⟩ => ?_
    split
    case isTrue => exact ⟨t1, hf1⟩
    case isFalse =>
    rw [← hf1.root]
    exact (ih hf1.space hf1.addr).mono fun _ k2 ⟨t2, hf2⟩ => ⟨t2, hf1.trans hf2⟩

theorem copyin_spec {srcva len : Nat} (h : Space L k t rest) (ha : AddrSpace L t.pte sz tf) :
    wp E (copyin L ⟨sz, t.root⟩ t.root srcva len) k fun _ k' =>
      ∃ t', Faulted L k k' t t' rest sz tf := copyinLoop_spec h ha

theorem Page.length_bytes (page : Page) (off n : Nat) : (page.bytes off n).length = n := by
  simp [Page.bytes]

theorem length_takeWhile_lt {l : List Nat} (h : 0 ∈ l) :
    (l.takeWhile (· ≠ 0)).length < l.length := by
  induction l with
  | nil => cases h
  | cons c cs ih =>
    by_cases hc : c = 0
    · simp [hc]
    · have hcs : 0 ∈ cs := (List.mem_cons.mp h).resolve_left fun he => hc he.symm
      simpa [hc] using ih hcs

/-- `copyinstr` only reads; the string has no null byte and fits. -/
theorem copyinstrLoop_spec {fuel srcva max : Nat} {dst : List Nat} (h : Space L k t rest) :
    wp E (copyinstrLoop t.root fuel srcva max dst) k fun r k' => k' = k ∧
      ∀ s, r = some s → s.length < dst.length + max := by
  induction fuel generalizing srcva max dst with
  | zero => exact ⟨rfl, nofun⟩
  | succ fuel ih =>
    unfold copyinstrLoop
    split
    case isTrue => exact ⟨rfl, nofun⟩
    case isFalse =>
    refine (walkaddr_spec h _).bind fun r k1 ⟨hk, _⟩ => ?_
    subst hk
    split
    case isTrue => exact ⟨rfl, nofun⟩
    case isFalse =>
    rw [wp_bind]
    show wp E (if 0 ∈ (k1.mem r).bytes (srcva - pgrounddown srcva)
      (min (PGSIZE - (srcva - pgrounddown srcva)) max) then _ else _) k1 _
    split
    case isTrue hz =>
      refine ⟨rfl, fun s hs => ?_⟩
      cases hs
      have hlt := length_takeWhile_lt hz
      rw [Page.length_bytes] at hlt
      rw [List.length_append]
      omega
    case isFalse =>
      refine ih.mono fun r k2 ⟨hk, hr⟩ => ⟨hk, fun s hs => ?_⟩
      have := hr s hs
      rw [List.length_append, Page.length_bytes] at this
      omega

theorem copyinstr_spec (srcva max : Nat) (h : Space L k t rest) :
    wp E (copyinstr t.root srcva max) k fun r k' => k' = k ∧ ∀ s, r = some s → s.length < max :=
  (copyinstrLoop_spec h).mono fun r k' ⟨hk, hr⟩ => ⟨hk, fun s hs => by simpa using hr s hs⟩

/-- The entries of a copy after the pages below `n`: the same flags on other pages. -/
structure Copied (old pte pte' : Nat → Nat) (n : Nat) : Prop where
  above : ∀ v, n ≤ v → pte' v = pte v
  below : ∀ v, v < n → old v = 0 ∧ pte' v = 0 ∨ old v ≠ 0 ∧ ∃ pa, pa % PGSIZE = 0 ∧ pa < PHYSTOP ∧
    pte' v = pa2pte pa ||| pteFlags (old v) ||| PTE_V

theorem Copied.zero (old pte : Nat → Nat) : Copied old pte pte 0 :=
  ⟨fun _ _ => rfl, fun _ h => absurd h (by omega)⟩

theorem Copied.skip {old pte pte' : Nat → Nat} {n : Nat} (h : Copied old pte pte' n)
    (hold : old n = 0) (hn : pte n = 0) : Copied old pte pte' (n + 1) := by
  refine ⟨fun v hv => h.above v (by omega), fun v hv => ?_⟩
  by_cases hvn : v = n
  · subst hvn
    exact .inl ⟨hold, by rw [h.above v le_rfl, hn]⟩
  · exact h.below v (by omega)

theorem Copied.add {old pte pte' : Nat → Nat} {n pa : Nat} (h : Copied old pte pte' n)
    (hold : old n ≠ 0) (hpa : pa % PGSIZE = 0) (hlt : pa < PHYSTOP) :
    Copied old pte (update pte' n (pa2pte pa ||| pteFlags (old n) ||| PTE_V)) (n + 1) := by
  refine ⟨fun v hv => ?_, fun v hv => ?_⟩
  · rw [update_of_ne (by omega), h.above v (by omega)]
  · by_cases hvn : v = n
    · subst hvn
      exact .inr ⟨hold, pa, hpa, hlt, update_self _ _ _⟩
    · rw [update_of_ne hvn]
      exact h.below v (by omega)

theorem Copied.addr {old pte pte' : Nat → Nat} (h : Copied old pte pte' (npages sz))
    (ha : AddrSpace L pte 0 tf) (hsz : sz ≤ TRAPFRAME) (h0 : ∀ v < UPAGES, pte v = 0) :
    AddrSpace L pte' sz tf := by
  refine ha.change hsz (fun v hv => ?_) fun v hv hne => ?_
  · have := npages_le hsz
    exact h.above v (by omega)
  · by_contra hle
    rw [h.above v (by omega), h0 v hv] at hne
    exact hne rfl

theorem pteFlags_lt (pte : Nat) : pteFlags pte < 1024 :=
  lt_of_le_of_lt Nat.and_le_right (by decide)

/-- The pages of a copy below `n` hold what those of the old table held. -/
def Mirrors (k k' : Kmem) (old pte' : Nat → Nat) (n : Nat) : Prop :=
  ∀ v < n, old v ≠ 0 → k'.mem (pte2pa (pte' v)) = k.mem (pte2pa (old v))

theorem Copied.mem_userPages {old pte pte' : Nat → Nat} {n v : Nat} (h : Copied old pte pte' n)
    (hv : v < n) (hne : old v ≠ 0) (hup : v < UPAGES) : pte2pa (pte' v) ∈ userPages pte' := by
  obtain ⟨-, pa, hpa, hlt, he⟩ := (h.below v hv).resolve_left fun h0 => hne h0.1
  refine Vm.mem_userPages.mpr ⟨v, hup, ?_⟩
  rw [he, leafPage_pte hpa hlt (pteFlags_lt _), pte2pa_pte hpa hlt (pteFlags_lt _)]

/-- `uvmcopy` copies the pages below `sz` of another table, which lies in `rest`, or adds nothing.
-/
theorem uvmcopy_spec {old : Table} (h : Space L k t rest) (hold : Rep k.mem old)
    (hin : ∀ p ∈ old.tables, p ∈ rest) (hpages : ∀ p ∈ userPages old.pte, p ∈ rest)
    (hvalid : ∀ v, old.pte v ≠ 0 → old.pte v &&& PTE_V ≠ 0)
    (hsz : sz ≤ TRAPFRAME) (h0 : ∀ v < UPAGES, t.pte v = 0) :
    wp E (uvmcopy L old.root t.root sz) k fun r k' => ∃ t', Space L k' t' rest ∧
      t'.root = t.root ∧ Same rest k k' ∧
      (r = 0 ∧ Copied old.pte t.pte t'.pte (npages sz) ∧ Mirrors k k' old.pte t'.pte (npages sz) ∨
        r = -1 ∧ t'.pte = t.pte) := by
  have hn := npages_le hsz
  have hloop := wp_search (E := E) (s := k) (i := 0) (n := npages sz)
    (f := fun j => copyPage L old.root t.root (j * PGSIZE))
    (Q := fun i k' => ∃ t' n, i = n * PGSIZE ∧ n < npages sz ∧ Space L k' t' rest ∧
      t'.root = t.root ∧ Same rest k k' ∧ Copied old.pte t.pte t'.pte n)
    (fun n k' => ∃ t', Space L k' t' rest ∧ t'.root = t.root ∧ Same rest k k' ∧
      Copied old.pte t.pte t'.pte n ∧ Mirrors k k' old.pte t'.pte n)
    ⟨t, h, rfl, Same.refl _ _, Copied.zero _ _, nofun⟩ ?_
  · refine hloop.bind fun r k1 hr => ?_
    cases r with
    | none =>
      rw [zero_add] at hr
      obtain ⟨t', hsp, hroot, hs, hc, hm⟩ := hr
      exact ⟨t', hsp, hroot, hs, .inl ⟨rfl, hc, hm⟩⟩
    | some i =>
      obtain ⟨t1, n, rfl, hlt, hsp, hroot, hs, hc⟩ := hr
      have hsp' := uvmunmap_spec (E := E) (v := 0) (n := n) hsp (by omega)
      rw [zero_mul, hroot] at hsp'
      dsimp only
      rw [Nat.mul_div_cancel _ (by decide)]
      refine hsp'.bind fun _ k2 ⟨t2, hsp2, hroot2, hpte2, hs2⟩ => ?_
      refine ⟨t2, hsp2, hroot2, hs.trans hs2.right,
        .inr ⟨rfl, ?_⟩⟩
      rw [hpte2]
      funext v
      unfold cleared
      split
      · rw [h0 v (by omega)]
      · exact hc.above v (by omega)
  intro n k1 _ hlt ⟨t1, hsp, hroot, hs, hc, hm⟩
  rw [zero_add] at hlt
  have hva := mul_div_pgsize n
  have hmax : n * PGSIZE < MAXVA := by simp only [UPAGES, PGSIZE, MAXVA] at *; omega
  have hold1 : Rep k1.mem old := hold.congr fun p hp => hs p (hin p hp)
  -- a page that the old table does not map is skipped
  have hskip : old.pte n = 0 → ∃ t', Space L k1 t' rest ∧ t'.root = t.root ∧ Same rest k k1 ∧
      Copied old.pte t.pte t'.pte (n + 1) ∧ Mirrors k k1 old.pte t'.pte (n + 1) := fun hz =>
    ⟨t1, hsp, hroot, hs, hc.skip hz (h0 n (by omega)), fun v hv hne =>
      hm v (Nat.lt_of_le_of_ne (Nat.le_of_lt_succ hv) fun he => hne (he ▸ hz)) hne⟩
  have hw := walk_rep (E := E) hold1 (fun p hp => hsp.mem_rest (hin p hp)) hmax
  refine hw.bind fun r k2 ⟨hk, hr⟩ => ?_
  subst hk hr
  rw [hva]
  cases hl : old.low (n / 512) with
  | none =>
    refine hskip ?_
    by_contra hne
    obtain ⟨q, hq⟩ := old.pte_low n hne
    rw [hl] at hq; cases hq
  | some p =>
    have hread : k2.mem p (n % 512) = old.pte n := by
      rw [hold1.low _ p hl _ (Nat.mod_lt _ (by decide)), Nat.div_add_mod']
    refine (wp_bind _ _).mpr ?_
    show wp E (if k2.mem p (n % 512) &&& PTE_V = 0 then _ else _) k2 _
    rw [hread]
    split
    case isTrue hv0 => exact hskip (by by_contra hne; exact hvalid n hne hv0)
    case isFalse hv0 =>
    have hne : old.pte n ≠ 0 := fun hz => hv0 (by rw [hz, Nat.zero_and])
    refine (kalloc_spec hsp.own).bind fun r k3 hr => ?_
    cases r with
    | none =>
      obtain ⟨rfl, -⟩ := hr
      exact ⟨t1, n, rfl, hlt, hsp, hroot, hs, hc⟩
    | some mem =>
      rw [wp_bind]
      refine (wp_bind _ _).mpr ?_
      obtain ⟨hsp4, hs4⟩ := hsp.fresh hr.1 hr.2 (k3.mem (pte2pa (old.pte n)))
      obtain ⟨hpa, hpa'⟩ := hsp4.mem_rest (mem_cons_self mem rest)
      have hs4' : Same rest k (k3.setPage mem (k3.mem (pte2pa (old.pte n)))) :=
        hs.trans hs4.right
      have hz : t1.pte n = 0 := by rw [hc.above n le_rfl, h0 n (by omega)]
      show wp E (mappages t.root (n * PGSIZE) PGSIZE mem (pteFlags (old.pte n)) >>= _)
        (k3.setPage mem (k3.mem (pte2pa (old.pte n)))) _
      rw [← hroot]
      refine (hsp4.map (by omega) hz (pteFlags_lt _)).bind fun r k5 ⟨t5, hroot5, hs5, hr5⟩ => ?_
      have hs5' : Same rest k k5 :=
        hs4'.trans fun q hq => hs5 q (subset_add_right (mem_cons_of_mem hq))
      rcases hr5 with ⟨rfl, hsp5, hpte5⟩ | ⟨rfl, hsp5, hpte5⟩
      · rw [if_neg (by decide)]
        refine ⟨t5, hsp5, hroot5, hs5', hpte5 ▸ hc.add hne hpa hpa', fun v hv hv0 => ?_⟩
        rw [hpte5]
        by_cases hvn : v = n
        · have hin' : pte2pa (old.pte n) ∈ rest := hpages _ (Vm.mem_userPages.mpr
            ⟨n, by omega, if_pos (hvalid n hne)⟩)
          rw [hvn, update_self, pte2pa_pte hpa hpa' (pteFlags_lt _), hs5 mem (by simp),
            Kmem.setPage_same, hr.2 _ (by simp [hin']), hs _ hin']
        · -- the pages copied before are mapped, so nothing has touched them
          have hmem := hc.mem_userPages (by omega) hv0 (by omega)
          rw [update_of_ne hvn, hs5 _ (subset_add_left hmem),
            hs4 _ (subset_add_left hmem), hm v (by omega) hv0]
      · rw [if_pos (by decide)]
        refine hsp5.free.bind fun _ k6 ⟨hsp6, hs6⟩ => ?_
        exact ⟨t5, n, rfl, hlt, hsp6, hroot5,
          hs5'.trans hs6.right, hpte5 ▸ hc⟩

end Xv6.Vm
