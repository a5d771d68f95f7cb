import Xv6.Vm.PageMap

/-! Each call of `mappages`, `uvmunmap` and `uvmclear` does to a table in memory what its
counterpart does to the map, and the page-table pages stay a tree. -/

namespace Xv6.Vm

open Function Finset PageTable Option

variable {L : Layout} {s : PageTable} {k : Kmem} {t : Table} {rest : Multiset Nat}

/-- Memory holds the tree `t` at the root of the table. -/
structure Tree (L : Layout) (s : PageTable) (t : Table) : Prop where
  root : t.root = s.root
  rep : Rep s.mem t
  nodup : t.tables.Nodup
  mem : ∀ p ∈ t.tables, p ∈ L.pages
  valid : ∀ v, t.pte v ≠ 0 → t.pte v &&& PTE_V ≠ 0
  below : ∀ v, t.pte v ≠ 0 → v * PGSIZE < MAXVA

theorem Tree.page (h : Tree L s t) {p : Nat} (hp : p ∈ t.tables) : p % PGSIZE = 0 ∧ p < PHYSTOP :=
  ⟨(mem_pages_iff.mp (h.mem p hp)).1, (mem_pages_iff.mp (h.mem p hp)).2.2⟩

theorem PageTable.Empty.tree (h : s.Empty L) : Tree L s (.empty s.root) := by
  refine ⟨rfl, ⟨h.zero, nofun, nofun⟩, ?_, ?_, ?_, ?_⟩
  · rw [Table.tables_empty]
    exact Multiset.nodup_singleton _
  · intro p hp
    rw [Table.tables_empty, Multiset.mem_singleton] at hp
    rw [hp]
    exact mem_pages_iff.mpr h.root
  · exact fun v hv => absurd rfl hv
  · exact fun v hv => absurd rfl hv

/-! ### What the table looks like from outside -/

theorem Tree.slot_eq (h : Tree L s t) {va : Nat} (hva : va < MAXVA) :
    s.slot va = (t.low (va / PGSIZE / 512)).map fun p => (p, va / PGSIZE % 512) := by
  have hwalk := walk_rep (E := fun _ => False) (k := ⟨s.mem, []⟩) h.rep (fun _ => h.page) hva
  rw [h.root] at hwalk
  unfold slot
  unfold wp at hwalk
  cases hr : walk s.root va false ⟨s.mem, []⟩ with
  | error msg =>
    rw [hr] at hwalk
    exact hwalk.elim
  | ok r =>
    rw [hr] at hwalk
    exact hwalk.2

theorem Tree.read {v p : Nat} (h : Tree L s t) (hp : t.low (v / 512) = some p) :
    s.mem p (v % 512) = t.pte v := by
  rw [h.rep.low _ p hp _ (Nat.mod_lt _ (by decide)), Nat.div_add_mod']

@[simp] theorem mapping_zero : mapping 0 = none := by simp [mapping]

theorem Tree.map_eq (h : Tree L s t) (v : Nat) : s.map v = mapping (t.pte v) := by
  have hv := mul_div_pgsize v
  unfold PageTable.map
  by_cases hlt : v * PGSIZE < MAXVA
  · rw [h.slot_eq hlt, hv]
    cases hl : t.low (v / 512) with
    | none => rw [t.pte_eq_zero hl, mapping_zero, map_none, bind_none]
    | some p =>
      rw [map_some, bind_some, h.read hl]
  · have hslot : s.slot (v * PGSIZE) = none := by
      unfold slot walk
      rw [if_pos (by omega)]
      rfl
    have hpte : t.pte v = 0 := by
      by_contra hne
      exact hlt (h.below v hne)
    rw [hslot, hpte, mapping_zero, bind_none]

theorem Tree.map_eq_none (h : Tree L s t) {v : Nat} : s.map v = none ↔ t.pte v = 0 := by
  rw [h.map_eq]
  constructor
  · intro hm
    by_contra hne
    rw [mapping, if_pos (h.valid v hne)] at hm
    cases hm
  · intro hp
    rw [hp, mapping_zero]

theorem sum_flatMap {f : Nat → List Nat} (n : Nat) :
    (((List.range n).flatMap f : List Nat) : Multiset Nat) =
      ∑ i ∈ range n, (f i : Multiset Nat) := by
  induction n with
  | zero => simp
  | succ n ih =>
    rw [List.range_succ, List.flatMap_append, ← Multiset.coe_add, ih, sum_range_succ]
    simp

theorem tree_node {mem : Nat → Page} {level p : Nat} {c : Nat → Option Nat}
    (hp : ∀ i < 512, mem p i = link (c i))
    (hc : ∀ i q, c i = some q → q % PGSIZE = 0 ∧ q < PHYSTOP) :
    (tree mem (level + 1) p : Multiset Nat) =
      p ::ₘ ∑ i ∈ range 512, (((c i).elim [] (tree mem level) : List Nat) : Multiset Nat) := by
  rw [tree, ← Multiset.cons_coe, sum_flatMap]
  refine congrArg (Multiset.cons p) (sum_congr rfl fun i hi => ?_)
  rw [hp i (mem_range.mp hi)]
  cases hci : c i with
  | none => simp
  | some q =>
    rw [if_pos (link_valid q), pte2pa_link (hc i q hci).1 (hc i q hci).2]
    rfl

theorem Tree.pages_eq (h : Tree L s t) : (s.pages : Multiset Nat) = t.tables := by
  have hmid : ∀ i q, t.mid i = some q → q % PGSIZE = 0 ∧ q < PHYSTOP := fun i q hq =>
    h.page (Table.mid_mem hq)
  have hlow : ∀ i q, t.low i = some q → q % PGSIZE = 0 ∧ q < PHYSTOP := fun i q hq =>
    h.page (Table.low_mem hq)
  rw [pages, ← h.root, tree_node h.rep.root hmid, t.tables_eq]
  refine congrArg (Multiset.cons t.root) (sum_congr rfl fun i hi => ?_)
  cases hm : t.mid i with
  | none => rw [Table.branch_none hm]; rfl
  | some q =>
    rw [elim_some, tree_node (h.rep.mid i q hm) fun j p hp => hlow _ p hp, Table.branch, hm,
      held_some, Multiset.singleton_add, own_def]
    refine congrArg (Multiset.cons q) (sum_congr rfl fun j _ => ?_)
    cases t.low (i * 512 + j) <;> rfl

theorem Tree.mem_pages (h : Tree L s t) {p : Nat} : p ∈ s.pages ↔ p ∈ t.tables := by
  rw [← h.pages_eq, Multiset.mem_coe]

theorem PageTable.Empty.mem_pages (h : s.Empty L) {p : Nat} : p ∈ s.pages ↔ p = s.root := by
  rw [h.tree.mem_pages, Table.tables_empty, Multiset.mem_singleton]

/-! ### `mappages` -/

/-- The pages that are neither in the table nor given to `kalloc` belong to somebody else. -/
theorem Tree.heap (h : Tree L s t) {free : List Nat} (hf : s.Fresh L free) :
    ∃ rest, Heap L ⟨s.mem, free⟩ t rest := by
  have hnodup : (t.tables + (free : Multiset Nat)).Nodup := by
    refine Multiset.nodup_add.mpr ⟨h.nodup, Multiset.coe_nodup.mpr hf.1, ?_⟩
    refine Multiset.disjoint_left.mpr fun hp hfree => ?_
    exact (hf.2 _ (Multiset.mem_coe.mp hfree)).2 (h.mem_pages.mpr hp)
  have hle : t.tables + (free : Multiset Nat) ≤ L.pages := by
    refine (Multiset.le_iff_subset hnodup).mpr fun p hp => Multiset.mem_coe.mpr ?_
    rcases Multiset.mem_add.mp hp with hp | hp
    · exact h.mem p hp
    · exact mem_pages_iff.mpr (hf.2 p (Multiset.mem_coe.mp hp)).1
  refine ⟨(L.pages : Multiset Nat) - (t.tables + free), h.rep, ?_⟩
  rw [Owns, add_right_comm]
  exact add_tsub_cancel_of_le hle

theorem Heap.tree {root : Nat} (h : Heap L k t rest) (hroot : t.root = root)
    (hvalid : ∀ v, t.pte v ≠ 0 → t.pte v &&& PTE_V ≠ 0)
    (hbelow : ∀ v, t.pte v ≠ 0 → v * PGSIZE < MAXVA) : Tree L ⟨k.mem, root⟩ t := by
  refine ⟨hroot, h.rep, h.tables_nodup, fun p hp => ?_, hvalid, hbelow⟩
  exact mem_pages_iff.mpr (h.own.mem (Multiset.subset_add_left hp))

theorem u64_u64 (a : Nat) : u64 (u64 a) = u64 a := by
  unfold u64
  omega

/-- The entries after the `n` pages from `v` on have been mapped. -/
def filled (pte : Nat → Nat) (v n pa perm : Nat) : Nat → Nat := fun w =>
  if v ≤ w ∧ w < v + n then pa2pte (u64 (pa + (w - v) * PGSIZE)) ||| perm ||| PTE_V else pte w

theorem filled_zero (pte : Nat → Nat) (v pa perm : Nat) : filled pte v 0 pa perm = pte := by
  funext w
  rw [filled, if_neg (by omega)]

theorem filled_succ (pte : Nat → Nat) (v n perm : Nat) {pa : Nat} (hpa : u64 pa = pa) :
    filled (update pte v (pa2pte pa ||| perm ||| PTE_V)) (v + 1) n (u64 (pa + PGSIZE)) perm =
      filled pte v (n + 1) pa perm := by
  funext w
  unfold filled
  rcases lt_trichotomy w v with hw | rfl | hw
  · rw [if_neg (by omega), if_neg (by omega), update_of_ne (by omega)]
  · rw [if_neg (by omega), if_pos (by omega), update_self, Nat.sub_self, Nat.zero_mul, Nat.add_zero,
      hpa]
  · by_cases hlt : w < v + (n + 1)
    · have haddr : u64 (u64 (pa + PGSIZE) + (w - (v + 1)) * PGSIZE) =
          u64 (pa + (w - v) * PGSIZE) := by
        simp only [u64, PGSIZE]
        omega
      rw [if_pos (by omega), if_pos (by omega), haddr]
    · rw [if_neg (by omega), if_neg (by omega), update_of_ne (by omega)]

/-- The loop of `mappages` maps all of its pages, or those before the first for which `kalloc`
fails; it stops at a page that is mapped already. -/
theorem mappagesLoop_spec (n perm : Nat) {v pa : Nat} (h : Heap L k t rest)
    (hv : (v + n) * PGSIZE ≤ MAXVA) (hpa : u64 pa = pa) :
    wp (fun msg => msg = "mappages: remap" ∧ ∃ w, v ≤ w ∧ w < v + n ∧ t.pte w &&& PTE_V ≠ 0)
      (mappagesLoop t.root perm n (v * PGSIZE) pa) k fun r k' => ∃ t' m,
        Moved L k k' t t' rest (filled t.pte v m pa perm) ∧
          (∀ w, v ≤ w → w < v + m → t.pte w &&& PTE_V = 0) ∧ (r = 0 ∧ m = n ∨
            r = -1 ∧ m < n ∧ t'.low ((v + m) / 512) = none ∧ k'.freelist = []) := by
  induction n generalizing k t v pa with
  | zero =>
    refine ⟨t, 0, ?_, fun w _ _ => by omega, .inl ⟨rfl, rfl⟩⟩
    rw [filled_zero]
    exact Moved.refl h
  | succ n ih =>
    have hmul := mul_div_pgsize v
    unfold mappagesLoop
    refine (walk_alloc_spec h (by simp only [PGSIZE, MAXVA] at *; omega)).bind
      fun r k1 ⟨t1, hm, hr⟩ => ?_
    cases r with
    | none =>
      obtain ⟨hlow, hempty⟩ := hr
      rw [hmul] at hlow
      refine ⟨t1, 0, ?_, fun w _ _ => by omega, .inr ⟨rfl, by omega, hlow, hempty⟩⟩
      rw [filled_zero]
      exact hm
    | some e =>
      obtain ⟨p, i⟩ := e
      obtain ⟨hp, rfl⟩ := hr
      rw [hmul] at hp ⊢
      rw [wp_bind]
      show wp _ (if k1.mem p (v % 512) &&& PTE_V ≠ 0 then _ else _) k1 _
      rw [hm.heap.read hp, hm.pte]
      by_cases hpte : t.pte v &&& PTE_V = 0
      swap
      · rw [if_pos hpte]
        exact ⟨rfl, v, le_rfl, by omega, hpte⟩
      rw [if_neg (not_not.mpr hpte)]
      obtain ⟨hheap, hsame⟩ := hm.heap.setPte hp
      set t2 := t1.setPte v (pa2pte pa ||| perm ||| PTE_V) ⟨p, hp⟩
      have hpte2 : t2.pte = update t.pte v (pa2pte pa ||| perm ||| PTE_V) := by
        rw [← hm.pte]
        rfl
      have hm2 : Moved L k _ t t2 rest t2.pte := hm.trans ⟨hheap, hsame, rfl, rfl⟩
      have hrange : (v + 1 + n) * PGSIZE ≤ MAXVA := by
        rwa [add_assoc, add_comm 1 n]
      have hnext := ih hheap hrange (u64_u64 (pa + PGSIZE))
      rw [show t2.root = t.root from hm.root, add_mul, one_mul] at hnext
      refine (wp_bind _ _).mpr (hnext.imp ?_ ?_)
      · rintro msg ⟨rfl, w, hw, hw', hvalid⟩
        refine ⟨rfl, w, by omega, by omega, ?_⟩
        rwa [hpte2, update_of_ne (by omega)] at hvalid
      rintro r k3 ⟨t3, m, hm3, hfree, hres⟩
      refine ⟨t3, m + 1, ?_, fun w hw hw' => ?_, ?_⟩
      · rw [← filled_succ _ _ _ _ hpa, ← hpte2]
        exact hm2.trans hm3
      · rcases Nat.eq_or_lt_of_le hw with rfl | hlt
        · exact hpte
        · have := hfree w hlt (by omega)
          rwa [hpte2, update_of_ne (by omega)] at this
      · rcases hres with ⟨hr, hmn⟩ | ⟨hr, hmn, hstop⟩
        · exact .inl ⟨hr, by omega⟩
        · rw [Nat.add_right_comm v 1 m] at hstop
          exact .inr ⟨hr, by omega, hstop⟩

theorem mapping_pte {perm : Nat} (pa : Nat) (hperm : perm < 1024) :
    mapping (pa2pte (u64 pa) ||| perm ||| PTE_V) = some (pgrounddown (u64 pa), perm ||| PTE_V) := by
  have hlt : perm ||| PTE_V < 2 ^ 10 := Nat.or_lt_two_pow hperm (by decide)
  have hpa : pte2pa (pa2pte (u64 pa) ||| perm ||| PTE_V) = pgrounddown (u64 pa) := by
    rw [pte_eq _ hperm, pte2pa, Nat.shiftLeft_eq, Nat.shiftRight_eq_div_pow, pgrounddown]
    simp only [u64, PGSIZE]
    omega
  have hflags : pteFlags (pa2pte (u64 pa) ||| perm ||| PTE_V) = perm ||| PTE_V := by
    rw [pteFlags, and_pte _ hperm (by decide)]
    exact (Nat.and_two_pow_sub_one_eq_mod _ 10).trans (Nat.mod_eq_of_lt hlt)
  rw [mapping, if_pos (valid_pte _ hperm), hpa, hflags]

theorem Tree.map_filled {s' : PageTable} {t' : Table} {v n pa perm : Nat} (h : Tree L s t)
    (h' : Tree L s' t') (hperm : perm < 1024) (hpte : t'.pte = filled t.pte v n pa perm) :
    s'.map = s.map.assign v n pa perm := by
  funext w
  rw [h'.map_eq, hpte, filled, PageMap.assign]
  by_cases hw : v ≤ w ∧ w < v + n
  · rw [if_pos hw, if_pos hw, mapping_pte _ hperm]
  · rw [if_neg hw, if_neg hw, h.map_eq]

/-- `mappages` maps its range and nothing else; or `kalloc` has no page left and it maps the pages
before the first that needs one more page-table page. It panics only if a page of the range is
mapped already. -/
theorem mappages_refines {va size pa perm : Nat} {free : List Nat} (h : Tree L s t)
    (hok : (TableOp.mappages va size pa perm free).Ok L s) :
    wp (fun msg => msg = "mappages: remap" ∧
        ∃ w, va / PGSIZE ≤ w ∧ w < va / PGSIZE + size / PGSIZE ∧ s.map w ≠ none)
      (mappages s.root va size pa perm) ⟨s.mem, free⟩ fun r k' =>
        (∃ t', Tree L ⟨k'.mem, s.root⟩ t') ∧ ∃ m,
          (r = 0 ∧ m = size / PGSIZE ∨ r = -1 ∧ m < size / PGSIZE ∧ k'.freelist = [] ∧
            slot ⟨k'.mem, s.root⟩ ((va / PGSIZE + m) * PGSIZE) = none) ∧
          (∀ w, va / PGSIZE ≤ w → w < va / PGSIZE + m → s.map w = none) ∧
          PageTable.map ⟨k'.mem, s.root⟩ = s.map.assign (va / PGSIZE) m pa perm := by
  obtain ⟨hva, hsize, hpos, hmax, hpa, hperm, hfresh⟩ := hok
  obtain ⟨rest, hheap⟩ := h.heap hfresh
  have hrange : (va / PGSIZE + size / PGSIZE) * PGSIZE ≤ MAXVA := by
    simp only [PGSIZE, MAXVA] at *
    omega
  have hbase : va / PGSIZE * PGSIZE = va := Nat.div_mul_cancel (Nat.dvd_of_mod_eq_zero hva)
  have hloop := mappagesLoop_spec (size / PGSIZE) perm hheap hrange (Nat.mod_eq_of_lt hpa)
  rw [hbase, h.root] at hloop
  rw [mappages, if_neg (by omega), if_neg (by omega), if_neg (by omega)]
  refine hloop.imp ?_ ?_
  · rintro msg ⟨rfl, w, hw, hw', hpte⟩
    refine ⟨rfl, w, hw, hw', fun hnone => ?_⟩
    rw [h.map_eq_none.mp hnone] at hpte
    exact hpte rfl
  rintro r k' ⟨t', m, hm, hfree, hres⟩
  have hm' : m ≤ size / PGSIZE := by omega
  have htree : Tree L ⟨k'.mem, s.root⟩ t' := by
    refine hm.heap.tree (hm.root.trans h.root) (fun w hw => ?_) fun w hw => ?_
    · rw [hm.pte, filled] at hw ⊢
      by_cases hin : va / PGSIZE ≤ w ∧ w < va / PGSIZE + m
      · rw [if_pos hin]
        exact valid_pte _ hperm
      · rw [if_neg hin] at hw ⊢
        exact h.valid w hw
    · rw [hm.pte, filled] at hw
      by_cases hin : va / PGSIZE ≤ w ∧ w < va / PGSIZE + m
      · simp only [PGSIZE, MAXVA] at *
        omega
      · rw [if_neg hin] at hw
        exact h.below w hw
  refine ⟨⟨t', htree⟩, m, ?_, fun w hw hw' => ?_, h.map_filled htree hperm hm.pte⟩
  · rcases hres with hr | ⟨hr, hlt, hlow, hempty⟩
    · exact .inl hr
    · refine .inr ⟨hr, hlt, hempty, ?_⟩
      rw [htree.slot_eq (by simp only [PGSIZE, MAXVA] at *; omega), mul_div_pgsize, hlow,
        map_none]
  · refine h.map_eq_none.mpr ?_
    by_contra hne
    exact h.valid w hne (hfree w hw hw')

/-! ### `uvmunmap` and `uvmclear` -/

theorem Tree.setPte {v x p : Nat} (h : Tree L s t) (hp : t.low (v / 512) = some p)
    (hx : x ≠ 0 → x &&& PTE_V ≠ 0 ∧ v * PGSIZE < MAXVA) :
    Tree L ⟨update s.mem p (update (s.mem p) (v % 512) x), s.root⟩ (t.setPte v x ⟨p, hp⟩) := by
  refine ⟨h.root, h.rep.setPte (Table.distinct h.nodup) hp, h.nodup, h.mem, fun w hw => ?_,
    fun w hw => ?_⟩
  · by_cases hwv : w = v
    · simp only [Table.setPte, hwv, update_self] at hw ⊢
      exact (hx hw).1
    · simp only [Table.setPte, update_of_ne hwv] at hw ⊢
      exact h.valid w hw
  · by_cases hwv : w = v
    · simp only [Table.setPte, hwv, update_self] at hw ⊢
      exact (hx hw).2
    · simp only [Table.setPte, update_of_ne hwv] at hw
      exact h.below w hw

theorem Tree.write {pa : Nat} (h : Tree L s t) (hpa : pa ∉ t.tables) (page : Page) :
    Tree L ⟨update s.mem pa page, s.root⟩ t :=
  { h with rep := h.rep.congr fun q hq => update_of_ne (fun he : q = pa => hpa (he ▸ hq)) _ _ }

theorem kfree_tree {pa root : Nat} (h : Tree L ⟨k.mem, root⟩ t) (hpa : pa ∉ t.tables) :
    wp (fun msg => msg = "kfree" ∧ pa ∉ L.pages) (kfree L pa) k fun _ k' =>
      Tree L ⟨k'.mem, root⟩ t := by
  unfold kfree
  split_ifs
  · refine ⟨rfl, fun hmem => ?_⟩
    have := mem_pages_iff.mp hmem
    omega
  · exact h.write hpa _

theorem unmapPage_tree {v root : Nat} {doFree : Bool} (h : Tree L ⟨k.mem, root⟩ t)
    (hv : v * PGSIZE < MAXVA)
    (hfree : doFree = true → t.pte v &&& PTE_V ≠ 0 → pte2pa (t.pte v) ∉ t.tables) :
    wp (fun msg => msg = "kfree" ∧ doFree = true ∧ t.pte v &&& PTE_V ≠ 0 ∧
        pte2pa (t.pte v) ∉ L.pages)
      (unmapPage L root doFree (v * PGSIZE)) k fun _ k' => ∃ t', Tree L ⟨k'.mem, root⟩ t' ∧
        t'.tables = t.tables ∧ t'.pte = update t.pte v 0 := by
  have hmul := mul_div_pgsize v
  have hwalk := walk_rep (E := fun msg => msg = "kfree" ∧ doFree = true ∧ t.pte v &&& PTE_V ≠ 0 ∧
    pte2pa (t.pte v) ∉ L.pages) h.rep (fun _ => h.page) hv
  rw [show t.root = root from h.root, hmul] at hwalk
  -- without an entry, nothing happens
  have hnone : t.pte v = 0 → ∃ t', Tree L ⟨k.mem, root⟩ t' ∧ t'.tables = t.tables ∧
      t'.pte = update t.pte v 0 := fun h0 => ⟨t, h, rfl, by rw [← h0, update_eq_self]⟩
  unfold unmapPage
  refine hwalk.bind fun r k1 ⟨hk, hr⟩ => ?_
  subst hk hr
  cases hl : t.low (v / 512) with
  | none => exact hnone (t.pte_eq_zero hl)
  | some p =>
    refine (wp_bind _ _).mpr ?_
    have hread : k1.mem p (v % 512) = t.pte v := h.read hl
    show wp _ (if k1.mem p (v % 512) &&& PTE_V = 0 then _ else _) k1 _
    rw [hread]
    by_cases hpte : t.pte v &&& PTE_V = 0
    · rw [if_pos hpte]
      refine hnone ?_
      by_contra hne
      exact h.valid v hne hpte
    rw [if_neg hpte]
    have hset : ∀ {k2 : Kmem}, Tree L ⟨k2.mem, root⟩ t → ∃ t',
        Tree L ⟨update k2.mem p (update (k2.mem p) (v % 512) 0), root⟩ t' ∧
          t'.tables = t.tables ∧ t'.pte = update t.pte v 0 := fun h2 =>
      ⟨_, h2.setPte hl fun hx => absurd rfl hx, rfl, rfl⟩
    cases doFree with
    | false => exact hset h
    | true =>
      refine (wp_bind _ _).mpr ?_
      refine (kfree_tree h (hfree rfl hpte)).imp ?_ ?_
      · rintro msg ⟨rfl, hbad⟩
        exact ⟨rfl, rfl, hpte, hbad⟩
      · intro _ k2 h2
        exact hset h2

theorem Tree.map_cleared {s' : PageTable} {t' : Table} {v n : Nat} (h : Tree L s t)
    (h' : Tree L s' t') (hpte : t'.pte = cleared t.pte v n) : s'.map = s.map.remove v n := by
  funext w
  rw [h'.map_eq, hpte, cleared, PageMap.remove]
  by_cases hw : v ≤ w ∧ w < v + n
  · rw [if_pos hw, if_pos hw, mapping_zero]
  · rw [if_neg hw, if_neg hw, h.map_eq]

/-- `uvmunmap` removes the mappings of its range and nothing else; it panics only if it has to free
what `kalloc` does not manage. -/
theorem uvmunmap_refines {va npages : Nat} {doFree : Bool} (h : Tree L s t)
    (hok : (TableOp.uvmunmap va npages doFree).Ok L s) (free : List Nat) :
    wp (fun msg => msg = "kfree" ∧ doFree = true ∧ ∃ w e, va / PGSIZE ≤ w ∧
        w < va / PGSIZE + npages ∧ s.map w = some e ∧ e.1 ∉ L.pages)
      (uvmunmap L s.root va npages doFree) ⟨s.mem, free⟩ fun _ k' =>
        (∃ t', Tree L ⟨k'.mem, s.root⟩ t') ∧
          PageTable.map ⟨k'.mem, s.root⟩ = s.map.remove (va / PGSIZE) npages := by
  obtain ⟨hva, hmax, hfree⟩ := hok
  have hbase : va / PGSIZE * PGSIZE = va := Nat.div_mul_cancel (Nat.dvd_of_mod_eq_zero hva)
  set v := va / PGSIZE
  rw [uvmunmap, if_neg (by omega)]
  have hmapping : ∀ w, t.pte w &&& PTE_V ≠ 0 →
    s.map w = some (pte2pa (t.pte w), pteFlags (t.pte w)) :=
    fun w hw => by rw [h.map_eq, mapping, if_pos hw]
  have hloop := wp_loop (E := fun msg => msg = "kfree" ∧ doFree = true ∧ ∃ w e, v ≤ w ∧
      w < v + npages ∧ s.map w = some e ∧ e.1 ∉ L.pages) (s := ⟨s.mem, free⟩)
    (f := fun j => unmapPage L s.root doFree (va + j * PGSIZE)) (i := 0) (n := npages)
    (fun j k' => ∃ t', Tree L ⟨k'.mem, s.root⟩ t' ∧ t'.tables = t.tables ∧
    t'.pte = cleared t.pte v j) ⟨t, h, rfl, (cleared_zero _ _).symm⟩ ?_
  · refine hloop.mono ?_
    rintro _ k' ⟨t', htree, _, hpte⟩
    refine ⟨⟨t', htree⟩, ?_⟩
    rw [zero_add] at hpte
    exact h.map_cleared htree hpte
  rintro j k1 _ hj ⟨t1, htree, htables, hpte⟩
  rw [zero_add] at hj
  have hpage : t1.pte (v + j) = t.pte (v + j) := by rw [hpte, cleared, if_neg (by omega)]
  have haddr : va + j * PGSIZE = (v + j) * PGSIZE := by rw [add_mul, hbase]
  have hlt : (v + j) * PGSIZE < MAXVA := by
    rw [← haddr]
    simp only [PGSIZE, MAXVA] at hmax ⊢
    omega
  rw [haddr]
  refine (unmapPage_tree htree hlt ?_).imp ?_ ?_
  · intro hdo hvalid
    rw [hpage] at hvalid ⊢
    have hnot := hfree hdo j hj
    rw [hmapping _ hvalid] at hnot
    rw [htables, ← h.mem_pages]
    simpa using hnot
  · rintro msg ⟨rfl, hdo, hvalid, hbad⟩
    rw [hpage] at hvalid hbad
    exact ⟨rfl, hdo, v + j, _, by omega, by omega, hmapping _ hvalid, hbad⟩
  · rintro _ k2 ⟨t2, htree2, htables2, hpte2⟩
    refine ⟨t2, htree2, htables2.trans htables, ?_⟩
    rw [hpte2, hpte, cleared_succ]

theorem mapping_clear (x : Nat) :
    mapping (x - (x &&& PTE_U)) = (mapping x).map fun e => (e.1, e.2 - (e.2 &&& PTE_U)) := by
  have hbit : x &&& PTE_U = (x.testBit 4).toNat * 2 ^ 4 := Nat.and_two_pow x 4
  have hflags : ∀ y, pteFlags y = y % 1024 := fun y => Nat.and_two_pow_sub_one_eq_mod y 10
  have hvalid : ∀ y, y &&& PTE_V = y % 2 := fun y => Nat.and_two_pow_sub_one_eq_mod y 1
  have hlow : x % 1024 &&& PTE_U = x &&& PTE_U := (and_low x (by decide)).symm
  have hle : x &&& PTE_U ≤ x % 1024 := hlow ▸ Nat.and_le_left
  have heven : (x &&& PTE_U) % 2 = 0 := by
    rw [hbit]
    cases x.testBit 4 <;> rfl
  have hpa : pte2pa (x - (x &&& PTE_U)) = pte2pa x := by
    unfold pte2pa
    rw [Nat.shiftRight_eq_div_pow, Nat.shiftRight_eq_div_pow,
      show (x - (x &&& PTE_U)) / 2 ^ 10 = x / 2 ^ 10 by omega]
  unfold mapping
  rw [hvalid, hvalid, show (x - (x &&& PTE_U)) % 2 = x % 2 by omega, hpa, hflags, hflags]
  by_cases hx : x % 2 = 0
  · rw [if_neg (not_not.mpr hx), if_neg (not_not.mpr hx)]
    rfl
  · rw [if_pos hx, if_pos hx, map_some, hlow,
      show (x - (x &&& PTE_U)) % 1024 = x % 1024 - (x &&& PTE_U) by omega]

theorem Tree.map_setPte {s' : PageTable} {t' : Table} {v x : Nat} (h : Tree L s t)
    (h' : Tree L s' t') (hpte : t'.pte = update t.pte v x) :
    s'.map = update s.map v (mapping x) := by
  funext w
  rw [h'.map_eq, hpte]
  by_cases hw : w = v
  · rw [hw, update_self, update_self]
  · rw [update_of_ne hw, update_of_ne hw, h.map_eq]

/-- `uvmclear` takes `PTE_U` from one page; it panics only if `walk` finds no entry. -/
theorem uvmclear_refines {va : Nat} (h : Tree L s t) (hva : va < MAXVA) (free : List Nat) :
    wp (fun msg => msg = "uvmclear" ∧ s.slot va = none) (uvmclear s.root va) ⟨s.mem, free⟩
      fun _ k' => (∃ t', Tree L ⟨k'.mem, s.root⟩ t') ∧
        PageTable.map ⟨k'.mem, s.root⟩ = s.map.clearUser (va / PGSIZE) := by
  have hwalk := walk_rep (E := fun msg => msg = "uvmclear" ∧ s.slot va = none) (k := ⟨s.mem, free⟩)
    h.rep (fun _ => h.page) hva
  rw [h.root, ← h.slot_eq hva] at hwalk
  unfold uvmclear
  refine hwalk.bind fun r k1 ⟨hk, hr⟩ => ?_
  subst hk hr
  have hslot := h.slot_eq hva
  cases hl : t.low (va / PGSIZE / 512) with
  | none =>
    rw [hl, map_none] at hslot
    rw [hslot]
    exact ⟨rfl, rfl⟩
  | some p =>
    rw [hl, map_some] at hslot
    rw [hslot]
    refine (wp_bind _ _).mpr (wp_readWord.mpr (wp_writeWord.mpr ?_))
    rw [show (⟨s.mem, free⟩ : Kmem).mem p (va / PGSIZE % 512) = t.pte (va / PGSIZE) from h.read hl]
    set x := t.pte (va / PGSIZE) with hx
    have hmap := mapping_clear x
    have htree : Tree L ⟨update s.mem p (update (s.mem p) (va / PGSIZE % 512) (x - (x &&& PTE_U))),
        s.root⟩ (t.setPte (va / PGSIZE) (x - (x &&& PTE_U)) ⟨p, hl⟩) := by
      refine h.setPte hl fun hne => ?_
      have hx0 : x ≠ 0 := fun he => hne (by rw [he]; rfl)
      have hvalid : mapping x ≠ none := by
        rw [mapping, if_pos (h.valid _ hx0)]
        exact some_ne_none _
      refine ⟨fun hz => hvalid ?_, h.below _ hx0⟩
      rw [mapping, if_neg (not_not.mpr hz)] at hmap
      exact map_eq_none_iff.mp hmap.symm
    refine ⟨⟨_, htree⟩, ?_⟩
    rw [PageMap.clearUser, h.map_eq, ← hx, ← hmap]
    exact h.map_setPte htree rfl

/-! ### `freewalk` -/

/-- A table that maps nothing is given back page by page. -/
theorem freewalk_refines (h : Tree L s t) (hnone : ∀ v, s.map v = none) {free : List Nat}
    (hfree : s.Fresh L free) : wp (fun _ => False) (freewalk L 3 s.root) ⟨s.mem, free⟩ fun _ k' =>
      (k'.freelist : Multiset Nat) = (s.pages : Multiset Nat) + (free : Multiset Nat) := by
  obtain ⟨rest, hheap⟩ := h.heap hfree
  have hspec := freewalk_spec (E := fun _ => False) hheap fun v => h.map_eq_none.mp (hnone v)
  rw [h.root] at hspec
  refine hspec.mono fun _ k' ⟨hown, _⟩ => ?_
  have hbefore := hheap.own
  rw [Owns, ← hown, add_right_comm, add_comm _ rest] at hbefore
  rw [h.pages_eq]
  exact (add_left_cancel hbefore).symm

/-! ### Runs -/

theorem PageTable.step_of_ok {op : TableOp} {r : Int} (hok : op.Ok L s)
    (hrun : op.run L s.root ⟨s.mem, op.free⟩ = .ok (r, k)) :
    s.step L op = some { s with mem := k.mem } := by
  rw [PageTable.step, if_pos hok, hrun]

theorem Tree.step {s' : PageTable} {op : TableOp} (h : Tree L s t) (hs : s.step L op = some s') :
    ∃ t', Tree L s' t' := by
  unfold PageTable.step at hs
  obtain ⟨hok, hs⟩ := ite_none_right_eq_some.mp hs
  cases hrun : op.run L s.root ⟨s.mem, op.free⟩ with
  | error msg => simp [hrun] at hs
  | ok r =>
    simp only [hrun] at hs
    cases hs
    cases op with
    | mappages va size pa perm free => exact ((mappages_refines h hok).of_ok hrun).1
    | uvmunmap va npages doFree =>
      have hspec : wp _ ((TableOp.uvmunmap va npages doFree).run L s.root) ⟨s.mem, []⟩
          fun _ k' => ∃ t', Tree L ⟨k'.mem, s.root⟩ t' :=
        (uvmunmap_refines h hok []).bind fun _ _ hq => hq.1
      exact hspec.of_ok hrun
    | uvmclear va =>
      have hspec : wp _ ((TableOp.uvmclear va).run L s.root) ⟨s.mem, []⟩
          fun _ k' => ∃ t', Tree L ⟨k'.mem, s.root⟩ t' :=
        (uvmclear_refines h hok []).bind fun _ _ hq => hq.1
      exact hspec.of_ok hrun

theorem reachable_tree (h : Reachable (Empty L) (PageTable.step L) s) :
    ∃ t, Tree L s t :=
  h.invariant (P := fun s => ∃ t, Tree L s t) (fun _ hempty => ⟨_, hempty.tree⟩)
    fun _ _ _ ⟨_, ht⟩ hs => ht.step hs

theorem Tree.slot_ne (h : Tree L s t) {va va' : Nat} (hva : va < MAXVA) (hva' : va' < MAXVA)
    (hne : va / PGSIZE ≠ va' / PGSIZE) {e : Nat × Nat} (he : s.slot va = some e) :
    s.slot va' ≠ some e := by
  intro he'
  rw [h.slot_eq hva, map_eq_some_iff] at he
  rw [h.slot_eq hva', map_eq_some_iff] at he'
  obtain ⟨p, hp, rfl⟩ := he
  obtain ⟨p', hp', heq⟩ := he'
  obtain ⟨rfl, hmod⟩ := Prod.mk.inj heq
  have hdiv := (Table.distinct h.nodup).low_inj _ _ _ hp hp'
  omega

theorem PageMap.assign_zero (m : PageMap) (v pa perm : Nat) : m.assign v 0 pa perm = m := by
  funext w
  rw [assign, if_neg (by omega)]

/-- A page table made from an empty one by `mappages`, `uvmunmap` and `uvmclear` is a finite map.
Different pages have different entries, and the page-table pages form a tree without sharing.
`mappages` adds its range to the map and leaves the rest; it fails only when `kalloc` has no page
left for the page-table page of the page at which it stops, and has then added the pages before that
one, so none if it maps a single page. `uvmunmap` removes its range, `uvmclear` takes
`PTE_U` from one page, and once nothing is mapped `freewalk` gives every page-table page back, each
once. -/
theorem page_table_refines_map (h : Reachable (Empty L) (PageTable.step L) s) :
    (∀ va va', va < MAXVA → va' < MAXVA → va / PGSIZE ≠ va' / PGSIZE →
      ∀ e, s.slot va = some e → s.slot va' ≠ some e) ∧
    s.pages.Nodup ∧
    (∀ va size pa perm free, (TableOp.mappages va size pa perm free).Ok L s →
      wp (fun msg => msg = "mappages: remap" ∧
          ∃ w, va / PGSIZE ≤ w ∧ w < va / PGSIZE + size / PGSIZE ∧ s.map w ≠ none)
        (mappages s.root va size pa perm) ⟨s.mem, free⟩ fun r k' =>
          r = 0 ∧ PageTable.map ⟨k'.mem, s.root⟩ =
            s.map.assign (va / PGSIZE) (size / PGSIZE) pa perm ∨
          r = -1 ∧ k'.freelist = [] ∧ (∃ m < size / PGSIZE,
            slot ⟨k'.mem, s.root⟩ ((va / PGSIZE + m) * PGSIZE) = none ∧
            PageTable.map ⟨k'.mem, s.root⟩ = s.map.assign (va / PGSIZE) m pa perm) ∧
            (size = PGSIZE → PageTable.map ⟨k'.mem, s.root⟩ = s.map)) ∧
    (∀ va npages doFree free, (TableOp.uvmunmap va npages doFree).Ok L s →
      wp (fun msg => msg = "kfree" ∧ doFree = true ∧ ∃ w e, va / PGSIZE ≤ w ∧
          w < va / PGSIZE + npages ∧ s.map w = some e ∧ e.1 ∉ L.pages)
        (uvmunmap L s.root va npages doFree) ⟨s.mem, free⟩ fun _ k' =>
          PageTable.map ⟨k'.mem, s.root⟩ = s.map.remove (va / PGSIZE) npages) ∧
    (∀ va free, va < MAXVA → wp (fun msg => msg = "uvmclear" ∧ s.slot va = none)
      (uvmclear s.root va) ⟨s.mem, free⟩ fun _ k' =>
        PageTable.map ⟨k'.mem, s.root⟩ = s.map.clearUser (va / PGSIZE)) ∧
    ((∀ v, s.map v = none) → ∀ free, s.Fresh L free → wp (fun _ => False) (freewalk L 3 s.root)
      ⟨s.mem, free⟩ fun _ k' =>
        (k'.freelist : Multiset Nat) = (s.pages : Multiset Nat) + (free : Multiset Nat)) := by
  obtain ⟨t, ht⟩ := reachable_tree h
  refine ⟨fun va va' hva hva' hne e he => ht.slot_ne hva hva' hne he, ?_, ?_, ?_, ?_, ?_⟩
  · rw [← Multiset.coe_nodup, ht.pages_eq]
    exact ht.nodup
  · intro va size pa perm free hok
    refine (mappages_refines ht hok).mono ?_
    rintro r k' ⟨-, m, ⟨rfl, rfl⟩ | ⟨rfl, hm, hempty, hslot⟩, -, hmap⟩
    · exact .inl ⟨rfl, hmap⟩
    · refine .inr ⟨rfl, hempty, ⟨m, hm, hslot, hmap⟩, ?_⟩
      rintro rfl
      obtain rfl : m = 0 := by simpa using hm
      rw [hmap, PageMap.assign_zero]
  · intro va npages doFree free hok
    exact (uvmunmap_refines ht hok free).mono fun _ _ hq => hq.2
  · intro va free hva
    exact (uvmclear_refines ht hva free).mono fun _ _ hq => hq.2
  · intro hnone free hfree
    exact freewalk_refines ht hnone hfree

def megabyte : Layout := .upTo 0x80100000 (by decide) (by decide)

/-- A table with its root at `0x80200000`, in memory that is otherwise zero. -/
def blank : PageTable := ⟨fun _ _ => 0, 0x80200000⟩

theorem blank_empty : blank.Empty megabyte := ⟨fun _ _ => rfl, by decide⟩

theorem blank_fresh : blank.Fresh megabyte [0x80201000, 0x80202000] := by
  have hpages : ∀ p, p ∈ blank.pages → p = 0x80200000 := fun p hp =>
    blank_empty.mem_pages.mp hp
  refine ⟨by decide, fun p hp => ?_⟩
  rcases List.mem_pair.mp hp with rfl | rfl
  · exact ⟨by decide, fun hmem => absurd (hpages _ hmem) (by decide)⟩
  · exact ⟨by decide, fun hmem => absurd (hpages _ hmem) (by decide)⟩

theorem blank_ok (pa : Nat) {size : Nat} (hsize : size = 4096 ∨ size = 8192)
    (hpa : pa < 18446744073709551616) :
    (TableOp.mappages 0 size pa 6 [0x80201000, 0x80202000]).Ok megabyte blank := by
  refine ⟨by decide, ?_, ?_, ?_, hpa, by decide, blank_fresh⟩ <;> rcases hsize with rfl | rfl <;>
    decide

/-- Two pages are mapped, and then the first of them is unmapped. -/
theorem page_table_refines_map_two : ∃ s k', Reachable (Empty megabyte)
    (PageTable.step megabyte) s ∧ s.pages.Nodup ∧ s.map 1 = some (0x80301000, 7) ∧
    uvmunmap megabyte s.root 0 1 false ⟨s.mem, []⟩ = .ok ((), k') ∧
    PageTable.map ⟨k'.mem, s.root⟩ = s.map.remove 0 1 := by
  obtain ⟨⟨r, k⟩, hmap, hr⟩ := ok_of_any (x := mappages blank.root 0 8192 0x80300000 6
    ⟨blank.mem, [0x80201000, 0x80202000]⟩) (p := fun r => r.1 == 0) (by decide +kernel)
  obtain rfl : r = 0 := beq_iff_eq.mp hr
  have hok := blank_ok 0x80300000 (.inr rfl) (by decide)
  have hstart : Reachable (Empty megabyte) (PageTable.step megabyte) blank :=
    .start blank_empty
  have hreach := hstart.next _ (step_of_ok hok hmap)
  obtain ⟨-, -, hmapped, -⟩ := page_table_refines_map hstart
  obtain ⟨-, hnodup, -, hremoved, -⟩ := page_table_refines_map hreach
  rcases (hmapped _ _ _ _ _ hok).of_ok hmap with ⟨-, hone⟩ | ⟨hneg, -⟩
  · obtain ⟨_, k', hunmap, hmap'⟩ :=
      (hremoved 0 1 false [] ⟨by decide, by decide, nofun⟩).exists_ok (by simp)
    have hsecond : PageTable.map ⟨k.mem, blank.root⟩ 1 = some (0x80301000, 7) := by
      rw [hone]
      decide
    rw [Nat.zero_div] at hmap'
    exact ⟨_, k', hreach, hnodup, hsecond, hunmap, hmap'⟩
  · cases hneg

/-- A page is mapped to the page-table page that has its entry. To unmap it with `do_free` makes a
mapping of the next page appear. -/
theorem unmap_frees_tablePage : ∃ s k', Reachable (Empty megabyte)
    (PageTable.step megabyte) s ∧
    uvmunmap megabyte s.root 0 1 true ⟨s.mem, []⟩ = .ok ((), k') ∧ s.map 1 = none ∧
    PageTable.map ⟨k'.mem, s.root⟩ 1 ≠ none := by
  obtain ⟨⟨r, k⟩, hmap, hr⟩ := ok_of_any (x := mappages blank.root 0 4096 0x80202000 6
    ⟨blank.mem, [0x80201000, 0x80202000]⟩) (p := fun r => r.1 == 0 &&
      (PageTable.map ⟨r.2.mem, blank.root⟩ 1 == none &&
        (uvmunmap megabyte blank.root 0 1 true ⟨r.2.mem, []⟩).toOption.any fun u =>
          PageTable.map ⟨u.2.mem, blank.root⟩ 1 != none)) (by decide_cbv)
  simp only [Bool.and_eq_true, beq_iff_eq] at hr
  obtain ⟨rfl, hone, hr⟩ := hr
  obtain ⟨⟨_, k'⟩, hunmap, hnext⟩ := ok_of_any hr
  have hok := blank_ok 0x80202000 (.inl rfl) (by decide)
  have hstart : Reachable (Empty megabyte) (PageTable.step megabyte) blank :=
    .start blank_empty
  exact ⟨_, k', hstart.next _ (step_of_ok hok hmap), hunmap, hone, by simpa using hnext⟩

end Xv6.Vm
