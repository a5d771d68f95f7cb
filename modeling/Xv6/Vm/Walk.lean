import Xv6.Vm.Table

/-! What `kalloc`, `kfree`, `walk`, `mappages` and the loop of `uvmunmap` do to the table that
memory holds and to the ownership of pages. -/

namespace Xv6.Vm

open Function Multiset
open Multiset (subset_add_left subset_add_right)

variable {E : String → Prop} {L : Layout} {k : Kmem} {t : Table} {used rest : Multiset Nat}

/-- The pages of the allocator are the whole pages after the kernel. -/
theorem mem_pages_iff {p : Nat} : p ∈ L.pages ↔ p % PGSIZE = 0 ∧ L.kernelEnd ≤ p ∧ p < PHYSTOP := by
  have hlt := L.below
  rw [Layout.pages, List.mem_map]
  constructor
  · rintro ⟨i, hi, rfl⟩
    rw [List.mem_range, Layout.pageCount] at hi
    simp only [pgroundup, u64, PGSIZE, PHYSTOP] at *
    omega
  · intro h
    refine ⟨(p - pgroundup L.kernelEnd) / PGSIZE, List.mem_range.mpr ?_, ?_⟩
    · rw [Layout.pageCount]
      simp only [pgroundup, u64, PGSIZE, PHYSTOP] at *
      omega
    · simp only [pgroundup, u64, PGSIZE, PHYSTOP] at *
      omega

theorem Layout.nodup_pages (L : Layout) : L.pages.Nodup :=
  (List.nodup_range).map fun i j h => by simp only [PGSIZE] at h; omega

theorem Layout.length_pages (L : Layout) : L.pages.length < 32768 := by
  have h1 := L.above
  have h2 := L.inside
  have h3 := L.below
  rw [pages, List.length_map, List.length_range, pageCount]
  simp only [pgroundup, u64, PGSIZE, PHYSTOP, KERNBASE] at *
  omega

def Owns (L : Layout) (k : Kmem) (used : Multiset Nat) : Prop :=
  used + (k.freelist : Multiset Nat) = (L.pages : Multiset Nat)

theorem Owns.nodup (h : Owns L k used) : (used + (k.freelist : Multiset Nat)).Nodup := by
  rw [h]
  exact L.nodup_pages

theorem Owns.notMem {pa : Nat} (h : Owns L k (pa ::ₘ used)) : pa ∉ used := by
  have := h.nodup
  rw [cons_add, nodup_cons] at this
  exact fun hp => this.1 (subset_add_left hp)

theorem Owns.mem (h : Owns L k used) {pa : Nat} (hp : pa ∈ used) :
    pa % PGSIZE = 0 ∧ L.kernelEnd ≤ pa ∧ pa < PHYSTOP := by
  have hmem : pa ∈ (L.pages : Multiset Nat) := h ▸ subset_add_left hp
  exact mem_pages_iff.mp (mem_coe.mp hmem)

theorem Owns.pos (h : Owns L k used) {pa : Nat} (hp : pa ∈ used) : pa ≠ 0 := by
  have h1 := (h.mem hp).2.1
  have h2 := L.above
  have h3 := L.inside
  simp only [KERNBASE, PGSIZE] at h2 h3
  omega

section primitive

variable {α : Type} {pa i x : Nat} {page : Page}

theorem wp_readWord {Q : Nat → Kmem → Prop} : wp E (readWord pa i) k Q ↔ Q (k.mem pa i) k := Iff.rfl

theorem wp_writeWord {Q : Unit → Kmem → Prop} : wp E (writeWord pa i x) k Q ↔
    Q () (k.setPage pa (update (k.mem pa) i x)) := Iff.rfl

theorem wp_writePage {Q : Unit → Kmem → Prop} :
    wp E (writePage pa page) k Q ↔ Q () (k.setPage pa page) := Iff.rfl

end primitive

/-- The pages of `rest` have kept their contents. -/
def Same (rest : Multiset Nat) (k k' : Kmem) : Prop := ∀ q ∈ rest, k'.mem q = k.mem q

theorem Same.refl (rest : Multiset Nat) (k : Kmem) : Same rest k k := fun _ _ => rfl

theorem Same.trans {k' k'' : Kmem} (h : Same rest k k') (h' : Same rest k' k'') : Same rest k k'' :=
  fun q hq => (h' q hq).trans (h q hq)

theorem Same.left {k' : Kmem} (h : Same (used + rest) k k') : Same used k k' :=
  fun q hq => h q (subset_add_left hq)

theorem Same.right {k' : Kmem} (h : Same (used + rest) k k') : Same rest k k' :=
  fun q hq => h q (subset_add_right hq)

theorem kalloc_spec (h : Owns L k used) : wp E kalloc k fun r k' =>
    match r with
    | none => k' = k ∧ k.freelist = []
    | some pa => Owns L k' (pa ::ₘ used) ∧ Same used k k' := by
  unfold kalloc wp
  dsimp only
  cases hf : k.freelist with
  | nil => exact ⟨rfl, rfl⟩
  | cons pa fl =>
    have hown : Owns L { k.setPage pa (Page.fill 5) with freelist := fl } (pa ::ₘ used) := by
      rw [Owns, ← h, hf, ← cons_coe, cons_add, add_cons]
    exact ⟨hown, fun q hq => update_of_ne (fun he : q = pa => hown.notMem (he ▸ hq)) _ _⟩

theorem kfree_spec {pa : Nat} (h : Owns L k (pa ::ₘ used)) :
    wp E (kfree L pa) k fun _ k' => Owns L k' used ∧ Same used k k' := by
  obtain ⟨h1, h2, h3⟩ := h.mem (mem_cons_self pa used)
  have hnot : ¬(pa % PGSIZE ≠ 0 ∨ pa < L.kernelEnd ∨ PHYSTOP ≤ pa) := by omega
  rw [kfree, if_neg hnot]
  refine ⟨?_, fun q hq => update_of_ne (fun he : q = pa => h.notMem (he ▸ hq)) _ _⟩
  rw [Owns, ← h, ← cons_coe, cons_add, add_cons]

/-- The loop of `freerange` frees the pages that are left, `n` of them. -/
theorem freerangeLoop_spec {i n p : Nat} (hn : i + n = L.pageCount)
    (hp : p = pgroundup L.kernelEnd + i * PGSIZE) (h : Owns L k (L.pages.drop i)) :
    wp E (freerangeLoop L PHYSTOP p) k fun _ k' => Owns L k' 0 := by
  have hlen : L.pages.length = L.pageCount := by simp [Layout.pages]
  have hcount : L.pageCount = (PHYSTOP - pgroundup L.kernelEnd) / PGSIZE := rfl
  induction n generalizing i k p with
  | zero =>
    rw [freerangeLoop, if_neg (by simp only [PGSIZE, PHYSTOP] at *; omega)]
    rwa [List.drop_of_length_le (by omega)] at h
  | succ n ih =>
    have hlt : i < L.pages.length := by omega
    have hget : L.pages[i] = p := by rw [hp]; simp [Layout.pages]
    rw [List.drop_eq_getElem_cons hlt, hget, ← cons_coe] at h
    rw [freerangeLoop, if_pos (by simp only [PGSIZE, PHYSTOP] at *; omega)]
    refine (kfree_spec h).bind fun _ k' hk' => ?_
    exact ih (by omega) (by simp only [PGSIZE] at *; omega) hk'.1

/-- `kinit`, on any memory, frees every whole page between the end of the kernel and `PHYSTOP` once,
and does not panic. -/
theorem kinit_owns (mem : Nat → Page) : wp (fun _ => False) (kinit L) ⟨mem, []⟩ fun _ k =>
    k.freelist.Nodup ∧ (∀ p, p ∈ k.freelist ↔ p % PGSIZE = 0 ∧ L.kernelEnd ≤ p ∧ p < PHYSTOP) ∧
      Owns L k 0 := by
  have hstart : Owns L ⟨mem, []⟩ (L.pages.drop 0) := by simp [Owns]
  refine (freerangeLoop_spec (Nat.zero_add _) (by omega) hstart).mono fun _ k hk => ?_
  have hperm : (k.freelist : Multiset Nat) = L.pages := (zero_add _).symm.trans hk
  refine ⟨coe_nodup.mp (hperm ▸ L.nodup_pages), fun p => ?_, hk⟩
  rw [← mem_pages_iff, ← mem_coe, hperm, mem_coe]

/-- Memory holds the table `t`, and the pages in use are those of the table and `rest`. -/
structure Heap (L : Layout) (k : Kmem) (t : Table) (rest : Multiset Nat) : Prop where
  rep : Rep k.mem t
  own : Owns L k (t.tables + rest)

theorem Heap.tables_nodup (h : Heap L k t rest) : t.tables.Nodup := by
  have := h.own.nodup
  rw [nodup_add, nodup_add] at this
  exact this.1.1

theorem Heap.distinct (h : Heap L k t rest) : t.Distinct := Table.distinct h.tables_nodup

theorem Heap.page (h : Heap L k t rest) {p : Nat} (hp : p ∈ t.tables) :
    p % PGSIZE = 0 ∧ p < PHYSTOP := by
  have := h.own.mem (subset_add_left hp)
  exact ⟨this.1, this.2.2⟩

theorem Heap.not_mem (h : Heap L k t rest) {p : Nat} (hp : p ∈ t.tables) : p ∉ rest := by
  have := h.own.nodup
  rw [nodup_add, nodup_add] at this
  exact fun hr => disjoint_left.mp this.1.2.2 hp hr

theorem Heap.write (h : Heap L k t rest) {p : Nat} (hp : p ∈ rest) (page : Page) :
    Heap L (k.setPage p page) t rest :=
  ⟨h.rep.congr fun q hq => update_of_ne (fun he : q = p => h.not_mem hq (he ▸ hp)) _ _, h.own⟩

section index

variable (va : Nat)

theorem px_zero : px 0 va = va / PGSIZE % 512 := by
  rw [px_eq, Nat.shiftRight_eq_div_pow]

theorem px_one : px 1 va = va / PGSIZE / 512 % 512 := by
  rw [px_eq, Nat.shiftRight_eq_div_pow, PGSIZE, Nat.div_div_eq_div_mul]

theorem px_two (h : va < MAXVA) : px 2 va = va / PGSIZE / 512 / 512 := by
  rw [px_eq, Nat.shiftRight_eq_div_pow, PGSIZE, Nat.div_div_eq_div_mul, Nat.div_div_eq_div_mul]
  simp only [MAXVA] at h
  omega

end index

theorem link_valid (p : Nat) : link (some p) &&& PTE_V ≠ 0 := by
  rw [link_some]
  exact valid_pte p (by decide)

theorem pte2pa_link {p : Nat} (hp : p % PGSIZE = 0) (hlt : p < PHYSTOP) :
    pte2pa (link (some p)) = p := by
  rw [link_some]
  exact pte2pa_pte hp hlt (by decide)

theorem Table.low_none (t : Table) {i : Nat} (hm : t.mid (i / 512) = none) : t.low i = none := by
  by_contra hne
  obtain ⟨p, hp⟩ := Option.ne_none_iff_exists'.mp hne
  obtain ⟨q, hq⟩ := t.low_mid _ p hp
  rw [hm] at hq
  cases hq

theorem walk_rep (h : Rep k.mem t) (hpage : ∀ p ∈ t.tables, p % PGSIZE = 0 ∧ p < PHYSTOP)
    {va : Nat} (hva : va < MAXVA) :
    wp E (walk t.root va false) k fun r k' => k' = k ∧
      r = (t.low (va / PGSIZE / 512)).map fun p => (p, va / PGSIZE % 512) := by
  have hlt : va / PGSIZE / 512 / 512 < 512 := by simp only [MAXVA, PGSIZE] at *; omega
  rw [walk, if_neg (by omega)]
  unfold walkLoop
  rw [wp_bind]
  show wp E (if k.mem t.root (px 2 va) &&& PTE_V ≠ 0 then _ else _) k _
  rw [px_two va hva, h.root _ hlt]
  cases hm : t.mid (va / PGSIZE / 512 / 512) with
  | none =>
    rw [if_neg (by simp), if_pos rfl, t.low_none hm]
    exact ⟨rfl, rfl⟩
  | some q =>
    obtain ⟨hq, hq'⟩ := hpage q (Table.mid_mem hm)
    rw [if_pos (link_valid q), pte2pa_link hq hq']
    unfold walkLoop
    rw [wp_bind]
    show wp E (if k.mem q (px 1 va) &&& PTE_V ≠ 0 then _ else _) k _
    rw [px_one, h.mid _ q hm _ (Nat.mod_lt _ (by decide)), Nat.div_add_mod']
    cases hl : t.low (va / PGSIZE / 512) with
    | none =>
      rw [if_neg (by simp), if_pos rfl]
      exact ⟨rfl, rfl⟩
    | some p =>
      obtain ⟨hp, hp'⟩ := hpage p (Table.low_mem hl)
      rw [if_pos (link_valid p), pte2pa_link hp hp']
      unfold walkLoop
      rw [px_zero]
      exact ⟨rfl, rfl⟩

theorem walk_spec (h : Heap L k t rest) {va : Nat} (hva : va < MAXVA) :
    wp E (walk t.root va false) k fun r k' => k' = k ∧
      r = (t.low (va / PGSIZE / 512)).map fun p => (p, va / PGSIZE % 512) :=
  walk_rep h.rep (fun _ => h.page) hva

/-- The table `t` has become `t'`, at the same root and with the entries `pte`. -/
structure Moved (L : Layout) (k k' : Kmem) (t t' : Table) (rest : Multiset Nat)
    (pte : Nat → Nat) : Prop where
  heap : Heap L k' t' rest
  same : Same rest k k'
  root : t'.root = t.root
  pte : t'.pte = pte

theorem Moved.refl (h : Heap L k t rest) : Moved L k k t t rest t.pte :=
  ⟨h, Same.refl _ _, rfl, rfl⟩

theorem Moved.trans {k' k'' : Kmem} {t' t'' : Table} {pte pte' : Nat → Nat}
    (h : Moved L k k' t t' rest pte) (h' : Moved L k' k'' t' t'' rest pte') :
    Moved L k k'' t t'' rest pte' :=
  ⟨h'.heap, h.same.trans h'.same, h'.root.trans h.root, h'.pte⟩

/-- The state after a new page `p` is linked into the page `q` of the table. -/
def linked (k : Kmem) (p q i : Nat) : Kmem :=
  (k.setPage p (Page.fill 0)).setPage q
    (update ((k.setPage p (Page.fill 0)).mem q) i (link (some p)))

section linked

variable {p q i : Nat}

theorem linked_new (h : p ≠ q) : (linked k p q i).mem p = Page.fill 0 := by
  simp [linked, Kmem.setPage, update_of_ne h]

theorem linked_at (h : p ≠ q) (j : Nat) :
    (linked k p q i).mem q j = if j = i then link (some p) else k.mem q j := by
  simp [linked, Kmem.setPage, update_of_ne h.symm, update_apply]

theorem linked_other {r : Nat} (hp : r ≠ p) (hq : r ≠ q) : (linked k p q i).mem r = k.mem r := by
  simp [linked, Kmem.setPage, update_of_ne hp, update_of_ne hq]

end linked

theorem Heap.linked {k' : Kmem} {p q i : Nat} (h : Heap L k t rest) (hq : q ∈ t.tables)
    (hk : Owns L k' (p ::ₘ (t.tables + rest))) (hs : Same (t.tables + rest) k k') :
    p ≠ q ∧ Same rest k (linked k' p q i) ∧
      (∀ j, (linked k' p q i).mem q j = if j = i then link (some p) else k.mem q j) ∧
      ∀ r ∈ t.tables, r ≠ q → (linked k' p q i).mem r = k.mem r := by
  have hnew := hk.notMem
  have hpq : p ≠ q := fun he => hnew (subset_add_left (he ▸ hq))
  refine ⟨hpq, fun r hr => ?_, fun j => ?_, fun r hr hrq => ?_⟩
  · rw [linked_other (fun he : r = p => hnew (subset_add_right (he ▸ hr)))
      fun he : r = q => h.not_mem hq (he ▸ hr)]
    exact hs r (subset_add_right hr)
  · rw [linked_at hpq, hs q (subset_add_left hq)]
  · rw [linked_other (fun he : r = p => hnew (subset_add_left (he ▸ hr))) hrq]
    exact hs r (subset_add_left hr)

/-- What `walk` with `alloc` set returns: the entry of `va`, or nothing if there is no page left for
the page-table page that the entry needs. -/
def Found (va : Nat) (r : Option (Nat × Nat)) (k : Kmem) (t : Table) : Prop :=
  match r with
  | some e => t.low (va / PGSIZE / 512) = some e.1 ∧ e.2 = va / PGSIZE % 512
  | none => t.low (va / PGSIZE / 512) = none ∧ k.freelist = []

theorem walkLow_spec (h : Heap L k t rest) {va q : Nat}
    (hm : t.mid (va / PGSIZE / 512 / 512) = some q) :
    wp E (walkLoop va true 1 q) k fun r k' => ∃ t', Moved L k k' t t' rest t.pte ∧
      Found va r k' t' := by
  unfold walkLoop
  rw [wp_bind]
  show wp E (if k.mem q (px 1 va) &&& PTE_V ≠ 0 then _ else _) k _
  rw [px_one, h.rep.mid _ q hm _ (Nat.mod_lt _ (by decide)), Nat.div_add_mod']
  cases hl : t.low (va / PGSIZE / 512) with
  | some p =>
    obtain ⟨hp, hp'⟩ := h.page (Table.low_mem hl)
    rw [if_pos (link_valid p), pte2pa_link hp hp']
    exact ⟨t, Moved.refl h, hl, px_zero va⟩
  | none =>
    rw [if_neg (by simp), if_neg (by simp)]
    refine (kalloc_spec h.own).bind fun r k' hr => ?_
    cases r with
    | none =>
      obtain ⟨rfl, hempty⟩ := hr
      exact ⟨t, Moved.refl h, hl, hempty⟩
    | some p =>
      obtain ⟨hown, hs⟩ := hr
      obtain ⟨hpq, hsame, hat, hother⟩ := h.linked
        (Table.mid_mem hm) hown hs
      refine ⟨t.addLow (va / PGSIZE / 512) p ⟨q, hm⟩ hl, ⟨⟨?_, ?_⟩, hsame, rfl, rfl⟩, ?_,
        px_zero va⟩
      · exact h.rep.addLow h.distinct hm hl hat (linked_new hpq) hother
      · rw [Table.tables_addLow, cons_add]
        exact hown
      · simp [Table.addLow]

theorem walk_alloc_spec (h : Heap L k t rest) {va : Nat} (hva : va < MAXVA) :
    wp E (walk t.root va true) k fun r k' => ∃ t', Moved L k k' t t' rest t.pte ∧
      Found va r k' t' := by
  have hlt : va / PGSIZE / 512 / 512 < 512 := by simp only [MAXVA, PGSIZE] at *; omega
  rw [walk, if_neg (by omega)]
  unfold walkLoop
  rw [wp_bind]
  show wp E (if k.mem t.root (px 2 va) &&& PTE_V ≠ 0 then _ else _) k _
  rw [px_two va hva, h.rep.root _ hlt]
  cases hm : t.mid (va / PGSIZE / 512 / 512) with
  | some q =>
    obtain ⟨hq, hq'⟩ := h.page (Table.mid_mem hm)
    rw [if_pos (link_valid q), pte2pa_link hq hq']
    exact walkLow_spec h hm
  | none =>
    rw [if_neg (by simp), if_neg (by simp)]
    refine (kalloc_spec h.own).bind fun r k' hr => ?_
    cases r with
    | none =>
      obtain ⟨rfl, hempty⟩ := hr
      exact ⟨t, Moved.refl h, t.low_none hm, hempty⟩
    | some p =>
      obtain ⟨hown, hs⟩ := hr
      obtain ⟨hpq, hsame, hat, hother⟩ := h.linked
        t.root_mem hown hs
      have hg : Moved L k (linked k' p t.root (va / PGSIZE / 512 / 512)) t
          (t.addMid (va / PGSIZE / 512 / 512) p hlt hm) rest t.pte :=
        ⟨⟨h.rep.addMid h.distinct hlt hm hat (linked_new hpq) hother, by
          rw [Table.tables_addMid, cons_add]; exact hown⟩, hsame, rfl, rfl⟩
      refine (walkLow_spec hg.heap (by simp [Table.addMid])).mono fun r k'' ⟨t', ht', hr⟩ => ?_
      exact ⟨t', hg.trans ht', hr⟩

theorem Heap.setPte (h : Heap L k t rest) {v x p : Nat} (hp : t.low (v / 512) = some p) :
    Heap L (k.setPage p (update (k.mem p) (v % 512) x)) (t.setPte v x ⟨p, hp⟩) rest ∧
      Same rest k (k.setPage p (update (k.mem p) (v % 512) x)) :=
  ⟨⟨h.rep.setPte h.distinct hp, h.own⟩, fun q hq => update_of_ne
    (fun he : q = p => h.not_mem (Table.low_mem hp) (he ▸ hq)) _ _⟩

theorem Heap.read (h : Heap L k t rest) {v p : Nat} (hp : t.low (v / 512) = some p) :
    k.mem p (v % 512) = t.pte v := by
  rw [h.rep.low _ p hp _ (Nat.mod_lt _ (by decide)), Nat.div_add_mod']

theorem mappages_spec (h : Heap L k t rest) {va pa perm : Nat} (ha : va % PGSIZE = 0)
    (hva : va < MAXVA) (hn : t.pte (va / PGSIZE) = 0) :
    wp E (mappages t.root va PGSIZE pa perm) k fun r k' => ∃ t',
      r = 0 ∧ Moved L k k' t t' rest
        (update t.pte (va / PGSIZE) (pa2pte pa ||| perm ||| PTE_V)) ∨
      r = -1 ∧ Moved L k k' t t' rest t.pte := by
  rw [mappages, if_neg (by simpa using ha), if_neg (by decide), if_neg (by decide),
    show PGSIZE / PGSIZE = 1 from rfl]
  refine (walk_alloc_spec h hva).bind fun r k' ⟨t', hm, hr⟩ => ?_
  cases r with
  | none => exact ⟨t', .inr ⟨rfl, hm⟩⟩
  | some e =>
    obtain ⟨p, i⟩ := e
    obtain ⟨hp, rfl⟩ := hr
    rw [wp_bind]
    show wp E (if k'.mem p (va / PGSIZE % 512) &&& PTE_V ≠ 0 then _ else _) k' _
    rw [hm.heap.read hp, hm.pte, hn, if_neg (by simp)]
    obtain ⟨hheap, hsame⟩ := hm.heap.setPte hp
    refine ⟨t'.setPte _ _ ⟨p, hp⟩, .inl ⟨rfl, hm.trans ⟨hheap, hsame, rfl, ?_⟩⟩⟩
    rw [← hm.pte]
    rfl

end Xv6.Vm
