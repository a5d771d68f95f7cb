import Xv6.Vm.Walk

/-! User address spaces: a page table together with the user pages that its entries below
`TRAPFRAME` own, and what the loops of `vm.c` do to it. -/

namespace Xv6.Vm

open Finset Function
open Multiset (subset_add_left subset_add_right)

variable {E : String → Prop} {L : Layout} {k k' : Kmem} {t t' : Table} {rest : Multiset Nat}

/-- The number of virtual pages below `TRAPFRAME`. -/
abbrev UPAGES : Nat := 67108862

example : UPAGES * PGSIZE = TRAPFRAME := by decide

def leafPage (pte : Nat) : Option Nat := if pte &&& PTE_V ≠ 0 then some (pte2pa pte) else none

@[simp] theorem leafPage_zero : leafPage 0 = none := by simp [leafPage]

theorem leafPage_pte {pa perm : Nat} (hpa : pa % PGSIZE = 0) (hlt : pa < PHYSTOP)
    (hperm : perm < 1024) : leafPage (pa2pte pa ||| perm ||| PTE_V) = some pa := by
  rw [leafPage, if_pos (valid_pte pa hperm), pte2pa_pte hpa hlt hperm]

/-- The pages that the entries below `TRAPFRAME` map. -/
def userPages (pte : Nat → Nat) : Multiset Nat := own (range UPAGES) fun v => leafPage (pte v)

variable {pte pte' : Nat → Nat}

theorem userPages_congr (h : ∀ v < UPAGES, pte v = pte' v) :
    userPages pte = userPages pte' :=
  own_congr fun v hv => by rw [h v (mem_range.mp hv)]

variable {pte : Nat → Nat}

theorem mem_userPages {pa : Nat} :
    pa ∈ userPages pte ↔ ∃ v < UPAGES, leafPage (pte v) = some pa := by
  simp [userPages, mem_own, mem_range]

theorem userPages_update (pte : Nat → Nat) {v : Nat} (hv : v < UPAGES) (x : Nat) :
    userPages (update pte v x) + held (leafPage (pte v)) =
      userPages pte + held (leafPage x) := by
  have hf : (fun w => leafPage (update pte v x w)) =
      update (fun w => leafPage (pte w)) v (leafPage x) := by
    funext w
    by_cases hw : w = v
    · subst hw; simp
    · simp [update_of_ne hw]
  rw [userPages, hf]
  exact own_update (mem_range.mpr hv) (fun w => leafPage (pte w)) (leafPage x)

/-- Memory holds the table `t`, whose entries own the pages they map, and `rest` is in use for
other things. -/
structure Space (L : Layout) (k : Kmem) (t : Table) (rest : Multiset Nat) : Prop where
  heap : Heap L k t (userPages t.pte + rest)
  valid : ∀ v, t.pte v ≠ 0 → t.pte v &&& PTE_V ≠ 0

theorem Space.own (h : Space L k t rest) : Owns L k (t.tables + (userPages t.pte + rest)) :=
  h.heap.own

theorem Space.mem_rest (h : Space L k t rest) {pa : Nat} (hp : pa ∈ rest) :
    pa % PGSIZE = 0 ∧ pa < PHYSTOP := by
  have := h.own.mem (subset_add_right (subset_add_right hp))
  exact ⟨this.1, this.2.2⟩

theorem valid_update {v x : Nat} (h : ∀ w, pte w ≠ 0 → pte w &&& PTE_V ≠ 0)
    (hx : x = 0 ∨ x &&& PTE_V ≠ 0) (w : Nat) (hw : update pte v x w ≠ 0) :
    update pte v x w &&& PTE_V ≠ 0 := by
  by_cases hwv : w = v
  · subst hwv
    rw [update_self] at hw ⊢
    exact hx.resolve_left hw
  · rw [update_of_ne hwv] at hw ⊢
    exact h w hw

theorem Space.fresh {mem : Nat} (h : Space L k t rest)
    (hown : Owns L k' (mem ::ₘ (t.tables + (userPages t.pte + rest))))
    (hs : Same (t.tables + (userPages t.pte + rest)) k k') (page : Page) :
    Space L (k'.setPage mem page) t (mem ::ₘ rest) ∧
      Same (userPages t.pte + rest) k (k'.setPage mem page) := by
  have hnew := hown.notMem
  have hs' : Same (t.tables + (userPages t.pte + rest)) k (k'.setPage mem page) :=
    hs.trans fun q hq => update_of_ne (fun he : q = mem => hnew (he ▸ hq)) _ _
  refine ⟨⟨⟨h.heap.rep.congr hs'.left, ?_⟩, h.valid⟩,
    hs'.right⟩
  rw [Multiset.add_cons, Multiset.add_cons]
  exact hown

theorem Space.writeHand {mem : Nat} (h : Space L k t (mem ::ₘ rest)) (page : Page) :
    Space L (k.setPage mem page) t (mem ::ₘ rest) ∧ Same rest k (k.setPage mem page) := by
  refine ⟨⟨h.heap.write (by simp) page, h.valid⟩, fun q hq => ?_⟩
  refine update_of_ne (fun he => ?_) _ _
  have := h.own.nodup
  rw [Multiset.add_cons, Multiset.add_cons, Multiset.cons_add, Multiset.nodup_cons] at this
  subst he
  simp [hq] at this

theorem Space.free {mem : Nat} (h : Space L k t (mem ::ₘ rest)) :
    wp E (kfree L mem) k fun _ k' => Space L k' t rest ∧ Same (userPages t.pte + rest) k k' := by
  have hown : Owns L k (mem ::ₘ (t.tables + (userPages t.pte + rest))) := by
    have := h.own
    rwa [Multiset.add_cons, Multiset.add_cons] at this
  refine (kfree_spec hown).mono fun _ k' ⟨hown', hs⟩ => ⟨⟨⟨?_, hown'⟩, h.valid⟩, fun q hq => ?_⟩
  · exact h.heap.rep.congr hs.left
  · exact hs q (subset_add_right hq)

theorem Space.map {mem v perm : Nat} (h : Space L k t (mem ::ₘ rest)) (hv : v < UPAGES)
    (hn : t.pte v = 0) (hperm : perm < 1024) :
    wp E (mappages t.root (v * PGSIZE) PGSIZE mem perm) k fun r k' => ∃ t', t'.root = t.root ∧
      Same (userPages t.pte + mem ::ₘ rest) k k' ∧
      (r = 0 ∧ Space L k' t' rest ∧
        t'.pte = update t.pte v (pa2pte mem ||| perm ||| PTE_V) ∨
      r = -1 ∧ Space L k' t' (mem ::ₘ rest) ∧ t'.pte = t.pte) := by
  obtain ⟨hm, hm'⟩ := h.mem_rest (Multiset.mem_cons_self mem rest)
  have hva := mul_div_pgsize v
  refine (mappages_spec h.heap (Nat.mul_mod_left _ _)
    (by simp only [UPAGES, PGSIZE, MAXVA] at *; omega) (by rwa [hva])).mono fun r k' hr => ?_
  obtain ⟨t', ⟨hr, hmov⟩ | ⟨hr, hmov⟩⟩ := hr
  · rw [hva] at hmov
    refine ⟨t', hmov.root, hmov.same, .inl ⟨hr, ⟨?_, ?_⟩, hmov.pte⟩⟩
    · have hu := userPages_update t.pte hv (pa2pte mem ||| perm ||| PTE_V)
      rw [hn, leafPage_zero, held_none, add_zero, leafPage_pte hm hm' hperm, held_some] at hu
      rw [hmov.pte, hu, add_assoc, Multiset.singleton_add]
      exact hmov.heap
    · rw [hmov.pte]
      exact valid_update h.valid (.inr (valid_pte mem hperm))
  · refine ⟨t', hmov.root, hmov.same, .inr ⟨hr, ⟨?_, ?_⟩, hmov.pte⟩⟩
    · rw [hmov.pte]
      exact hmov.heap
    · rw [hmov.pte]
      exact h.valid

/-- A write of an entry that is not a user page's, or of one with the same physical page. -/
theorem Space.setPte {v x p : Nat} (h : Space L k t rest) (hp : t.low (v / 512) = some p)
    (hx : x = 0 ∨ x &&& PTE_V ≠ 0) (hu : v < UPAGES → leafPage x = leafPage (t.pte v)) :
    Space L (k.setPage p (update (k.mem p) (v % 512) x)) (t.setPte v x ⟨p, hp⟩) rest ∧
      Same (userPages t.pte + rest) k (k.setPage p (update (k.mem p) (v % 512) x)) := by
  obtain ⟨hheap, hsame⟩ := h.heap.setPte hp
  refine ⟨⟨?_, valid_update h.valid hx⟩, hsame⟩
  have : userPages (t.setPte v x ⟨p, hp⟩).pte = userPages t.pte := by
    refine own_congr fun w hw => ?_
    show leafPage (update t.pte v x w) = _
    by_cases hwv : w = v
    · subst hwv
      rw [update_self, hu (mem_range.mp hw)]
    · rw [update_of_ne hwv]
  rw [this]
  exact hheap

theorem unmapPage_spec {v : Nat} (h : Space L k t rest) (hv : v < UPAGES) :
    wp E (unmapPage L t.root true (v * PGSIZE)) k fun _ k' => ∃ t', Space L k' t' rest ∧
      t'.root = t.root ∧ t'.pte = update t.pte v 0 ∧
      Same (userPages t'.pte + rest) k k' := by
  have hva := mul_div_pgsize v
  have hmax : v * PGSIZE < MAXVA := by simp only [UPAGES, PGSIZE, MAXVA] at *; omega
  -- nothing happens when there is no entry
  have hnone : t.pte v = 0 → ∃ t', Space L k t' rest ∧ t'.root = t.root ∧
      t'.pte = update t.pte v 0 ∧ Same (userPages t'.pte + rest) k k := fun h0 =>
    ⟨t, h, rfl, by rw [← h0, update_eq_self], Same.refl _ _⟩
  refine (walk_spec h.heap hmax).bind fun r k' ⟨hk, hr⟩ => ?_
  subst hk hr
  rw [hva]
  cases hl : t.low (v / 512) with
  | none => exact hnone (t.pte_eq_zero hl)
  | some p =>
    refine (wp_bind _ _).mpr ?_
    show wp E (if k'.mem p (v % 512) &&& PTE_V = 0 then _ else _) k' _
    rw [h.heap.read hl]
    split
    case isTrue hv0 => exact hnone (by by_contra hne; exact h.valid v hne hv0)
    case isFalse hv0 =>
    have hu := userPages_update t.pte hv 0
    rw [leafPage_zero, held_none, add_zero, leafPage, if_pos hv0, held_some] at hu
    have hown : Owns L k' (pte2pa (t.pte v) ::ₘ
        (t.tables + (userPages (update t.pte v 0) + rest))) := by
      have := h.own
      rw [← hu] at this
      convert this using 1
      rw [← Multiset.singleton_add]
      abel
    refine (kfree_spec hown).bind fun _ k1 ⟨hown1, hsame1⟩ => ?_
    have hheap1 : Heap L k1 t (userPages (update t.pte v 0) + rest) :=
      ⟨h.heap.rep.congr hsame1.left, hown1⟩
    obtain ⟨hheap2, hsame2⟩ := hheap1.setPte hl
    refine ⟨t.setPte v 0 ⟨p, hl⟩, ⟨hheap2, valid_update h.valid (.inl rfl)⟩, rfl, rfl, ?_⟩
    exact Same.trans hsame1.right hsame2

theorem unmapHigh_spec {v : Nat} (h : Space L k t rest) (hv : UPAGES ≤ v)
    (hv' : v * PGSIZE < MAXVA) :
    wp E (uvmunmap L t.root (v * PGSIZE) 1 false) k fun _ k' => ∃ t', Space L k' t' rest ∧
      t'.root = t.root ∧ t'.pte = update t.pte v 0 ∧
      Same (userPages t.pte + rest) k k' := by
  have hva := mul_div_pgsize v
  have hnone : t.pte v = 0 → ∃ t', Space L k t' rest ∧ t'.root = t.root ∧
      t'.pte = update t.pte v 0 ∧ Same (userPages t.pte + rest) k k := fun h0 =>
    ⟨t, h, rfl, by rw [← h0, update_eq_self], Same.refl _ _⟩
  rw [uvmunmap, if_neg (by simp [Nat.mul_mod_left]), Prog.loop, Prog.loop, zero_mul, add_zero]
  rw [wp_bind]
  refine (walk_spec h.heap hv').bind fun r k' ⟨hk, hr⟩ => ?_
  subst hk hr
  rw [hva]
  cases hl : t.low (v / 512) with
  | none => exact hnone (t.pte_eq_zero hl)
  | some p =>
    refine (wp_bind _ _).mpr ?_
    show wp E (if k'.mem p (v % 512) &&& PTE_V = 0 then _ else _) k' _
    rw [h.heap.read hl]
    split
    case isTrue hv0 => exact hnone (by by_contra hne; exact h.valid v hne hv0)
    case isFalse hv0 =>
    obtain ⟨hsp, hsame⟩ := h.setPte hl (.inl rfl) fun hlt => absurd hlt (by omega)
    exact ⟨t.setPte v 0 ⟨p, hl⟩, hsp, rfl, rfl, hsame⟩

/-- The entries with those of `n` virtual pages from `v` on taken out. -/
def cleared (pte : Nat → Nat) (v n : Nat) : Nat → Nat := fun w =>
  if v ≤ w ∧ w < v + n then 0 else pte w

theorem cleared_zero (pte : Nat → Nat) (v : Nat) : cleared pte v 0 = pte := by
  funext w
  rw [cleared, if_neg (by omega)]

theorem cleared_succ (pte : Nat → Nat) (v n : Nat) :
    update (cleared pte v n) (v + n) 0 = cleared pte v (n + 1) := by
  funext w
  by_cases hw : w = v + n
  · subst hw
    rw [update_self, cleared, if_pos (by omega)]
  · rw [update_of_ne hw, cleared, cleared]
    by_cases hw' : v ≤ w ∧ w < v + n
    · rw [if_pos hw', if_pos (by omega)]
    · rw [if_neg hw', if_neg (by omega)]

theorem uvmunmap_spec {v n : Nat} (h : Space L k t rest) (hn : v + n ≤ UPAGES) :
    wp E (uvmunmap L t.root (v * PGSIZE) n true) k fun _ k' => ∃ t', Space L k' t' rest ∧
      t'.root = t.root ∧ t'.pte = cleared t.pte v n ∧ Same (userPages t'.pte + rest) k k' := by
  rw [uvmunmap, if_neg (by simp [Nat.mul_mod_left])]
  have hloop := wp_loop (E := E) (f := fun j => unmapPage L t.root true (v * PGSIZE + j * PGSIZE))
    (i := 0) (n := n) (s := k) (fun j k' => ∃ t', Space L k' t' rest ∧ t'.root = t.root ∧
      t'.pte = cleared t.pte v j ∧ Same (userPages t'.pte + rest) k k')
    ⟨t, h, rfl, (cleared_zero _ _).symm, Same.refl _ _⟩ ?_
  · rwa [zero_add] at hloop
  intro j k1 _ hj ⟨t1, hsp, hroot, hpte, hsame⟩
  rw [← hroot, ← add_mul]
  refine (unmapPage_spec hsp (by omega)).mono fun _ k2 ⟨t2, hsp2, hroot2, hpte2, hsame2⟩ => ?_
  rw [hpte, cleared_succ] at hpte2
  refine ⟨t2, hsp2, hroot2, hpte2, Same.trans (fun q hq => hsame q ?_) hsame2⟩
  -- a page that is still mapped was mapped before
  rcases Multiset.mem_add.mp hq with hq | hq
  · obtain ⟨w, hw, hl⟩ := mem_userPages.mp hq
    rw [hpte2, ← cleared_succ] at hl
    refine subset_add_left (mem_userPages.mpr ⟨w, hw, ?_⟩)
    rw [hpte]
    by_cases hwv : w = v + j
    · rw [hwv, update_self] at hl
      simp at hl
    · rwa [update_of_ne hwv] at hl
  · exact subset_add_right hq

def npages (a : Nat) : Nat := (a + PGSIZE - 1) / PGSIZE

/-- No process is larger than this, so `PGROUNDUP` does not overflow. -/
abbrev MAXSZ : Nat := 0x10000000000

theorem pgroundup_eq {a : Nat} (h : a ≤ MAXSZ) : pgroundup a = npages a * PGSIZE := by
  simp only [pgroundup, u64, npages, PGSIZE, MAXSZ] at *
  omega

theorem npages_mono {a b : Nat} (h : a ≤ b) : npages a ≤ npages b :=
  Nat.div_le_div_right (by omega)

theorem npages_mul (v : Nat) : npages (v * PGSIZE) = v := by
  simp only [npages, PGSIZE]
  omega

theorem npages_le {a : Nat} (h : a ≤ TRAPFRAME) : npages a ≤ UPAGES := by
  simp only [npages, PGSIZE, TRAPFRAME, UPAGES] at *
  omega

theorem uvmdealloc_spec {oldsz newsz : Nat} (h : Space L k t rest) (ho : oldsz ≤ TRAPFRAME) :
    wp E (uvmdealloc L t.root oldsz newsz) k fun r k' => ∃ t', r = min oldsz newsz ∧
      Space L k' t' rest ∧ t'.root = t.root ∧
      t'.pte = cleared t.pte (npages newsz) (npages oldsz - npages newsz) ∧
      Same (userPages t'.pte + rest) k k' := by
  have hold : oldsz ≤ MAXSZ := by simp only [TRAPFRAME, MAXSZ] at *; omega
  -- the sizes may differ without a page between them
  have hnone : npages oldsz ≤ npages newsz → ∃ t', Space L k t' rest ∧ t'.root = t.root ∧
      t'.pte = cleared t.pte (npages newsz) (npages oldsz - npages newsz) ∧
      Same (userPages t'.pte + rest) k k := fun hle =>
    ⟨t, h, rfl, by rw [Nat.sub_eq_zero_of_le hle, cleared_zero], Same.refl _ _⟩
  unfold uvmdealloc
  split
  case isTrue hle =>
    obtain ⟨t', ht'⟩ := hnone (npages_mono hle)
    exact ⟨t', by omega, ht'⟩
  case isFalse hlt =>
  rw [pgroundup_eq hold, pgroundup_eq (le_trans (by omega) hold)]
  split
  case isFalse hge =>
    obtain ⟨t', ht'⟩ := hnone (by simp only [PGSIZE] at hge; omega)
    exact ⟨t', by omega, ht'⟩
  case isTrue hp =>
  rw [← Nat.sub_mul, Nat.mul_div_cancel _ (by decide)]
  refine (uvmunmap_spec h ?_).bind fun _ k' ⟨t', ht'⟩ => ⟨t', by omega, ht'⟩
  have := npages_le ho
  have := npages_mono (Nat.le_of_not_le hlt)
  omega

/-- `pte'` adds to `pte` entries with the permissions `perm` for `n` virtual pages from `v` on. -/
structure Filled (pte pte' : Nat → Nat) (v n perm : Nat) : Prop where
  other : ∀ w, ¬(v ≤ w ∧ w < v + n) → pte' w = pte w
  new : ∀ w, v ≤ w → w < v + n → ∃ pa, pa % PGSIZE = 0 ∧ pa < PHYSTOP ∧
    pte' w = pa2pte pa ||| perm ||| PTE_V

theorem Filled.zero (pte : Nat → Nat) (v perm : Nat) : Filled pte pte v 0 perm :=
  ⟨fun _ _ => rfl, fun w h1 h2 => absurd h2 (by omega)⟩

theorem Filled.succ {v n perm pa : Nat} (h : Filled pte pte' v n perm)
    (hpa : pa % PGSIZE = 0) (hlt : pa < PHYSTOP) :
    Filled pte (update pte' (v + n) (pa2pte pa ||| perm ||| PTE_V)) v (n + 1) perm := by
  refine ⟨fun w hw => ?_, fun w h1 h2 => ?_⟩
  · rw [update_of_ne (by omega), h.other w (by omega)]
  · by_cases hwn : w = v + n
    · exact ⟨pa, hpa, hlt, by rw [hwn, update_self]⟩
    · rw [update_of_ne hwn]
      exact h.new w h1 (by omega)

theorem Filled.cleared {v n perm : Nat} (h : Filled pte pte' v n perm)
    (h0 : ∀ w, v ≤ w → w < v + n → pte w = 0) : cleared pte' v n = pte := by
  funext w
  unfold Vm.cleared
  split
  · rw [h0 w (by omega) (by omega)]
  · exact h.other w ‹_›

/-- A table with an entry for each of the first `n` pages owns as many pages, so `n` is small. -/
theorem Space.few {n : Nat} (h : Space L k t rest) (hn : ∀ w < n, t.pte w ≠ 0) : n < 32768 := by
  have hleaf : ∀ w ∈ range (min n UPAGES), leafPage (t.pte w) ≠ none := by
    intro w hw
    have hw' := mem_range.mp hw
    rw [leafPage, if_pos (h.valid w (hn w (by omega)))]
    simp
  have hcard : min n UPAGES ≤ (userPages t.pte).card := by
    have := card_le_own (range_subset_range.mpr (Nat.min_le_right n UPAGES)) hleaf
    rwa [card_range] at this
  have hall : (userPages t.pte).card ≤ L.pages.length := by
    have := congrArg Multiset.card h.own
    simp only [Multiset.card_add, Multiset.coe_card] at this
    omega
  have := L.length_pages
  simp only [UPAGES] at hcard
  omega

/-- The pages of `n` entries from `v` on hold zeros. -/
def Zeroed (k : Kmem) (pte : Nat → Nat) (v n : Nat) : Prop :=
  ∀ w, v ≤ w → w < v + n → k.mem (pte2pa (pte w)) = Page.fill 0

theorem Zeroed.zero (k : Kmem) (pte : Nat → Nat) (v : Nat) : Zeroed k pte v 0 :=
  fun w h1 h2 => absurd h2 (by omega)

theorem Filled.mem_userPages {v n perm w : Nat}
    (h : Filled pte pte' v n perm) (hperm : perm < 1024) (h1 : v ≤ w) (h2 : w < v + n)
    (hw : w < UPAGES) : pte2pa (pte' w) ∈ userPages pte' := by
  obtain ⟨pa, hpa, hlt, he⟩ := h.new w h1 h2
  refine Vm.mem_userPages.mpr ⟨w, hw, ?_⟩
  rw [he, leafPage_pte hpa hlt hperm, pte2pa_pte hpa hlt hperm]

theorem perm_lt {xperm : Nat} (hx : xperm < 16) : PTE_R ||| PTE_U ||| xperm < 1024 :=
  Nat.or_lt_two_pow (n := 10) (by decide) (by omega)

theorem growPage_spec {k0 : Kmem} {v n xperm : Nat} (h : Space L k t rest)
    (hs : Same (userPages pte + rest) k0 k)
    (hfill : Filled pte t.pte v n (PTE_R ||| PTE_U ||| xperm)) (hz : Zeroed k t.pte v n)
    (hx : xperm < 16) (h0 : ∀ w, v ≤ w → w < UPAGES → pte w = 0) (hv : v + n < UPAGES) :
    wp E (growPage L t.root (v * PGSIZE) xperm ((v + n) * PGSIZE)) k fun r k' => ∃ t',
      Space L k' t' rest ∧ t'.root = t.root ∧ Same (userPages pte + rest) k0 k' ∧
      match r with
      | some r => r = 0 ∧ t'.pte = pte
      | none => Filled pte t'.pte v (n + 1) (PTE_R ||| PTE_U ||| xperm) ∧
          Zeroed k' t'.pte v (n + 1) := by
  have hperm := perm_lt hx
  have hclear := hfill.cleared fun w h1 h2 => h0 w h1 (by omega)
  -- the way out: the pages of the earlier passes are given back
  have hundo : ∀ {k1 : Kmem} {t1 : Table}, Space L k1 t1 rest → t1.root = t.root →
      Same (userPages pte + rest) k0 k1 → t1.pte = t.pte →
      wp E (uvmdealloc L t.root ((v + n) * PGSIZE) (v * PGSIZE)) k1 fun _ k' => ∃ t',
        Space L k' t' rest ∧ t'.root = t.root ∧ Same (userPages pte + rest) k0 k' ∧
        0 = 0 ∧ t'.pte = pte := by
    intro k1 t1 h1 hroot hs1 hpte
    rw [← hroot]
    refine (uvmdealloc_spec h1 (by simp only [UPAGES, PGSIZE, TRAPFRAME] at *; omega)).mono ?_
    rintro _ k' ⟨t', -, hsp, hroot', hpte', hsame⟩
    rw [npages_mul, npages_mul, Nat.add_sub_cancel_left, hpte, hclear] at hpte'
    exact ⟨t', hsp, hroot', hs1.trans (hpte' ▸ hsame), rfl, hpte'⟩
  refine (kalloc_spec h.own).bind fun r k1 hr => ?_
  cases r with
  | none =>
    obtain ⟨rfl, -⟩ := hr
    exact (hundo h rfl hs rfl).bind fun _ _ hq => hq
  | some mem =>
    obtain ⟨hown, hs1⟩ := hr
    obtain ⟨hsp1, hsame1⟩ := h.fresh hown hs1 (Page.fill 0)
    have hold : ∀ q ∈ userPages pte + rest, q ∈ userPages t.pte + rest := by
      intro q hq
      rcases Multiset.mem_add.mp hq with hq | hq
      · obtain ⟨w, hw, hl⟩ := mem_userPages.mp hq
        refine subset_add_left (mem_userPages.mpr ⟨w, hw, ?_⟩)
        by_cases hwv : v ≤ w ∧ w < v + n
        · rw [h0 w hwv.1 hw, leafPage_zero] at hl
          cases hl
        · rw [hfill.other w hwv, hl]
      · exact subset_add_right hq
    have hs1' : Same (userPages pte + rest) k0 (k1.setPage mem (Page.fill 0)) :=
      hs.trans fun q hq => hsame1 q (hold q hq)
    have hn : t.pte (v + n) = 0 := by rw [hfill.other _ (by omega), h0 _ (by omega) hv]
    rw [wp_bind]
    refine (hsp1.map hv hn hperm).bind fun r k2 ⟨t2, hroot2, hsame2, hr⟩ => ?_
    have hs2 : Same (userPages pte + rest) k0 k2 := hs1'.trans fun q hq => hsame2 q (by
      rw [Multiset.add_cons]
      exact Multiset.mem_cons_of_mem (hold q hq))
    obtain ⟨hpa, hlt⟩ := hsp1.mem_rest (Multiset.mem_cons_self mem rest)
    rcases hr with ⟨rfl, hsp2, hpte2⟩ | ⟨rfl, hsp2, hpte2⟩
    · rw [if_neg (by decide)]
      refine ⟨t2, hsp2, hroot2, hs2, hpte2 ▸ hfill.succ hpa hlt, fun w h1 h2 => ?_⟩
      by_cases hwn : w = v + n
      · rw [hpte2, hwn, update_self, pte2pa_pte hpa hlt hperm, hsame2 mem (by simp)]
        exact update_self _ _ _
      · -- the pages of the earlier passes are mapped, so nothing has touched them
        have hmem := hfill.mem_userPages hperm h1 (by omega) (by omega)
        rw [hpte2, update_of_ne hwn, hsame2 _ (subset_add_left hmem),
          hsame1 _ (subset_add_left hmem), hz w h1 (by omega)]
    · rw [if_pos (by decide)]
      refine hsp2.free.bind fun _ k3 ⟨hsp3, hs3⟩ => ?_
      refine (hundo hsp3 hroot2 (hs2.trans fun q hq => hs3 q ?_) hpte2).bind fun _ _ hq => hq
      rw [hpte2]
      exact hold q hq

theorem Filled.nonzero {v n perm w : Nat} (h : Filled pte pte' v n perm)
    (hperm : perm < 1024) (h1 : v ≤ w) (h2 : w < v + n) : pte' w ≠ 0 := by
  obtain ⟨pa, -, -, hpa⟩ := h.new w h1 h2
  intro h0
  have := valid_pte pa hperm
  rw [← hpa, h0] at this
  simp at this

/-- `uvmalloc` fills the pages up to `newsz`, or changes no entry. The new size is below
`TRAPFRAME`, or all pages below the old size are mapped and memory runs out first. -/
theorem uvmalloc_spec {oldsz newsz xperm : Nat} (h : Space L k t rest) (ho : oldsz ≤ TRAPFRAME)
    (hx : xperm < 16) (h0 : ∀ w, npages oldsz ≤ w → w < UPAGES → t.pte w = 0)
    (hb : newsz ≤ TRAPFRAME ∨ ∀ w < npages oldsz, t.pte w ≠ 0) :
    wp E (uvmalloc L t.root oldsz newsz xperm) k fun r k' => ∃ t', Space L k' t' rest ∧
      t'.root = t.root ∧ Same (userPages t.pte + rest) k k' ∧
      (r = max oldsz newsz ∧ Filled t.pte t'.pte (npages oldsz) (npages newsz - npages oldsz)
        (PTE_R ||| PTE_U ||| xperm) ∧
        Zeroed k' t'.pte (npages oldsz) (npages newsz - npages oldsz) ∨
      r = 0 ∧ t'.pte = t.pte) := by
  have hperm := perm_lt hx
  unfold uvmalloc
  split
  case isTrue hlt =>
    refine ⟨t, h, rfl, Same.refl _ _, .inl ⟨by omega, ?_⟩⟩
    rw [Nat.sub_eq_zero_of_le (npages_mono (by omega))]
    exact ⟨Filled.zero _ _ _, Zeroed.zero _ _ _⟩
  case isFalse hge =>
  have hcount : (newsz - npages oldsz * PGSIZE + PGSIZE - 1) / PGSIZE =
      npages newsz - npages oldsz := by
    have := npages_mono (Nat.le_of_not_lt hge)
    simp only [npages, PGSIZE] at *
    omega
  dsimp only
  rw [pgroundup_eq (by simp only [TRAPFRAME, MAXSZ] at *; omega), hcount]
  have hloop := wp_search (E := E) (s := k) (i := 0) (n := npages newsz - npages oldsz)
    (f := fun j => growPage L t.root (npages oldsz * PGSIZE) xperm
      (npages oldsz * PGSIZE + j * PGSIZE))
    (Q := fun r k' => ∃ t', Space L k' t' rest ∧ t'.root = t.root ∧
      Same (userPages t.pte + rest) k k' ∧ r = 0 ∧ t'.pte = t.pte)
    (fun j k' => ∃ t', Space L k' t' rest ∧ t'.root = t.root ∧ Same (userPages t.pte + rest) k k' ∧
      Filled t.pte t'.pte (npages oldsz) j (PTE_R ||| PTE_U ||| xperm) ∧
      Zeroed k' t'.pte (npages oldsz) j)
    ⟨t, h, rfl, Same.refl _ _, Filled.zero _ _ _, Zeroed.zero _ _ _⟩ ?_
  · refine hloop.bind fun r k' hr => ?_
    cases r with
    | some r =>
      obtain ⟨t', hsp, hroot, hs, hr, hpte⟩ := hr
      exact ⟨t', hsp, hroot, hs, .inr ⟨hr, hpte⟩⟩
    | none =>
      rw [zero_add] at hr
      obtain ⟨t', hsp, hroot, hs, hfill⟩ := hr
      exact ⟨t', hsp, hroot, hs, .inl ⟨by simp only [Option.getD_none]; omega, hfill⟩⟩
  · intro j k1 _ hj ⟨t1, hsp, hroot, hs, hfill, hz⟩
    have hv : npages oldsz + j < UPAGES := by
      rcases hb with hb | hb
      · have := npages_le hb
        omega
      · have := hsp.few fun w hw => by
          by_cases hwv : npages oldsz ≤ w
          · exact hfill.nonzero hperm hwv hw
          · rw [hfill.other w (by omega)]
            exact hb w (by omega)
        simp only [UPAGES]
        omega
    rw [← add_mul, ← hroot]
    refine (growPage_spec hsp hs hfill hz hx h0 hv).mono fun r k2 hr => ?_
    cases r with
    | some r => exact hr
    | none => exact hr

/-- A fault maps one more page below `sz`, or changes no entry. It changes nothing when the page is
mapped. -/
theorem vmfault_spec {sz va : Nat} (h : Space L k t rest) (hsz : sz ≤ TRAPFRAME) :
    wp E (vmfault L ⟨sz, t.root⟩ t.root va) k fun r k' => ∃ t', Space L k' t' rest ∧
      t'.root = t.root ∧ Same (userPages t.pte + rest) k k' ∧
      (t.pte (va / PGSIZE) ≠ 0 → t' = t) ∧
      (r = 0 ∧ t'.pte = t.pte ∨
        va < sz ∧ t.pte (va / PGSIZE) = 0 ∧ r % PGSIZE = 0 ∧ r < PHYSTOP ∧ t'.pte =
          update t.pte (va / PGSIZE) (pa2pte r ||| (PTE_W ||| PTE_U ||| PTE_R) ||| PTE_V)) := by
  unfold vmfault
  split
  case isTrue => exact ⟨t, h, rfl, Same.refl _ _, fun _ => rfl, .inl ⟨rfl, rfl⟩⟩
  case isFalse hlt =>
  replace hlt : va < sz := Nat.lt_of_not_le hlt
  have hva : pgrounddown va / PGSIZE = va / PGSIZE := Nat.mul_div_cancel _ (by decide)
  have hv : va / PGSIZE < UPAGES := by simp only [PGSIZE, TRAPFRAME, UPAGES] at *; omega
  rw [wp_bind]
  -- `ismapped` says whether there is an entry
  have hmapped : wp E (ismapped t.root (pgrounddown va)) k fun b k' => k' = k ∧
      (b = false → t.pte (va / PGSIZE) = 0) := by
    refine (walk_spec h.heap
      (by simp only [pgrounddown, PGSIZE, TRAPFRAME, MAXVA] at *; omega)).bind
      fun r k' ⟨hk, hr⟩ => ?_
    subst hk hr
    rw [hva]
    cases hl : t.low (va / PGSIZE / 512) with
    | none => exact ⟨rfl, fun _ => t.pte_eq_zero hl⟩
    | some p =>
      refine (wp_bind _ _).mpr ⟨rfl, fun hf => ?_⟩
      change decide (k'.mem p (va / PGSIZE % 512) &&& PTE_V ≠ 0) = false at hf
      rw [h.heap.read hl] at hf
      by_contra hne
      exact (of_decide_eq_false hf) (h.valid _ hne)
  refine hmapped.mono fun b k1 ⟨hk, hb⟩ => ?_
  subst hk
  cases b with
  | true => exact ⟨t, h, rfl, Same.refl _ _, fun _ => rfl, .inl ⟨rfl, rfl⟩⟩
  | false =>
    refine (kalloc_spec h.own).bind fun r k2 hr => ?_
    cases r with
    | none =>
      obtain ⟨rfl, -⟩ := hr
      exact ⟨t, h, rfl, Same.refl _ _, fun _ => rfl, .inl ⟨rfl, rfl⟩⟩
    | some mem =>
      obtain ⟨hsp1, hs1⟩ := h.fresh hr.1 hr.2 (Page.fill 0)
      obtain ⟨hpa, hlt'⟩ := hsp1.mem_rest (Multiset.mem_cons_self mem rest)
      rw [wp_bind]
      refine (hsp1.map hv (hb rfl) (by decide)).bind fun r k3 ⟨t3, hroot3, hs3, hr3⟩ => ?_
      have hs : Same (userPages t.pte + rest) k1 k3 := hs1.trans fun q hq => hs3 q (by
        rw [Multiset.add_cons]
        exact Multiset.mem_cons_of_mem hq)
      rcases hr3 with ⟨rfl, hsp3, hpte3⟩ | ⟨rfl, hsp3, hpte3⟩
      · rw [if_neg (by decide)]
        exact ⟨t3, hsp3, hroot3, hs, fun hne => absurd (hb rfl) hne,
          .inr ⟨hlt, hb rfl, hpa, hlt', hpte3⟩⟩
      · rw [if_pos (by decide)]
        refine hsp3.free.bind fun _ k4 ⟨hsp4, hs4⟩ => ?_
        exact ⟨t3, hsp4, hroot3, hs.trans (hpte3 ▸ hs4), fun hne => absurd (hb rfl) hne,
          .inl ⟨rfl, hpte3⟩⟩

end Xv6.Vm
