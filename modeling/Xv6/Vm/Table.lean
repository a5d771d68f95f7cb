import Xv6.Lib.Own
import Xv6.Vm.Uvm

/-! Three-level page tables as data: which pages the table is made of, and the entry of each
virtual page. `Rep` says that memory holds a table; the lemmas say what the single writes of
`walk` and `mappages` do to the table that memory holds. -/

namespace Xv6.Vm

open Finset Function

/-- A page table. `mid i` is the level-1 page for the addresses with `va >> 30 = i`, `low i` the
level-0 page for those with `va >> 21 = i`, and `pte v` the entry for `va >> 12 = v`. -/
structure Table where
  root : Nat
  mid : Nat → Option Nat
  low : Nat → Option Nat
  pte : Nat → Nat
  mid_lt : ∀ i p, mid i = some p → i < 512
  low_mid : ∀ i p, low i = some p → ∃ q, mid (i / 512) = some q
  pte_low : ∀ v, pte v ≠ 0 → ∃ q, low (v / 512) = some q

def link : Option Nat → Nat
  | none => 0
  | some p => pa2pte p ||| PTE_V

@[simp] theorem link_none : link none = 0 := rfl

theorem link_some (p : Nat) : link (some p) = pa2pte p ||| 0 ||| PTE_V := by rw [link, Nat.or_zero]

/-- Memory `m` holds the table `t`. -/
structure Rep (m : Nat → Page) (t : Table) : Prop where
  root : ∀ i < 512, m t.root i = link (t.mid i)
  mid : ∀ i p, t.mid i = some p → ∀ j < 512, m p j = link (t.low (i * 512 + j))
  low : ∀ i p, t.low i = some p → ∀ j < 512, m p j = t.pte (i * 512 + j)

namespace Table

variable {t : Table}

theorem low_lt (t : Table) {i p : Nat} (h : t.low i = some p) : i < 512 * 512 := by
  obtain ⟨q, hq⟩ := t.low_mid i p h
  have := t.mid_lt _ q hq
  omega

def tables (t : Table) : Multiset Nat :=
  {t.root} + own (range 512) t.mid + own (range (512 * 512)) t.low

def empty (root : Nat) : Table where
  root := root
  mid := fun _ => none
  low := fun _ => none
  pte := fun _ => 0
  mid_lt := nofun
  low_mid := nofun
  pte_low := fun _ h => absurd rfl h

theorem tables_empty (root : Nat) : (empty root).tables = {root} := by
  simp [tables, empty, own_none]

theorem pte_eq_zero (t : Table) {v : Nat} (h : t.low (v / 512) = none) : t.pte v = 0 := by
  by_contra hne
  obtain ⟨q, hq⟩ := t.pte_low v hne
  rw [h] at hq
  cases hq

theorem root_mem (t : Table) : t.root ∈ t.tables := by simp [tables]

theorem mid_mem {i p : Nat} (h : t.mid i = some p) : p ∈ t.tables := by
  have : p ∈ own (range 512) t.mid := mem_own.mpr ⟨i, by simpa using t.mid_lt i p h, h⟩
  simp [tables, this]

theorem low_mem {i p : Nat} (h : t.low i = some p) : p ∈ t.tables := by
  have : p ∈ own (range (512 * 512)) t.low := mem_own.mpr ⟨i, mem_range.mpr (t.low_lt h), h⟩
  simp only [tables, Multiset.mem_add]
  exact .inr this

/-- The pages of a table at different places are different. -/
structure Distinct (t : Table) : Prop where
  root_mid : ∀ i, t.mid i ≠ some t.root
  root_low : ∀ i, t.low i ≠ some t.root
  mid_low : ∀ i j p, t.mid i = some p → t.low j ≠ some p
  mid_inj : ∀ i j p, t.mid i = some p → t.mid j = some p → i = j
  low_inj : ∀ i j p, t.low i = some p → t.low j = some p → i = j

theorem distinct (h : t.tables.Nodup) : t.Distinct := by
  rw [tables, Multiset.nodup_add, Multiset.nodup_add] at h
  obtain ⟨⟨-, hmid, hrm⟩, hlow, hdis⟩ := h
  have hin : ∀ {i p}, t.mid i = some p → p ∈ own (range 512) t.mid := fun h =>
    mem_own.mpr ⟨_, mem_range.mpr (t.mid_lt _ _ h), h⟩
  have hil : ∀ {i p}, t.low i = some p → p ∈ own (range (512 * 512)) t.low := fun h =>
    mem_own.mpr ⟨_, mem_range.mpr (t.low_lt h), h⟩
  refine ⟨fun i hi => ?_, fun i hi => ?_, fun i j p hi hj => ?_, fun i j p hi hj => ?_,
    fun i j p hi hj => ?_⟩
  · exact Multiset.disjoint_left.mp hrm (Multiset.mem_singleton_self _) (hin hi)
  · exact Multiset.disjoint_left.mp hdis (by simp) (hil hi)
  · exact Multiset.disjoint_left.mp hdis (Multiset.subset_add_right (hin hi)) (hil hj)
  · exact own_inj hmid (mem_range.mpr (t.mid_lt _ _ hi)) (mem_range.mpr (t.mid_lt _ _ hj)) hi hj
  · exact own_inj hlow (mem_range.mpr (t.low_lt hi)) (mem_range.mpr (t.low_lt hj)) hi hj

def addMid (t : Table) (i p : Nat) (hi : i < 512) (hn : t.mid i = none) : Table :=
  { t with
    mid := update t.mid i (some p)
    mid_lt := fun j q hj => by
      by_cases hji : j = i
      · omega
      · exact t.mid_lt j q (by rwa [update_of_ne hji] at hj)
    low_mid := fun j q hj => by
      obtain ⟨r, hr⟩ := t.low_mid j q hj
      have hji : j / 512 ≠ i := fun he => by rw [he, hn] at hr; cases hr
      exact ⟨r, by rw [update_of_ne hji, hr]⟩ }

def addLow (t : Table) (i p : Nat) (hm : ∃ q, t.mid (i / 512) = some q) (hn : t.low i = none) :
    Table :=
  { t with
    low := update t.low i (some p)
    low_mid := fun j q hj => by
      by_cases hji : j = i
      · exact hji ▸ hm
      · exact t.low_mid j q (by rwa [update_of_ne hji] at hj)
    pte_low := fun v hv => by
      obtain ⟨r, hr⟩ := t.pte_low v hv
      have hji : v / 512 ≠ i := fun he => by rw [he, hn] at hr; cases hr
      exact ⟨r, by rw [update_of_ne hji, hr]⟩ }

/-- The table with another entry for the virtual page `v`. -/
def setPte (t : Table) (v x : Nat) (hl : ∃ q, t.low (v / 512) = some q) : Table :=
  { t with
    pte := update t.pte v x
    pte_low := fun w hw => by
      by_cases hwv : w = v
      · exact hwv ▸ hl
      · exact t.pte_low w (by rwa [update_of_ne hwv] at hw) }

theorem tables_addMid {i p : Nat} (hi : i < 512) (hn : t.mid i = none) :
    (t.addMid i p hi hn).tables = p ::ₘ t.tables := by
  have := own_update (mem_range.mpr hi) t.mid (some p)
  rw [hn, held_none, add_zero, held_some] at this
  simp only [tables, addMid, this, ← Multiset.singleton_add]
  abel

theorem tables_addLow {i p : Nat} (hm : ∃ q, t.mid (i / 512) = some q) (hn : t.low i = none) :
    (t.addLow i p hm hn).tables = p ::ₘ t.tables := by
  obtain ⟨q, hq⟩ := hm
  have hi : i ∈ range (512 * 512) := mem_range.mpr (by have := t.mid_lt _ q hq; omega)
  have := own_update hi t.low (some p)
  rw [hn, held_none, add_zero, held_some] at this
  simp only [tables, addLow, this, ← Multiset.singleton_add]
  abel

end Table

section rep

variable {m m' : Nat → Page} {t : Table}

theorem Rep.congr (h : Rep m t) (hm : ∀ p ∈ t.tables, m' p = m p) : Rep m' t :=
  ⟨fun i hi => by rw [hm _ t.root_mem, h.root i hi],
    fun i p hp j hj => by rw [hm p (Table.mid_mem hp), h.mid i p hp j hj],
    fun i p hp j hj => by rw [hm p (Table.low_mem hp), h.low i p hp j hj]⟩

theorem Rep.addMid (h : Rep m t) (hd : t.Distinct) {i p : Nat} (hi : i < 512)
    (hn : t.mid i = none) (hroot : ∀ j, m' t.root j =
      if j = i then link (some p) else m t.root j) (hnew : m' p = Page.fill 0)
    (hm : ∀ q ∈ t.tables, q ≠ t.root → m' q = m q) : Rep m' (t.addMid i p hi hn) := by
  refine ⟨fun j hj => ?_, fun j q hq k hk => ?_, fun j q hq k hk => ?_⟩
  · show m' t.root j = link (update t.mid i (some p) j)
    rw [hroot]
    by_cases hji : j = i
    · simp [hji]
    · rw [if_neg hji, update_of_ne hji, h.root j hj]
  · change update t.mid i (some p) j = some q at hq
    show m' q k = link (t.low (j * 512 + k))
    by_cases hji : j = i
    · subst hji
      obtain rfl : p = q := by simpa using hq
      have hlow : t.low (j * 512 + k) = none := by
        by_contra hne
        obtain ⟨r, hr⟩ := Option.ne_none_iff_exists'.mp hne
        obtain ⟨q, hq⟩ := t.low_mid _ r hr
        rw [show (j * 512 + k) / 512 = j by omega, hn] at hq
        cases hq
      rw [hnew, hlow]
      rfl
    · rw [update_of_ne hji] at hq
      rw [hm q (Table.mid_mem hq) (fun he => hd.root_mid j (he ▸ hq)), h.mid j q hq k hk]
  · rw [hm q (Table.low_mem hq) (fun he => hd.root_low j (he ▸ hq))]
    exact h.low j q hq k hk

theorem Rep.addLow (h : Rep m t) (hd : t.Distinct) {i p q : Nat} (hq : t.mid (i / 512) = some q)
    (hn : t.low i = none) (hmid : ∀ j, m' q j = if j = i % 512 then link (some p) else m q j)
    (hnew : m' p = Page.fill 0) (hm : ∀ r ∈ t.tables, r ≠ q → m' r = m r) :
    Rep m' (t.addLow i p ⟨q, hq⟩ hn) := by
  refine ⟨fun j hj => ?_, fun j r hr k hk => ?_, fun j r hr k hk => ?_⟩
  · show m' t.root j = link (t.mid j)
    rw [hm _ t.root_mem fun he => hd.root_mid _ (he ▸ hq), h.root j hj]
  · change t.mid j = some r at hr
    show m' r k = link (update t.low i (some p) (j * 512 + k))
    by_cases hrq : r = q
    · obtain rfl := hd.mid_inj j (i / 512) r hr (hrq ▸ hq)
      subst hrq
      rw [hmid]
      by_cases hk' : k = i % 512
      · rw [if_pos hk', show i / 512 * 512 + k = i by omega, update_self]
      · rw [if_neg hk', update_of_ne (by omega), h.mid _ r hr k hk]
    · have hne : j * 512 + k ≠ i := fun he => hrq (by
        rw [← he, show (j * 512 + k) / 512 = j by omega, hr] at hq
        exact Option.some.inj hq)
      rw [hm r (Table.mid_mem hr) hrq, update_of_ne hne, h.mid j r hr k hk]
  · change update t.low i (some p) j = some r at hr
    show m' r k = t.pte (j * 512 + k)
    by_cases hji : j = i
    · subst hji
      obtain rfl : p = r := by simpa using hr
      have hpte : t.pte (j * 512 + k) = 0 := by
        by_contra hne
        obtain ⟨r, hr⟩ := t.pte_low _ hne
        rw [show (j * 512 + k) / 512 = j by omega, hn] at hr
        cases hr
      rw [hnew, hpte]
      rfl
    · rw [update_of_ne hji] at hr
      rw [hm r (Table.low_mem hr) fun he => hd.mid_low _ j q hq (he ▸ hr), h.low j r hr k hk]

theorem Rep.setPte (h : Rep m t) (hd : t.Distinct) {v x p : Nat} (hp : t.low (v / 512) = some p) :
    Rep (update m p (update (m p) (v % 512) x)) (t.setPte v x ⟨p, hp⟩) := by
  have hother : ∀ q, q ≠ p → update m p (update (m p) (v % 512) x) q = m q :=
    fun q hq => update_of_ne hq _ _
  refine ⟨fun j hj => ?_, fun j q hq k hk => ?_, fun j q hq k hk => ?_⟩
  · rw [hother _ fun he => hd.root_low _ ((show p = t.root from he.symm) ▸ hp)]
    exact h.root j hj
  · rw [hother q fun he => hd.mid_low j _ q hq (he ▸ hp)]
    exact h.mid j q hq k hk
  change t.low j = some q at hq
  show _ = update t.pte v x (j * 512 + k)
  by_cases hqp : q = p
  · subst hqp
    obtain rfl := hd.low_inj j (v / 512) q hq hp
    rw [update_self]
    by_cases hk' : k = v % 512
    · subst hk'
      rw [update_self, show v / 512 * 512 + v % 512 = v by omega, update_self]
    · rw [update_of_ne hk', update_of_ne (by omega), h.low _ q hq k hk]
  · have hne : j * 512 + k ≠ v := fun he => hqp (by
      rw [← he, show (j * 512 + k) / 512 = j by omega, hq] at hp
      exact Option.some.inj hp)
    rw [hother q hqp, update_of_ne hne, h.low j q hq k hk]

end rep

end Xv6.Vm
