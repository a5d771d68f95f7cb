import Mathlib

/-! Ownership as sums of multisets: a family of places, each of which may hold one thing, and the
multiset of all that they hold. That a sum has no duplicates says that nothing is in two places. -/

namespace Xv6

open Finset Function Multiset

variable {ι α : Type*}

theorem sum_add_of_ne [DecidableEq ι] {M : Type*} [AddCommMonoid M] {s : Finset ι} {i : ι}
    (hi : i ∈ s) {f g : ι → M} (h : ∀ j ≠ i, f j = g j) :
    ∑ j ∈ s, f j + g i = ∑ j ∈ s, g j + f i := by
  have hrest : ∑ j ∈ s.erase i, f j = ∑ j ∈ s.erase i, g j :=
    sum_congr rfl fun j hj => h j (ne_of_mem_erase hj)
  rw [← add_sum_erase s f hi, ← add_sum_erase s g hi, hrest]
  abel

theorem sum_update [DecidableEq ι] {M : Type*} [AddCommMonoid M] {s : Finset ι} {i : ι}
    (hi : i ∈ s) (f : ι → M) (x : M) :
    ∑ j ∈ s, update f i x j + f i = ∑ j ∈ s, f j + x := by
  have hsum := sum_add_of_ne hi fun j hj => update_of_ne hj x f
  rwa [update_self] at hsum

def held : Option α → Multiset α
  | none => 0
  | some a => {a}

@[simp] theorem held_none : held (none : Option α) = 0 := rfl

@[simp] theorem held_some (a : α) : held (some a) = {a} := rfl

@[simp] theorem mem_held {a : α} {o : Option α} : a ∈ held o ↔ o = some a := by
  cases o with
  | none => simp
  | some b => simp [eq_comm]

/-- What the places `s` hold. -/
@[irreducible] def own (s : Finset ι) (f : ι → Option α) : Multiset α := ∑ i ∈ s, held (f i)

theorem own_def (s : Finset ι) (f : ι → Option α) : own s f = ∑ i ∈ s, held (f i) := by rw [own]

theorem own_none (s : Finset ι) : own s (fun _ => (none : Option α)) = 0 := by simp [own_def]

variable {s : Finset ι} {f g : ι → Option α} {i j : ι} {a : α}

theorem mem_own : a ∈ own s f ↔ ∃ i ∈ s, f i = some a := by
  simp [own, mem_sum]

theorem own_congr (h : ∀ i ∈ s, f i = g i) : own s f = own s g := by
  unfold own
  exact sum_congr rfl fun i hi => by rw [h i hi]

theorem own_update [DecidableEq ι] (hi : i ∈ s) (f : ι → Option α) (o : Option α) :
    own s (update f i o) + held (f i) = own s f + held o := by
  have : (fun j => held (update f i o j)) =
      update (fun j => held (f j)) i (held o) := by
    funext j
    by_cases hj : j = i
    · subst hj; simp
    · simp [update_of_ne hj]
  simp only [own, this]
  exact sum_update hi (fun j => held (f j)) (held o)

section count

variable [DecidableEq α]

theorem count_held (a : α) (o : Option α) : (held o).count a = if o = some a then 1 else 0 := by
  cases o with
  | none => simp
  | some b => simp [count_singleton, eq_comm]

theorem count_own_update [DecidableEq ι] (hi : i ∈ s) (f : ι → Option α) (o : Option α) (a : α) :
    (own s (update f i o)).count a + (if f i = some a then 1 else 0) =
      (own s f).count a + if o = some a then 1 else 0 := by
  have h := congrArg (count a) (own_update hi f o)
  rwa [count_add, count_add, count_held, count_held] at h

theorem count_own_pos : 0 < (own s f).count a ↔ ∃ i ∈ s, f i = some a := by
  rw [count_pos, mem_own]

theorem eq_of_count_own [DecidableEq ι] (h : (own s f).count a = 1) (hi : i ∈ s) (hj : j ∈ s)
    (hfi : f i = some a) (hfj : f j = some a) : i = j := by
  by_contra hne
  have hsplit := count_own_update hi f none a
  rw [if_pos hfi, if_neg nofun, h] at hsplit
  have hpos : 0 < (own s (update f i none)).count a :=
    count_own_pos.mpr ⟨j, hj, by rw [update_of_ne (Ne.symm hne), hfj]⟩
  omega

end count

theorem sum_inj [DecidableEq ι] {f : ι → Multiset α} (h : (∑ i ∈ s, f i).Nodup) (hi : i ∈ s)
    (hj : j ∈ s) (hai : a ∈ f i) (haj : a ∈ f j) : i = j := by
  by_contra hne
  have hsub : f i + f j ≤ ∑ i ∈ s, f i := by
    rw [← add_sum_erase s _ hi, ← add_sum_erase _ _ (mem_erase.mpr ⟨Ne.symm hne, hj⟩), ← add_assoc]
    exact le_add_right _ _
  have hnd := nodup_of_le hsub h
  exact disjoint_left.mp (nodup_add.mp hnd).2.2 hai haj

theorem own_inj [DecidableEq ι] (h : (own s f).Nodup) (hi : i ∈ s) (hj : j ∈ s) (hfi : f i = some a)
    (hfj : f j = some a) : i = j := by
  rw [own] at h
  exact sum_inj h hi hj (mem_held.mpr hfi) (mem_held.mpr hfj)

theorem own_sum_inj {κ : Type*} [DecidableEq ι] [DecidableEq κ] {u : Finset κ}
    {f : ι → κ → Option α} {x y : κ} (h : (∑ i ∈ s, own u (f i)).Nodup) (hi : i ∈ s) (hj : j ∈ s)
    (hx : x ∈ u) (hy : y ∈ u) (hix : f i x = some a) (hjy : f j y = some a) : i = j ∧ x = y := by
  obtain rfl : i = j := sum_inj h hi hj (mem_own.mpr ⟨x, hx, hix⟩) (mem_own.mpr ⟨y, hy, hjy⟩)
  have hle : own u (f i) ≤ ∑ i ∈ s, own u (f i) :=
    single_le_sum (f := fun i => own u (f i)) (fun _ _ => zero_le _) hi
  exact ⟨rfl, own_inj (nodup_of_le hle h) hx hy hix hjy⟩

theorem own_list (l : List α) : own (range l.length) (fun i => l[i]?) = (l : Multiset α) := by
  induction l with
  | nil => simp [own_def]
  | cons a l ih =>
    rw [own_def, List.length_cons, sum_range_succ']
    simp only [List.getElem?_cons_succ, List.getElem?_cons_zero]
    rw [← own_def (range l.length) fun i => l[i]?, ih, held_some, add_comm, singleton_add,
      cons_coe]

theorem card_le_own {s' : Finset ι} (hs : s' ⊆ s) (h : ∀ i ∈ s', f i ≠ none) :
    s'.card ≤ (own s f).card := by
  have hcard : ∀ i ∈ s', 1 ≤ (held (f i)).card := by
    intro i hi
    obtain ⟨a, ha⟩ := Option.ne_none_iff_exists'.mp (h i hi)
    simp [ha]
  calc s'.card = ∑ _i ∈ s', 1 := by simp
    _ ≤ ∑ i ∈ s', (held (f i)).card := sum_le_sum hcard
    _ ≤ ∑ i ∈ s, (held (f i)).card := sum_le_sum_of_subset hs
    _ = (own s f).card := by simp [own]

end Xv6
