import Mathlib

/-! Linked lists as paths along a successor function, and circular lists as closed paths. -/

namespace Xv6

open Function List

variable {α : Type*} {next next' : α → α} {a b c p : α} {l r : List α}

/-- From `a` the successors are the members of `l` in order, then `b`. -/
def Path (next : α → α) (a : α) (l : List α) (b : α) : Prop := (a :: l).map next = l ++ [b]

theorem path_nil : Path next a [] b ↔ next a = b := by simp [Path]

theorem path_cons : Path next a (c :: l) b ↔ next a = c ∧ Path next c l b := by
  rw [Path, Path, map_cons, cons_append, cons.injEq]

theorem path_append : Path next a (l ++ c :: r) b ↔ Path next a l c ∧ Path next c r b := by
  induction l generalizing a with
  | nil => rw [nil_append, path_cons, path_nil]
  | cons x l ih => rw [cons_append, path_cons, path_cons, ih, and_assoc]

theorem Path.congr (h : Path next a l b) (he : ∀ x ∈ a :: l, next' x = next x) :
    Path next' a l b := (map_congr_left he).trans h

theorem Path.getLast_next (h : Path next a l b) :
    next ((a :: l).getLast (cons_ne_nil a l)) = b := by
  rw [← getLast_map (f := next) (by simp), getLast_congr _ (by simp) h,
    getLast_concat]

theorem Path.rotate (h : Path next a (l ++ c :: r) a) : Path next c (r ++ a :: l) c :=
  path_append.mpr (path_append.mp h).symm

theorem circle_getLast : Path next a (l ++ r) a ↔
    Path next ((a :: l).getLast (cons_ne_nil a l)) (r ++ (a :: l).dropLast)
      ((a :: l).getLast (cons_ne_nil a l)) := by
  rcases eq_nil_or_concat l with rfl | ⟨l', c, rfl⟩
  · simp
  · have hlast : (a :: l'.concat c).getLast (cons_ne_nil a _) = c := by simp
    have hdrop : (a :: l'.concat c).dropLast = a :: l' := by
      rw [concat_eq_append]
      exact @List.dropLast_concat _ (a :: l') c
    rw [hlast, hdrop, concat_eq_append, append_assoc, singleton_append]
    exact ⟨.rotate, .rotate⟩

theorem perm_getLast (a : α) (l r : List α) :
    ((a :: l).getLast (cons_ne_nil a l) :: (r ++ (a :: l).dropLast)).Perm
      (a :: (l ++ r)) := by
  calc (a :: l).getLast (cons_ne_nil a l) :: (r ++ (a :: l).dropLast)
      _ = [(a :: l).getLast (cons_ne_nil a l)] ++ (r ++ (a :: l).dropLast) := rfl
      Perm _ (r ++ (a :: l).dropLast ++ [(a :: l).getLast (cons_ne_nil a l)]) :=
        perm_append_comm
      Perm _ (r ++ (a :: l)) := by rw [append_assoc, dropLast_append_getLast]
      Perm _ (a :: l ++ r) := perm_append_comm

theorem Path.tour (h : Path next a l a) (hc : c ∈ a :: l) :
    ∃ t, Path next c t c ∧ (c :: t).Perm (a :: l) := by
  rcases mem_cons.mp hc with rfl | hc
  · exact ⟨l, h, .refl _⟩
  · obtain ⟨l, r, rfl⟩ := append_of_mem hc
    exact ⟨r ++ a :: l, h.rotate, @List.perm_append_comm _ (c :: r) (a :: l)⟩

theorem Path.injOn (h : Path next a l a) (hn : (a :: l).Nodup) {x y : α} (hx : x ∈ a :: l)
    (hy : y ∈ a :: l) (he : next x = next y) : x = y := by
  have hmap : ((a :: l).map next).Nodup := by
    rw [h]
    exact (perm_append_singleton a l).nodup_iff.mpr hn
  exact inj_on_of_nodup_map hmap hx hy he

variable [DecidableEq α]

theorem Path.insert (h : Path next a l b) (ha : a ∉ l) (hc : c ∉ a :: l) :
    Path (update (update next c (next a)) a c) a (c :: l) b := by
  obtain ⟨hca, hcl⟩ := not_or.mp (mt mem_cons.mpr hc)
  rw [path_cons, update_self]
  refine ⟨rfl, ?_⟩
  cases l with
  | nil =>
    rw [path_nil] at h ⊢
    rw [update_of_ne hca, update_self, h]
  | cons x l =>
    rw [path_cons] at h ⊢
    rw [update_of_ne hca, update_self]
    refine ⟨h.1, h.2.congr fun y hy => ?_⟩
    have hya : y ≠ a := fun he => ha (he ▸ hy)
    have hyc : y ≠ c := fun he => hcl (he ▸ hy)
    rw [update_of_ne hya, update_of_ne hyc]

theorem Path.erase (h : Path next a (c :: l) b) (ha : a ∉ c :: l) :
    Path (update next a (next c)) a l b := by
  have hcl := (path_cons.mp h).2
  cases l with
  | nil => rw [path_nil, update_self, path_nil.mp hcl]
  | cons x l =>
    rw [path_cons] at hcl ⊢
    rw [update_self]
    refine ⟨hcl.1, hcl.2.congr fun y hy => update_of_ne (fun he => ha ?_) ..⟩
    exact he ▸ mem_cons_of_mem c hy

end Xv6
