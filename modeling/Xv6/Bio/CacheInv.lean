import Xv6.Bio.Cache
import Xv6.Lib.Own

/-! The invariant of the buffer cache, kept by every step of `bread` and `brelse`: one buffer a
block, a reference for every user and every pin, and contents that are either on the disk or pinned.
-/

namespace Xv6.Bio

open Function

def Pc.uses : Pc → Fin NBUF → Bool
  | .lock i _, j | .unref i, j => decide (i = j)
  | _, _ => false

@[simp] theorem uses_idle (j : Fin NBUF) : Pc.idle.uses j = false := rfl

@[simp] theorem uses_lock (i j : Fin NBUF) (b : Nat) : (Pc.lock i b).uses j = decide (i = j) := rfl

@[simp] theorem uses_fill (i j : Fin NBUF) (b : Nat) : (Pc.fill i b).uses j = false := rfl

@[simp] theorem uses_unref (i j : Fin NBUF) : (Pc.unref i).uses j = decide (i = j) := rfl

def refs (s : State) (i : Fin NBUF) (p : Slot) : Nat :=
  (if (s.buf i).lock = some p then 1 else 0) + if (s.pc p).uses i then 1 else 0

open Classical in
noncomputable def pins (pin : Nat → Prop) (x : Buf) : Nat :=
  if ∃ b, x.blockno = some b ∧ pin b then 1 else 0

variable {b : Nat} {x : Buf}

theorem pins_of_pin {pin : Nat → Prop} (hb : x.blockno = some b) (h : pin b) :
    pins pin x = 1 := if_pos ⟨b, hb, h⟩

theorem pins_of_not_pin {pin : Nat → Prop} (hb : x.blockno = some b)
    (h : ¬pin b) : pins pin x = 0 := by
  refine if_neg ?_
  rintro ⟨b', hb', hp⟩
  cases hb.symm.trans hb'
  exact h hp

theorem pins_congr {pin pin' : Nat → Prop}
    (h : ∀ b, x.blockno = some b → (pin b ↔ pin' b)) : pins pin x = pins pin' x := by
  have he : (∃ b, x.blockno = some b ∧ pin b) ↔ ∃ b, x.blockno = some b ∧ pin' b :=
    exists_congr fun b => and_congr_right fun hb => h b hb
  unfold pins
  by_cases hp : ∃ b, x.blockno = some b ∧ pin b
  · rw [if_pos hp, if_pos (he.mp hp)]
  · rw [if_neg hp, if_neg fun hp' => hp (he.mpr hp')]

/-- What holds of the cache when the log pins the blocks `pin` and a reader should see `want`. -/
structure Cache (pin : Nat → Prop) (want : Nat → Block) (s : State) : Prop where
  order : ∀ i, i ∈ s.order
  unique : ∀ i j b, (s.buf i).blockno = some b → (s.buf j).blockno = some b → i = j
  refcnt : ∀ i, (s.buf i).refcnt = ∑ p, refs s i p + pins pin (s.buf i)
  waiting : ∀ p i b, s.pc p = .lock i b → (s.buf i).blockno = some b
  filling : ∀ p i b, s.pc p = .fill i b →
    (s.buf i).blockno = some b ∧ (s.buf i).lock = some p ∧ (s.buf i).valid = false
  held : ∀ i p, (s.buf i).lock = some p → (s.buf i).valid = true ∨ ∃ b, s.pc p = .fill i b
  clean : ∀ i, (s.buf i).lock = none → (s.buf i).dirty = false
  content : ∀ i b, (s.buf i).blockno = some b → (s.buf i).valid = true →
    (s.buf i).dirty = false → (s.buf i).data = want b
  backed : ∀ b, s.disk b = want b ∨ pin b
  cached : ∀ b, pin b → ∃ i, (s.buf i).blockno = some b ∧ (s.buf i).valid = true

variable {pin : Nat → Prop} {want : Nat → Block} {s s' : State} {p : Slot} {i : Fin NBUF}

section

variable (h : Cache pin want s)

include h

theorem Cache.unused (hi : (s.buf i).refcnt = 0) :
    (s.buf i).lock = none ∧ (∀ q, (s.pc q).uses i = false) ∧
      ∀ b, (s.buf i).blockno = some b → ¬pin b := by
  have hcount := h.refcnt i
  rw [hi] at hcount
  have hzero : ∀ q, refs s i q = 0 := by
    intro q
    have hle := Finset.single_le_sum (fun q _ => Nat.zero_le (refs s i q)) (Finset.mem_univ q)
    omega
  refine ⟨?_, fun q => ?_, fun b hb hpin => ?_⟩
  · cases hl : (s.buf i).lock with
    | none => rfl
    | some q =>
      have := hzero q
      simp [refs, hl] at this
  · have := hzero q
    unfold refs at this
    by_contra hq
    simp [hq] at this
  · have hp := pins_of_pin hb hpin
    omega

theorem Cache.step {pc : Pc} {order : List (Fin NBUF)}
    (hbuf : s'.buf = update s.buf i x) (hpc : s'.pc = update s.pc p pc) (hdisk : s'.disk = s.disk)
    (horder : s'.order = order) (hall : ∀ j, j ∈ order)
    (hblock : x.blockno = (s.buf i).blockno)
    (hcount : x.refcnt + refs s i p =
      (s.buf i).refcnt + ((if x.lock = some p then 1 else 0) + if pc.uses i then 1 else 0))
    (hlock : ∀ q ≠ p, (x.lock = some q ↔ (s.buf i).lock = some q))
    (huses : ∀ j ≠ i, pc.uses j = (s.pc p).uses j)
    (hwaiting : ∀ j b, pc = .lock j b → (s.buf j).blockno = some b)
    (hfilling : ∀ j b, pc = .fill j b → j = i ∧ x.blockno = some b ∧ x.lock = some p ∧
      x.valid = false)
    (hfilled : ∀ j b, s.pc p = .fill j b → j = i)
    (hheld : x.lock = some p → x.valid = true ∨ ∃ b, pc = .fill i b)
    (hvalid : (s.buf i).valid = true → x.valid = true)
    (hother : ∀ q ≠ p, (s.buf i).lock = some q → x.valid = (s.buf i).valid)
    (hclean : x.lock = none → x.dirty = false)
    (hcontent : ∀ b, x.blockno = some b → x.valid = true → x.dirty = false → x.data = want b) :
    Cache pin want s' := by
  have hblocks : ∀ j, (s'.buf j).blockno = (s.buf j).blockno := by
    intro j
    rw [hbuf]
    rcases eq_or_ne j i with rfl | hj
    · rw [update_self, hblock]
    · rw [update_of_ne hj]
  have hsame : ∀ j ≠ i, s'.buf j = s.buf j := fun j hj => by rw [hbuf, update_of_ne hj]
  have hself : s'.buf i = x := by rw [hbuf, update_self]
  constructor
  · rw [horder]
    exact hall
  · intro j k b hj hk
    rw [hblocks] at hj hk
    exact h.unique j k b hj hk
  · intro j
    have hpins : pins pin (s'.buf j) = pins pin (s.buf j) := by
      unfold pins
      rw [hblocks]
    have hothers : ∀ q ≠ p, refs s' j q = refs s j q := by
      intro q hq
      unfold refs
      rw [hpc, update_of_ne hq]
      rcases eq_or_ne j i with rfl | hj
      · simp [hself, hlock q hq]
      · rw [hsame j hj]
    have hsum := sum_add_of_ne (Finset.mem_univ p) hothers
    have hcnt := h.refcnt j
    rw [hpins]
    rcases eq_or_ne j i with rfl | hj
    · have hrefs : refs s' j p =
          (if x.lock = some p then 1 else 0) + if pc.uses j then 1 else 0 := by
        unfold refs
        rw [hself, hpc, update_self]
      rw [hself]
      omega
    · have hrefs : refs s' j p = refs s j p := by
        unfold refs
        rw [hsame j hj, hpc, update_self, huses j hj]
      rw [hsame j hj]
      omega
  · intro q j b hq
    rw [hblocks]
    rw [hpc] at hq
    rcases eq_or_ne q p with rfl | hqp
    · rw [update_self] at hq
      exact hwaiting j b hq
    · rw [update_of_ne hqp] at hq
      exact h.waiting q j b hq
  · intro q j b hq
    rw [hpc] at hq
    rcases eq_or_ne q p with rfl | hqp
    · rw [update_self] at hq
      obtain ⟨rfl, hx⟩ := hfilling j b hq
      rw [hself]
      exact hx
    rw [update_of_ne hqp] at hq
    obtain ⟨h1, h2, h3⟩ := h.filling q j b hq
    rw [hblocks]
    rcases eq_or_ne j i with rfl | hj
    · rw [hself]
      exact ⟨h1, (hlock q hqp).mpr h2, (hother q hqp h2).trans h3⟩
    · rw [hsame j hj]
      exact ⟨h1, h2, h3⟩
  · intro j q hq
    rcases eq_or_ne j i with rfl | hj <;> rcases eq_or_ne q p with rfl | hqp
    · rw [hself] at hq ⊢
      rw [hpc, update_self]
      exact hheld hq
    · rw [hself] at hq ⊢
      rw [hpc, update_of_ne hqp, hother q hqp ((hlock q hqp).mp hq)]
      exact h.held j q ((hlock q hqp).mp hq)
    · rw [hsame j hj] at hq ⊢
      refine (h.held j q hq).imp_right fun ⟨b, hb⟩ => ?_
      exact absurd (hfilled j b hb) hj
    · rw [hsame j hj] at hq ⊢
      rw [hpc, update_of_ne hqp]
      exact h.held j q hq
  · intro j
    rcases eq_or_ne j i with rfl | hj
    · rw [hself]
      exact hclean
    · rw [hsame j hj]
      exact h.clean j
  · intro j b
    rcases eq_or_ne j i with rfl | hj
    · rw [hself]
      exact hcontent b
    · rw [hsame j hj]
      exact h.content j b
  · rw [hdisk]
    exact h.backed
  · intro b hb
    obtain ⟨j, hj, hv⟩ := h.cached b hb
    refine ⟨j, (hblocks j).trans hj, ?_⟩
    rcases eq_or_ne j i with rfl | hne
    · rw [hself]
      exact hvalid hv
    · rw [hsame j hne]
      exact hv

theorem Cache.frame (hbuf : s'.buf = s.buf) (hpc : s'.pc = s.pc)
    (hdisk : s'.disk = s.disk) (horder : s'.order = s.order) : Cache pin want s' := by
  cases s
  cases s'
  cases hbuf
  cases hpc
  cases hdisk
  cases horder
  exact ⟨h.order, h.unique, h.refcnt, h.waiting, h.filling, h.held, h.clean, h.content, h.backed,
    h.cached⟩

theorem Cache.found (hp : s.pc p = .idle)
    (hi : (s.buf i).blockno = some b) :
    Cache pin want ((s.setBuf i fun x => { x with refcnt := x.refcnt + 1 }).goto p
      (.lock i b)) := by
  refine h.step rfl rfl rfl rfl h.order rfl ?_ (fun _ _ => Iff.rfl) ?_ ?_ ?_ (by simp [hp]) ?_ id
    (fun _ _ _ => rfl) (h.clean i) (h.content i)
  · simp only [refs, hp, uses_idle, uses_lock, decide_true, if_true, Bool.false_eq_true, if_false]
    omega
  · intro j hj
    simp [hp, Ne.symm hj]
  · intro j b' he
    cases he
    exact hi
  · intro j b' he
    cases he
  · intro hl
    exact .inl ((h.held i p hl).resolve_right (by simp [hp]))

theorem Cache.recycle (hp : s.pc p = .idle)
    (hi : (s.buf i).refcnt = 0) (hb : ∀ j, (s.buf j).blockno ≠ some b)
    (hbuf : s'.buf = update s.buf i
      { s.buf i with blockno := some b, valid := false, refcnt := 1 })
    (hpc : s'.pc = update s.pc p (.lock i b)) (hdisk : s'.disk = s.disk)
    (horder : s'.order = s.order) : Cache pin want s' := by
  obtain ⟨hlock, huses, hpin⟩ := h.unused hi
  have hnpin : ¬pin b := fun hpb => by
    obtain ⟨j, hj, -⟩ := h.cached b hpb
    exact hb j hj
  have hsame : ∀ j ≠ i, s'.buf j = s.buf j := fun j hj => by rw [hbuf, update_of_ne hj]
  have hself : s'.buf i = { s.buf i with blockno := some b, valid := false, refcnt := 1 } := by
    rw [hbuf, update_self]
  constructor
  · rw [horder]
    exact h.order
  · intro j k b' hj hk
    rcases eq_or_ne j i with hji | hji <;> rcases eq_or_ne k i with hki | hki
    · exact hji.trans hki.symm
    · rw [hji, hself] at hj
      rw [hsame k hki] at hk
      cases hj
      exact absurd hk (hb k)
    · rw [hki, hself] at hk
      rw [hsame j hji] at hj
      cases hk
      exact absurd hj (hb j)
    · rw [hsame j hji] at hj
      rw [hsame k hki] at hk
      exact h.unique j k b' hj hk
  · intro j
    have hothers : ∀ q ≠ p, refs s' j q = refs s j q := by
      intro q hq
      unfold refs
      rw [hpc, update_of_ne hq]
      rcases eq_or_ne j i with rfl | hj
      · rw [hself]
      · rw [hsame j hj]
    have hsum := sum_add_of_ne (Finset.mem_univ p) hothers
    have hcount := h.refcnt j
    rcases eq_or_ne j i with rfl | hj
    · have hpins : pins pin (s'.buf j) = 0 := pins_of_not_pin (by rw [hself]) hnpin
      have hrefs : refs s' j p = 1 := by simp [refs, hself, hpc, hlock]
      have hrefs' : refs s j p = 0 := by simp [refs, hlock, huses p]
      rw [hpins, hself]
      dsimp only
      omega
    · have hrefs : refs s' j p = refs s j p := by
        simp [refs, hsame j hj, hpc, hp, Ne.symm hj]
      rw [hsame j hj]
      omega
  · intro q j b' hq
    rw [hpc] at hq
    rcases eq_or_ne q p with rfl | hqp
    · rw [update_self] at hq
      cases hq
      rw [hself]
    · rw [update_of_ne hqp] at hq
      have hji : j ≠ i := by
        rintro rfl
        have := huses q
        simp [hq] at this
      rw [hsame j hji]
      exact h.waiting q j b' hq
  · intro q j b' hq
    rw [hpc] at hq
    rcases eq_or_ne q p with rfl | hqp
    · rw [update_self] at hq
      cases hq
    rw [update_of_ne hqp] at hq
    have hfill := h.filling q j b' hq
    have hji : j ≠ i := by
      rintro rfl
      rw [hfill.2.1] at hlock
      cases hlock
    rw [hsame j hji]
    exact hfill
  · intro j q hq
    have hji : j ≠ i := by
      rintro rfl
      rw [hself] at hq
      cases hlock.symm.trans hq
    rw [hsame j hji] at hq ⊢
    refine (h.held j q hq).imp_right fun ⟨b', hb'⟩ => ⟨b', ?_⟩
    have hqp : q ≠ p := by
      rintro rfl
      rw [hp] at hb'
      cases hb'
    rw [hpc, update_of_ne hqp]
    exact hb'
  · intro j
    rcases eq_or_ne j i with rfl | hj
    · rw [hself]
      exact h.clean j
    · rw [hsame j hj]
      exact h.clean j
  · intro j b' hj hv
    rcases eq_or_ne j i with rfl | hji
    · rw [hself] at hv
      cases hv
    · rw [hsame j hji] at hj hv ⊢
      exact h.content j b' hj hv
  · rw [hdisk]
    exact h.backed
  · intro b' hb'
    obtain ⟨j, hj, hv⟩ := h.cached b' hb'
    have hji : j ≠ i := by
      rintro rfl
      exact hpin b' hj hb'
    refine ⟨j, ?_⟩
    rw [hsame j hji]
    exact ⟨hj, hv⟩

theorem Cache.bget (hp : s.pc p = .idle)
    (hg : bget s b = some (i, s')) :
    Cache pin want (s'.goto p (.lock i b)) ∧ (s'.buf i).blockno = some b := by
  unfold Bio.bget at hg
  cases hfind : s.order.find? fun i => (s.buf i).blockno == some b with
  | some j =>
    simp only [hfind, Option.some.injEq, Prod.mk.injEq] at hg
    obtain ⟨rfl, rfl⟩ := hg
    have hj : (s.buf j).blockno = some b := by simpa using List.find?_some hfind
    exact ⟨h.found hp hj, by simpa [State.setBuf] using hj⟩
  | none =>
    have hb : ∀ j, (s.buf j).blockno ≠ some b := fun j => by
      simpa using List.find?_eq_none.mp hfind j (h.order j)
    simp only [hfind] at hg
    cases hfree : s.order.reverse.find? fun i => (s.buf i).refcnt == 0 with
    | none => simp [hfree] at hg
    | some j =>
      simp only [hfree, Option.some.injEq, Prod.mk.injEq] at hg
      obtain ⟨rfl, rfl⟩ := hg
      have hj : (s.buf j).refcnt = 0 := by simpa using List.find?_some hfree
      exact ⟨h.recycle hp hj hb rfl rfl rfl rfl, by simp [State.setBuf]⟩

theorem Cache.lock {pc : Pc} (hp : s.pc p = .lock i b)
    (hl : (s.buf i).lock = none)
    (hpc : pc = .idle ∧ (s.buf i).valid = true ∨ pc = .fill i b ∧ (s.buf i).valid = false) :
    Cache pin want ((s.setBuf i fun x => { x with lock := some p }).goto p pc) := by
  have hb := h.waiting p i b hp
  have hvalid : (s.buf i).valid = true ∨ ∃ b, pc = .fill i b :=
    hpc.elim (fun hv => .inl hv.2) fun hv => .inr ⟨b, hv.1⟩
  have huses : ∀ j, pc.uses j = false := by
    intro j
    rcases hpc with ⟨rfl, -⟩ | ⟨rfl, -⟩ <;> rfl
  refine h.step rfl rfl rfl rfl h.order rfl ?_ ?_ ?_ ?_ ?_ (by simp [hp]) ?_ id (fun _ _ _ => rfl)
    ?_ (h.content i)
  · simp [refs, hp, hl, huses]
  · intro q hq
    simp [hl, Ne.symm hq]
  · intro j hj
    simp [hp, huses, Ne.symm hj]
  · intro j b' he
    rcases hpc with ⟨rfl, -⟩ | ⟨rfl, -⟩ <;> cases he
  · intro j b' he
    rcases hpc with ⟨rfl, -⟩ | ⟨rfl, hv⟩ <;> cases he
    exact ⟨rfl, hb, rfl, hv⟩
  · intro _
    exact hvalid
  · intro he
    cases he

theorem Cache.disk_of_invalid (hb : (s.buf i).blockno = some b)
    (hv : (s.buf i).valid = false) : s.disk b = want b := by
  refine (h.backed b).resolve_right fun hpin => ?_
  obtain ⟨j, hj, hvj⟩ := h.cached b hpin
  rw [h.unique j i b hj hb, hv] at hvj
  cases hvj

theorem Cache.fill (hp : s.pc p = .fill i b) :
    Cache pin want ((s.setBuf i fun x => { x with data := s.disk b, valid := true }).goto p
      .idle) := by
  obtain ⟨hb, hl, hv⟩ := h.filling p i b hp
  refine h.step rfl rfl rfl rfl h.order rfl ?_ (fun _ _ => Iff.rfl) ?_ ?_ ?_ ?_
    (fun _ => .inl rfl) (fun _ => rfl) ?_ (h.clean i) ?_
  · simp [refs, hp]
  · intro j hj
    simp [hp]
  · intro j b' he
    cases he
  · intro j b' he
    cases he
  · intro j b' he
    cases hp.symm.trans he
    rfl
  · intro q hq hlq
    rw [hl] at hlq
    exact absurd (Option.some.inj hlq).symm hq
  · intro b' hb' _ _
    cases hb.symm.trans hb'
    exact h.disk_of_invalid hb hv

theorem Cache.release (hp : s.pc p = .idle) (hl : (s.buf i).lock = some p)
    (hd : (s.buf i).dirty = false) :
    Cache pin want ((s.setBuf i fun x => { x with lock := none }).goto p (.unref i)) := by
  refine h.step rfl rfl rfl rfl h.order rfl ?_ ?_ ?_ ?_ ?_ (by simp [hp]) (nofun) id
    (fun _ _ _ => rfl) (fun _ => hd) (h.content i)
  · simp [refs, hp, hl]
  · intro q hq
    simp [hl, Ne.symm hq]
  · intro j hj
    simp [hp, Ne.symm hj]
  · intro j b' he
    cases he
  · intro j b' he
    cases he

/-- `p` gives up its reference; the buffer becomes the most recently used one if it was the last. -/
theorem Cache.unref (hp : s.pc p = .unref i) :
    Cache pin want (unrefStep s p i) := by
  have hpos : 0 < (s.buf i).refcnt := by
    rw [Nat.pos_iff_ne_zero]
    intro hz
    have := (h.unused hz).2.1 p
    simp [hp] at this
  have hall : ∀ j, j ∈ i :: s.order.erase i := by
    intro j
    rcases eq_or_ne j i with rfl | hj
    · exact List.mem_cons_self
    · exact List.mem_cons_of_mem _ ((List.mem_erase_of_ne hj).mpr (h.order j))
  refine h.step rfl rfl rfl rfl ?_ rfl ?_ (fun _ _ => Iff.rfl) ?_ ?_ ?_ (by simp [hp]) ?_ id
    (fun _ _ _ => rfl) (h.clean i) (h.content i)
  · intro j
    simp only [unrefStep, State.goto, State.setBuf, update_self]
    split
    · exact hall j
    · exact h.order j
  · simp only [refs, hp, uses_idle, uses_unref, decide_true, if_true, Bool.false_eq_true, if_false]
    omega
  · intro j hj
    simp [hp, Ne.symm hj]
  · intro j b' he
    cases he
  · intro j b' he
    cases he
  · intro hl
    exact .inl ((h.held i p hl).resolve_right (by simp [hp]))

theorem Cache.restate {pin' : Nat → Prop} {want' : Nat → Block}
    (hbuf : s'.buf = update s.buf i x) (hpc : s'.pc = s.pc) (horder : s'.order = s.order)
    (hblock : x.blockno = (s.buf i).blockno) (hlock : x.lock = (s.buf i).lock)
    (hvalid : x.valid = (s.buf i).valid)
    (hcount : x.refcnt + pins pin (s.buf i) = (s.buf i).refcnt + pins pin' (s.buf i))
    (hother : ∀ j ≠ i, ∀ b, (s.buf j).blockno = some b → (pin' b ↔ pin b) ∧ want' b = want b)
    (hclean : x.lock = none → x.dirty = false)
    (hcontent : ∀ b, x.blockno = some b → x.valid = true → x.dirty = false → x.data = want' b)
    (hbacked : ∀ b, s'.disk b = want' b ∨ pin' b)
    (hcached : ∀ b, pin' b → ∃ j, (s.buf j).blockno = some b ∧ (s.buf j).valid = true) :
    Cache pin' want' s' := by
  have hsame : ∀ j ≠ i, s'.buf j = s.buf j := fun j hj => by rw [hbuf, update_of_ne hj]
  have hself : s'.buf i = x := by rw [hbuf, update_self]
  have hfields : ∀ j, (s'.buf j).blockno = (s.buf j).blockno ∧ (s'.buf j).lock = (s.buf j).lock ∧
      (s'.buf j).valid = (s.buf j).valid := by
    intro j
    rcases eq_or_ne j i with rfl | hj
    · rw [hself]
      exact ⟨hblock, hlock, hvalid⟩
    · rw [hsame j hj]
      exact ⟨rfl, rfl, rfl⟩
  constructor
  · rw [horder]
    exact h.order
  · intro j k b hj hk
    rw [(hfields _).1] at hj hk
    exact h.unique j k b hj hk
  · intro j
    have hrefs : ∑ q, refs s' j q = ∑ q, refs s j q := by
      refine Finset.sum_congr rfl fun q _ => ?_
      unfold refs
      rw [(hfields j).2.1, hpc]
    have hcnt := h.refcnt j
    rw [hrefs]
    rcases eq_or_ne j i with rfl | hj
    · have hpins : pins pin' (s'.buf j) = pins pin' (s.buf j) := by
        unfold pins
        rw [(hfields j).1]
      rw [hpins, hself]
      omega
    · rw [hsame j hj, pins_congr fun b hb => (hother j hj b hb).1]
      exact hcnt
  · intro q j b hq
    rw [hpc] at hq
    rw [(hfields j).1]
    exact h.waiting q j b hq
  · intro q j b hq
    rw [hpc] at hq
    obtain ⟨h1, h2, h3⟩ := hfields j
    rw [h1, h2, h3]
    exact h.filling q j b hq
  · intro j q hq
    obtain ⟨-, h2, h3⟩ := hfields j
    rw [h2] at hq
    rw [h3, hpc]
    exact h.held j q hq
  · intro j hj
    rcases eq_or_ne j i with rfl | hji
    · rw [hself] at hj ⊢
      exact hclean hj
    · rw [hsame j hji] at hj ⊢
      exact h.clean j hj
  · intro j b hj hv hd
    rcases eq_or_ne j i with rfl | hji
    · rw [hself] at hj hv hd ⊢
      exact hcontent b hj hv hd
    · rw [hsame j hji] at hj hv hd ⊢
      rw [(hother j hji b hj).2]
      exact h.content j b hj hv hd
  · exact hbacked
  · intro b hb
    obtain ⟨j, hj, hv⟩ := hcached b hb
    exact ⟨j, (hfields j).1.trans hj, (hfields j).2.2.trans hv⟩

theorem Cache.block_ne (hb : (s.buf i).blockno = some b)
    {j : Fin NBUF} (hj : j ≠ i) {b' : Nat} (hb' : (s.buf j).blockno = some b') : b' ≠ b := by
  rintro rfl
  exact hj (h.unique j i b' hb' hb)

theorem Cache.modify (hl : (s.buf i).lock = some p) (data : Block) :
    Cache pin want (s.setBuf i fun x => { x with data, dirty := true }) := by
  refine h.restate rfl rfl rfl rfl rfl rfl rfl (fun _ _ _ _ => ⟨Iff.rfl, rfl⟩) ?_ ?_ h.backed
    h.cached
  · intro he
    cases hl.symm.trans he
  · intro b _ _ he
    cases he

theorem Cache.logged (hp : s.pc p = .idle)
    (hl : (s.buf i).lock = some p) (hb : (s.buf i).blockno = some b) {pin' : Nat → Prop}
    (hpin : ∀ b', pin' b' ↔ pin b' ∨ b' = b) {n : Nat} (hn : pin b ∧ n = 0 ∨ ¬pin b ∧ n = 1)
    (hbuf : s'.buf = update s.buf i
      { s.buf i with dirty := false, refcnt := (s.buf i).refcnt + n })
    (hpc : s'.pc = s.pc) (hdisk : s'.disk = s.disk) (horder : s'.order = s.order) :
    Cache pin' (update want b (s.buf i).data) s' := by
  have hvalid : (s.buf i).valid = true := (h.held i p hl).resolve_right (by simp [hp])
  have hnew : pins pin' (s.buf i) = 1 := pins_of_pin hb ((hpin b).mpr (.inr rfl))
  refine h.restate hbuf hpc horder rfl rfl rfl ?_ ?_ (fun _ => rfl) ?_ ?_ ?_
  · rcases hn with ⟨hpb, rfl⟩ | ⟨hpb, rfl⟩
    · rw [hnew, pins_of_pin hb hpb]
      rfl
    · rw [hnew, pins_of_not_pin hb hpb]
  · intro j hj b' hb'
    have hne := h.block_ne hb hj hb'
    exact ⟨⟨fun hpb => ((hpin b').mp hpb).resolve_right hne, fun hpb => (hpin b').mpr (.inl hpb)⟩,
      update_of_ne hne _ _⟩
  · intro b' hb' _ _
    cases hb.symm.trans hb'
    rw [update_self]
  · intro b'
    rw [hdisk]
    rcases eq_or_ne b' b with rfl | hb'
    · exact .inr ((hpin b').mpr (.inr rfl))
    · rw [update_of_ne hb']
      exact (h.backed b').imp_right fun hp' => (hpin b').mpr (.inl hp')
  · intro b' hb'
    rcases (hpin b').mp hb' with hpb | rfl
    · exact h.cached b' hpb
    · exact ⟨i, hb, hvalid⟩

theorem Cache.writeThrough (hl : (s.buf i).lock = some p)
    (hb : (s.buf i).blockno = some b) {data : Block}
    (hbuf : s'.buf = update s.buf i { s.buf i with data }) (hpc : s'.pc = s.pc)
    (hdisk : s'.disk = update s.disk b data) (horder : s'.order = s.order) :
    Cache pin (update want b data) s' := by
  refine h.restate hbuf hpc horder rfl rfl rfl rfl ?_ ?_ ?_ ?_ h.cached
  · intro j hj b' hb'
    exact ⟨Iff.rfl, update_of_ne (h.block_ne hb hj hb') _ _⟩
  · intro he
    cases hl.symm.trans he
  · intro b' hb' _ _
    cases hb.symm.trans hb'
    rw [update_self]
  · intro b'
    rw [hdisk]
    rcases eq_or_ne b' b with rfl | hb'
    · simp
    · rw [update_of_ne hb', update_of_ne hb']
      exact h.backed b'

theorem Cache.unpin (hb : (s.buf i).blockno = some b)
    (hpb : pin b) (hdb : s.disk b = want b) {pin' : Nat → Prop}
    (hpin : ∀ b', pin' b' ↔ pin b' ∧ b' ≠ b)
    (hbuf : s'.buf = update s.buf i { s.buf i with refcnt := (s.buf i).refcnt - 1 })
    (hpc : s'.pc = s.pc) (hdisk : s'.disk = s.disk) (horder : s'.order = s.order) :
    Cache pin' want s' := by
  refine h.restate hbuf hpc horder rfl rfl rfl ?_ ?_ (h.clean i) (h.content i) ?_ ?_
  · have hold := pins_of_pin hb hpb
    have hnew : pins pin' (s.buf i) = 0 := pins_of_not_pin hb fun hp' => ((hpin b).mp hp').2 rfl
    have hcount := h.refcnt i
    rw [hold, hnew]
    dsimp only
    omega
  · intro j hj b' hb'
    have hne := h.block_ne hb hj hb'
    exact ⟨⟨fun hp' => ((hpin b').mp hp').1, fun hp' => (hpin b').mpr ⟨hp', hne⟩⟩, rfl⟩
  · intro b'
    rw [hdisk]
    rcases eq_or_ne b' b with rfl | hb'
    · exact .inl hdb
    · exact (h.backed b').imp_right fun hp' => (hpin b').mpr ⟨hp', hb'⟩
  · intro b' hb'
    exact h.cached b' ((hpin b').mp hb').1

end

end Xv6.Bio
