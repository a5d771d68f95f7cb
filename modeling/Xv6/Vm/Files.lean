import Xv6.Vm.System
import Xv6.Vm.Walk

/-! The file table and the pipe pages: reference counts agree with the references that there are,
and a pipe has a page as long as one of its ends is open. -/

namespace Xv6.Vm

open Finset Function Multiset

variable {E : String → Prop} {L : Layout} {s s' : Sys} {rest : Multiset Nat}
  {R : Multiset (Fin NFILE)} {file : Fin NFILE → File} {f : Fin NFILE}

theorem wp_onK {α β : Type} {m : Prog Kmem β} {f : β → Prog Sys α} {P : β → Kmem → Prop}
    {Q : α → Sys → Prop} (h : wp E m s.k P) (hf : ∀ b k', P b k' → wp E (f b) (s.setK k') Q) :
    wp E (onK m >>= f) s Q :=
  (wp_bind _ _).mpr (wp_on.mpr (h.mono hf))

/-- The file is an end of the pipe at `pi`, the write end if `w`. -/
def IsEnd (file : Fin NFILE → File) (f : Fin NFILE) (pi : Nat) (w : Bool) : Prop :=
  (file f).type = .pipe ∧ (file f).pipe = pi ∧ (file f).writable = w

def Pipe.isOpen (q : Pipe) (w : Bool) : Bool := if w then q.writeopen else q.readopen

theorem Pipe.isOpen_close (q : Pipe) (w w' : Bool) :
    (q.close w).isOpen w' = if w' = w then false else q.isOpen w' := by
  cases w <;> cases w' <;> rfl

def pipeSet (file : Fin NFILE → File) : Finset Nat :=
  (univ.filter fun f => (file f).type = .pipe).image fun f => (file f).pipe

theorem mem_pipeSet {pi : Nat} : pi ∈ pipeSet file ↔ ∃ f w, IsEnd file f pi w := by
  simp [pipeSet, IsEnd]

/-- The references to file structures are `R`. -/
structure FileInv (file : Fin NFILE → File) (pipe : Nat → Pipe) (R : Multiset (Fin NFILE)) :
    Prop where
  ref : ∀ f, (file f).ref = R.count f
  closed : ∀ f, f ∉ R → (file f).type = .none
  unique : ∀ f g pi w, IsEnd file f pi w → IsEnd file g pi w → f = g
  opened : ∀ pi ∈ pipeSet file, ∀ w, (pipe pi).isOpen w = true ↔ ∃ f, IsEnd file f pi w

/-- The file table and the pipes own the pipe pages, and `rest` is in use for other things. -/
structure Ftable (L : Layout) (s : Sys) (rest : Multiset Nat) (R : Multiset (Fin NFILE)) :
    Prop where
  own : Owns L s.k ((pipeSet s.file).val + rest)
  inv : FileInv s.file s.pipe R

/-- Only files and pipes have changed, and no open file of `R` has become another one. -/
structure FileStep (R : Multiset (Fin NFILE)) (s s' : Sys) : Prop where
  proc : s'.proc = s.proc
  nextpid : s'.nextpid = s.nextpid
  kstack : s'.kstack = s.kstack
  kernel : s'.kernel = s.kernel
  file : ∀ g ∈ R, (s'.file g).type = (s.file g).type ∧ (s'.file g).pipe = (s.file g).pipe

theorem FileStep.refl (R : Multiset (Fin NFILE)) (s : Sys) : FileStep R s s :=
  ⟨rfl, rfl, rfl, rfl, fun _ _ => ⟨rfl, rfl⟩⟩

theorem FileStep.trans {s'' : Sys} {R' : Multiset (Fin NFILE)} (h : FileStep R s s')
    (h' : FileStep R' s' s'') (hR : R ≤ R') : FileStep R s s'' :=
  ⟨h'.proc.trans h.proc, h'.nextpid.trans h.nextpid, h'.kstack.trans h.kstack,
    h'.kernel.trans h.kernel, fun g hg =>
      ⟨(h'.file g (mem_of_le hR hg)).1.trans (h.file g hg).1,
        (h'.file g (mem_of_le hR hg)).2.trans (h.file g hg).2⟩⟩

section setref

variable {n : Nat}

theorem isEnd_setRef {g : Fin NFILE} {pi : Nat} {w : Bool} :
    IsEnd (update file f { file f with ref := n }) g pi w ↔ IsEnd file g pi w := by
  by_cases hg : g = f
  · subst hg
    simp [IsEnd]
  · simp [IsEnd, update_of_ne hg]

theorem pipeSet_setRef : pipeSet (update file f { file f with ref := n }) = pipeSet file := by
  ext pi
  simp [mem_pipeSet, isEnd_setRef]

theorem FileInv.setRef {pipe : Nat → Pipe} {M : Multiset (Fin NFILE)} (h : FileInv file pipe R)
    (hn : M.count f = n) (hother : ∀ g, g ≠ f → M.count g = R.count g)
    (hf : f ∉ M → (file f).type = .none) :
    FileInv (update file f { file f with ref := n }) pipe M := by
  refine ⟨fun g => ?_, fun g hg => ?_, fun g g' pi w => ?_, fun pi hpi w => ?_⟩
  · by_cases hgf : g = f
    · subst hgf
      rw [update_self, hn]
    · rw [update_of_ne hgf, hother g hgf, h.ref]
  · by_cases hgf : g = f
    · subst hgf
      rw [update_self]
      exact hf hg
    · rw [update_of_ne hgf]
      refine h.closed g fun hR => hg ?_
      rwa [← one_le_count_iff_mem, hother g hgf, one_le_count_iff_mem]
  · simp only [isEnd_setRef]
    exact h.unique g g' pi w
  · simp only [isEnd_setRef]
    rw [pipeSet_setRef] at hpi
    exact h.opened pi hpi w

theorem Ftable.setRef {M : Multiset (Fin NFILE)} (h : Ftable L s rest R)
    (hn : M.count f = n) (hother : ∀ g, g ≠ f → M.count g = R.count g)
    (hf : f ∉ M → (s.file f).type = .none) :
    Ftable L (s.setFile f { s.file f with ref := n }) rest M ∧
      ∀ R, FileStep R s (s.setFile f { s.file f with ref := n }) := by
  refine ⟨⟨?_, h.inv.setRef hn hother hf⟩, fun R => ⟨rfl, rfl, rfl, rfl, fun g _ => ?_⟩⟩
  · show Owns L s.k ((pipeSet (update s.file f { s.file f with ref := n })).val + rest)
    rw [pipeSet_setRef]
    exact h.own
  · show (update s.file f { s.file f with ref := n } g).type = _ ∧
      (update s.file f { s.file f with ref := n } g).pipe = _
    by_cases hg : g = f
    · subst hg
      simp
    · simp [update_of_ne hg]

end setref

theorem filedup_spec (h : Ftable L s rest R) (hf : f ∈ R) :
    wp E (filedup f) s fun _ s' => Ftable L s' rest (f ::ₘ R) ∧ s'.k = s.k ∧ FileStep R s s' := by
  have hpos : 0 < R.count f := count_pos.mpr hf
  refine (wp_bind _ _).mpr ?_
  show wp E (if (s.file f).ref < 1 then _ else _) s _
  rw [if_neg (by rw [h.inv.ref]; omega)]
  obtain ⟨hft, hstep⟩ := h.setRef (n := (s.file f).ref + 1)
    (by rw [count_cons_self, h.inv.ref])
    (fun g hg => count_cons_of_ne hg R)
    (fun hn => absurd (mem_cons_self f R) hn)
  exact ⟨hft, rfl, hstep R⟩

theorem filealloc_spec (h : Ftable L s rest R) : wp E filealloc s fun r s' =>
    match r with
    | none => s' = s
    | some f => Ftable L s' rest (f ::ₘ R) ∧ f ∉ R ∧ (s'.file f).type = .none ∧ s'.k = s.k ∧
        FileStep R s s' := by
  refine (wp_bind _ _).mpr ?_
  show wp E (match (List.finRange NFILE).find? fun i => (s.file i).ref = 0 with
    | none => _ | some i => _) s _
  cases hfind : (List.finRange NFILE).find? fun i => (s.file i).ref = 0 with
  | none => rfl
  | some f =>
    have h0 : (s.file f).ref = 0 := by simpa using List.find?_some hfind
    have hf : f ∉ R := by
      rw [← count_eq_zero, ← h.inv.ref]
      exact h0
    obtain ⟨hft, hstep⟩ := h.setRef
      (by rw [count_cons_self, count_eq_zero.mpr hf])
      (fun g hg => count_cons_of_ne hg R)
      (fun hn => absurd (mem_cons_self f R) hn)
    refine ⟨hft, hf, ?_, rfl, hstep R⟩
    rw [(hstep {f}).file f (Multiset.mem_singleton_self f) |>.1]
    exact h.inv.closed f hf

section close

/-- The file table after `fileclose` drops the last reference. -/
def shut (file : Fin NFILE → File) (f : Fin NFILE) : Fin NFILE → File :=
  update file f { file f with ref := 0, type := .none }

theorem isEnd_shut {g : Fin NFILE} {pi : Nat} {w : Bool} :
    IsEnd (shut file f) g pi w ↔ g ≠ f ∧ IsEnd file g pi w := by
  by_cases hg : g = f
  · subst hg
    simp [IsEnd, shut]
  · simp [IsEnd, shut, hg]

theorem FileInv.shut {pipe pipe' : Nat → Pipe} (h : FileInv file pipe (f ::ₘ R)) (hf : f ∉ R)
    (hopen : ∀ pi ∈ pipeSet (shut file f), ∀ w,
      (pipe' pi).isOpen w = true ↔ ∃ g, g ≠ f ∧ IsEnd file g pi w) :
    FileInv (shut file f) pipe' R := by
  refine ⟨fun g => ?_, fun g hg => ?_, fun g g' pi w => ?_, fun pi hpi w => ?_⟩
  · by_cases hgf : g = f
    · subst hgf
      simp [Vm.shut, count_eq_zero.mpr hf]
    · rw [Vm.shut, update_of_ne hgf, h.ref, count_cons_of_ne hgf]
  · by_cases hgf : g = f
    · subst hgf
      simp [Vm.shut]
    · rw [Vm.shut, update_of_ne hgf]
      exact h.closed g (by simp [hgf, hg])
  · simp only [isEnd_shut]
    exact fun ⟨_, h1⟩ ⟨_, h2⟩ => h.unique g g' pi w h1 h2
  · simp only [isEnd_shut]
    exact hopen pi hpi w

theorem pipeSet_shut_of_ne (h : (file f).type ≠ .pipe) : pipeSet (shut file f) = pipeSet file := by
  ext pi
  simp only [mem_pipeSet, isEnd_shut]
  exact ⟨fun ⟨g, w, _, hg⟩ => ⟨g, w, hg⟩, fun ⟨g, w, hg⟩ =>
    ⟨g, w, fun he => h (he ▸ hg.1), hg⟩⟩

/-- Closing one end takes the page of the pipe out unless the other end is open. -/
theorem pipeSet_shut (h : (file f).type = .pipe) :
    pipeSet file = insert (file f).pipe (pipeSet (shut file f)) := by
  ext pi
  simp only [mem_insert, mem_pipeSet, isEnd_shut]
  constructor
  · rintro ⟨g, w, hg⟩
    by_cases hgf : g = f
    · subst hgf
      exact .inl hg.2.1.symm
    · exact .inr ⟨g, w, hgf, hg⟩
  · rintro (rfl | ⟨g, w, -, hg⟩)
    · exact ⟨f, _, h, rfl, rfl⟩
    · exact ⟨g, w, hg⟩

theorem FileInv.isOpen_close {pipe : Nat → Pipe} (h : FileInv file pipe R)
    (hp : (file f).type = .pipe) (w : Bool) :
    ((pipe (file f).pipe).close (file f).writable).isOpen w = true ↔
      ∃ g, g ≠ f ∧ IsEnd file g (file f).pipe w := by
  have hend : IsEnd file f (file f).pipe (file f).writable := ⟨hp, rfl, rfl⟩
  rw [Pipe.isOpen_close]
  split
  case isTrue hw =>
    subst hw
    simp only [Bool.false_eq_true, false_iff, not_exists, not_and]
    exact fun g hg hg' => hg (h.unique g f _ _ hg' hend)
  case isFalse hw =>
    rw [h.opened _ (mem_pipeSet.mpr ⟨f, _, hend⟩) w]
    exact ⟨fun ⟨g, hg⟩ => ⟨g, fun he : g = f => hw (he ▸ hg.2.2.symm), hg⟩,
      fun ⟨g, _, hg⟩ => ⟨g, hg⟩⟩

theorem FileStep.shut (hf : f ∉ R) {k : Kmem} {pipe : Nat → Pipe} :
    FileStep R s { s with k, pipe, file := shut s.file f } := by
  refine ⟨rfl, rfl, rfl, rfl, fun g hg => ?_⟩
  show (Vm.shut s.file f g).type = _ ∧ (Vm.shut s.file f g).pipe = _
  rw [Vm.shut, update_of_ne fun he : g = f => hf (he ▸ hg)]
  exact ⟨rfl, rfl⟩

/-- `pipeclose` for the last reference to an end frees the page when the other end is closed. -/
theorem pipeclose_spec (h : Ftable L s rest (f ::ₘ R)) (hf : f ∉ R) (hp : (s.file f).type = .pipe) :
    wp E (pipeclose L (s.file f).pipe (s.file f).writable) { s with file := shut s.file f }
      fun _ s' => Ftable L s' rest R ∧ Same rest s.k s'.k ∧ FileStep R s s' := by
  have hiff := h.inv.isOpen_close hp
  have hset := pipeSet_shut hp
  let pipe' := update s.pipe (s.file f).pipe
    ((s.pipe (s.file f).pipe).close (s.file f).writable)
  have hinv : FileInv (shut s.file f) pipe' R := h.inv.shut hf fun pi hpi w => by
    by_cases he : pi = (s.file f).pipe
    · rw [he]
      simpa [pipe'] using hiff w
    · have hpi' : pi ∈ pipeSet s.file := hset ▸ mem_insert_of_mem hpi
      rw [show pipe' pi = s.pipe pi from update_of_ne he _ _, h.inv.opened pi hpi' w]
      exact ⟨fun ⟨g, hg⟩ => ⟨g, fun hgf => he (hgf ▸ hg.2.1.symm), hg⟩,
        fun ⟨g, _, hg⟩ => ⟨g, hg⟩⟩
  refine (wp_bind _ _).mpr ?_
  refine (wp_bind _ _).mpr ?_
  show wp E (if (pipe' (s.file f).pipe).readopen = false ∧ (pipe' (s.file f).pipe).writeopen = false
    then _ else _) { s with file := shut s.file f, pipe := pipe' } _
  have hat : pipe' (s.file f).pipe = (s.pipe (s.file f).pipe).close (s.file f).writable :=
    update_self _ _ _
  rw [hat]
  split
  case isTrue hclosed =>
    -- no end is open, so the page is in no other place
    have hnot : (s.file f).pipe ∉ pipeSet (shut s.file f) := by
      rw [mem_pipeSet]
      rintro ⟨g, w, hg⟩
      have hopen := (hiff w).mpr ⟨g, isEnd_shut.mp hg⟩
      cases w with
      | false => exact absurd hopen (by simp [Pipe.isOpen, hclosed.1])
      | true => exact absurd hopen (by simp [Pipe.isOpen, hclosed.2])
    have hown := h.own
    rw [hset, insert_val_of_notMem hnot, cons_add] at hown
    refine wp_on.mpr ((kfree_spec hown).mono fun _ k' ⟨hown', hs⟩ => ?_)
    exact ⟨⟨hown', hinv⟩, hs.right, FileStep.shut hf⟩
  case isFalse hopen =>
    have hin : (s.file f).pipe ∈ pipeSet (shut s.file f) := by
      have hw : ∃ w, ((s.pipe (s.file f).pipe).close (s.file f).writable).isOpen w = true := by
        by_contra hne
        rw [not_exists] at hne
        exact hopen ⟨by simpa [Pipe.isOpen] using hne false, by simpa [Pipe.isOpen] using hne true⟩
      obtain ⟨w, hw⟩ := hw
      obtain ⟨g, hg⟩ := (hiff w).mp hw
      exact mem_pipeSet.mpr ⟨g, w, isEnd_shut.mpr hg⟩
    rw [insert_eq_self.mpr hin] at hset
    have hown : Owns L s.k ((pipeSet (shut s.file f)).val + rest) := hset ▸ h.own
    exact ⟨⟨hown, hinv⟩, Same.refl _ _, FileStep.shut hf⟩

end close

theorem fileclose_spec (h : Ftable L s rest (f ::ₘ R)) :
    wp E (fileclose L f) s fun _ s' =>
      Ftable L s' rest R ∧ Same rest s.k s'.k ∧ FileStep R s s' := by
  have hcount : (s.file f).ref = R.count f + 1 := by
    rw [h.inv.ref, count_cons_self]
  refine (wp_bind _ _).mpr ?_
  show wp E (if (s.file f).ref < 1 then _ else if 0 < (s.file f).ref - 1 then _ else _) s _
  rw [if_neg (by omega)]
  split
  case isTrue hpos =>
    have hf : f ∈ R := count_pos.mp (by omega)
    obtain ⟨hft, hstep⟩ := h.setRef (n := (s.file f).ref - 1) (by omega)
      (fun g hg => (count_cons_of_ne hg R).symm) (fun hn => absurd hf hn)
    exact ⟨hft, Same.refl _ _, hstep R⟩
  case isFalse hzero =>
    have hf : f ∉ R := count_eq_zero.mp (by omega)
    rw [wp_bind]
    show wp E (if (s.file f).type = .pipe then _ else _) { s with file := shut s.file f } _
    split
    case isTrue hp => exact pipeclose_spec h hf hp
    case isFalse hp =>
      have hset := pipeSet_shut_of_ne hp
      have hown : Owns L s.k ((pipeSet (shut s.file f)).val + rest) := hset.symm ▸ h.own
      refine ⟨⟨hown, h.inv.shut hf fun pi hpi w => ?_⟩, Same.refl _ _, FileStep.shut hf⟩
      rw [h.inv.opened pi (hset ▸ hpi) w]
      exact ⟨fun ⟨g, hg⟩ => ⟨g, fun he => hp (he ▸ hg.1), hg⟩, fun ⟨g, _, hg⟩ => ⟨g, hg⟩⟩

section pipe

variable {f0 f1 : Fin NFILE} {pi : Nat}

/-- The file table after `pipealloc` has made both ends. -/
def piped (file : Fin NFILE → File) (f0 f1 : Fin NFILE) (pi : Nat) : Fin NFILE → File :=
  update
    (update file f0
      { file f0 with type := .pipe, readable := true, writable := false, pipe := pi }) f1
    { file f1 with type := .pipe, readable := false, writable := true, pipe := pi }

theorem isEnd_piped (hne : f1 ≠ f0) (h0 : (file f0).type = .none) (h1 : (file f1).type = .none)
    {g : Fin NFILE} {pj : Nat} {w : Bool} : IsEnd (piped file f0 f1 pi) g pj w ↔
      (pj = pi ∧ g = if w then f1 else f0) ∨ IsEnd file g pj w := by
  by_cases hg1 : g = f1
  · subst hg1
    cases w <;> simp [IsEnd, piped, h1, hne, @eq_comm _ pj pi]
  · by_cases hg0 : g = f0
    · subst hg0
      cases w <;> simp [IsEnd, piped, h0, hg1, @eq_comm _ pj pi]
    · cases w <;> simp [IsEnd, piped, hg0, hg1]

theorem pipeSet_piped (hne : f1 ≠ f0) (h0 : (file f0).type = .none) (h1 : (file f1).type = .none) :
    pipeSet (piped file f0 f1 pi) = insert pi (pipeSet file) := by
  ext pj
  simp only [mem_insert, mem_pipeSet, isEnd_piped hne h0 h1]
  constructor
  · rintro ⟨g, w, hg | hg⟩
    · exact .inl hg.1
    · exact .inr ⟨g, w, hg⟩
  · rintro (rfl | ⟨g, w, hg⟩)
    · exact ⟨f0, false, .inl ⟨rfl, rfl⟩⟩
    · exact ⟨g, w, .inr hg⟩

theorem FileInv.piped {pipe : Nat → Pipe} (h : FileInv file pipe R) (hne : f1 ≠ f0)
    (h0 : (file f0).type = .none) (h1 : (file f1).type = .none) (hf0 : f0 ∈ R) (hf1 : f1 ∈ R)
    (hpi : pi ∉ pipeSet file) :
    FileInv (piped file f0 f1 pi)
      (update pipe pi { readopen := true, writeopen := true }) R := by
  have hno : ∀ g w, ¬IsEnd file g pi w := fun g w hg => hpi (mem_pipeSet.mpr ⟨g, w, hg⟩)
  refine ⟨fun g => ?_, fun g hg => ?_, fun g g' pj w hg hg' => ?_, fun pj hpj w => ?_⟩
  · rw [← h.ref]
    by_cases hg1 : g = f1
    · subst hg1
      simp [Vm.piped]
    · by_cases hg0 : g = f0
      · subst hg0
        simp [Vm.piped, hg1]
      · simp [Vm.piped, hg0, hg1]
  · have hg1 : g ≠ f1 := fun he => hg (he ▸ hf1)
    have hg0 : g ≠ f0 := fun he => hg (he ▸ hf0)
    simpa [Vm.piped, hg0, hg1] using h.closed g hg
  · rw [isEnd_piped hne h0 h1] at hg hg'
    rcases hg with ⟨rfl, rfl⟩ | hg
    · rcases hg' with ⟨-, rfl⟩ | hg'
      · rfl
      · exact absurd hg' (hno g' w)
    · rcases hg' with ⟨rfl, rfl⟩ | hg'
      · exact absurd hg (hno g w)
      · exact h.unique g g' pj w hg hg'
  · simp only [isEnd_piped hne h0 h1]
    by_cases hpp : pj = pi
    · subst hpp
      rw [update_self]
      cases w <;> simp [Pipe.isOpen]
    · rw [update_of_ne hpp]
      rw [pipeSet_piped hne h0 h1, mem_insert] at hpj
      rw [h.opened pj (hpj.resolve_left hpp) w]
      simp [hpp]

theorem openPipe_spec {k' : Kmem} (h : Ftable L s rest (f1 ::ₘ f0 ::ₘ R)) (hf0 : f0 ∉ R)
    (hf1 : f1 ∉ f0 ::ₘ R) (h0 : (s.file f0).type = .none) (h1 : (s.file f1).type = .none)
    (hown : Owns L k' (pi ::ₘ ((pipeSet s.file).val + rest)))
    (hs : Same ((pipeSet s.file).val + rest) s.k k') :
    wp E (openPipe f0 f1 pi) (s.setK k') fun _ s' =>
      Ftable L s' rest (f0 ::ₘ f1 ::ₘ R) ∧ Same rest s.k s'.k ∧ FileStep R s s' := by
  have hne : f1 ≠ f0 := fun he => hf1 (he ▸ mem_cons_self _ _)
  have hpi : pi ∉ pipeSet s.file := fun hm => hown.notMem (subset_add_left hm)
  refine ⟨⟨?_, ?_⟩, hs.right, ⟨rfl, rfl, rfl, rfl, ?_⟩⟩
  · show Owns L k' ((pipeSet (piped s.file f0 f1 pi)).val + rest)
    rw [pipeSet_piped hne h0 h1, insert_val_of_notMem hpi, cons_add]
    exact hown
  · rw [Multiset.cons_swap]
    exact h.inv.piped hne h0 h1 (by simp) (by simp) hpi
  · intro g hg
    have hg1 : g ≠ f1 := fun he => hf1 (he ▸ mem_cons_of_mem hg)
    have hg0 : g ≠ f0 := fun he => hf0 (he ▸ hg)
    show (piped s.file f0 f1 pi g).type = _ ∧ (piped s.file f0 f1 pi g).pipe = _
    simp [piped, hg0, hg1]

theorem pipealloc_spec (h : Ftable L s rest R) : wp E (pipealloc L) s fun r s' =>
    Same rest s.k s'.k ∧ FileStep R s s' ∧
    match r with
    | none => Ftable L s' rest R
    | some (f0, f1) => Ftable L s' rest (f0 ::ₘ f1 ::ₘ R) := by
  refine (filealloc_spec h).bind fun r s1 hr => ?_
  cases r with
  | none =>
    obtain rfl := hr
    exact ⟨Same.refl _ _, FileStep.refl _ _, h⟩
  | some f0 =>
    obtain ⟨hft1, hf0, ht0, hk1, hstep1⟩ := hr
    refine (filealloc_spec hft1).bind fun r s2 hr => ?_
    cases r with
    | none =>
      obtain rfl := hr
      refine (fileclose_spec hft1).bind fun _ s3 ⟨hft3, hs3, hstep3⟩ => ?_
      exact ⟨hk1 ▸ hs3, hstep1.trans hstep3 (le_refl R), hft3⟩
    | some f1 =>
      obtain ⟨hft2, hf1, ht1, hk2, hstep2⟩ := hr
      have hstep := hstep1.trans hstep2 (le_cons_self R f0)
      have hk : s2.k = s.k := hk2.trans hk1
      refine wp_onK (kalloc_spec hft2.own) fun r k3 hr => ?_
      cases r with
      | none =>
        obtain rfl : k3 = s2.k := hr.1
        rw [Multiset.cons_swap] at hft2
        refine (fileclose_spec hft2).bind fun _ s4 ⟨hft4, hs4, hstep4⟩ => ?_
        refine (fileclose_spec hft4).bind fun _ s5 ⟨hft5, hs5, hstep5⟩ => ?_
        refine ⟨?_, ?_, hft5⟩
        · rw [← hk]
          exact hs4.trans hs5
        · exact (hstep.trans hstep4 (le_cons_self R f1)).trans hstep5 (le_refl R)
      | some pi =>
        have ht0' : (s2.file f0).type = .none := by
          rw [(hstep2.file f0 (mem_cons_self f0 R)).1, ht0]
        refine (openPipe_spec hft2 hf0 hf1 ht0' ht1 hr.1 hr.2).bind
          fun _ s4 ⟨hft4, hs4, hstep4⟩ => ?_
        exact ⟨hk ▸ hs4, hstep.trans hstep4 (le_refl R), hft4⟩

end pipe

end Xv6.Vm
