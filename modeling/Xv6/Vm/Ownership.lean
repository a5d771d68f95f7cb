import Xv6.Vm.Syscalls

/-! Every page that the allocator was given is in exactly one place, in every reachable state, and
the free pages are as many again once all new processes are gone. -/

namespace Xv6.Vm

open Finset
open Wait (Slot)

variable {E : String → Prop} {L : Layout} {s s' : Sys} {T T' : Slot → Table} {p : Slot}
  {A : Slot → Prop} {m : Nat → Page} {t : Table}

/-- The level-0 page for the addresses with `va >> 21 = i`. -/
def lowPage (m : Nat → Page) (root i : Nat) : Option Nat :=
  (leafPage (m root (i / 512))).bind fun q => leafPage (m q (i % 512))

/-- The entry that translates the addresses with `va >> 12 = v`, or 0. -/
def entry (m : Nat → Page) (root v : Nat) : Nat :=
  match lowPage m root (v / 512) with
  | none => 0
  | some q => m q (v % 512)

section lookup

variable (hrep : Rep m t) (hpage : ∀ x ∈ t.tables, x % PGSIZE = 0 ∧ x < PHYSTOP)

include hrep hpage

theorem midPage_eq {i : Nat} (hi : i < 512) : leafPage (m t.root i) = t.mid i := by
  rw [hrep.root i hi]
  cases hm : t.mid i with
  | none => simp
  | some q =>
    obtain ⟨h1, h2⟩ := hpage q (Table.mid_mem hm)
    rw [leafPage, if_pos (link_valid q), pte2pa_link h1 h2]

theorem lowPage_eq {i : Nat} (hi : i < 512 * 512) : lowPage m t.root i = t.low i := by
  rw [lowPage, midPage_eq hrep hpage (by omega)]
  cases hm : t.mid (i / 512) with
  | none =>
    cases hl : t.low i with
    | none => rfl
    | some q =>
      obtain ⟨r, hr⟩ := t.low_mid i q hl
      rw [hm] at hr
      cases hr
  | some r =>
    rw [Option.bind_some, hrep.mid _ r hm _ (Nat.mod_lt _ (by decide)), Nat.div_add_mod']
    cases hl : t.low i with
    | none => simp
    | some q =>
      obtain ⟨h1, h2⟩ := hpage q (Table.low_mem hl)
      rw [leafPage, if_pos (link_valid q), pte2pa_link h1 h2]

theorem entry_eq {v : Nat} (hv : v < 512 * 512 * 512) : entry m t.root v = t.pte v := by
  rw [entry, lowPage_eq hrep hpage (by omega)]
  cases hl : t.low (v / 512) with
  | none => exact (t.pte_eq_zero hl).symm
  | some q =>
    show m q (v % 512) = t.pte v
    rw [hrep.low _ q hl _ (Nat.mod_lt _ (by decide)), Nat.div_add_mod']

end lookup

/-- The places where a page can be. -/
inductive Place
  | free (i : Nat)
  | user (p : Slot) (v : Nat)
  | root (p : Slot)
  | mid (p : Slot) (i : Nat)
  | low (p : Slot) (i : Nat)
  | trapframe (p : Slot)
  | kstack (p : Slot)
  | pipe (pi : Nat)
  | kernel (i : Nat)

/-- The page at a place: in the free list, mapped by a process below `TRAPFRAME`, in its page table,
its trap frame, its kernel stack, an open pipe, or kept by the kernel. -/
def Sys.pageAt (s : Sys) : Place → Option Nat
  | .free i => s.k.freelist[i]?
  | .user p v =>
    if (s.proc p).state ≠ .unused ∧ v < UPAGES then
      leafPage (entry s.k.mem (s.proc p).pagetable v)
    else none
  | .root p => if (s.proc p).state ≠ .unused then some (s.proc p).pagetable else none
  | .mid p i =>
    if (s.proc p).state ≠ .unused ∧ i < 512 then leafPage (s.k.mem (s.proc p).pagetable i) else none
  | .low p i =>
    if (s.proc p).state ≠ .unused ∧ i < 512 * 512 then lowPage s.k.mem (s.proc p).pagetable i
    else none
  | .trapframe p => if (s.proc p).state ≠ .unused then some (s.proc p).trapframe else none
  | .kstack p => some (s.kstack p)
  | .pipe pi => if pi ∈ pipeSet s.file then some pi else none
  | .kernel i => s.kernel[i]?

inductive Kind
  | free | user | root | mid | low | trapframe | kstack | pipe | kernel
  deriving DecidableEq

instance : Fintype Kind :=
  ⟨{.free, .user, .root, .mid, .low, .trapframe, .kstack, .pipe, .kernel},
    fun k => by cases k <;> decide⟩

def Place.kind : Place → Kind
  | .free _ => .free
  | .user _ _ => .user
  | .root _ => .root
  | .mid _ _ => .mid
  | .low _ _ => .low
  | .trapframe _ => .trapframe
  | .kstack _ => .kstack
  | .pipe _ => .pipe
  | .kernel _ => .kernel

def Sys.share (s : Sys) : Kind → Multiset Nat
  | .free => own (range s.k.freelist.length) fun i => s.pageAt (.free i)
  | .user => ∑ p, own (range UPAGES) fun i => s.pageAt (.user p i)
  | .root => own univ fun p => s.pageAt (.root p)
  | .mid => ∑ p, own (range 512) fun i => s.pageAt (.mid p i)
  | .low => ∑ p, own (range (512 * 512)) fun i => s.pageAt (.low p i)
  | .trapframe => own univ fun p => s.pageAt (.trapframe p)
  | .kstack => own univ fun p => s.pageAt (.kstack p)
  | .pipe => own (pipeSet s.file) fun pi => s.pageAt (.pipe pi)
  | .kernel => own (range s.kernel.length) fun i => s.pageAt (.kernel i)

theorem Kind.sum_univ {M : Type*} [AddCommMonoid M] (f : Kind → M) : ∑ k, f k =
    f .free + (f .user + (f .root + (f .mid + (f .low + (f .trapframe + (f .kstack + (f .pipe +
      f .kernel))))))) := by
  show ∑ k ∈ ({.free, .user, .root, .mid, .low, .trapframe, .kstack, .pipe, .kernel} : Finset Kind),
    f k = _
  simp

theorem of_ite_eq_some {α : Type*} {c : Prop} [Decidable c] {o : Option α} {x : α}
    (h : (if c then o else none) = some x) : c := by
  by_contra hc
  rw [if_neg hc] at h
  cases h

theorem pageAt_mem {pl : Place} {x : Nat} (h : s.pageAt pl = some x) : x ∈ s.share pl.kind := by
  cases pl with
  | free i | kernel i => exact mem_own.mpr ⟨i, mem_range.mpr (List.getElem?_eq_some_iff.mp h).1, h⟩
  | user p v =>
    have hv : v < UPAGES := (of_ite_eq_some h).2
    exact Multiset.mem_sum.mpr ⟨p, mem_univ p, mem_own.mpr ⟨v, mem_range.mpr hv, h⟩⟩
  | root p | trapframe p | kstack p => exact mem_own.mpr ⟨p, mem_univ p, h⟩
  | mid p i =>
    have hi : i < 512 := (of_ite_eq_some h).2
    exact Multiset.mem_sum.mpr ⟨p, mem_univ p, mem_own.mpr ⟨i, mem_range.mpr hi, h⟩⟩
  | low p i =>
    have hi : i < 512 * 512 := (of_ite_eq_some h).2
    exact Multiset.mem_sum.mpr ⟨p, mem_univ p, mem_own.mpr ⟨i, mem_range.mpr hi, h⟩⟩
  | pipe pi => exact mem_own.mpr ⟨pi, of_ite_eq_some h, h⟩

theorem exists_place {k : Kind} {x : Nat} (h : x ∈ s.share k) : ∃ pl, s.pageAt pl = some x := by
  cases k with
  | free =>
    obtain ⟨i, -, hi⟩ := mem_own.mp h
    exact ⟨.free i, hi⟩
  | user =>
    obtain ⟨p, -, hp⟩ := Multiset.mem_sum.mp h
    obtain ⟨v, -, hv⟩ := mem_own.mp hp
    exact ⟨.user p v, hv⟩
  | root =>
    obtain ⟨p, -, hp⟩ := mem_own.mp h
    exact ⟨.root p, hp⟩
  | mid =>
    obtain ⟨p, -, hp⟩ := Multiset.mem_sum.mp h
    obtain ⟨i, -, hi⟩ := mem_own.mp hp
    exact ⟨.mid p i, hi⟩
  | low =>
    obtain ⟨p, -, hp⟩ := Multiset.mem_sum.mp h
    obtain ⟨i, -, hi⟩ := mem_own.mp hp
    exact ⟨.low p i, hi⟩
  | trapframe =>
    obtain ⟨p, -, hp⟩ := mem_own.mp h
    exact ⟨.trapframe p, hp⟩
  | kstack =>
    obtain ⟨p, -, hp⟩ := mem_own.mp h
    exact ⟨.kstack p, hp⟩
  | pipe =>
    obtain ⟨pi, -, hpi⟩ := mem_own.mp h
    exact ⟨.pipe pi, hpi⟩
  | kernel =>
    obtain ⟨i, -, hi⟩ := mem_own.mp h
    exact ⟨.kernel i, hi⟩

theorem pageAt_inj {pl pl' : Place} {x : Nat} (h : s.pageAt pl = some x)
    (h' : s.pageAt pl' = some x) (hk : pl.kind = pl'.kind) (hnd : (s.share pl.kind).Nodup) :
    pl = pl' := by
  cases pl with
  | free i | kernel i =>
    cases pl' <;> cases hk
    rw [own_inj hnd (mem_range.mpr (List.getElem?_eq_some_iff.mp h).1)
      (mem_range.mpr (List.getElem?_eq_some_iff.mp h').1) h h']
  | user p v | mid p i | low p i =>
    cases pl' <;> cases hk
    obtain ⟨rfl, rfl⟩ := own_sum_inj hnd (mem_univ _) (mem_univ _)
      (mem_range.mpr (of_ite_eq_some h).2) (mem_range.mpr (of_ite_eq_some h').2) h h'
    rfl
  | root p | trapframe p | kstack p =>
    cases pl' <;> cases hk
    rw [own_inj hnd (mem_univ p) (mem_univ _) h h']
  | pipe pi =>
    cases pl' <;> cases hk
    rw [own_inj hnd (of_ite_eq_some h) (of_ite_eq_some h') h h']

theorem foot_eq {hand : Multiset Nat} {R : Multiset (Fin NFILE)} (h : Inv L s T hand R)
    (p : Slot) : foot (s.proc p) (T p) = held (s.pageAt (.trapframe p)) +
      (held (s.pageAt (.root p)) + own (range 512) (fun i => s.pageAt (.mid p i)) +
        own (range (512 * 512)) (fun i => s.pageAt (.low p i)) +
        own (range UPAGES) fun v => s.pageAt (.user p v)) := by
  simp only [Sys.pageAt]
  by_cases hp : (s.proc p).state = .unused
  · simp only [hp, ne_eq, not_true_eq_false, false_and, if_false, own_none, held_none]
    rw [foot_unused hp]
    rfl
  obtain ⟨hrep, hroot, -, -⟩ := (h.procs p).live hp
  have hpage : ∀ x ∈ (T p).tables, x % PGSIZE = 0 ∧ x < PHYSTOP := fun x => (h.space hp).heap.page
  rw [foot_live hp, if_pos hp, if_pos hp, held_some, held_some, Table.tables, userPages, ← hroot]
  refine congrArg (_ + ·) (congrArg₂ _ (congrArg₂ _ (congrArg _ ?_) ?_) ?_)
  · refine own_congr fun i hi => ?_
    rw [if_pos ⟨hp, mem_range.mp hi⟩, midPage_eq hrep hpage (mem_range.mp hi)]
  · refine own_congr fun i hi => ?_
    rw [if_pos ⟨hp, mem_range.mp hi⟩, lowPage_eq hrep hpage (mem_range.mp hi)]
  · refine own_congr fun v hv => ?_
    have hlt := mem_range.mp hv
    rw [if_pos ⟨hp, hlt⟩, entry_eq hrep hpage (by simp only [UPAGES] at hlt; omega)]

theorem sum_share {R : Multiset (Fin NFILE)} (h : Inv L s T 0 R) :
    ∑ k, s.share k = (L.pages : Multiset Nat) := by
  have hfree : s.share .free = (s.k.freelist : Multiset Nat) := own_list _
  have hkernel : s.share .kernel = (s.kernel : Multiset Nat) := own_list _
  have hkstack : s.share .kstack = ∑ p, {s.kstack p} := own_def _ _
  have hpipe : s.share .pipe = (pipeSet s.file).val := by
    rw [Sys.share, own_def]
    refine Eq.trans (sum_congr rfl fun pi hpi => ?_) (sum_multiset_singleton _)
    rw [Sys.pageAt, if_pos hpi, held_some]
  have hown := h.own
  rw [Owns, Sys.kept, sum_congr rfl fun p _ => foot_eq h p] at hown
  simp only [sum_add_distrib, ← own_def] at hown
  rw [Kind.sum_univ, hfree, hkernel, hkstack, hpipe, ← hown]
  simp only [Sys.share]
  abel

/-- A page that the allocator was given is in exactly one place. -/
theorem exists_unique_place {R : Multiset (Fin NFILE)} (h : Inv L s T 0 R) {x : Nat}
    (hx : x ∈ L.pages) : ∃! pl, s.pageAt pl = some x := by
  have hsum := sum_share h
  have hnd : (∑ k, s.share k).Nodup := by
    rw [hsum]
    exact L.nodup_pages
  have hle : ∀ k, s.share k ≤ ∑ k, s.share k := fun k =>
    single_le_sum (fun _ _ => Multiset.zero_le _) (mem_univ k)
  have huniq : ∀ pl pl', s.pageAt pl = some x → s.pageAt pl' = some x → pl = pl' := by
    intro pl pl' h1 h2
    have hk : pl.kind = pl'.kind :=
      sum_inj hnd (mem_univ _) (mem_univ _) (pageAt_mem h1) (pageAt_mem h2)
    exact pageAt_inj h1 h2 hk (Multiset.nodup_of_le (hle _) hnd)
  have hmem : x ∈ ∑ k, s.share k := by
    rw [hsum]
    exact Multiset.mem_coe.mpr hx
  obtain ⟨k, -, hk⟩ := Multiset.mem_sum.mp hmem
  obtain ⟨pl, hpl⟩ := exists_place hk
  exact ⟨pl, hpl, fun pl' h' => huniq pl' pl h' hpl⟩

/-- The state when `userinit` runs: no processes and no files, and each page is free or kept by the
kernel. -/
structure Boot (L : Layout) (s : Sys) : Prop where
  procs : ∀ p, (s.proc p).state = .unused ∧ (s.proc p).pagetable = 0 ∧ (s.proc p).trapframe = 0 ∧
    (s.proc p).sz = 0 ∧ ∀ fd, (s.proc p).ofile fd = none
  files : ∀ f, (s.file f).ref = 0 ∧ (s.file f).type = .none
  pages : Owns L s.k s.kept

theorem Boot.inv (h : Boot L s) (T : Slot → Table) : Inv L s T 0 s.refs := by
  have hpipe : pipeSet s.file = ∅ := by
    ext pi
    simp [mem_pipeSet, IsEnd, (h.files _).2]
  have hrefs : s.refs = 0 := by
    refine sum_eq_zero fun p _ => ?_
    rw [own_congr fun fd _ => (h.procs p).2.2.2.2 fd, own_none]
  refine ⟨?_, fun p => ?_, ?_⟩
  · rw [sum_eq_zero fun p _ => foot_unused (h.procs p).1 (T p), hpipe, empty_val,
      zero_add, zero_add, add_zero]
    exact h.pages
  · obtain ⟨h1, h2, h3, h4, h5⟩ := h.procs p
    exact ⟨fun _ => ⟨h2, h3, h4⟩, fun _ => h5, fun hn => absurd h1 hn⟩
  · refine ⟨fun f => ?_, fun f _ => (h.files f).2, fun f g pi w hf => ?_, fun pi hpi => ?_⟩
    · rw [(h.files f).1, hrefs, Multiset.count_zero]
    · exact absurd hf.1 (by rw [(h.files f).2]; simp)
    · rw [hpipe] at hpi
      exact absurd hpi (notMem_empty pi)

def Event.Quiet (T : Slot → Table) : Event → Prop
  | .userinit => True
  | .fork _ | .store _ _ _ => True
  | .wait p addr => addr = 0 ∨ Mapped (T p).pte addr 4
  | _ => False

/-- Every operation keeps the ownership, and the only panic is that of an exiting `init`. -/
theorem run_spec {e : Event} (h : Inv L s T 0 s.refs) (he : e.enabled s = true)
    (hA : e.Quiet T ∨ ∀ p, e.actor = some p → A p) :
    wp (· = "init exiting") (e.run L) s fun _ s' => Done L A s T s' := by
  have hp : ∀ p, e.actor = some p → (s.proc p).state = .runnable := fun p hp => by
    unfold Event.enabled at he
    rw [hp] at he
    exact of_decide_eq_true he
  cases e with
  | userinit => exact (wp_map _ _).mpr (userinit_spec h)
  | fork p => exact (wp_map _ _).mpr (kfork_spec h (hp p rfl))
  | exec p upath uargv namei =>
    exact (wp_map _ _).mpr (sysExec_spec h (hp p rfl) (hA.resolve_left id p rfl))
  | sbrk p n t =>
    refine (wp_map _ _).mpr ((sysSbrk_spec n t h (hp p rfl) (hA.resolve_left id p rfl)).mono ?_)
    exact fun _ s' ⟨T', hinv, hframe, _⟩ => ⟨T', hinv, hframe⟩
  | trap p va => exact (wp_map _ _).mpr (usertrap_spec h (hp p rfl) (hA.resolve_left id p rfl) rfl)
  | fault p va => exact (wp_map _ _).mpr (kernelFault_spec h (hp p rfl) (hA.resolve_left id p rfl))
  | store p va c => exact (wp_map _ _).mpr (userStore_spec h (hp p rfl))
  | exit p status =>
    exact (wp_map _ _).mpr (kexit_spec h (hp p rfl) (hA.resolve_left id p rfl) rfl)
  | wait p addr => exact kwait_spec h (hp p rfl) (hA.symm.imp (fun hA => hA p rfl) id)
  | pipe p fdarray => exact (wp_map _ _).mpr (sysPipe_spec h (hp p rfl) (hA.resolve_left id p rfl))
  | close p fd => exact (wp_map _ _).mpr (sysClose_spec h (hp p rfl) (hA.resolve_left id p rfl))

theorem step_done {e : Event} (h : Inv L s T 0 s.refs) (hs : step L s e = some s')
    (hA : e.Quiet T ∨ ∀ p, e.actor = some p → A p) : Done L A s T s' := by
  unfold step at hs
  split at hs
  case isFalse => cases hs
  case isTrue he =>
  split at hs
  · cases hs
    exact (run_spec h he hA).of_ok ‹_›
  · cases hs

theorem reachable_inv (h : Reachable (Boot L) (step L) s) : ∃ T, Inv L s T 0 s.refs := by
  refine h.invariant (P := fun s => ∃ T, Inv L s T 0 s.refs) ?_ ?_
  · exact fun s hs => ⟨fun _ => Table.empty 0, hs.inv _⟩
  · intro s e s' ⟨T, hinv⟩ hs
    obtain ⟨T', hinv', -⟩ := step_done hinv hs (.inr fun _ _ => trivial)
    exact ⟨T', hinv'⟩

/-- A run in which the processes outside `A` only fork, wait and store. -/
theorem run_done {es : List Event} (h : Inv L s T 0 s.refs)
    (hrun : ∀ q, ¬A q → (s.proc q).state = .runnable)
    (hq : ∀ e ∈ es, ∀ p, e.actor = some p → A p ∨ e.Quiet T)
    (hr : runEvents (step L) s es = some s') : Done L A s T s' := by
  induction es generalizing s T with
  | nil =>
    cases hr
    exact Done.refl h
  | cons e es ih =>
    obtain ⟨s1, hs1, hr⟩ := Option.bind_eq_some_iff.mp hr
    have hA : e.Quiet T ∨ ∀ p, e.actor = some p → A p := by
      by_cases hquiet : e.Quiet T
      · exact .inl hquiet
      · exact .inr fun p hp => (hq e List.mem_cons_self p hp).resolve_right hquiet
    obtain ⟨T1, hinv1, hframe1⟩ := step_done h hs1 hA
    have hrun1 : ∀ q, ¬A q → (s1.proc q).state = .runnable := fun q hq =>
      (congrArg Prod.fst (hframe1.proc q (hrun q hq) hq).1).trans (hrun q hq)
    have hq1 : ∀ e ∈ es, ∀ p, e.actor = some p → A p ∨ e.Quiet T1 := by
      intro e he p hp
      by_cases hAp : A p
      · exact .inl hAp
      refine .inr ?_
      have hquiet := (hq e (List.mem_cons_of_mem _ he) p hp).resolve_left hAp
      cases e with
      | wait q addr =>
        obtain rfl := Option.some.inj hp
        rw [Event.Quiet, (hframe1.proc q (hrun q hAp) hAp).2]
        exact hquiet
      | _ => exact hquiet
    obtain ⟨T2, hinv2, hframe2⟩ := ih hinv1 hrun1 hq1 hr
    exact ⟨T2, hinv2, hframe1.trans hframe2⟩

theorem exists_holder {f : Fin NFILE} (h : Inv L s T 0 s.refs)
    (hA : ∀ q, A q → (s.proc q).state = .unused) (hf : (s.file f).type = .pipe) :
    ∃ q fd, ¬A q ∧ (s.proc q).ofile fd = some f := by
  have hmem : f ∈ s.refs := by
    by_contra hn
    rw [h.files.closed f hn] at hf
    cases hf
  obtain ⟨q, -, hq⟩ := Multiset.mem_sum.mp hmem
  obtain ⟨fd, -, hfd⟩ := mem_own.mp hq
  refine ⟨q, fd, fun hAq => ?_, hfd⟩
  rw [(h.procs q).files (.inl (hA q hAq)) fd] at hfd
  cases hfd

theorem free_count (h : Inv L s T 0 s.refs) (h' : Inv L s' T' 0 s'.refs)
    (hframe : Frame A s s' T T') (hrun : ∀ q, ¬A q → (s.proc q).state = .runnable)
    (hnew : ∀ q, A q → (s.proc q).state = .unused)
    (hgone : ∀ q, A q → (s'.proc q).state = .unused) :
    s'.k.freelist.length = s.k.freelist.length := by
  have hfoot : ∀ q, foot (s'.proc q) (T' q) = foot (s.proc q) (T q) := by
    intro q
    by_cases hA : A q
    · rw [foot_unused (hgone q hA), foot_unused (hnew q hA)]
    · obtain ⟨hq, hT⟩ := hframe.proc q (hrun q hA) hA
      have hstate : (s'.proc q).state = (s.proc q).state := congrArg Prod.fst hq
      have htf : (s'.proc q).trapframe = (s.proc q).trapframe := congrArg (fun x => x.2.2.2.1) hq
      rw [foot, foot, hstate, htf, hT]
  have hpipe : pipeSet s'.file = pipeSet s.file := by
    ext pi
    simp only [mem_pipeSet]
    constructor
    · rintro ⟨f, w, htype, hpi, -⟩
      obtain ⟨q, fd, hA, hfd⟩ := exists_holder h' hgone htype
      have hofile : (s'.proc q).ofile = (s.proc q).ofile :=
        congrArg (fun x => x.2.2.2.2) (hframe.proc q (hrun q hA) hA).1
      obtain ⟨h1, h2⟩ := hframe.file q (hrun q hA) hA fd f (hofile ▸ hfd)
      exact ⟨f, _, h1.symm.trans htype, h2.symm.trans hpi, rfl⟩
    · rintro ⟨f, w, htype, hpi, -⟩
      obtain ⟨q, fd, hA, hfd⟩ := exists_holder h hnew htype
      obtain ⟨h1, h2⟩ := hframe.file q (hrun q hA) hA fd f hfd
      exact ⟨f, _, h1.trans htype, h2.trans hpi, rfl⟩
  have hkept : s'.kept = s.kept := by rw [Sys.kept, Sys.kept, hframe.kstack, hframe.kernel]
  have hown := h'.own
  rw [sum_congr rfl fun q _ => hfoot q, hpipe, hkept] at hown
  have hcard := congrArg Multiset.card (hown.trans h.own.symm)
  simp only [Multiset.card_add, Multiset.coe_card] at hcard
  omega

/-- A `fork`, a store, or a `wait` that puts the status nowhere or on mapped pages. -/
def Event.OnlyWaits (s : Sys) : Event → Prop
  | .fork _ | .store _ _ _ => True
  | .wait p addr => addr = 0 ∨ addr + 4 ≤ MAXVA ∧
      ∀ i < 4, entry s.k.mem (s.proc p).pagetable ((addr + i) / PGSIZE) ≠ 0
  | _ => False

theorem Event.OnlyWaits.quiet {e : Event} (h : Inv L s T 0 s.refs) (hp : e.actor = some p)
    (hrun : (s.proc p).state = .runnable) (he : e.OnlyWaits s) : e.Quiet T := by
  cases e with
  | fork q | store q va c => trivial
  | wait q addr =>
    obtain rfl := Option.some.inj hp
    refine he.imp_right fun ⟨hmax, hmap⟩ i hi => ?_
    have hlive : (s.proc q).state ≠ .unused := by rw [hrun]; simp
    have := hmap i hi
    rwa [← ((h.procs q).live hlive).root, entry_eq ((h.procs q).live hlive).rep
      (fun x => (h.space hlive).heap.page) (by simp only [MAXVA, PGSIZE] at *; omega)] at this
  | _ => exact he.elim

/-- In every reachable state each page of the allocator is in exactly one place. A run in which the
processes of a state without zombies only fork, wait and store, and which ends when all other
processes are gone, ends with as many free pages. -/
theorem page_ownership (h : Reachable (Boot L) (step L) s) :
    (∀ x ∈ L.pages, ∃! pl, s.pageAt pl = some x) ∧
    ∀ es s', runEvents (step L) s es = some s' →
      (∀ p, (s.proc p).state = .unused ∨ (s.proc p).state = .runnable) →
      (∀ e ∈ es, ∀ p, e.actor = some p → (s.proc p).state = .runnable → e.OnlyWaits s) →
      (∀ p, (s.proc p).state = .unused → (s'.proc p).state = .unused) →
      s'.k.freelist.length = s.k.freelist.length := by
  obtain ⟨T, hinv⟩ := reachable_inv h
  refine ⟨fun x hx => exists_unique_place hinv hx, fun es s' hr hstate hes hgone => ?_⟩
  have hrun : ∀ q, ¬(s.proc q).state = .unused → (s.proc q).state = .runnable := fun q hq =>
    (hstate q).resolve_left hq
  obtain ⟨T', hinv', hframe⟩ := run_done (A := fun q => (s.proc q).state = .unused) hinv hrun
    (fun e he p hp => (hstate p).imp_right fun hp' => (hes e he p hp hp').quiet hinv hp hp') hr
  exact free_count hinv hinv' hframe hrun (fun q hq => hq) hgone

def small : Layout := .upTo 0x87fbb000 (by decide) (by decide)

def smallBoot : Sys where
  k := { mem := fun _ => Page.fill 1, freelist := (List.range 5).map (0x87fbb000 + PGSIZE * ·) }
  proc := fun _ =>
    { state := .unused, pid := 0, parent := none, xstate := 0, sz := 0, pagetable := 0
      trapframe := 0, ofile := fun _ => none }
  nextpid := 1
  file := fun _ => { type := .none, ref := 0, readable := false, writable := false, pipe := 0 }
  pipe := fun _ => { readopen := false, writeopen := false }
  kstack := fun p => 0x87fc0000 + PGSIZE * p.val
  kernel := []

theorem boot_small : Boot small smallBoot := by
  refine ⟨fun p => ⟨rfl, rfl, rfl, rfl, fun _ => rfl⟩, fun f => ⟨rfl, rfl⟩, ?_⟩
  rw [Owns, Sys.kept]
  decide +kernel

/-- After `userinit` one page is left, so `fork` gets a trap frame but no page table, and gives the
page back. -/
theorem page_ownership_small : ∃ s s', runEvents (step small) smallBoot [.userinit] = some s ∧
    runEvents (step small) s [.fork 0] = some s' ∧ s.k.freelist.length = 1 ∧
    (∀ x ∈ small.pages, ∃! pl, s.pageAt pl = some x) ∧
    s'.k.freelist.length = s.k.freelist.length := by
  have hrun : (runEvents (step small) smallBoot [.userinit]).any (fun s =>
      s.k.freelist.length = 1 ∧
      (∀ p, (s.proc p).state = .unused ∨ (s.proc p).state = .runnable) ∧
      (runEvents (step small) s [.fork 0]).any fun s' =>
        ∀ p, (s.proc p).state = .unused → (s'.proc p).state = .unused) := by decide +kernel
  obtain ⟨s, hs, hp⟩ := (Option.any_eq_true _ _).mp hrun
  obtain ⟨hlen, hstate, hrun'⟩ := of_decide_eq_true hp
  obtain ⟨s', hs', hp'⟩ := (Option.any_eq_true _ _).mp hrun'
  have hstart : Reachable (Boot small) (step small) smallBoot := .start boot_small
  have h := page_ownership (hstart.run [.userinit] hs)
  refine ⟨s, s', hs, hs', hlen, h.1, h.2 _ _ hs' hstate ?_ (of_decide_eq_true hp')⟩
  intro e he p _ _
  obtain rfl := List.mem_singleton.mp he
  trivial

def roomy : Layout := .upTo 0x87fa8000 (by decide) (by decide)

def roomyBoot : Sys :=
  { smallBoot with
    k := { mem := fun _ => Page.fill 1
           freelist := (List.range 24).map (0x87fa8000 + PGSIZE * ·) } }

theorem boot_roomy : Boot roomy roomyBoot := by
  refine ⟨fun p => ⟨rfl, rfl, rfl, rfl, fun _ => rfl⟩, fun f => ⟨rfl, rfl⟩, ?_⟩
  rw [Owns, Sys.kept]
  decide +kernel

end Xv6.Vm
