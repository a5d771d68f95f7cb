import Xv6.Vm.SystemInv

/-! What each operation does to the ownership of pages and files. -/

namespace Xv6.Vm

open Finset Function Multiset
open Wait (Slot initproc wrap)

variable {E : String → Prop} {L : Layout} {s s' : Sys} {T T' : Slot → Table} {hand : Multiset Nat}
  {R : Multiset (Fin NFILE)} {p : Slot} {A : Slot → Prop}

section run

variable {α : Type} {Q : α → Sys → Prop}

theorem wp_getProc {m : Proc → Prog Sys α} :
    wp E (getProc p >>= m) s Q ↔ wp E (m (s.proc p)) s Q := wp_bind _ _

theorem wp_modProc {f : Proc → Proc} {m : Unit → Prog Sys α} :
    wp E (modProc p f >>= m) s Q ↔ wp E (m ()) (s.setProc p (f (s.proc p))) Q := wp_bind _ _

theorem wp_getSys {m : Sys → Prog Sys α} : wp E (get >>= m) s Q ↔ wp E (m s) s Q := wp_bind _ _

theorem wp_modSys {f : Sys → Sys} {m : Unit → Prog Sys α} :
    wp E (modify f >>= m) s Q ↔ wp E (m ()) (f s) Q := wp_bind _ _

end run

@[simp] theorem setProc_self (s : Sys) (p : Slot) (q : Proc) : (s.setProc p q).proc p = q :=
  update_self _ _ _

theorem setProc_of_ne {r : Slot} (s : Sys) (q : Proc) (h : r ≠ p) :
    (s.setProc p q).proc r = s.proc r := update_of_ne h _ _

@[simp] theorem setK_proc (s : Sys) (k : Kmem) : (s.setK k).proc = s.proc := rfl

@[simp] theorem setK_setK (s : Sys) (k k' : Kmem) : (s.setK k).setK k' = s.setK k' := rfl

@[simp] theorem setK_setProc (s : Sys) (k : Kmem) (p : Slot) (q : Proc) :
    (s.setProc p q).setK k = (s.setK k).setProc p q := rfl

@[simp] theorem setProc_setProc (s : Sys) (p : Slot) (q q' : Proc) :
    (s.setProc p q).setProc p q' = s.setProc p q' := by
  simp [Sys.setProc]

def Proc.holds (q : Proc) : Life × Nat × Nat × Nat × (Fin NOFILE → Option (Fin NFILE)) :=
  (q.state, q.sz, q.pagetable, q.trapframe, q.ofile)

/-- What an operation leaves alone: the running processes outside `A`, with their open files, and
the pages kept since boot. -/
structure Frame (A : Slot → Prop) (s s' : Sys) (T T' : Slot → Table) : Prop where
  proc : ∀ q, (s.proc q).state = .runnable → ¬A q →
    (s'.proc q).holds = (s.proc q).holds ∧ T' q = T q
  file : ∀ q, (s.proc q).state = .runnable → ¬A q → ∀ fd f, (s.proc q).ofile fd = some f →
    (s'.file f).type = (s.file f).type ∧ (s'.file f).pipe = (s.file f).pipe
  kstack : s'.kstack = s.kstack
  kernel : s'.kernel = s.kernel

theorem Frame.refl (A : Slot → Prop) (s : Sys) (T : Slot → Table) : Frame A s s T T :=
  ⟨fun _ _ _ => ⟨rfl, rfl⟩, fun _ _ _ _ _ _ => ⟨rfl, rfl⟩, rfl, rfl⟩

theorem Frame.trans {s'' : Sys} {T'' : Slot → Table} (h : Frame A s s' T T')
    (h' : Frame A s' s'' T' T'') : Frame A s s'' T T'' := by
  have hstate : ∀ q, (s.proc q).state = .runnable → ¬A q → (s'.proc q).state = .runnable :=
    fun q hq hA => (congrArg Prod.fst (h.proc q hq hA).1).trans hq
  refine ⟨fun q hq hA => ?_, fun q hq hA fd f hf => ?_, h'.kstack.trans h.kstack,
    h'.kernel.trans h.kernel⟩
  · obtain ⟨h1, h2⟩ := h.proc q hq hA
    obtain ⟨h3, h4⟩ := h'.proc q (hstate q hq hA) hA
    exact ⟨h3.trans h1, h4.trans h2⟩
  · have hofile : (s'.proc q).ofile = (s.proc q).ofile :=
      congrArg (fun x => x.2.2.2.2) (h.proc q hq hA).1
    obtain ⟨h1, h2⟩ := h.file q hq hA fd f hf
    obtain ⟨h3, h4⟩ := h'.file q (hstate q hq hA) hA fd f (by rw [hofile, hf])
    exact ⟨h3.trans h1, h4.trans h2⟩

variable {q : Proc} {t : Table}

theorem Frame.setProc {k : Kmem} {n : Int}
    (hp : (s.proc p).state = .runnable → A p) :
    Frame A s ((({ s with nextpid := n } : Sys).setK k).setProc p q) T (update T p t) := by
  refine ⟨fun r hr hA => ?_, fun _ _ _ _ _ _ => ⟨rfl, rfl⟩, rfl, rfl⟩
  have hne : r ≠ p := fun he => hA (he ▸ hp (he ▸ hr))
  exact ⟨congrArg Proc.holds (setProc_of_ne _ q hne), update_of_ne hne _ _⟩

theorem Frame.setK {k : Kmem} (hp : (s.proc p).state = .runnable → A p) :
    Frame A s (s.setK k) T (update T p t) := by
  have := Frame.setProc (k := k) (n := s.nextpid) (q := s.proc p) (t := t) (T := T) hp
  simpa [Sys.setProc, Sys.setK] using this

theorem Frame.setK_same {k : Kmem} : Frame A s (s.setK k) T T :=
  ⟨fun _ _ _ => ⟨rfl, rfl⟩, fun _ _ _ _ _ _ => ⟨rfl, rfl⟩, rfl, rfl⟩

theorem Frame.setProc_same (hp : (s.proc p).state = .runnable → A p) :
    Frame A s (s.setProc p q) T T := by
  have := Frame.setProc (k := s.k) (n := s.nextpid) (q := q) (t := T p) (T := T) hp
  rwa [update_eq_self] at this

theorem mem_refs {q : Slot} {fd : Fin NOFILE} {f : Fin NFILE} (h : (s.proc q).ofile fd = some f) :
    f ∈ s.refs := by
  rw [Sys.refs, mem_sum]
  exact ⟨q, mem_univ q, mem_own.mpr ⟨fd, mem_univ fd, h⟩⟩

theorem Frame.files (hstep : FileStep R s s')
    (hR : ∀ q, (s.proc q).state = .runnable → ¬A q → ∀ fd f, (s.proc q).ofile fd = some f → f ∈ R) :
    Frame A s s' T T :=
  ⟨fun q _ _ => ⟨congrArg (fun f => Proc.holds (f q)) hstep.proc, rfl⟩,
    fun q hq hA fd f hf => hstep.file f (hR q hq hA fd f hf), hstep.kstack, hstep.kernel⟩

theorem refs_setProc (s : Sys) (p : Slot) (q : Proc) :
    (s.setProc p q).refs + own univ (s.proc p).ofile = s.refs + own univ q.ofile := by
  have hf : (fun r => own univ ((s.setProc p q).proc r).ofile) =
      update (fun r => own univ (s.proc r).ofile) p (own univ q.ofile) := by
    funext r
    by_cases hr : r = p
    · subst hr
      simp
    · rw [setProc_of_ne s q hr, update_of_ne hr]
  rw [Sys.refs, hf]
  exact sum_update (mem_univ p) (fun r => own univ (s.proc r).ofile) (own univ q.ofile)

theorem refs_setProc_of_eq (h : q.ofile = (s.proc p).ofile) :
    (s.setProc p q).refs = s.refs :=
  add_right_cancel ((refs_setProc s p q).trans (by rw [h]))

theorem Inv.relabel_refs (h : Inv L s T hand s.refs) (hp : (s.proc p).state ≠ .unused)
    (hq : q.state ≠ .unused) (hsz : q.sz = (s.proc p).sz) (hpt : q.pagetable = (s.proc p).pagetable)
    (htf : q.trapframe = (s.proc p).trapframe) (hof : q.ofile = (s.proc p).ofile)
    (hf : q.state = .zombie → ∀ fd, q.ofile fd = none) :
    Inv L (s.setProc p q) T hand (s.setProc p q).refs := by
  rw [refs_setProc_of_eq hof]
  exact h.relabel hp hq hsz hpt htf hf

theorem refs_setFd (s : Sys) (p : Slot) (fd : Fin NOFILE) (o : Option (Fin NFILE)) :
    (s.setProc p ((s.proc p).setFd fd o)).refs + held ((s.proc p).ofile fd) = s.refs + held o := by
  have h1 : _ = s.refs + own univ (update (s.proc p).ofile fd o) :=
    refs_setProc s p ((s.proc p).setFd fd o)
  have h2 := own_update (mem_univ fd) (s.proc p).ofile o
  refine add_right_cancel (b := own univ (s.proc p).ofile) ?_
  calc (s.setProc p ((s.proc p).setFd fd o)).refs + held ((s.proc p).ofile fd) +
        own univ (s.proc p).ofile
      = (s.setProc p ((s.proc p).setFd fd o)).refs + own univ (s.proc p).ofile +
          held ((s.proc p).ofile fd) := by abel
    _ = s.refs + (own univ (update (s.proc p).ofile fd o) +
          held ((s.proc p).ofile fd)) := by rw [h1]; abel
    _ = s.refs + held o + own univ (s.proc p).ofile := by rw [h2]; abel

/-- The record of a slot that `freeproc` has cleared. -/
def Proc.freed (q : Proc) : Proc :=
  { q with
    trapframe := 0, pagetable := 0, sz := 0, pid := 0, parent := none, xstate := 0
    state := .unused }

theorem freed_ok {m : Nat → Page} (h : ∀ fd, q.ofile fd = none) :
    ProcOk L m q.freed t :=
  ⟨fun _ => ⟨rfl, rfl, rfl⟩, fun _ => h, fun hn => absurd rfl hn⟩

theorem freeproc_spec (h : Inv L s T hand s.refs) (hp : (s.proc p).state ≠ .unused)
    (hf : ∀ fd, (s.proc p).ofile fd = none) (hA : (s.proc p).state = .runnable → A p) :
    wp E (freeproc L p) s fun _ s' => Inv L s' T hand s'.refs ∧ Frame A s s' T T := by
  obtain ⟨-, hroot, haddr, -⟩ := (h.procs p).live hp
  have hsp := h.space hp
  have htf : (s.proc p).trapframe ≠ 0 := hsp.own.pos (by simp)
  have hpt : (s.proc p).pagetable ≠ 0 :=
    hroot ▸ hsp.own.pos (subset_add_left (T p).root_mem)
  rw [freeproc, wp_getProc, freeTrapframe, if_pos htf]
  refine wp_onK hsp.free fun _ k1 ⟨hsp1, hsame1⟩ => ?_
  rw [freeSpace, if_pos hpt, ← hroot]
  refine wp_onK (procFreepagetable_spec hsp1 haddr) fun _ k2 ⟨hown2, hsame2⟩ => ?_
  have hframe : Frame A s ((s.setK k2).setProc p (s.proc p).freed) T (update T p (T p)) :=
    Frame.setProc hA
  have hrefs : ((s.setK k2).setProc p (s.proc p).freed).refs = s.refs :=
    refs_setProc_of_eq rfl
  have hinv := h.setProc (t := T p) (q := (s.proc p).freed) (k := k2) (w := hand) (p := p)
    (by rw [foot_unused rfl, zero_add]; exact hown2)
    (fun x hx => ?_) (freed_ok hf)
  · rw [update_eq_self] at hinv hframe
    rw [← hrefs] at hinv
    exact ⟨hinv, hframe⟩
  · have hx' : x ∈ rest s T p + hand := subset_add_left hx
    exact (hsame2 x hx').trans (hsame1 x (subset_add_right hx'))

theorem freeproc_empty (htf : (s.proc p).trapframe = 0) (hpt : (s.proc p).pagetable = 0) :
    wp E (freeproc L p) s fun _ s' => s' = s.setProc p (s.proc p).freed := by
  rw [freeproc, wp_getProc, freeTrapframe, if_neg (by simp [htf]), freeSpace,
    if_neg (by simp [hpt])]
  exact rfl

theorem freeproc_trapframe {used : Multiset Nat} (h : Owns L s.k ((s.proc p).trapframe ::ₘ used))
    (hpt : (s.proc p).pagetable = 0) :
    wp E (freeproc L p) s fun _ s' => ∃ k, s' = (s.setK k).setProc p (s.proc p).freed ∧
      Owns L k used ∧ Same used s.k k := by
  rw [freeproc, wp_getProc, freeTrapframe, if_pos (h.pos (mem_cons_self _ _))]
  refine wp_onK (kfree_spec h) fun _ k1 ⟨hown, hsame⟩ => ?_
  rw [freeSpace, if_neg (by simp [hpt])]
  exact ⟨k1, rfl, hown, hsame⟩

theorem Inv.nextpid (h : Inv L s T hand R) (n : Int) : Inv L { s with nextpid := n } T hand R :=
  ⟨h.own, h.procs, h.files⟩

theorem Inv.freed {k : Kmem} (h : Inv L s T hand R)
    (hown : Owns L k (rest s T p + hand)) (hs : Same (rest s T p) s.k k)
    (hq : ∀ fd, q.ofile fd = none) : Inv L ((s.setK k).setProc p q.freed) T hand R := by
  have := h.setProc (q := q.freed) (t := T p) (w := hand) (by rwa [foot_unused rfl, zero_add]) hs
    (freed_ok hq)
  rwa [update_eq_self] at this

/-- The slot `p` of `s` holds a new process with an empty address space. -/
structure Fresh (L : Layout) (s s' : Sys) (T : Slot → Table) (p : Slot) (t : Table)
    (hand : Multiset Nat) (R : Multiset (Fin NFILE)) : Prop where
  shape : ∃ k n q, s' = (({ s with nextpid := n } : Sys).setK k).setProc p q
  inv : Inv L s' (update T p t) hand R
  state : (s'.proc p).state = .used
  size : (s'.proc p).sz = 0
  ofile : ∀ fd, (s'.proc p).ofile fd = none
  empty : ∀ v < UPAGES, t.pte v = 0

/-- The slot has no new process after all. -/
structure Refused (L : Layout) (s s' : Sys) (T : Slot → Table) (p : Slot) (hand : Multiset Nat)
    (R : Multiset (Fin NFILE)) : Prop where
  shape : ∃ k n q, s' = (({ s with nextpid := n } : Sys).setK k).setProc p q
  inv : Inv L s' T hand R
  ofile : ∀ fd, (s'.proc p).ofile fd = none

theorem allocPages_spec (h : Inv L s T hand R) (hp : (s.proc p).state = .unused)
    (hstate : q.state = .used) (hpt : q.pagetable = 0) (hsz : q.sz = 0)
    (hof : ∀ fd, q.ofile fd = none) :
    wp E (allocPages L p) (s.setProc p q) fun r s' =>
      match r with
      | none => Refused L s s' T p hand R
      | some i => i = p ∧ ∃ t, Fresh L s s' T p t hand R := by
  have hown := h.split p
  rw [foot_unused hp, zero_add] at hown
  refine wp_onK (kalloc_spec hown) fun r k1 hr => ?_
  cases r with
  | none =>
    obtain rfl : k1 = s.k := hr.1
    rw [wp_modProc]
    simp only [setK_setProc, setProc_self, setProc_setProc]
    refine (freeproc_empty (by rw [setProc_self]) (by rwa [setProc_self])).bind fun _ s2 hs2 => ?_
    subst hs2
    rw [setProc_self, setProc_setProc]
    exact ⟨⟨_, _, _, rfl⟩, h.freed hown (Same.refl _ _) hof, fun fd => by
      rw [setProc_self]; exact hof fd⟩
  | some tf =>
    rw [wp_modProc]
    refine wp_onK (procPagetable_spec hr.1 tf) fun r k2 ⟨hsame2, hr2⟩ => ?_
    rw [wp_modProc]
    simp only [setK_setProc, setK_setK, setProc_self, setProc_setProc]
    have hsame : Same (rest s T p) s.k k2 := fun x hx => by
      have hx' : x ∈ rest s T p + hand := subset_add_left hx
      exact (hsame2 x (mem_cons_of_mem hx')).trans (hr.2 x hx')
    rcases hr2 with ⟨rfl, hown2⟩ | ⟨hpos, t, hroot, hsp, haddr, hempty⟩
    · rw [if_pos rfl]
      have hown2' : Owns L k2 (({ q with trapframe := tf, pagetable := 0 } : Proc).trapframe ::ₘ
        (rest s T p + hand)) := hown2
      rw [← setProc_self (s.setK k2) p { q with trapframe := tf, pagetable := 0 }] at hown2'
      refine (freeproc_trapframe hown2' (by rw [setProc_self])).bind
        fun _ s3 ⟨k3, hs3, hown3, hsame3⟩ => ?_
      subst hs3
      rw [setProc_self, setK_setProc, setProc_setProc, setK_setK]
      exact ⟨⟨_, _, _, rfl⟩, h.freed hown3 (hsame.trans hsame3.left) hof, fun fd => by
        rw [setProc_self]; exact hof fd⟩
    · rw [if_neg hpos]
      refine ⟨rfl, t, ⟨_, _, _, rfl⟩, ?_, by rw [setProc_self]; exact hstate,
        by rw [setProc_self]; exact hsz, fun fd => by rw [setProc_self]; exact hof fd, hempty⟩
      refine h.setProc ?_ hsame
        ⟨fun h0 => ?_, fun _ => hof, fun _ => ⟨hsp.heap.rep, hroot, ?_, hsp.valid⟩⟩
      · rw [foot_live (by rw [hstate]; simp)]
        have := hsp.own
        rw [← singleton_add] at this
        convert this using 1
        abel
      · rw [hstate] at h0
        cases h0
      · rw [hsz]
        exact haddr

theorem refs_of_none (h : ∀ fd, (s.proc p).ofile fd = none) (hq : ∀ fd, q.ofile fd = none) :
    (s.setProc p q).refs = s.refs :=
  refs_setProc_of_eq (funext fun fd => by rw [h fd, hq fd])

theorem Fresh.refs (h : Fresh L s s' T p t hand R)
    (hp : ∀ fd, (s.proc p).ofile fd = none) : s'.refs = s.refs := by
  obtain ⟨k, n, q, rfl⟩ := h.shape
  exact refs_of_none (s := ({ s with nextpid := n } : Sys).setK k) hp fun fd => by
    have := h.ofile fd
    rwa [setProc_self] at this

theorem Fresh.frame (h : Fresh L s s' T p t hand R) (hp : (s.proc p).state = .unused) :
    Frame A s s' T (update T p t) := by
  obtain ⟨k, n, q, rfl⟩ := h.shape
  exact Frame.setProc fun hr => by rw [hp] at hr; cases hr

theorem allocproc_spec (h : Inv L s T hand R) : wp E (allocproc L) s fun r s' =>
    match r with
    | none => Inv L s' T hand R ∧ s'.refs = s.refs ∧ ∀ A, Frame A s s' T T
    | some np => (s.proc np).state = .unused ∧ ∃ t, Fresh L s s' T np t hand R := by
  rw [allocproc, wp_getSys]
  cases hfind : s.findUnused with
  | none => exact ⟨h, rfl, fun A => Frame.refl A s T⟩
  | some np =>
    have hnp : (s.proc np).state = .unused := by simpa using List.find?_some hfind
    obtain ⟨hpt, -, hsz⟩ := (h.procs np).idle hnp
    have hof := (h.procs np).files (.inl hnp)
    rw [wp_modSys, wp_modProc]
    have hpages := allocPages_spec (E := E)
      (q := { s.proc np with pid := s.nextpid, state := .used }) (h.nextpid (wrap (s.nextpid + 1)))
      hnp rfl hpt hsz hof
    refine hpages.mono fun r s' hr => ?_
    cases r with
    | none =>
      obtain ⟨⟨k, n, q, rfl⟩, hinv, hnone⟩ := hr
      refine ⟨hinv, refs_of_none (s := ({ s with nextpid := n } : Sys).setK k) hof fun fd => ?_,
        fun A => ?_⟩
      · have := hnone fd
        rwa [setProc_self] at this
      · have hframe : Frame A s ((({ s with nextpid := n } : Sys).setK k).setProc np q) T
            (update T np (T np)) := Frame.setProc fun hr => by rw [hnp] at hr; cases hr
        rwa [update_eq_self] at hframe
    | some i =>
      obtain ⟨rfl, t, ⟨k, n, q, hs⟩, hinv, hstate, hsize, hnone, hempty⟩ := hr
      exact ⟨hnp, t, ⟨k, n, q, hs⟩, hinv, hstate, hsize, hnone, hempty⟩

theorem dupFile_spec {np : Slot} {fd : Fin NOFILE} {f : Fin NFILE} (h : Inv L s T hand s.refs)
    (hf : f ∈ s.refs) (hnp : (s.proc np).state = .used) (hnone : (s.proc np).ofile fd = none) :
    wp E (filedup f) s fun _ s1 =>
      s1.proc = s.proc ∧
        Inv L (s1.setProc np ((s1.proc np).setFd fd (some f))) T hand
          (s1.setProc np ((s1.proc np).setFd fd (some f))).refs ∧
        Frame A s (s1.setProc np ((s1.proc np).setFd fd (some f))) T T := by
  refine (filedup_spec h.ftable hf).mono fun _ s1 ⟨hft, hk, hstep⟩ => ?_
  have hp1 : s1.proc = s.proc := hstep.proc
  have hinv := h.setFiles hft (by rw [hk]; exact Same.refl _ _) hstep
  have hrefs := refs_setFd s1 np fd (some f)
  have hs1 : s1.refs = s.refs := by rw [Sys.refs, Sys.refs, hp1]
  rw [show (s1.proc np).ofile fd = none by rw [hp1, hnone], held_none, add_zero, hs1, held_some,
    add_comm, singleton_add] at hrefs
  have hused : (s1.proc np).state ≠ .unused := by rw [hp1, hnp]; simp
  refine ⟨hp1, ?_, ?_⟩
  · rw [hrefs]
    refine hinv.relabel hused hused rfl rfl rfl fun hz => ?_
    change (s1.proc np).state = .zombie at hz
    rw [hp1, hnp] at hz
    cases hz
  · refine (Frame.files hstep fun q _ _ fd f hq => mem_refs hq).trans
      (Frame.setProc_same fun hr => ?_)
    rw [hp1, hnp] at hr
    cases hr

theorem dupFiles_spec {np : Slot} {fds : List (Fin NOFILE)} (h : Inv L s T hand s.refs)
    (hnp : (s.proc np).state = .used) (hnd : fds.Nodup)
    (hnone : ∀ fd ∈ fds, (s.proc np).ofile fd = none) :
    wp E (dupFiles p np fds) s fun _ s' => Inv L s' T hand s'.refs ∧ Frame A s s' T T ∧
      (s'.proc np).state = .used := by
  induction fds generalizing s with
  | nil => exact ⟨h, Frame.refl A s T, hnp⟩
  | cons fd fds ih =>
    rw [List.nodup_cons] at hnd
    rw [dupFiles, wp_getProc]
    cases hf : (s.proc p).ofile fd with
    | none => exact ih h hnp hnd.2 fun fd' hfd => hnone fd' (List.mem_cons_of_mem _ hfd)
    | some f =>
      refine (dupFile_spec (A := A) h (mem_refs hf) hnp (hnone fd List.mem_cons_self)).bind
        fun _ s1 ⟨hp1, hinv, hframe⟩ => ?_
      rw [wp_modProc]
      refine (ih hinv (by rw [setProc_self, hp1]; exact hnp) hnd.2 fun fd' hfd => ?_).mono
        fun _ s2 ⟨hinv2, hframe2, hnp2⟩ => ⟨hinv2, hframe.trans hframe2, hnp2⟩
      have hfd' : fd' ≠ fd := fun he => hnd.1 (he ▸ hfd)
      rw [setProc_self, hp1]
      simpa [Proc.setFd, hfd'] using hnone fd' (List.mem_cons_of_mem _ hfd)

end Xv6.Vm
