import Xv6.Vm.ProcOps

/-! The operations as a whole: each keeps the ownership of pages and files, whether it succeeds or
fails, and leaves the other running processes alone. -/

namespace Xv6.Vm

open Finset Function
open Multiset (subset_add_left subset_add_right)
open Wait (Slot initproc wrap)

variable {E : String → Prop} {L : Layout} {s s' : Sys} {T T' : Slot → Table} {hand : Multiset Nat}
  {R : Multiset (Fin NFILE)} {p : Slot} {A : Slot → Prop}

/-- An operation that may change the processes in `A` has led from `s` to `s'`. -/
def Done (L : Layout) (A : Slot → Prop) (s : Sys) (T : Slot → Table) (s' : Sys) : Prop :=
  ∃ T', Inv L s' T' 0 s'.refs ∧ Frame A s s' T T'

theorem Done.refl (h : Inv L s T 0 s.refs) : Done L A s T s := ⟨T, h, Frame.refl A s T⟩

theorem userinit_spec (h : Inv L s T 0 s.refs) :
    wp E (userinit L) s fun _ s' => Done L A s T s' := by
  refine (allocproc_spec h).bind fun r s1 hr => ?_
  cases r with
  | none =>
    obtain ⟨hinv, hrefs, hframe⟩ := hr
    rw [← hrefs] at hinv
    exact ⟨T, hinv, hframe A⟩
  | some np =>
    obtain ⟨hnp, t, hfresh⟩ := hr
    have hlive : (s1.proc np).state ≠ .unused := by rw [hfresh.state]; simp
    have hinv := hfresh.inv
    rw [← hfresh.refs ((h.procs np).files (.inl hnp))] at hinv
    rw [wp_modProc, wp_pure]
    refine ⟨update T np t, hinv.relabel_refs hlive nofun rfl rfl rfl rfl nofun,
      (hfresh.frame hnp).trans (Frame.setProc_same fun hr => ?_)⟩
    rw [hfresh.state] at hr
    cases hr

theorem forkCopy_spec {np : Slot} {t : Table} (hf : Fresh L s s' T np t hand R)
    (hp : (s.proc p).state = .runnable) (hnp : (s.proc np).state = .unused) :
    wp E (uvmcopy L (s'.proc p).pagetable (s'.proc np).pagetable (s'.proc p).sz) s'.k fun r k =>
      ∃ t', Space L k t' ((s'.proc np).trapframe ::ₘ (rest s' (update T np t) np + hand)) ∧
        t'.root = (s'.proc np).pagetable ∧
        Same ((s'.proc np).trapframe ::ₘ (rest s' (update T np t) np + hand)) s'.k k ∧
        (r = 0 ∧ AddrSpace L t'.pte (s'.proc p).sz (s'.proc np).trapframe ∨
          r = -1 ∧ AddrSpace L t'.pte (s'.proc np).sz (s'.proc np).trapframe) := by
  have hne : p ≠ np := fun he => by rw [he, hnp] at hp; cases hp
  have hsame : s'.proc p = s.proc p := by
    obtain ⟨k, n, q, rfl⟩ := hf.shape
    exact setProc_of_ne _ q hne
  have hlive : (s'.proc np).state ≠ .unused := by rw [hf.state]; simp
  have hpl : (s'.proc p).state ≠ .unused := by rw [hsame, hp]; simp
  have hsp := hf.inv.space hlive
  obtain ⟨-, hroot, haddr, -⟩ := (hf.inv.procs np).live hlive
  obtain ⟨hrep', hroot', haddr', hvalid'⟩ := (hf.inv.procs p).live hpl
  rw [update_self] at hsp hroot haddr
  have hfoot : ∀ x ∈ foot (s'.proc p) (update T np t p),
      x ∈ (s'.proc np).trapframe ::ₘ (rest s' (update T np t) np + hand) := fun x hx =>
    Multiset.mem_cons_of_mem
      (subset_add_left (Multiset.mem_of_le (foot_le_rest hne) hx))
  rw [foot_live hpl] at hfoot
  have hin := fun x hx => hfoot x (subset_add_right (subset_add_left hx))
  have hpages := fun x hx =>
    hfoot x (subset_add_right (subset_add_right hx))
  rw [← hroot, ← hroot']
  refine (uvmcopy_spec hsp hrep' hin hpages hvalid' haddr'.size hf.empty).mono
    fun r k ⟨t', hsp', hroot'', hs, hr⟩ => ⟨t', hsp', hroot'', hs, ?_⟩
  rcases hr with ⟨hr, hc, -⟩ | ⟨hr, hpte⟩
  · exact .inl ⟨hr, hc.addr (hf.size ▸ haddr) haddr'.size hf.empty⟩
  · rw [hpte]
    exact .inr ⟨hr, haddr⟩

theorem copyTrapframe_spec {k : Kmem} {t : Table} {rest : Multiset Nat} {dst src : Nat}
    (h : Space L k t (dst ::ₘ rest)) : wp E (copyTrapframe dst src) k fun _ k' =>
      Space L k' t (dst ::ₘ rest) ∧ Same rest k k' := h.writeHand _

theorem kfork_spec (h : Inv L s T 0 s.refs) (hp : (s.proc p).state = .runnable) :
    wp E (kfork L p) s fun _ s' => Done L A s T s' := by
  refine (allocproc_spec h).bind fun r s1 hr => ?_
  cases r with
  | none =>
    obtain ⟨hinv, hrefs, hframe⟩ := hr
    rw [← hrefs] at hinv
    exact ⟨T, hinv, hframe A⟩
  | some np =>
    obtain ⟨hnp, t, hfresh⟩ := hr
    have hlive : (s1.proc np).state ≠ .unused := by rw [hfresh.state]; simp
    have hused : ¬(s1.proc np).state = .runnable := by rw [hfresh.state]; simp
    have hinv := hfresh.inv
    rw [← hfresh.refs ((h.procs np).files (.inl hnp))] at hinv
    have hframe : Frame A s s1 T (update T np t) := hfresh.frame hnp
    rw [wp_getProc, wp_getProc]
    refine wp_onK (forkCopy_spec hfresh hp hnp) fun r k ⟨t', hsp, hroot, hs, hr⟩ => ?_
    have hs' : Same (rest s1 (update T np t) np) s1.k k := fun x hx =>
      hs x (Multiset.mem_cons_of_mem (subset_add_left hx))
    rcases hr with ⟨rfl, ha⟩ | ⟨rfl, ha⟩
    · rw [if_neg (by decide), wp_modProc]
      refine wp_onK (copyTrapframe_spec hsp) fun _ k2 ⟨hsp2, hs2⟩ => ?_
      rw [setK_setProc, setK_setK, setK_proc]
      have hinv2 := hinv.setSpace hlive hsp2 ha (hs'.trans hs2.left)
      have hrefs : ((s1.setK k2).setProc np { s1.proc np with sz := (s1.proc p).sz }).refs =
        s1.refs := refs_setProc_of_eq rfl
      rw [hroot, ← hrefs] at hinv2
      have hframe2 : Frame A s1 ((s1.setK k2).setProc np { s1.proc np with sz := (s1.proc p).sz })
          (update T np t) (update (update T np t) np t') :=
        Frame.setProc fun hr => absurd hr hused
      refine (dupFiles_spec (A := A) hinv2 (by rw [setProc_self]; exact hfresh.state)
        (List.nodup_finRange _) fun fd _ => by rw [setProc_self]; exact hfresh.ofile fd).bind
        fun _ s3 ⟨hinv3, hframe3, hstate3⟩ => ?_
      rw [wp_modProc, wp_pure]
      refine ⟨_, hinv3.relabel_refs (by rw [hstate3]; simp) nofun rfl rfl rfl rfl nofun,
        ((hframe.trans hframe2).trans hframe3).trans (Frame.setProc_same fun hr => ?_)⟩
      rw [hstate3] at hr
      cases hr
    · rw [if_pos (by decide)]
      have hinv2 := hinv.touch hlive hsp ha (by
        rw [hroot, ((hinv.procs np).live hlive).root]) hs'
      have hframe2 : Frame A s1 (s1.setK k) (update T np t)
          (update (update T np t) np t') :=
        Frame.setK fun hr => absurd hr hused
      refine (freeproc_spec (A := A) hinv2 hlive hfresh.ofile fun hr => absurd hr hused).bind
        fun _ s3 ⟨hinv3, hframe3⟩ => ?_
      exact ⟨_, hinv3, (hframe.trans hframe2).trans hframe3⟩

theorem closeRef_spec {f : Fin NFILE} (h : Inv L s T hand (f ::ₘ R)) :
    wp E (fileclose L f) s fun _ s' => Inv L s' T hand R ∧ FileStep R s s' :=
  (fileclose_spec h.ftable).mono fun _ _ ⟨hft, hs, hstep⟩ => ⟨h.setFiles hft hs hstep, hstep⟩

theorem refs_clearFd {fd : Fin NOFILE} {f : Fin NFILE} (hf : (s.proc p).ofile fd = some f) :
    s.refs = f ::ₘ (s.setProc p ((s.proc p).setFd fd none)).refs := by
  have := refs_setFd s p fd none
  rw [hf, held_some, held_none, add_zero, add_comm, Multiset.singleton_add] at this
  exact this.symm

theorem refs_congr (h : s'.proc = s.proc) : s'.refs = s.refs := by rw [Sys.refs, Sys.refs, h]

theorem closeFile_spec {fd : Fin NOFILE} {f : Fin NFILE} (h : Inv L s T hand s.refs)
    (hp : (s.proc p).state = .runnable) (hA : A p) (hf : (s.proc p).ofile fd = some f) :
    wp E (fileclose L f) s fun _ s1 => s1.proc = s.proc ∧
      Inv L (s1.setProc p ((s1.proc p).setFd fd none)) T hand
        (s1.setProc p ((s1.proc p).setFd fd none)).refs ∧
      Frame A s (s1.setProc p ((s1.proc p).setFd fd none)) T T := by
  rw [refs_clearFd hf] at h
  refine (closeRef_spec h).mono ?_
  rintro _ s1 ⟨hinv, hstep⟩
  have hp1 : s1.proc = s.proc := hstep.proc
  have hrefs : (s1.setProc p ((s1.proc p).setFd fd none)).refs =
      (s.setProc p ((s.proc p).setFd fd none)).refs :=
    refs_congr (by simp only [Sys.setProc, hp1])
  have hstate : (s1.proc p).state = .runnable := by rw [hp1, hp]
  refine ⟨hp1, ?_, ?_⟩
  · rw [hrefs]
    refine hinv.relabel (by rw [hstate]; simp) ?_ rfl rfl rfl ?_
    · change (s1.proc p).state ≠ .unused
      rw [hstate]; simp
    · change (s1.proc p).state = .zombie → _
      simp [hstate]
  · -- the others keep their references, which are still there without the descriptor
    refine (Frame.files hstep fun q _ hq fd' g hg => ?_).trans (Frame.setProc_same fun _ => hA)
    have hne : q ≠ p := fun he => hq (he ▸ hA)
    have hg' : ((s.setProc p ((s.proc p).setFd fd none)).proc q).ofile fd' = some g := by
      rwa [setProc_of_ne s _ hne]
    exact mem_refs hg'

theorem closeFiles_spec {fds : List (Fin NOFILE)} (h : Inv L s T hand s.refs)
    (hp : (s.proc p).state = .runnable) (hA : A p) :
    wp E (closeFiles L p fds) s fun _ s' => Inv L s' T hand s'.refs ∧ Frame A s s' T T ∧
      (s'.proc p).state = .runnable ∧
      ∀ fd, fd ∈ fds ∨ (s.proc p).ofile fd = none → (s'.proc p).ofile fd = none := by
  induction fds generalizing s with
  | nil => exact ⟨h, Frame.refl A s T, hp, fun fd hfd => hfd.resolve_left (by simp)⟩
  | cons fd fds ih =>
    rw [closeFiles, wp_getProc]
    cases hf : (s.proc p).ofile fd with
    | none =>
      refine (ih h hp).mono fun _ s' ⟨hinv, hframe, hstate, hnone⟩ =>
        ⟨hinv, hframe, hstate, fun fd' hfd => hnone fd' ?_⟩
      rcases hfd with hfd | hfd
      · rcases List.mem_cons.mp hfd with rfl | hfd
        · exact .inr hf
        · exact .inl hfd
      · exact .inr hfd
    | some f =>
      refine (closeFile_spec h hp hA hf).bind fun _ s1 ⟨hp1, hinv, hframe⟩ => ?_
      rw [clearFd, wp_modProc]
      refine (ih hinv (by rw [setProc_self, hp1]; exact hp)).mono
        fun _ s' ⟨hinv', hframe', hstate, hnone⟩ =>
          ⟨hinv', hframe.trans hframe', hstate, fun fd' hfd => hnone fd' ?_⟩
      rw [setProc_self, hp1]
      by_cases he : fd' = fd
      · subst he
        exact .inr (update_self _ _ _)
      · rcases hfd with hfd | hfd
        · exact .inl ((List.mem_cons.mp hfd).resolve_left he)
        · exact .inr ((update_of_ne he _ _).trans hfd)

theorem Inv.reparent (h : Inv L s T hand s.refs) (p : Slot) :
    Inv L (s.reparent p) T hand (s.reparent p).refs :=
  ⟨h.own, fun q => ⟨(h.procs q).idle, (h.procs q).files, fun hq =>
    ⟨((h.procs q).live hq).rep, ((h.procs q).live hq).root, ((h.procs q).live hq).addr,
      ((h.procs q).live hq).valid⟩⟩, h.files⟩

theorem kexit_spec {status : Int} (h : Inv L s T 0 s.refs) (hp : (s.proc p).state = .runnable)
    (hA : A p) (hE : E "init exiting") :
    wp E (kexit L p status) s fun _ s' => Done L A s T s' := by
  unfold kexit
  split
  case isTrue => exact hE
  case isFalse =>
  refine (closeFiles_spec h hp hA).bind fun _ s1 ⟨hinv, hframe, hstate, hnone⟩ => ?_
  rw [wp_modSys, wp_modProc, wp_pure]
  have hframe1 : Frame A s1 (s1.reparent p) T T :=
    ⟨fun _ _ _ => ⟨rfl, rfl⟩, fun _ _ _ _ _ _ => ⟨rfl, rfl⟩, rfl, rfl⟩
  have hlive : ((s1.reparent p).proc p).state ≠ .unused := by
    show (s1.proc p).state ≠ .unused
    rw [hstate]; simp
  refine ⟨T, (hinv.reparent p).relabel_refs hlive nofun rfl rfl rfl rfl fun _ fd =>
    hnone fd (.inl (List.mem_finRange fd)), (hframe.trans hframe1).trans
      (Frame.setProc_same fun _ => hA)⟩

theorem copyStatus_spec {addr : Nat} {x : Int} (h : Inv L s T hand R)
    (hp : (s.proc p).state = .runnable) :
    wp E (copyStatus L p addr x) s fun _ s' => ∃ k t, s' = s.setK k ∧
      Inv L s' (update T p t) hand R ∧
      (addr = 0 ∨ Mapped (T p).pte addr 4 → t = T p) := by
  have hlive := Life.live hp
  obtain ⟨-, hroot, haddr, -⟩ := (h.procs p).live hlive
  rw [copyStatus, wp_getProc]
  split
  case isTrue hne =>
    rw [Proc.cur, ← hroot]
    refine wp_on.mpr ((copyout_spec (h.space hlive) haddr).mono fun _ k ⟨t, hf, hq⟩ => ?_)
    refine ⟨k, t, rfl, h.faulted hlive hf, fun hm => hq ?_⟩
    rw [List.length_take, length_leBytes]
    exact hm.resolve_left hne
  case isFalse =>
    refine ⟨s.k, T p, rfl, ?_, fun _ => rfl⟩
    rw [update_eq_self]
    exact h

theorem kwait_spec {addr : Nat} (h : Inv L s T 0 s.refs) (hp : (s.proc p).state = .runnable)
    (hA : A p ∨ addr = 0 ∨ Mapped (T p).pte addr 4) :
    wp E (kwait L p addr) s fun _ s' => Done L A s T s' := by
  rw [kwait, wp_getSys]
  cases hfind : s.findZombie p with
  | none => exact Done.refl h
  | some pp =>
    have hz : (s.proc pp).state = .zombie := by
      have := List.find?_some hfind
      simp only [decide_eq_true_eq] at this
      exact this.2
    refine (copyStatus_spec h hp).bind fun r s1 ⟨k, t, hs1, hinv, hquiet⟩ => ?_
    subst hs1
    have hframe : Frame A s (s.setK k) T (update T p t) := by
      rcases hA with hA | hA
      · exact Frame.setK fun _ => hA
      · rw [hquiet hA, update_eq_self]
        exact ⟨fun _ _ _ => ⟨rfl, rfl⟩, fun _ _ _ _ _ _ => ⟨rfl, rfl⟩, rfl, rfl⟩
    split
    case isTrue => exact ⟨_, hinv, hframe⟩
    case isFalse =>
    refine (freeproc_spec (A := A) hinv (p := pp) ?_ ((h.procs pp).files (.inr hz)) ?_).bind
      fun _ s2 ⟨hinv2, hframe2⟩ => ?_
    · show (s.proc pp).state ≠ .unused
      rw [hz]; simp
    · show (s.proc pp).state = .runnable → _
      rw [hz]; nofun
    · exact ⟨_, hinv2, hframe.trans hframe2⟩

theorem kernelFault_spec {va : Nat} (h : Inv L s T 0 s.refs) (hp : (s.proc p).state = .runnable)
    (hA : A p) : wp E (kernelFault L p va) s fun _ s' => Done L A s T s' := by
  have hlive := Life.live hp
  obtain ⟨-, hroot, haddr, -⟩ := (h.procs p).live hlive
  rw [kernelFault, wp_getProc, Proc.cur, ← hroot]
  refine wp_onK (fault_spec (h.space hlive) haddr) fun _ k ⟨t, hf, _, _⟩ => ?_
  exact ⟨_, h.faulted hlive hf, Frame.setK fun _ => hA⟩

theorem userStore_spec {va c : Nat} (h : Inv L s T 0 s.refs) (hp : (s.proc p).state = .runnable) :
    wp E (userStore p va c) s fun _ s' => Done L A s T s' := by
  have hlive := Life.live hp
  obtain ⟨-, hroot, haddr, -⟩ := (h.procs p).live hlive
  rw [userStore, wp_getProc, ← hroot]
  refine wp_on.mpr ((store_spec (h.space hlive) haddr).mono fun _ k hf => ?_)
  have hinv := h.faulted hlive hf
  rw [update_eq_self] at hinv
  exact ⟨T, hinv, Frame.setK_same⟩

theorem usertrap_spec {va : Nat} (h : Inv L s T 0 s.refs) (hp : (s.proc p).state = .runnable)
    (hA : A p) (hE : E "init exiting") :
    wp E (usertrap L p va) s fun _ s' => Done L A s T s' := by
  have hlive := Life.live hp
  obtain ⟨-, hroot, haddr, -⟩ := (h.procs p).live hlive
  rw [usertrap, wp_getProc, Proc.cur, ← hroot]
  refine wp_onK (fault_spec (h.space hlive) haddr) fun _ k ⟨t, hf, _, _⟩ => ?_
  have hinv : Inv L (s.setK k) (update T p t) 0 (s.setK k).refs := h.faulted hlive hf
  have hframe : Frame A s (s.setK k) T (update T p t) := Frame.setK fun _ => hA
  split
  case isTrue => exact ⟨_, hinv, hframe⟩
  case isFalse =>
    exact (kexit_spec hinv hp hA hE).mono fun _ s' ⟨T', hinv', hframe'⟩ =>
      ⟨T', hinv', hframe.trans hframe'⟩

theorem sysClose_spec {fd : Fin NOFILE} (h : Inv L s T 0 s.refs)
    (hp : (s.proc p).state = .runnable) (hA : A p) :
    wp E (sysClose L p fd) s fun _ s' => Done L A s T s' := by
  have hlive := Life.live hp
  rw [sysClose, wp_getProc]
  cases hf : (s.proc p).ofile fd with
  | none => exact Done.refl h
  | some f =>
    rw [clearFd, wp_modProc]
    rw [refs_clearFd hf] at h
    have hinv : Inv L (s.setProc p ((s.proc p).setFd fd none)) T 0
        (f ::ₘ (s.setProc p ((s.proc p).setFd fd none)).refs) :=
      h.relabel hlive hlive rfl rfl rfl fun hz => by
        change (s.proc p).state = .zombie at hz
        rw [hp] at hz
        cases hz
    refine (closeRef_spec hinv).bind fun _ s1 ⟨hinv1, hstep⟩ => ?_
    rw [← refs_congr hstep.proc] at hinv1
    have hframe : Frame A s (s.setProc p ((s.proc p).setFd fd none)) T T :=
      Frame.setProc_same fun _ => hA
    exact ⟨T, hinv1, hframe.trans (Frame.files hstep fun q _ _ fd' g hg => mem_refs hg)⟩

end Xv6.Vm
