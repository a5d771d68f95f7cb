import Xv6.Vm.ExecSpec
import Xv6.Vm.Files

/-! Who owns the pages of the machine: each process its page table, its user pages and its trap
frame, the file table the pipes, and the kernel what it has kept since boot. -/

namespace Xv6.Vm

open Finset Function Multiset
open Wait (Slot)

variable {E : String → Prop} {L : Layout} {s s' : Sys} {T : Slot → Table} {hand : Multiset Nat}
  {R : Multiset (Fin NFILE)} {p : Slot}

theorem Life.live {l : Life} (h : l = .runnable) : l ≠ .unused := by
  rw [h]
  simp

def foot (q : Proc) (t : Table) : Multiset Nat :=
  if q.state = .unused then 0 else {q.trapframe} + (t.tables + userPages t.pte)

/-- Memory `m` holds the page table `t` of the process. -/
structure Live (L : Layout) (m : Nat → Page) (q : Proc) (t : Table) : Prop where
  rep : Rep m t
  root : t.root = q.pagetable
  addr : AddrSpace L t.pte q.sz q.trapframe
  valid : ∀ v, t.pte v ≠ 0 → t.pte v &&& PTE_V ≠ 0

structure ProcOk (L : Layout) (m : Nat → Page) (q : Proc) (t : Table) : Prop where
  idle : q.state = .unused → q.pagetable = 0 ∧ q.trapframe = 0 ∧ q.sz = 0
  files : q.state = .unused ∨ q.state = .zombie → ∀ fd, q.ofile fd = none
  live : q.state ≠ .unused → Live L m q t

def Sys.kept (s : Sys) : Multiset Nat := ∑ p, {s.kstack p} + (s.kernel : Multiset Nat)

def Sys.refs (s : Sys) : Multiset (Fin NFILE) := ∑ p, own univ (s.proc p).ofile

/-- The tables of the processes are `T`; the operation in progress has `hand` for itself, and there
are the references `R` to file structures. -/
structure Inv (L : Layout) (s : Sys) (T : Slot → Table) (hand : Multiset Nat)
    (R : Multiset (Fin NFILE)) : Prop where
  own : Owns L s.k (∑ p, foot (s.proc p) (T p) + ((pipeSet s.file).val + (s.kept + hand)))
  procs : ∀ p, ProcOk L s.k.mem (s.proc p) (T p)
  files : FileInv s.file s.pipe R

variable {q : Proc}

theorem foot_unused (h : q.state = .unused) (t : Table) : foot q t = 0 := if_pos h

theorem foot_live (h : q.state ≠ .unused) (t : Table) :
    foot q t = {q.trapframe} + (t.tables + userPages t.pte) := if_neg h

variable {t : Table}

theorem ProcOk.congr {m m' : Nat → Page} (h : ProcOk L m q t)
    (hm : ∀ x ∈ foot q t, m' x = m x) : ProcOk L m' q t := by
  refine ⟨h.idle, h.files, fun hl => ?_⟩
  obtain ⟨hrep, hroot, haddr, hvalid⟩ := h.live hl
  refine ⟨hrep.congr fun x hx => hm x ?_, hroot, haddr, hvalid⟩
  rw [foot_live hl, mem_add, mem_add]
  exact .inr (.inl hx)

/-- The pages of everything but the process `p` and the operation in progress. -/
def rest (s : Sys) (T : Slot → Table) (p : Slot) : Multiset Nat :=
  ∑ q ∈ univ.erase p, foot (s.proc q) (T q) + ((pipeSet s.file).val + s.kept)

theorem foot_add_rest (s : Sys) (T : Slot → Table) (p : Slot) (hand : Multiset Nat) :
    foot (s.proc p) (T p) + (rest s T p + hand) =
      ∑ q, foot (s.proc q) (T q) + ((pipeSet s.file).val + (s.kept + hand)) := by
  rw [rest, ← add_sum_erase univ _ (mem_univ p)]
  abel

theorem foot_le_rest {q : Slot} (hq : q ≠ p) : foot (s.proc q) (T q) ≤ rest s T p :=
  (single_le_sum (f := fun q => foot (s.proc q) (T q)) (fun _ _ => zero_le _)
    (mem_erase.mpr ⟨hq, mem_univ q⟩)).trans (le_add_right _ _)

theorem foot_le_sum (s : Sys) (T : Slot → Table) (p : Slot) :
    foot (s.proc p) (T p) ≤ ∑ q, foot (s.proc q) (T q) :=
  single_le_sum (f := fun q => foot (s.proc q) (T q)) (fun _ _ => zero_le _) (mem_univ p)

theorem Inv.split (h : Inv L s T hand R) (p : Slot) :
    Owns L s.k (foot (s.proc p) (T p) + (rest s T p + hand)) := by
  rw [foot_add_rest]
  exact h.own

theorem Inv.space (h : Inv L s T hand R) (hp : (s.proc p).state ≠ .unused) :
    Space L s.k (T p) ((s.proc p).trapframe ::ₘ (rest s T p + hand)) := by
  obtain ⟨hrep, -, -, hvalid⟩ := (h.procs p).live hp
  refine ⟨⟨hrep, ?_⟩, hvalid⟩
  have := h.split p
  rw [foot_live hp] at this
  rw [← singleton_add]
  convert this using 1
  abel

variable {w : Multiset Nat} {k : Kmem}

theorem Inv.setProc (h : Inv L s T hand R)
    (hown : Owns L k (foot q t + (rest s T p + w))) (hs : Same (rest s T p) s.k k)
    (hq : ProcOk L k.mem q t) :
    Inv L ((s.setK k).setProc p q) (update T p t) w R := by
  refine ⟨?_, fun r => ?_, h.files⟩
  · have hsum : ∑ r, foot (update s.proc p q r) (update T p t r) =
        foot q t + ∑ r ∈ univ.erase p, foot (s.proc r) (T r) := by
      rw [← add_sum_erase univ _ (mem_univ p), update_self, update_self]
      refine congrArg (foot q t + ·) (sum_congr rfl fun r hr => ?_)
      rw [update_of_ne (ne_of_mem_erase hr), update_of_ne (ne_of_mem_erase hr)]
    show Owns L k (∑ r, foot (update s.proc p q r) (update T p t r) +
      ((pipeSet s.file).val + (s.kept + w)))
    rw [hsum]
    convert hown using 1
    rw [rest]
    abel
  · show ProcOk L k.mem (update s.proc p q r) (update T p t r)
    by_cases hr : r = p
    · subst hr
      rwa [update_self, update_self]
    · rw [update_of_ne hr, update_of_ne hr]
      exact (h.procs r).congr fun x hx => hs x (mem_of_le (foot_le_rest hr) hx)

theorem Inv.setSpace {sz : Nat}
    (h : Inv L s T hand R) (hp : (s.proc p).state ≠ .unused)
    (hsp : Space L k t ((s.proc p).trapframe ::ₘ (rest s T p + w)))
    (ha : AddrSpace L t.pte sz (s.proc p).trapframe) (hs : Same (rest s T p) s.k k) :
    Inv L ((s.setK k).setProc p { s.proc p with pagetable := t.root, sz })
      (update T p t) w R := by
  refine h.setProc ?_ hs ⟨fun h0 => absurd h0 hp, (h.procs p).files, fun _ =>
    ⟨hsp.heap.rep, rfl, ha, hsp.valid⟩⟩
  have hq : ({ s.proc p with pagetable := t.root, sz := sz } : Proc).state ≠ .unused := hp
  rw [foot_live hq]
  have := hsp.own
  rw [← singleton_add] at this
  convert this using 1
  abel

section

variable (h : Inv L s T hand R) (hp : (s.proc p).state ≠ .unused)

include h hp

theorem Inv.touch (hsp : Space L k t ((s.proc p).trapframe ::ₘ (rest s T p + w)))
    (ha : AddrSpace L t.pte (s.proc p).sz (s.proc p).trapframe) (hroot : t.root = (T p).root)
    (hs : Same (rest s T p) s.k k) : Inv L (s.setK k) (update T p t) w R := by
  have hinv := h.setSpace hp hsp ha hs
  rw [hroot, ((h.procs p).live hp).root] at hinv
  simpa [Sys.setProc, Sys.setK] using hinv

theorem Inv.relabel (hq : q.state ≠ .unused) (hsz : q.sz = (s.proc p).sz)
    (hpt : q.pagetable = (s.proc p).pagetable)
    (htf : q.trapframe = (s.proc p).trapframe) (hf : q.state = .zombie → ∀ fd, q.ofile fd = none) :
    Inv L (s.setProc p q) T hand R := by
  obtain ⟨hrep, hroot, haddr, hvalid⟩ := (h.procs p).live hp
  have hinv := h.setProc (k := s.k) (q := q) (t := T p) (w := hand) (p := p) ?_ (Same.refl _ _)
    ⟨fun h0 => absurd h0 hq, fun h0 => hf (h0.resolve_left hq),
      fun _ => ⟨hrep, by rw [hroot, hpt], by rwa [hsz, htf], hvalid⟩⟩
  · rwa [update_eq_self] at hinv
  · have := h.split p
    rwa [foot_live hp, ← htf, ← foot_live hq] at this

theorem Inv.faulted
    (hf : Faulted L s.k k (T p) t ((s.proc p).trapframe ::ₘ (rest s T p + hand)) (s.proc p).sz
      (s.proc p).trapframe) : Inv L (s.setK k) (update T p t) hand R :=
  h.touch hp hf.space hf.addr hf.root fun x hx =>
    hf.same x (mem_cons_of_mem (subset_add_left hx))

end

theorem Inv.setK (h : Inv L s T hand R)
    (hown : Owns L k (∑ p, foot (s.proc p) (T p) + ((pipeSet s.file).val + (s.kept + w))))
    (hs : Same (∑ p, foot (s.proc p) (T p)) s.k k) : Inv L (s.setK k) T w R :=
  ⟨hown, fun r => (h.procs r).congr fun x hx => hs x (mem_of_le (foot_le_sum s T r) hx),
    h.files⟩

theorem Inv.ftable (h : Inv L s T hand R) :
    Ftable L s (∑ p, foot (s.proc p) (T p) + (s.kept + hand)) R := by
  refine ⟨?_, h.files⟩
  convert h.own using 1
  abel

theorem Inv.setFiles {R' R'' : Multiset (Fin NFILE)} (h : Inv L s T hand R)
    (hf : Ftable L s' (∑ p, foot (s.proc p) (T p) + (s.kept + hand)) R')
    (hs : Same (∑ p, foot (s.proc p) (T p) + (s.kept + hand)) s.k s'.k)
    (hstep : FileStep R'' s s') : Inv L s' T hand R' := by
  have hkept : s'.kept = s.kept := by rw [Sys.kept, Sys.kept, hstep.kstack, hstep.kernel]
  refine ⟨?_, fun r => ?_, hf.inv⟩
  · rw [hstep.proc, hkept]
    convert hf.own using 1
    abel
  · rw [hstep.proc]
    exact (h.procs r).congr fun x hx =>
      hs x (subset_add_left (mem_of_le (foot_le_sum s T r) hx))

end Xv6.Vm
