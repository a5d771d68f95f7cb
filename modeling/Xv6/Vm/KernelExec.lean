import Xv6.Vm.Kernel
import Xv6.Vm.Syscalls

/-! What `kexec` does to the whole kernel: what it does to the pages, processes and files, and the
name of the process when it commits. -/

namespace Xv6.Vm

open Wait (Slot)

variable {E : String → Prop} {L : Layout} {s : Kernel} {T : Slot → Table} {hand : Multiset Nat}
  {R : Multiset (Fin NFILE)} {p : Slot} {path : List Nat} {file : Option (Nat × Exe)}
  {argv : List (List Nat)}

namespace Kernel

def setK (s : Kernel) (k : Kmem) : Kernel := s.setSys (s.sys.setK k)

/-- The kernel when `kexec` returns `r`, with the name that a commit stores. -/
def named (s : Kernel) (p : Slot) (path : List Nat) (r : Int) : Kernel :=
  if r < 0 then s
  else s.setInfo p { s.info p with name := safestrcpy (s.info p).name (lastElement path path) }

theorem named_sys (s : Kernel) (r : Int) : (s.named p path r).sys = s.sys := by
  unfold named
  split
  · rfl
  · rfl

/-- An error after `namei` and before there is a page table gives back the reference only. -/
theorem bad_early (s : Kernel) (ip : Nat) :
    bad L 0 0 (some ip) (s.setIref ip (s.iref ip + 1)) = .ok (-1, s) := by
  simp [-bind_pure_comp, bad, run_bind, run_pure, ok_bind, iunlockput, setIref]

/-- `kexec` on the whole kernel is `kexec` on its pages, processes and files, followed by the name.
The reference that `namei` took is given back on every way out, also before the stack is built. -/
theorem kexec_eq (s : Kernel) : kexec L p path file argv s =
    Vm.kexec L p (file.map Prod.snd) argv s.sys >>= fun r =>
      .ok (r.1, (s.setSys r.2).named p path r.1) := by
  rcases file with - | ⟨ip, f⟩
  · rfl
  have hlen : ¬(argv.length : Int) < 0 := by omega
  simp only [kexec, execFile, Vm.kexec, buildImage, Option.map_some, run_bind, run_on, idup, onSys,
    onMem, onK, getProc, bind_assoc, ok_bind]
  split
  case isTrue => exact bad_early s ip
  case isFalse =>
  split
  case isTrue => exact bad_early s ip
  case isFalse =>
  simp only [run_bind, run_on, bind_assoc, ok_bind]
  refine bind_congr fun r => ?_
  split
  case isTrue => exact bad_early (s.setK r.2) ip
  case isFalse hne =>
  simp only [run_bind, run_on, bind_assoc, ok_bind]
  refine bind_congr fun r => ?_
  split
  case isTrue =>
    simp [-bind_pure_comp, bad, hne, named, ok_bind, run_bind, run_on, run_pure, onMem, onSys, onK,
      iunlockput, setIref, setSys, Sys.setK]
  case isFalse =>
  simp only [run_bind, run_on, bind_assoc, ok_bind, iunlockput]
  refine bind_congr fun r => ?_
  rcases r with ⟨⟨sz, - | sp⟩, k⟩
  · simp [-bind_pure_comp, bad, hne, named, ok_bind, run_bind, run_on, run_pure, onMem, onSys, onK,
      setIref, setSys, Sys.setK]
  · simp [-bind_pure_comp, commit, named, hlen, ok_bind, run_bind, run_on, run_pure, writeWord,
      getProc, modProc, modInfo, onSys, onMem, onK, setIref, setSys, setInfo, Sys.setK, Sys.setProc]

theorem wp_kexec {Q : Int → Kernel → Prop} : wp E (kexec L p path file argv) s Q ↔
    wp E (Vm.kexec L p (file.map Prod.snd) argv) s.sys fun r sys =>
      Q r ((s.setSys sys).named p path r) := by
  rw [wp, kexec_eq, wp]
  cases Vm.kexec L p (file.map Prod.snd) argv s.sys with
  | error msg => rfl
  | ok r => rfl

/-- `kexec` fails and has given back all it took, or commits to the image of the file. -/
theorem kexec_cases (h : Inv L s.sys T hand R) (hp : (s.sys.proc p).state ≠ .unused)
    (hargs : ∀ arg ∈ argv, arg.length < 2147483647) :
    wp E (kexec L p path file argv) s fun r s' =>
      r = -1 ∧ Restored L s.sys (inUse s.sys T p hand) s'.sys ∧ s' = s.setSys s'.sys ∨
      r = argv.length ∧ s' = (s.setSys s'.sys).named p path r ∧ ∃ ip f k t im,
        file = some (ip, f) ∧ Committed L s.sys T hand p f argv s'.sys k t im := by
  refine wp_kexec.mpr ((Vm.kexec_cases h hp hargs).mono fun r sys hr => ?_)
  rcases hr with ⟨rfl, hr⟩ | ⟨rfl, f, k, t, im, hfile, hc⟩
  · exact .inl ⟨rfl, hr, rfl⟩
  · obtain ⟨⟨ip, _⟩, hip, rfl⟩ := Option.map_eq_some_iff.mp hfile
    rw [named_sys]
    exact .inr ⟨rfl, rfl, ip, _, k, t, im, hip, hc⟩

end Kernel

end Xv6.Vm
