import Xv6.Vm.AddressSpace
import Xv6.Vm.KernelExec

/-! `kexec` returns for any file, and when it fails the kernel is as it was but for the contents of
free pages. -/

namespace Xv6.Vm

open Multiset

open Wait (Slot)

variable {E : String → Prop} {L : Layout} {s s' : Kernel} {T : Slot → Table} {hand : Multiset Nat}
  {R : Multiset (Fin NFILE)} {p : Slot} {argv : List (List Nat)}

theorem Owns.free_perm {k k' : Kmem} {used : Multiset Nat} (h : Owns L k used)
    (h' : Owns L k' used) : k'.freelist.Perm k.freelist :=
  coe_eq_coe.mp (add_left_cancel (Eq.trans h' (Eq.symm h)))

theorem Owns.mem_used {k : Kmem} {used : Multiset Nat} (h : Owns L k used) {x : Nat}
    (hx : x ∈ L.pages) (hfree : x ∉ k.freelist) : x ∈ used := by
  have hmem : x ∈ used + (k.freelist : Multiset Nat) := by
    rw [h]
    exact mem_coe.mpr hx
  exact (mem_add.mp hmem).resolve_right fun hf => hfree (mem_coe.mp hf)

/-- `s'` is `s`, seen from the process `p`: all fields of all processes, the files and the reference
counts are the same, as are the free pages up to order, the contents of all pages in use, and among
them the page table, the user memory and the trap frame of `p`. -/
structure Kernel.Intact (L : Layout) (p : Slot) (s s' : Kernel) : Prop where
  fields : ∃ k, s' = s.setK k
  free : s'.sys.k.freelist.Perm s.sys.k.freelist
  used : ∀ x ∈ L.pages, x ∉ s.sys.k.freelist → s'.sys.k.mem x = s.sys.k.mem x
  table : ∀ v < VPAGES, s'.sys.pte p v = s.sys.pte p v
  memory : ∀ v < UPAGES, ∀ x, leafPage (s.sys.pte p v) = some x →
    s'.sys.k.mem x = s.sys.k.mem x
  trapframe : s'.sys.k.mem (s.sys.proc p).trapframe = s.sys.k.mem (s.sys.proc p).trapframe

theorem Kernel.intact_setK {k : Kmem} (h : Inv L s.sys T hand R)
    (hp : (s.sys.proc p).state ≠ .unused) (hown : Owns L k (inUse s.sys T p hand))
    (hsame : Same (inUse s.sys T p hand) s.sys.k k) : s.Intact L p (s.setK k) := by
  have hlive := (h.procs p).live hp
  have hown0 : Owns L s.sys.k (inUse s.sys T p hand) := (h.space hp).own
  have htables : ∀ x ∈ (T p).tables, k.mem x = s.sys.k.mem x := hsame.left
  have hpage : ∀ x ∈ (T p).tables, x % PGSIZE = 0 ∧ x < PHYSTOP := fun x => (h.space hp).heap.page
  have hpte : ∀ v < VPAGES, (s.setK k).sys.pte p v = (T p).pte v := by
    intro v hv
    have hentry := entry_eq (hlive.rep.congr htables) hpage (v := v)
      (by simp only [VPAGES] at hv; omega)
    rw [hlive.root] at hentry
    exact hentry
  refine ⟨⟨k, rfl⟩, hown0.free_perm hown, fun x hx hfree => hsame x (hown0.mem_used hx hfree),
    fun v hv => by rw [hpte v hv, h.pte_eq hp hv], fun v hv x hx => ?_, ?_⟩
  · rw [h.pte_eq hp (hv.trans (by decide))] at hx
    exact hsame x (subset_add_right (mem_add.mpr (.inl
      (mem_userPages.mpr ⟨v, hv, hx⟩))))
  · exact hsame _ (subset_add_right (mem_add.mpr (.inr
      (mem_cons_self _ _))))

/-- The state in which `sys_exec` calls `kexec`, with the pages of the arguments in hand. -/
theorem Inv.fetched {uargv : Nat} {args : List (Nat × List Nat)} {ok : Bool} {k : Kmem}
    (h : Inv L s.sys T 0 R) (hp : (s.sys.proc p).state ≠ .unused)
    (hfetch : fetchArgs L (s.sys.proc p).cur uargv MAXARG 0 [] s.sys.k = .ok ((ok, args), k)) :
    (∃ t, Inv L (s.setK k).sys (Function.update T p t) (argPages args) R) ∧
      ∀ a ∈ args, a.2.length < PGSIZE := by
  have hlive := (h.procs p).live hp
  have hsp : Space L s.sys.k (T p)
      (argPages [] + (s.sys.proc p).trapframe ::ₘ (rest s.sys T p + 0)) := by
    rw [argPages, List.map_nil, coe_nil, zero_add]
    exact h.space hp
  rw [Proc.cur, ← hlive.root] at hfetch
  obtain ⟨t, hsp1, haddr1, hroot1, hs1, hlen⟩ :=
    (fetchArgs_spec (E := fun _ => True) hsp hlive.addr (by simp)).of_ok hfetch
  refine ⟨⟨t, h.touch hp ?_ haddr1 hroot1 fun x hx => hs1 x (by simp [hx])⟩, hlen⟩
  convert hsp1 using 1
  simp only [← singleton_add]
  abel

/-- In every reachable state and for arguments that `sys_exec` has fetched, `kexec` returns on every
file, without a panic; and when it returns -1, everything is as it was before the call. -/
theorem kexec_atomic (hs : Reachable (Boot L) (step L) s.sys)
    (hp : (s.sys.proc p).state = .runnable) {uargv : Nat} {args : List (Nat × List Nat)} {k : Kmem}
    (hfetch : fetchArgs L (s.sys.proc p).cur uargv MAXARG 0 [] s.sys.k = .ok ((true, args), k))
    (path : List Nat) (file : Option (Nat × Exe)) :
    ∃ r s', Kernel.kexec L p path file (args.map Prod.snd) (s.setK k) = .ok (r, s') ∧
      (r = -1 → (s.setK k).Intact L p s') := by
  have hlive := Life.live hp
  obtain ⟨T, hinv⟩ := reachable_inv hs
  obtain ⟨⟨t, hinv1⟩, hlen⟩ := hinv.fetched hlive hfetch
  have hargs : ∀ arg ∈ args.map Prod.snd, arg.length < 2147483647 := by
    intro arg harg
    obtain ⟨a, hmem, rfl⟩ := List.mem_map.mp harg
    exact (hlen a hmem).trans (by decide)
  obtain ⟨r, s', hr, hcases⟩ := (Kernel.kexec_cases
    hinv1 hlive hargs).exists_ok fun _ => id
  refine ⟨r, s', hr, fun hneg => ?_⟩
  rcases hcases with ⟨-, ⟨k', hown, hsame, hsys⟩, hs'⟩ | ⟨hr, -⟩
  · rw [hs', hsys]
    exact Kernel.intact_setK hinv1 hlive hown hsame
  · omega

def Kernel.of (sys : Sys) : Kernel where
  sys
  info := fun _ =>
    { chan := 0, killed := 0, context := fun _ => 0, cwd := some 1, tracing := 1
      name := safestrcpy ⟨fun _ => 0, rfl⟩ [115, 104] }
  iref := fun _ => 1
  forkret := 0

/-- An ELF file with two program headers: the first has four bytes to load, and the second more
bytes in the file than in memory. -/
def elf : Exe where
  size := 176
  byte := fun i => (List.lookup i [(0, 0x7f), (1, 0x45), (2, 0x4c), (3, 0x46), (32, 64), (56, 2),
    (64, 1), (68, 7), (96, 4), (104, 4), (120, 1), (152, 1)]).getD 0

theorem elf_segment : ∃ seg ∈ elf.readSegments, seg.memsz < seg.filesz := by decide +kernel

theorem kexec_elf {hand : Multiset Nat} {R : Multiset (Fin NFILE)} {argv : List (List Nat)}
    {path : List Nat} {ip : Nat} {r : Int} {s' : Kernel} (h : Inv L s.sys T hand R)
    (hp : (s.sys.proc p).state ≠ .unused) (hargs : ∀ arg ∈ argv, arg.length < 2147483647)
    (hr : Kernel.kexec L p path (some (ip, elf)) argv s = .ok (r, s')) : r = -1 := by
  rcases (Kernel.kexec_cases (E := fun _ => False) h hp hargs).of_ok hr with
    ⟨hneg, -⟩ | ⟨-, -, _, f, k, t, im, hfile, hc⟩
  · exact hneg
  · cases hfile
    obtain ⟨size, hfits, -⟩ := hc.image.loaded
    obtain ⟨seg, hseg, hlt⟩ := elf_segment
    have := (hfits seg hseg).file
    omega

/-- A process has the argument `a` in its memory and executes that file: the first segment can be
loaded, `kexec` fails at the second and leaves the process as it was. -/
theorem kexec_atomic_secondSegment : ∃ s page k k' s',
    runEvents (step roomy) roomyBoot
      [.userinit, .sbrk 0 4096 1, .store 0 8 254, .store 0 9 15, .store 0 4094 97] = some s ∧
    fetchArgs roomy (s.proc 0).cur 8 MAXARG 0 [] s.k = .ok ((true, [(page, [97])]), k) ∧
    (procPagetable roomy (s.proc 0).trapframe >>= fun pagetable =>
      loadSegments roomy pagetable elf 64 1 0 0) k = .ok ((true, 4), k') ∧
    Kernel.kexec roomy 0 [47, 97] (some (2, elf)) [[97]] ((Kernel.of s).setK k) = .ok (-1, s') ∧
    ((Kernel.of s).setK k).Intact roomy 0 s' := by
  have hrun : (runEvents (step roomy) roomyBoot
      [.userinit, .sbrk 0 4096 1, .store 0 8 254, .store 0 9 15, .store 0 4094 97]).any (fun s =>
      (s.proc 0).state = .runnable &&
      (fetchArgs roomy (s.proc 0).cur 8 MAXARG 0 [] s.k).toOption.any fun r =>
        r.1.1 && r.1.2.map Prod.snd == [[97]] &&
        ((procPagetable roomy (s.proc 0).trapframe >>= fun pagetable =>
          loadSegments roomy pagetable elf 64 1 0 0) r.2).toOption.any fun r =>
            r.1 == (true, 4)) := by decide_cbv
  obtain ⟨s, hs, hp⟩ := (Option.any_eq_true _ _).mp hrun
  obtain ⟨hstate, hp⟩ := Bool.and_eq_true_iff.mp hp
  obtain ⟨⟨⟨ok, args⟩, k⟩, hk, hp⟩ := ok_of_any hp
  simp only [Bool.and_eq_true, beq_iff_eq] at hp
  obtain ⟨⟨rfl, hargs⟩, hload⟩ := hp
  obtain ⟨⟨_, k'⟩, hk', hload⟩ := ok_of_any hload
  obtain rfl := beq_iff_eq.mp hload
  obtain ⟨⟨page, _⟩, rfl, rfl⟩ := List.map_eq_singleton_iff.mp hargs
  replace hstate := of_decide_eq_true hstate
  have hstart : Reachable (Boot roomy) (step roomy) roomyBoot := .start boot_roomy
  have hreach := hstart.run _ hs
  have hlive := Life.live hstate
  obtain ⟨T, hinv⟩ := reachable_inv hreach
  obtain ⟨⟨t, hinv'⟩, -⟩ := Inv.fetched (s := Kernel.of s) hinv hlive hk
  obtain ⟨r, s', hr, hintact⟩ := kexec_atomic (s := Kernel.of s) (p := 0) hreach hstate hk [47, 97]
    (some (2, elf))
  obtain rfl := kexec_elf hinv' hlive (by simp) hr
  exact ⟨s, page, k, k', s', hs, hk, hk', hr, hintact rfl⟩

end Xv6.Vm
