import Xv6.Vm.Stack

/-! `kexec` builds an address space for any file and any arguments, or leaves nothing behind. -/

namespace Xv6.Vm

open Finset Multiset

variable {E : String → Prop} {L : Layout} {k k' : Kmem} {t t' : Table} {used rest : Multiset Nat}
  {sz tf : Nat}

/-- The segments that `kexec` reads from the headers of the file. -/
def Exe.readSegments (f : Exe) : List Seg :=
  segments (f.phdr (leNum (f.readi 0 64) 32 8)) (leNum (f.readi 0 64) 56 2) 0

/-- The table `pte` in memory `k` is the image of the file with the arguments on its stack. -/
structure NewImage (k : Kmem) (pte : Nat → Nat) (f : Exe) (argv : List (List Nat)) (im : Image) :
    Prop where
  argc : im.argc = argv.length
  entry : im.entry = leNum (f.readi 0 64) 24 8
  elf : (f.readi 0 64).length = 64
  headers : ∀ j < leNum (f.readi 0 64) 56 2, (f.phdr (leNum (f.readi 0 64) 32 8) j).length = 56
  loaded : ∃ size, (∀ seg ∈ f.readSegments, seg.Fits f size) ∧
    ((∀ arg ∈ argv, ∀ b ∈ arg, b < 256) →
      Stacked k pte (npages size) im.sz im.sp argv (f.readSegments.foldl (Seg.load f) fun _ => 0))

section build

variable {f : Exe} {argv : List (List Nat)}

theorem NewImage.congr {pte : Nat → Nat} {im : Image} (h : NewImage k pte f argv im)
    (hp : ∀ v < npages im.sz, pte v ≠ 0 → k'.mem (pte2pa (pte v)) = k.mem (pte2pa (pte v))) :
    NewImage k' pte f argv im := by
  obtain ⟨hargc, hentry, helf, hheaders, size, hfits, hst⟩ := h
  refine ⟨hargc, hentry, helf, hheaders, size, hfits, fun hb => ?_⟩
  obtain ⟨h1, h2, h3, hr, h4, bytes, ptrs, hh, h5⟩ := hst hb
  have hmapped : ∀ v < npages im.sz, pte v ≠ 0 := by rw [h1, npages_mul]; exact h2
  exact ⟨h1, h2, h3, hr, h4, bytes, ptrs, hh.congr fun v hv => hp v hv (hmapped v hv), h5⟩

theorem buildImage_spec {p : Cur} (h : Owns L k used) (tf : Nat)
    (hargs : ∀ arg ∈ argv, arg.length < 2147483647) :
    wp E (buildImage L p tf f argv) k fun r k' => Same used k k' ∧
      match r with
      | none => Owns L k' used
      | some im => ∃ t, t.root = im.pagetable ∧ Space L k' t used ∧ AddrSpace L t.pte im.sz tf ∧
        NewImage k' t.pte f argv im := by
  unfold buildImage
  dsimp only
  split
  case isTrue => exact ⟨Same.refl _ _, h⟩
  case isFalse helf =>
  split
  case isTrue => exact ⟨Same.refl _ _, h⟩
  case isFalse =>
  refine (procPagetable_spec h tf).bind fun r k1 ⟨hs1, hr⟩ => ?_
  rcases hr with ⟨rfl, hown⟩ | ⟨hne, t, hroot, hsp, ha, h0⟩
  · exact ⟨hs1, hown⟩
  rw [if_neg hne]
  subst hroot
  have hl : Loaded L k1 t used 0 tf := ⟨hsp, ha, nofun, nofun⟩
  have hzero : Holds k1 t.pte 0 fun _ => 0 :=
    ⟨fun va hva => absurd hva (Nat.not_lt_zero _), fun _ _ => rfl⟩
  refine (loadSegments_spec hl).bind fun r k2 ⟨t2, hroot2, hs2, h2, hb⟩ => ?_
  obtain ⟨ok, sz⟩ := r
  have hs2' := hs1.trans hs2
  rw [← hroot2]
  cases ok with
  | false =>
    refine (procFreepagetable_spec h2.space h2.addr).bind fun _ k3 ⟨hown3, hs3⟩ => ?_
    exact ⟨hs2'.trans hs3, hown3⟩
  | true =>
    obtain ⟨hheads, -, hfits, hholds⟩ := hb rfl
    refine (buildStack_spec h2 hargs).bind fun r k3 ⟨t3, hroot3, hsp3, ha3, hs3, hst⟩ => ?_
    obtain ⟨sz', sp⟩ := r
    have hs3' := hs2'.trans hs3
    cases sp with
    | none =>
      rw [← hroot3]
      refine (procFreepagetable_spec hsp3 ha3).bind fun _ k4 ⟨hown4, hs4⟩ => ?_
      exact ⟨hs3'.trans hs4, hown4⟩
    | some sp =>
      refine ⟨hs3', t3, hroot3, hsp3, ha3, rfl, rfl, Decidable.not_not.mp helf, fun j hj => ?_, sz,
        hfits, fun hb => hst sp rfl hb _ (hholds _ hzero)⟩
      exact hheads j (Nat.zero_le j) (by rwa [Nat.zero_add])

end build

/-- The pages of the arguments that `sys_exec` has fetched. -/
def argPages (argv : List (Nat × List Nat)) : Multiset Nat := (argv.map Prod.fst : List Nat)

theorem fetchaddr_spec {addr : Nat} (h : Space L k t rest) (ha : AddrSpace L t.pte sz tf) :
    wp E (fetchaddr L ⟨sz, t.root⟩ addr) k fun _ k' => ∃ t', Faulted L k k' t t' rest sz tf := by
  unfold fetchaddr
  split
  case isTrue => exact ⟨t, Faulted.refl h ha⟩
  case isFalse =>
  refine (copyin_spec h ha).bind fun r k' hf => ?_
  cases r with
  | none => exact hf
  | some bs => exact hf

theorem fetchArgs_spec {uargv n i : Nat} {argv : List (Nat × List Nat)}
    (h : Space L k t (argPages argv + rest)) (ha : AddrSpace L t.pte sz tf)
    (hlen : ∀ a ∈ argv, a.2.length < PGSIZE) :
    wp E (fetchArgs L ⟨sz, t.root⟩ uargv n i argv) k fun r k' => ∃ t',
      Space L k' t' (argPages r.2 + rest) ∧ AddrSpace L t'.pte sz tf ∧ t'.root = t.root ∧
      Same rest k k' ∧ ∀ a ∈ r.2, a.2.length < PGSIZE := by
  induction n generalizing k t i argv with
  | zero => exact ⟨t, h, ha, rfl, Same.refl _ _, hlen⟩
  | succ n ih =>
    unfold fetchArgs
    refine (fetchaddr_spec h ha).bind ?_
    rintro r k1 ⟨t1, hf1⟩
    have hs1 : Same rest k k1 := fun q hq => hf1.same q (subset_add_right hq)
    cases r with
    | none => exact ⟨t1, hf1.space, hf1.addr, hf1.root, hs1, hlen⟩
    | some uarg =>
      dsimp only
      split
      case isTrue => exact ⟨t1, hf1.space, hf1.addr, hf1.root, hs1, hlen⟩
      case isFalse =>
      refine (kalloc_spec hf1.space.own).bind fun r k2 hr => ?_
      cases r with
      | none =>
        obtain ⟨rfl, -⟩ := hr
        exact ⟨t1, hf1.space, hf1.addr, hf1.root, hs1, hlen⟩
      | some page =>
        have hpages : ∀ arg, argPages (argv ++ [(page, arg)]) + rest =
            page ::ₘ (argPages argv + rest) := by
          intro arg
          rw [argPages, argPages, List.map_append, ← coe_add, List.map_cons, List.map_nil,
            Multiset.coe_singleton, ← singleton_add]
          abel
        -- the page is in hand, with whatever it holds
        have hfresh : ∀ content, Space L (k2.setPage page content) t1
          (page ::ₘ (argPages argv + rest)) ∧
            Same rest k (k2.setPage page content) := by
          intro content
          obtain ⟨hsp, hs⟩ := hf1.space.fresh hr.1 hr.2 content
          exact ⟨hsp, hs1.trans hs.right.right⟩
        have hsame : k2.setPage page (k2.mem page) = k2 := by
          simp [Kmem.setPage]
        obtain ⟨hsp2, hs2⟩ := hfresh (k2.mem page)
        rw [hsame] at hsp2 hs2
        have hstr := copyinstr_spec (E := E) uarg PGSIZE hsp2
        rw [hf1.root] at hstr
        refine hstr.bind ?_
        rintro r k3 ⟨hk, hr3⟩
        subst hk
        cases r with
        | none =>
          refine ⟨t1, ?_, hf1.addr, hf1.root, hs2, fun a hmem => ?_⟩
          · rw [hpages]
            exact hsp2
          · rcases List.mem_append.mp hmem with hmem | hmem
            · exact hlen a hmem
            · obtain rfl : a = (page, []) := by simpa using hmem
              exact Nat.zero_lt_succ _
        | some arg =>
          obtain ⟨hsp4, hs4⟩ := hfresh ((k3.mem page).setBytes 0 (arg ++ [0]))
          rw [← hpages arg] at hsp4
          rw [wp_bind]
          rw [wp_get]
          rw [wp_bind]
          rw [wp_writePage, ← hf1.root]
          refine (ih hsp4 hf1.addr fun a hmem => ?_).mono ?_
          · rcases List.mem_append.mp hmem with hmem | hmem
            · exact hlen a hmem
            · obtain rfl : a = (page, arg) := by simpa using hmem
              exact hr3 arg rfl
          · rintro r k5 ⟨t5, hsp5, ha5, hroot5, hs5, hlen5⟩
            exact ⟨t5, hsp5, ha5, hroot5, hs4.trans hs5, hlen5⟩

theorem freeArgs_spec {argv : List (Nat × List Nat)} (h : Owns L k (argPages argv + used)) :
    wp E (freeArgs L argv) k fun _ k' => Owns L k' used ∧ Same used k k' := by
  induction argv generalizing k with
  | nil =>
    rw [argPages, List.map_nil, coe_nil, zero_add] at h
    exact ⟨h, Same.refl _ _⟩
  | cons a argv ih =>
    obtain ⟨page, arg⟩ := a
    rw [argPages, List.map_cons, ← cons_coe, cons_add] at h
    refine (kfree_spec h).bind fun _ k1 ⟨hown1, hs1⟩ => ?_
    refine (ih hown1).mono fun _ k2 ⟨hown2, hs2⟩ => ⟨hown2, Same.trans (fun q hq => ?_) hs2⟩
    exact hs1 q (subset_add_right hq)

end Xv6.Vm
