import Xv6.Vm.Calls

/-! `sbrk`, `pipe` and `exec`, and that every operation keeps the ownership. -/

namespace Xv6.Vm

open Finset Function Multiset
open Wait (Slot initproc wrap)

variable {E : String → Prop} {L : Layout} {s s' : Sys} {T T' : Slot → Table} {hand : Multiset Nat}
  {R : Multiset (Fin NFILE)} {p : Slot} {A : Slot → Prop}

section sbrk

variable {pte pte' : Nat → Nat} {sz newsz tf : Nat}

theorem AddrSpace.grow {perm : Nat} (h : AddrSpace L pte sz tf) (hn : newsz ≤ TRAPFRAME)
    (hf : Filled pte pte' (npages sz) (npages newsz - npages sz) perm) :
    AddrSpace L pte' (max sz newsz) tf := by
  have h1 := npages_le h.size
  have h2 := npages_le hn
  have h3 := npages_mono (Nat.le_max_left sz newsz)
  have h4 := npages_mono (Nat.le_max_right sz newsz)
  refine h.change (Nat.max_le.mpr ⟨h.size, hn⟩)
    (fun v hv => hf.other v (by omega)) fun v hv hne => ?_
  by_cases hin : npages sz ≤ v ∧ v < npages sz + (npages newsz - npages sz)
  · omega
  · rw [hf.other v hin] at hne
    rcases h.user v hne with hu | hu | hu
    · omega
    · omega
    · omega

theorem AddrSpace.shrink (h : AddrSpace L pte sz tf) :
    AddrSpace L (cleared pte (npages newsz) (npages sz - npages newsz)) (min sz newsz) tf := by
  have h1 := npages_le h.size
  refine h.change (le_trans (Nat.min_le_left _ _) h.size) (fun v hv => ?_) fun v hv hne => ?_
  · rw [cleared, if_neg (by omega)]
  unfold cleared at hne
  split at hne
  case isTrue => exact absurd rfl hne
  case isFalse hout =>
    have hu : v < npages sz := by
      rcases h.user v hne with hu | hu | hu
      · exact hu
      · omega
      · omega
    rcases Nat.le_total sz newsz with hle | hle
    · rwa [Nat.min_eq_left hle]
    · rw [Nat.min_eq_right hle]
      omega

theorem Inv.resize {k : Kmem} {t : Table} (h : Inv L s T hand s.refs)
    (hp : (s.proc p).state = .runnable) (hA : A p)
    (hsp : Space L k t ((s.proc p).trapframe ::ₘ (rest s T p + hand)))
    (ha : AddrSpace L t.pte sz (s.proc p).trapframe) (hroot : t.root = (T p).root)
    (hs : Same (rest s T p) s.k k) :
    Inv L ((s.setK k).setProc p { s.proc p with sz }) (update T p t) hand
        ((s.setK k).setProc p { s.proc p with sz }).refs ∧
      Frame A s ((s.setK k).setProc p { s.proc p with sz }) T (update T p t) := by
  have hlive := Life.live hp
  refine ⟨?_, Frame.setProc fun _ => hA⟩
  have hinv := h.setSpace hlive hsp ha hs
  rw [hroot, ((h.procs p).live hlive).root] at hinv
  have hrefs : ((s.setK k).setProc p { s.proc p with sz := sz }).refs = s.refs :=
    refs_setProc_of_eq rfl
  rw [hrefs]
  exact hinv

def Unchanged (s s' : Sys) (T T' : Slot → Table) (p : Slot) : Prop :=
  (s'.proc p).state = (s.proc p).state ∧ (s'.proc p).sz = (s.proc p).sz ∧ (T' p).pte = (T p).pte

theorem growproc_spec {n : Int} (h : Inv L s T 0 s.refs) (hp : (s.proc p).state = .runnable)
    (hA : A p) : wp E (growproc L p n) s fun r s' => ∃ T', Inv L s' T' 0 s'.refs ∧
      Frame A s s' T T' ∧ (r < 0 → Unchanged s s' T T' p) := by
  have hlive := Life.live hp
  obtain ⟨-, hroot, haddr, -⟩ := (h.procs p).live hlive
  have hsp := h.space hlive
  have hnone : ∃ T', Inv L s T' 0 s.refs ∧ Frame A s s T T' ∧ Unchanged s s T T' p :=
    ⟨T, h, Frame.refl A s T, rfl, rfl, rfl⟩
  rw [growproc, wp_getProc]
  split
  case isTrue =>
    split
    case isTrue =>
      obtain ⟨T', h1, h2, h3⟩ := hnone
      exact ⟨T', h1, h2, fun _ => h3⟩
    case isFalse hle =>
    rw [← hroot]
    refine wp_onK (uvmalloc_spec hsp haddr.size (by decide) (fun w h1 h2 => haddr.unmapped h1 h2)
      (.inl (Nat.le_of_not_lt hle))) fun r k ⟨t, hsp', hroot', hs, hr⟩ => ?_
    have hs' : Same (rest s T p) s.k k := fun x hx => hs x (by simp [hx])
    split
    case isTrue h0 =>
      have hpte : t.pte = (T p).pte := by
        rcases hr with ⟨hr, hf, -⟩ | ⟨-, hpte⟩
        · -- a process of size 0 that stays so
          have : npages (addInt (s.proc p).sz n) - npages (s.proc p).sz = 0 := by
            rw [show addInt (s.proc p).sz n = 0 by omega, show (s.proc p).sz = 0 by omega]
            rfl
          funext v
          exact hf.other v (by omega)
        · exact hpte
      have hinv : Inv L (s.setK k) (update T p t) 0 s.refs :=
        h.touch hlive hsp' (hpte ▸ haddr) hroot' hs'
      exact ⟨_, hinv, Frame.setK fun _ => hA, fun _ => ⟨rfl, rfl, by
        rw [update_self, hpte]⟩⟩
    case isFalse hne =>
      obtain ⟨hr, hf, -⟩ : r = max (s.proc p).sz (addInt (s.proc p).sz n) ∧ _ :=
        hr.resolve_right fun h0 => hne h0.1
      obtain ⟨hinv, hframe⟩ := h.resize hp hA hsp' (haddr.grow (Nat.le_of_not_lt hle) hf) hroot' hs'
      rw [← hr] at hinv hframe
      exact ⟨_, hinv, hframe, fun hlt => absurd hlt (by decide)⟩
  case isFalse =>
  split
  case isTrue =>
    rw [← hroot]
    refine wp_onK (uvmdealloc_spec hsp haddr.size) fun r k ⟨t, hr, hsp', hroot', hpte, hs⟩ => ?_
    have ha : AddrSpace L t.pte (min (s.proc p).sz (addInt (s.proc p).sz n))
      (s.proc p).trapframe := by
      rw [hpte]
      exact haddr.shrink
    obtain ⟨hinv, hframe⟩ := h.resize hp hA hsp' ha hroot' fun x hx => hs x (by simp [hx])
    rw [← hr] at hinv hframe
    exact ⟨_, hinv, hframe, fun hlt => absurd hlt (by decide)⟩
  case isFalse =>
    obtain ⟨T', h1, h2, h3⟩ := hnone
    exact ⟨T', h1, h2, fun _ => h3⟩

theorem sysSbrk_spec (a0 a1 : Int) (h : Inv L s T 0 s.refs) (hp : (s.proc p).state = .runnable)
    (hA : A p) : wp E (sysSbrk L p a0 a1) s fun r s' => ∃ T', Inv L s' T' 0 s'.refs ∧
      Frame A s s' T T' ∧ (r < 0 → Unchanged s s' T T' p) := by
  have hlive := Life.live hp
  obtain ⟨-, hroot, haddr, -⟩ := (h.procs p).live hlive
  have hnone : ∃ T', Inv L s T' 0 s.refs ∧ Frame A s s T T' ∧
    ((-1 : Int) < 0 → Unchanged s s T T' p) :=
    ⟨T, h, Frame.refl A s T, fun _ => ⟨rfl, rfl, rfl⟩⟩
  rw [sysSbrk, wp_getProc]
  split
  case isTrue =>
    refine (growproc_spec h hp hA).bind fun r s1 ⟨T1, hinv, hframe, hr⟩ => ?_
    split
    case isTrue hlt => exact ⟨T1, hinv, hframe, fun _ => hr hlt⟩
    case isFalse => exact ⟨T1, hinv, hframe, fun hlt => absurd hlt (by omega)⟩
  case isFalse =>
  split
  case isTrue => exact hnone
  case isFalse hge =>
  split
  case isTrue => exact hnone
  case isFalse hle =>
  rw [wp_modProc, wp_pure]
  have ha : AddrSpace L (T p).pte (addInt (s.proc p).sz (wrap a0)) (s.proc p).trapframe := by
    refine haddr.change (by omega) (fun _ _ => rfl) fun v hv hne => ?_
    have := npages_mono (Nat.le_of_not_lt hge)
    rcases haddr.user v hne with hu | hu | hu
    · omega
    · omega
    · omega
  obtain ⟨hinv, hframe⟩ := h.resize hp hA (h.space hlive) ha rfl (Same.refl _ _)
  exact ⟨_, hinv, hframe, fun hlt => absurd hlt (by omega)⟩

end sbrk

section pipe

variable {rf wf : Fin NFILE} {fd0 fd1 : Fin NOFILE}

theorem fdalloc_spec {f : Fin NFILE} : wp E (fdalloc p f) s fun r s' =>
    match r with
    | none => s' = s
    | some fd => (s.proc p).ofile fd = none ∧ s' = s.setProc p ((s.proc p).setFd fd (some f)) := by
  rw [fdalloc, wp_getProc]
  cases hfind : (List.finRange NOFILE).find? fun fd => (s.proc p).ofile fd = none with
  | none => rfl
  | some fd =>
    rw [wp_modProc]
    exact ⟨by simpa using List.find?_some hfind, rfl⟩

theorem Inv.setFd (h : Inv L s T hand R) (hp : (s.proc p).state = .runnable) (fd : Fin NOFILE)
    (o : Option (Fin NFILE)) : Inv L (s.setProc p ((s.proc p).setFd fd o)) T hand R := by
  have hlive := Life.live hp
  refine h.relabel hlive hlive rfl rfl rfl fun hz => ?_
  change (s.proc p).state = .zombie at hz
  rw [hp] at hz
  cases hz

theorem refs_addFd {fd : Fin NOFILE} {f : Fin NFILE} (hn : (s.proc p).ofile fd = none) :
    (s.setProc p ((s.proc p).setFd fd (some f))).refs = f ::ₘ s.refs := by
  have := refs_setFd s p fd (some f)
  rwa [hn, held_none, held_some, add_zero, add_comm, singleton_add] at this

theorem dropFiles_spec (h : Inv L s T 0 (rf ::ₘ wf ::ₘ s.refs)) :
    wp E (do fileclose L rf; fileclose L wf; pure (-1 : Int)) s fun _ s' =>
      Inv L s' T 0 s'.refs ∧ Frame A s s' T T := by
  refine (closeRef_spec h).bind fun _ s1 ⟨hinv1, hstep1⟩ => ?_
  refine (closeRef_spec hinv1).bind fun _ s2 ⟨hinv2, hstep2⟩ => ?_
  rw [← refs_congr (hstep2.proc.trans hstep1.proc)] at hinv2
  refine ⟨hinv2, (Frame.files hstep1 fun q _ _ fd g hg => ?_).trans
    (Frame.files hstep2 fun q _ _ fd g hg => ?_)⟩
  · exact mem_cons_of_mem (mem_refs hg)
  · rw [hstep1.proc] at hg
    exact mem_refs hg

theorem copyFds_spec {fdarray : Nat} (h : Inv L s T hand R) (hp : (s.proc p).state = .runnable) :
    wp E (copyFds L p fdarray fd0 fd1) s fun _ s' => ∃ k t, s' = s.setK k ∧
      Inv L s' (update T p t) hand R := by
  have hlive := Life.live hp
  obtain ⟨-, hroot, haddr, -⟩ := (h.procs p).live hlive
  rw [copyFds, wp_getProc, Proc.cur, ← hroot]
  refine wp_onK (copyout_spec (h.space hlive) haddr) ?_
  rintro r k ⟨t, hf, _⟩
  split
  case isTrue => exact ⟨k, t, rfl, h.faulted hlive hf⟩
  case isFalse =>
  rw [← hf.root]
  refine wp_onK (copyout_spec hf.space hf.addr) ?_
  rintro r k' ⟨t', hf', _⟩
  have hinv := h.faulted hlive (hf.trans hf')
  split
  case isTrue | isFalse => exact ⟨k', t', rfl, hinv⟩

theorem pipeFds_spec {fdarray : Nat} (h : Inv L s T 0 s.refs) (hp : (s.proc p).state = .runnable)
    (hA : A p) (h0 : (s.proc p).ofile fd0 = some rf) (h1 : (s.proc p).ofile fd1 = some wf)
    (hne : fd1 ≠ fd0) :
    wp E (do
      if ← copyFds L p fdarray fd0 fd1 then pure 0
      else do
        clearFd p fd0
        clearFd p fd1
        fileclose L rf
        fileclose L wf
        pure (-1 : Int)) s fun _ s' => Done L A s T s' := by
  refine (copyFds_spec h hp).bind ?_
  rintro r s1 ⟨k, t, hs1, hinv⟩
  subst hs1
  have hframe : Frame A s (s.setK k) T (update T p t) := Frame.setK fun _ => hA
  cases r with
  | true => exact ⟨_, hinv, hframe⟩
  | false =>
    rw [if_neg (by simp), clearFd, clearFd, wp_modProc, wp_modProc]
    rw [setProc_self, setProc_setProc, setK_proc]
    -- the descriptors go first, so the references are in hand when the files are closed
    have hinv1 : Inv L ((s.setK k).setProc p ((s.proc p).setFd fd0 none)) (update T p t) 0
        (rf ::ₘ ((s.setK k).setProc p ((s.proc p).setFd fd0 none)).refs) := by
      have hc : s.refs = rf ::ₘ ((s.setK k).setProc p ((s.proc p).setFd fd0 none)).refs :=
        refs_clearFd h0
      rw [← hc]
      exact hinv.setFd hp fd0 none
    have h1' : (((s.setK k).setProc p ((s.proc p).setFd fd0 none)).proc p).ofile fd1 = some wf := by
      rw [setProc_self]
      exact (update_of_ne hne _ _).trans h1
    have hinv2 := hinv1.setFd (by rw [setProc_self]; exact hp) fd1 none
    rw [refs_clearFd h1', setProc_self, setProc_setProc] at hinv2
    have hframe2 : Frame A (s.setK k)
        ((s.setK k).setProc p (((s.proc p).setFd fd0 none).setFd fd1 none))
        (update T p t) (update T p t) := Frame.setProc_same fun _ => hA
    exact (dropFiles_spec hinv2).mono fun _ s' h' =>
      ⟨_, h'.1, (hframe.trans hframe2).trans h'.2⟩

theorem sysPipe_spec {fdarray : Nat} (h : Inv L s T 0 s.refs) (hp : (s.proc p).state = .runnable)
    (hA : A p) : wp E (sysPipe L p fdarray) s fun _ s' => Done L A s T s' := by
  refine (pipealloc_spec h.ftable).bind ?_
  rintro r s1 ⟨hs1, hstep1, hr⟩
  have hframe1 : Frame A s s1 T T := Frame.files hstep1 fun q _ _ fd g hg => mem_refs hg
  have hp1 : (s1.proc p).state = .runnable := by rw [hstep1.proc]; exact hp
  have hrefs1 : s1.refs = s.refs := refs_congr hstep1.proc
  rcases r with - | ⟨rf, wf⟩
  · have hinv1 := h.setFiles hr hs1 hstep1
    rw [← hrefs1] at hinv1
    exact ⟨T, hinv1, hframe1⟩
  have hinv1 := h.setFiles hr hs1 hstep1
  rw [← hrefs1] at hinv1
  refine fdalloc_spec.bind fun r s2 hr2 => ?_
  cases r with
  | none =>
    obtain rfl : s2 = s1 := hr2
    exact (dropFiles_spec hinv1).mono fun _ s' h' => ⟨T, h'.1, hframe1.trans h'.2⟩
  | some fd0 =>
    obtain ⟨hn0, rfl⟩ := hr2
    have hframe2 : Frame A s (s1.setProc p ((s1.proc p).setFd fd0 (some rf))) T T :=
      hframe1.trans (Frame.setProc_same fun _ => hA)
    have hinv2 := hinv1.setFd hp1 fd0 (some rf)
    rw [Multiset.cons_swap, ← refs_addFd hn0] at hinv2
    have h0 : ((s1.setProc p ((s1.proc p).setFd fd0 (some rf))).proc p).ofile fd0 = some rf := by
      rw [setProc_self]
      exact update_self _ _ _
    have hp2 : ((s1.setProc p ((s1.proc p).setFd fd0 (some rf))).proc p).state = .runnable := by
      rw [setProc_self]
      exact hp1
    generalize s1.setProc p ((s1.proc p).setFd fd0 (some rf)) = s2 at *
    refine fdalloc_spec.bind fun r s3 hr3 => ?_
    cases r with
    | none =>
      obtain rfl := hr3
      rw [clearFd, wp_modProc]
      have hinv3 := hinv2.setFd hp2 fd0 none
      rw [refs_clearFd h0, Multiset.cons_swap] at hinv3
      exact (dropFiles_spec hinv3).mono fun _ s' h' =>
        ⟨T, h'.1, (hframe2.trans (Frame.setProc_same fun _ => hA)).trans h'.2⟩
    | some fd1 =>
      obtain ⟨hn1, rfl⟩ := hr3
      have hne : fd1 ≠ fd0 := fun he => by rw [he, h0] at hn1; cases hn1
      have hinv3 := hinv2.setFd hp2 fd1 (some wf)
      rw [← refs_addFd hn1] at hinv3
      refine (pipeFds_spec hinv3 (by rw [setProc_self]; exact hp2) hA ?_ ?_ hne).mono ?_
      · rw [setProc_self]
        exact (update_of_ne hne.symm _ _).trans h0
      · rw [setProc_self]
        exact update_self _ _ _
      · rintro _ s' ⟨T', hinv', hframe'⟩
        exact ⟨T', hinv', (hframe2.trans (Frame.setProc_same fun _ => hA)).trans hframe'⟩

end pipe

section exec

/-- Two tables share memory: what one owns is in use for other things from the side of the other. -/
theorem Space.swap {k : Kmem} {t old : Table} {tf : Nat} {used : Multiset Nat}
    (h : Space L k t (old.tables + (userPages old.pte + tf ::ₘ used))) (hrep : Rep k.mem old)
    (hvalid : ∀ v, old.pte v ≠ 0 → old.pte v &&& PTE_V ≠ 0) :
    Space L k old (tf ::ₘ (t.tables + (userPages t.pte + used))) := by
  refine ⟨⟨hrep, ?_⟩, hvalid⟩
  convert h.own using 1
  simp only [← singleton_add]
  abel

def Kmem.poke (k : Kmem) (pa i x : Nat) : Kmem := k.setPage pa (update (k.mem pa) i x)

theorem Kmem.poke_same (k : Kmem) (pa i x : Nat) : (k.poke pa i x).mem pa i = x := by
  rw [poke, setPage_same, update_self]

theorem Kmem.poke_of_ne {k : Kmem} {pa i j x : Nat} (h : j ≠ i) :
    (k.poke pa i x).mem pa j = k.mem pa j := by
  rw [poke, setPage_same, update_of_ne h]

theorem Space.poke {k : Kmem} {t : Table} {pa : Nat} {used : Multiset Nat}
    (h : Space L k t (pa ::ₘ used)) (i x : Nat) :
    Space L (k.poke pa i x) t (pa ::ₘ used) ∧ Same used k (k.poke pa i x) := h.writeHand _

theorem wp_poke {α : Type} {a i x : Nat} {g : Unit → Prog Sys α} {Q : α → Sys → Prop} :
    wp E (onK (writeWord a i x) >>= g) s Q ↔ wp E (g ()) (s.setK (s.k.poke a i x)) Q := wp_bind _ _

/-- All pages in use in a state in which `p` is a process. -/
def inUse (s : Sys) (T : Slot → Table) (p : Slot) (hand : Multiset Nat) : Multiset Nat :=
  (T p).tables + (userPages (T p).pte + (s.proc p).trapframe ::ₘ (rest s T p + hand))

theorem mem_inUse {x : Nat} (h : x ∈ rest s T p + hand) : x ∈ inUse s T p hand :=
  subset_add_right (subset_add_right (mem_cons_of_mem h))

/-- `kexec` has given back all it took: memory differs in free pages only. -/
def Restored (L : Layout) (s : Sys) (used : Multiset Nat) (s' : Sys) : Prop :=
  ∃ k, Owns L k used ∧ Same used s.k k ∧ s' = s.setK k

/-- `kexec` has committed: `p` has the image of the file, and all else is as it was. -/
structure Committed (L : Layout) (s : Sys) (T : Slot → Table) (hand : Multiset Nat) (p : Slot)
    (f : Exe) (argv : List (List Nat)) (s' : Sys) (k : Kmem) (t : Table) (im : Image) : Prop where
  space : Space L k t ((s.proc p).trapframe ::ₘ (rest s T p + hand))
  root : t.root = im.pagetable
  addr : AddrSpace L t.pte im.sz (s.proc p).trapframe
  same : Same (rest s T p + hand) s.k k
  a1 : k.mem (s.proc p).trapframe 15 = im.sp
  stack : k.mem (s.proc p).trapframe 6 = im.sp
  epc : k.mem (s.proc p).trapframe 3 = im.entry
  image : NewImage k t.pte f argv im
  state : s' = (s.setK k).setProc p { s.proc p with pagetable := im.pagetable, sz := im.sz }

/-- `kexec` fails and has given back all it took, or commits to the image of the file. -/
theorem kexec_cases {exe : Option Exe} {argv : List (List Nat)} (h : Inv L s T hand R)
    (hp : (s.proc p).state ≠ .unused) (hargs : ∀ arg ∈ argv, arg.length < 2147483647) :
    wp E (kexec L p exe argv) s fun r s' => r = -1 ∧ Restored L s (inUse s T p hand) s' ∨
      r = argv.length ∧ ∃ f k t im, exe = some f ∧ Committed L s T hand p f argv s' k t im := by
  have hlive := (h.procs p).live hp
  have hown : Owns L s.k (inUse s T p hand) := (h.space hp).own
  rw [kexec, wp_getProc]
  cases exe with
  | none => exact .inl ⟨rfl, s.k, hown, Same.refl _ _, rfl⟩
  | some f =>
    refine wp_onK (buildImage_spec hown (s.proc p).trapframe hargs) fun r k ⟨hs, hr⟩ => ?_
    cases r with
    | none => exact .inl ⟨rfl, k, hr, hs, rfl⟩
    | some im =>
      obtain ⟨t, hroot, hsp, haddr, himage⟩ := hr
      dsimp only
      rw [wp_poke, wp_modProc, wp_poke, wp_poke, ← hlive.root]
      obtain ⟨h1, hs1⟩ := (hsp.swap (hlive.rep.congr hs.left) hlive.valid).poke 15 im.sp
      obtain ⟨h2, hs2⟩ := h1.poke 3 im.entry
      obtain ⟨h3, hs3⟩ := h2.poke 6 im.sp
      have hfree := procFreepagetable_spec (E := E) h3 hlive.addr
      refine wp_onK hfree fun _ k' ⟨hown', hs'⟩ => ?_
      -- the new table and everything else have kept their contents from `k` on
      have hsame : Same (t.tables + (userPages t.pte + (rest s T p + hand))) k k' :=
        ((hs1.trans hs2).trans hs3).trans fun x hx => hs' x (mem_cons_of_mem hx)
      have htf := hs' _ (mem_cons_self (s.proc p).trapframe _)
      refine .inr ⟨congrArg Nat.cast himage.argc, f, k', t, im, rfl,
        ⟨⟨hsp.heap.rep.congr hsame.left, ?_⟩, hsp.valid⟩, hroot, haddr, ?_, ?_, ?_, ?_,
        himage.congr fun v hv hne => ?_, rfl⟩
      · convert hown' using 1
        simp only [← singleton_add]
        abel
      · exact Same.trans (fun x hx => hs x (mem_inUse hx)) hsame.right.right
      · rw [htf, Kmem.poke_of_ne (by decide), Kmem.poke_of_ne (by decide), Kmem.poke_same]
      · rw [htf, Kmem.poke_same]
      · rw [htf, Kmem.poke_of_ne (by decide), Kmem.poke_same]
      · exact hsame _ (subset_add_right (mem_add.mpr (.inl (mem_userPages.mpr
          ⟨v, hv.trans_le (npages_le haddr.size), if_pos (hsp.valid v hne)⟩))))

theorem kexec_spec {exe : Option Exe} {argv : List (List Nat)} (h : Inv L s T hand s.refs)
    (hp : (s.proc p).state = .runnable) (hA : A p) (hargs : ∀ arg ∈ argv, arg.length < PGSIZE) :
    wp E (kexec L p exe argv) s fun _ s' => ∃ T', Inv L s' T' hand s'.refs ∧ Frame A s s' T T' := by
  have hlive := Life.live hp
  obtain ⟨hrep, -, haddr, hvalid⟩ := (h.procs p).live hlive
  have hlen : ∀ arg ∈ argv, arg.length < 2147483647 := fun arg harg =>
    (hargs arg harg).trans (by decide)
  refine (kexec_cases h hlive hlen).mono fun r s' hr => ?_
  rcases hr with ⟨-, k, hown, hs, rfl⟩ | ⟨-, f, k, t, im, -, hc⟩
  · have hinv : Inv L (s.setK k) (update T p (T p)) hand (s.setK k).refs :=
      h.touch hlive ⟨⟨hrep.congr hs.left, hown⟩, hvalid⟩ haddr rfl fun x hx =>
        hs x (mem_inUse (by simp [hx]))
    exact ⟨_, hinv, Frame.setK fun _ => hA⟩
  · have hinv := h.setSpace hlive hc.space hc.addr fun x hx => hc.same x (by simp [hx])
    have hrefs : ((s.setK k).setProc p
        { s.proc p with pagetable := im.pagetable, sz := im.sz }).refs = s.refs :=
      refs_setProc_of_eq rfl
    rw [hc.root, ← hrefs] at hinv
    exact hc.state ▸ ⟨_, hinv, Frame.setProc fun _ => hA⟩

theorem Inv.freeArgs {argv : List (Nat × List Nat)} (h : Inv L s T (argPages argv) R) :
    wp E (onK (freeArgs L argv)) s fun _ s' => Inv L s' T 0 R ∧ ∃ k, s' = s.setK k := by
  have hown : Owns L s.k (argPages argv +
      (∑ p, foot (s.proc p) (T p) + ((pipeSet s.file).val + (s.kept + 0)))) := by
    convert h.own using 1
    abel
  refine wp_on.mpr ((freeArgs_spec hown).mono fun _ k ⟨hown', hs⟩ => ⟨?_, k, rfl⟩)
  exact h.setK hown' hs.left

theorem sysExec_spec {upath uargv : Nat} {namei : List Nat → Option Exe} (h : Inv L s T 0 s.refs)
    (hp : (s.proc p).state = .runnable) (hA : A p) :
    wp E (sysExec L p upath uargv namei) s fun _ s' => Done L A s T s' := by
  have hlive := Life.live hp
  obtain ⟨-, hroot, haddr, -⟩ := (h.procs p).live hlive
  have hsp := h.space hlive
  rw [sysExec, wp_getProc, Proc.cur, ← hroot]
  refine wp_onK (copyinstr_spec upath MAXPATH hsp) ?_
  rintro r k ⟨hk, _⟩
  subst hk
  cases r with
  | none => exact Done.refl h
  | some path =>
    have hsp0 : Space L s.k (T p) (argPages [] + (s.proc p).trapframe ::ₘ (rest s T p + 0)) := by
      rw [argPages, List.map_nil, coe_nil, zero_add]
      exact hsp
    refine wp_onK (fetchArgs_spec hsp0 haddr (by simp)) ?_
    rintro r k ⟨t, hsp1, haddr1, hroot1, hs1, hlen⟩
    obtain ⟨ok, argv⟩ := r
    have hsp2 : Space L k t ((s.proc p).trapframe ::ₘ (rest s T p + argPages argv)) := by
      convert hsp1 using 1
      simp only [← singleton_add]
      abel
    have hinv : Inv L (s.setK k) (update T p t) (argPages argv) (s.setK k).refs :=
      h.touch hlive hsp2 haddr1 hroot1 fun x hx => hs1 x (by simp [hx])
    have hframe : Frame A s (s.setK k) T (update T p t) := Frame.setK fun _ => hA
    dsimp only
    split
    case isTrue =>
      refine hinv.freeArgs.bind ?_
      rintro _ s2 ⟨hinv2, k2, hs2⟩
      subst hs2
      exact ⟨_, hinv2, hframe.trans Frame.setK_same⟩
    case isFalse =>
      have hargs : ∀ arg ∈ argv.map Prod.snd, arg.length < PGSIZE := by
        intro arg harg
        obtain ⟨a, hmem, rfl⟩ := List.mem_map.mp harg
        exact hlen a hmem
      refine (kexec_spec hinv hp hA hargs).bind ?_
      rintro _ s2 ⟨T2, hinv2, hframe2⟩
      refine hinv2.freeArgs.bind ?_
      rintro _ s3 ⟨hinv3, k3, hs3⟩
      subst hs3
      exact ⟨T2, hinv3, (hframe.trans hframe2).trans Frame.setK_same⟩

end exec

end Xv6.Vm
