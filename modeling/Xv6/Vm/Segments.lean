import Xv6.Vm.Contents
import Xv6.Vm.Copy

/-! Loading the segments of any file: the pages below the size reached are mapped, and hold what the
program headers say. -/

namespace Xv6.Vm

open Finset

variable {E : String → Prop} {L : Layout} {k k' : Kmem} {t t' : Table} {used rest : Multiset Nat}
  {sz tf : Nat} {f : Exe}

theorem or_and_ne {a m : Nat} (b : Nat) (h : a &&& m ≠ 0) : (a ||| b) &&& m ≠ 0 := by
  rw [Nat.and_or_distrib_right]
  have := Nat.left_le_or (n := a &&& m) (m := b &&& m)
  omega

/-- A space in which every page below `sz` is mapped for the user, who can read it. -/
structure Loaded (L : Layout) (k : Kmem) (t : Table) (rest : Multiset Nat) (sz tf : Nat) :
    Prop where
  space : Space L k t rest
  addr : AddrSpace L t.pte sz tf
  full : ∀ v < npages sz, t.pte v &&& PTE_U ≠ 0
  read : ∀ v < npages sz, t.pte v &&& PTE_R ≠ 0

theorem Loaded.nonzero (h : Loaded L k t rest sz tf) {v : Nat} (hv : v < npages sz) :
    t.pte v ≠ 0 := fun h0 => h.full v hv (by rw [h0, Nat.zero_and])

theorem Loaded.few (h : Loaded L k t rest sz tf) : npages sz < 32768 :=
  h.space.few fun _ hv => h.nonzero hv

theorem Space.user_page {v : Nat} (h : Space L k t rest) (hv : v < UPAGES)
    (hu : t.pte v &&& PTE_U ≠ 0) :
    pte2pa (t.pte v) ∈ userPages t.pte ∧ pte2pa (t.pte v) ≠ 0 := by
  have hmem : pte2pa (t.pte v) ∈ userPages t.pte :=
    mem_userPages.mpr ⟨v, hv, leafPage_user (h.valid v) hu⟩
  exact ⟨hmem, h.own.pos (Multiset.subset_add_right (Multiset.subset_add_left hmem))⟩

theorem Loaded.page_mem (h : Loaded L k t rest sz tf) {v : Nat} (hv : v < npages sz) :
    pte2pa (t.pte v) ∈ userPages t.pte :=
  (h.space.user_page (h.addr.user_lt (h.full v hv)) (h.full v hv)).1

theorem Loaded.grow {newsz xperm : Nat} (h : Loaded L k t rest sz tf) (hx : xperm < 16) :
    wp E (uvmalloc L t.root sz newsz xperm) k fun r k' => ∃ t', t'.root = t.root ∧
      Same rest k k' ∧ (r = max sz newsz ∧ Loaded L k' t' rest r tf ∧
        (∀ bytes, Holds k t.pte sz bytes → Holds k' t'.pte r bytes) ∨
        r = 0 ∧ Loaded L k' t' rest sz tf) := by
  have hperm := perm_lt hx
  refine (uvmalloc_spec h.space h.addr.size hx (fun w h1 h2 => h.addr.unmapped h1 h2)
    (.inr fun w hw => h.nonzero hw)).mono fun r k' ⟨t', hsp, hroot, hs, hr⟩ => ?_
  refine ⟨t', hroot, hs.right, ?_⟩
  rcases hr with ⟨hr, hfill, hzero⟩ | ⟨hr, hpte⟩
  · have hnp : npages r = max (npages sz) (npages newsz) := by
      rw [hr]
      rcases Nat.le_total sz newsz with hle | hle
      · rw [Nat.max_eq_right hle, Nat.max_eq_right (npages_mono hle)]
      · rw [Nat.max_eq_left hle, Nat.max_eq_left (npages_mono hle)]
    have hcount : npages r - npages sz = npages newsz - npages sz := by omega
    refine .inl ⟨hr, ?_, fun bytes hb => ?_⟩
    · -- old pages keep their flags, and new ones have both
      have hflag : ∀ m < 1024, (PTE_R ||| PTE_U) &&& m ≠ 0 → (∀ v < npages sz, t.pte v &&& m ≠ 0) →
          ∀ v < npages r, t'.pte v &&& m ≠ 0 := by
        intro m hm hbit hold v hv
        by_cases hlt : v < npages sz
        · rw [hfill.other v (by omega)]
          exact hold v hlt
        · obtain ⟨pa, -, -, hpa⟩ := hfill.new v (by omega) (by omega)
          rw [hpa, and_pte _ hperm hm]
          exact or_and_ne _ (or_and_ne _ hbit)
      have hfull := hflag PTE_U (by decide) (by decide) h.full
      have hfew := hsp.few fun v hv h0 => hfull v hv (by rw [h0, Nat.zero_and])
      refine ⟨hsp, h.addr.change ?_ (fun v hv => ?_) (fun v hv hne => ?_), hfull,
        hflag PTE_R (by decide) (by decide) h.read⟩
      · simp only [npages, PGSIZE, TRAPFRAME] at *
        omega
      · refine hfill.other v ?_
        simp only [UPAGES] at hv
        omega
      · by_contra hge
        refine hne ?_
        rw [hfill.other v (by omega)]
        exact h.addr.unmapped (by omega) hv
    · rw [← hcount] at hfill hzero
      exact hb.grow (by omega)
        (fun v hv => hs _ (Multiset.subset_add_left (h.page_mem hv))) hfill hzero
  · exact .inr ⟨hr, hsp, hpte ▸ h.addr, hpte ▸ h.full, hpte ▸ h.read⟩

theorem flags2perm_lt (flags : Nat) : flags2perm flags < 16 := by
  unfold flags2perm
  split <;> split <;> decide

def Exe.slice (f : Exe) (off n : Nat) : List Nat :=
  (List.range n).map fun i => f.byte (off + i) % 256

theorem Exe.length_slice (f : Exe) (off n : Nat) : (f.slice off n).length = n := by simp [slice]

theorem Exe.slice_append (f : Exe) (off m n : Nat) :
    f.slice off m ++ f.slice (off + m) n = f.slice off (m + n) := by
  simp [slice, List.range_add, List.map_map, Function.comp_def, add_assoc]

theorem Exe.readi_eq {off n : Nat} (hn : (f.readi off n).length = n) (h0 : n ≠ 0) :
    off + n ≤ f.size ∧ off + n < 4294967296 ∧ f.readi off n = f.slice off n := by
  unfold readi at *
  split at hn
  case isTrue => exact absurd hn.symm h0
  case isFalse h =>
    rw [if_neg h]
    rw [List.length_map, List.length_range] at hn
    rw [hn]
    exact ⟨by omega, by omega, rfl⟩

theorem Exe.readi_lt (f : Exe) (off n : Nat) : ∀ b ∈ f.readi off n, b < 256 := by
  intro b hb
  unfold readi at hb
  split at hb
  · cases hb
  · obtain ⟨i, -, rfl⟩ := List.mem_map.mp hb
    exact Nat.mod_lt _ (by decide)

theorem Exe.length_readi_le (f : Exe) (off n : Nat) : (f.readi off n).length ≤ n := by
  unfold readi
  split
  · exact Nat.zero_le n
  · rw [List.length_map, List.length_range]
    exact Nat.min_le_left _ _

/-- From `k` to `k'`, `n` bytes of the file from `off` on have been loaded at `va`. -/
structure Transfer (f : Exe) (k k' : Kmem) (pte : Nat → Nat) (sz va off n : Nat) : Prop where
  inside : n = 0 ∨ off + n ≤ f.size ∧ off + n < 4294967296
  holds : ∀ bytes, Holds k pte sz bytes → Holds k' pte sz (put bytes va (f.slice off n))

theorem Transfer.zero (f : Exe) (k : Kmem) (pte : Nat → Nat) (sz va off : Nat) :
    Transfer f k k pte sz va off 0 := ⟨.inl rfl, fun bytes hb => by
  rw [show f.slice off 0 = [] from rfl, put_nil]
  exact hb⟩

theorem loadPage_spec {k1 : Kmem} {va offset filesz j : Nat} (h : Loaded L k1 t rest sz tf)
    (hva : va + filesz ≤ sz) (halign : va % PGSIZE = 0) (hoff : offset < 4294967296)
    (hj : j * PGSIZE < filesz) (ht : Transfer f k k1 t.pte sz va offset (j * PGSIZE)) :
    wp E (loadPage t.root va f offset filesz (j * PGSIZE)) k1 fun r k2 =>
      Loaded L k2 t rest sz tf ∧ Same rest k1 k2 ∧
      (r = none → Transfer f k k2 t.pte sz va offset (min ((j + 1) * PGSIZE) filesz)) := by
  have hsize := h.addr.size
  obtain ⟨v, hv⟩ : ∃ v, va + j * PGSIZE = v * PGSIZE := ⟨va / PGSIZE + j, by
    simp only [PGSIZE] at *
    omega⟩
  have hvn : v < npages sz := by
    simp only [npages, PGSIZE] at *
    omega
  have hu := h.full v hvn
  have hup := h.addr.user_lt hu
  have hmax : v * PGSIZE < MAXVA :=
    lt_of_lt_of_le (Nat.mul_lt_mul_of_pos_right hup (by decide)) (by decide)
  obtain ⟨hmem, hpos⟩ := h.space.user_page hup hu
  unfold loadPage
  rw [hv]
  refine (walkaddr_spec h.space _).bind ?_
  rintro r k2 ⟨hk, hr⟩
  subst hk
  rw [Nat.mul_div_cancel _ (by decide), if_pos ⟨hmax, hu⟩] at hr
  subst hr
  rw [if_neg hpos]
  rw [wp_bind]
  refine (wp_bind _ _).mpr ?_
  generalize hbs : f.readi ((offset + j * PGSIZE) % 4294967296)
    (min (filesz - j * PGSIZE) PGSIZE) = bs
  have hlt : ∀ b ∈ bs, b < 256 := hbs ▸ f.readi_lt _ _
  have hlen : bs.length ≤ PGSIZE :=
    le_trans (hbs ▸ f.length_readi_le _ _) (Nat.min_le_right _ _)
  obtain ⟨hsp2, hs2⟩ := h.space.write hmem ((k2.mem (pte2pa (t.pte v))).setBytes 0 bs)
  have hload : Loaded L (k2.setPage (pte2pa (t.pte v)) ((k2.mem (pte2pa (t.pte v))).setBytes 0 bs))
      t rest sz tf := ⟨hsp2, h.addr, h.full, h.read⟩
  split
  case isTrue => exact ⟨hload, hs2, by simp⟩
  case isFalse hn =>
  refine ⟨hload, hs2, fun _ => ?_⟩
  -- the offset has not wrapped, since the pages before were read from below it
  have hmod : (offset + j * PGSIZE) % 4294967296 = offset + j * PGSIZE := by
    refine Nat.mod_eq_of_lt ?_
    rcases ht.inside with h0 | h0
    · omega
    · exact h0.2
  have hn' : bs.length = min (filesz - j * PGSIZE) PGSIZE := by omega
  rw [hmod] at hbs
  obtain ⟨h1, h2, h3⟩ := Exe.readi_eq (by rw [hbs]; exact hn') (by simp only [PGSIZE] at *; omega)
  rw [hbs] at h3
  have hsum : j * PGSIZE + min (filesz - j * PGSIZE) PGSIZE = min ((j + 1) * PGSIZE) filesz := by
    simp only [PGSIZE] at *
    omega
  refine ⟨.inr ⟨by omega, by omega⟩, fun bytes hb => ?_⟩
  have hw := (ht.holds bytes hb).write h.space (fun w hw => h.nonzero hw) (npages_le hsize) hvn
    (by rwa [zero_add]) hlt
  rw [add_zero, ← hv, show va + j * PGSIZE = va + (f.slice offset (j * PGSIZE)).length by
    rw [f.length_slice], put_append] at hw
  rw [h3, Exe.slice_append, hsum] at hw
  rw [h3]
  exact hw

/-- `loadseg` writes to user pages only, and ends. -/
theorem loadseg_spec {va offset filesz : Nat} (h : Loaded L k t rest sz tf)
    (hva : va + filesz ≤ sz) (halign : va % PGSIZE = 0) (hoff : offset < 4294967296) :
    wp E (loadseg t.root va f offset filesz) k fun r k' => Loaded L k' t rest sz tf ∧
      Same rest k k' ∧ (¬r < 0 → Transfer f k k' t.pte sz va offset filesz) := by
  have hloop := wp_search (E := E) (s := k) (i := 0) (n := npages filesz)
    (f := fun j => loadPage t.root va f offset filesz (j * PGSIZE))
    (Q := fun _ k' => Loaded L k' t rest sz tf ∧ Same rest k k')
    (fun j k' => Loaded L k' t rest sz tf ∧ Same rest k k' ∧
      Transfer f k k' t.pte sz va offset (min (j * PGSIZE) filesz))
    ⟨h, Same.refl _ _, by rw [zero_mul, Nat.zero_min]; exact Transfer.zero _ _ _ _ _ _⟩ ?_
  · refine hloop.bind fun r k' hr => ?_
    cases r with
    | some _ => exact ⟨hr.1, hr.2, fun hn => absurd (by decide) hn⟩
    | none =>
      have hfew := h.few
      rw [if_neg (by simp only [npages, PGSIZE] at *; omega)]
      obtain ⟨h1, h2, h3⟩ := hr
      rw [zero_add, show min (npages filesz * PGSIZE) filesz = filesz by
        simp only [npages, PGSIZE]; omega] at h3
      exact ⟨h1, h2, fun _ => h3⟩
  · rintro j k1 _ hj ⟨h1, hs1, ht1⟩
    have hlt : j * PGSIZE < filesz := by
      simp only [npages, PGSIZE] at *
      omega
    rw [Nat.min_eq_left (le_of_lt hlt)] at ht1
    refine (loadPage_spec h1 hva halign hoff hlt ht1).mono ?_
    rintro r k2 ⟨h2, hs2, ht2⟩
    cases r with
    | some _ => exact ⟨h2, hs1.trans hs2⟩
    | none => exact ⟨h2, hs1.trans hs2, ht2 rfl⟩

theorem foldr_lt {bs : List Nat} (h : ∀ b ∈ bs, b < 256) :
    bs.foldr (fun b n => b + 256 * n) 0 < 256 ^ bs.length := by
  induction bs with
  | nil => simp
  | cons b bs ih =>
    have hb := h b (by simp)
    have := ih fun c hc => h c (by simp [hc])
    rw [List.foldr_cons, List.length_cons, Nat.pow_succ]
    omega

theorem leNum_lt {bs : List Nat} (h : ∀ b ∈ bs, b < 256) (off w : Nat) :
    leNum bs off w < 256 ^ w := by
  refine lt_of_lt_of_le (foldr_lt fun b hb => h b ?_) (Nat.pow_le_pow_right (by decide) ?_)
  · exact List.mem_of_mem_drop (List.mem_of_mem_take hb)
  · simp

/-- A loadable segment: where it lies in the file and in memory. -/
structure Seg where
  off : Nat
  vaddr : Nat
  filesz : Nat
  memsz : Nat

def Seg.ofHeader (ph : List Nat) : Seg :=
  { off := leNum ph 8 8, vaddr := leNum ph 16 8, filesz := leNum ph 32 8, memsz := leNum ph 40 8 }

/-- The loadable segments among the program headers `i`, …, `i + n - 1`. -/
def segments (header : Nat → List Nat) : Nat → Nat → List Seg
  | 0, _ => []
  | n + 1, i =>
    if leNum (header i) 0 4 ≠ ELF_PROG_LOAD then segments header n (i + 1)
    else .ofHeader (header i) :: segments header n (i + 1)

/-- The bytes of memory after `kexec` has loaded a segment. -/
def Seg.load (f : Exe) (bytes : Nat → Nat) (s : Seg) : Nat → Nat :=
  put bytes s.vaddr (f.slice (s.off % 4294967296) s.filesz)

/-- A segment that `kexec` accepts and loads below `sz`. -/
structure Seg.Fits (f : Exe) (sz : Nat) (s : Seg) : Prop where
  aligned : s.vaddr % PGSIZE = 0
  file : s.filesz ≤ s.memsz
  memory : s.vaddr + s.memsz ≤ sz
  inside : s.filesz = 0 ∨ s.off % 4294967296 + s.filesz ≤ f.size

/-- The program header `i` as `kexec` reads it. -/
def Exe.phdr (f : Exe) (phoff i : Nat) : List Nat := f.readi ((phoff + i * 56) % 4294967296) 56

/-- From `k` to `k'` the segments have been loaded, and the space has grown to `sz'`. -/
structure Built (f : Exe) (k k' : Kmem) (pte pte' : Nat → Nat) (sz sz' : Nat) (segs : List Seg) :
    Prop where
  size : sz ≤ sz'
  fits : ∀ s ∈ segs, s.Fits f sz'
  holds : ∀ bytes, Holds k pte sz bytes → Holds k' pte' sz' (segs.foldl (Seg.load f) bytes)

theorem loadSegments_spec {phoff n i : Nat} (h : Loaded L k t rest sz tf) :
    wp E (loadSegments L t.root f phoff n i sz) k fun r k' => ∃ t', t'.root = t.root ∧
      Same rest k k' ∧ Loaded L k' t' rest r.2 tf ∧
      (r.1 = true → (∀ j, i ≤ j → j < i + n → (f.phdr phoff j).length = 56) ∧
        Built f k k' t.pte t'.pte sz r.2 (segments (f.phdr phoff) n i)) := by
  induction n generalizing k t i sz with
  | zero =>
    exact ⟨t, rfl, Same.refl _ _, h, fun _ => ⟨fun j h1 h2 => absurd h2 (by omega),
      Nat.le_refl sz, by rintro s ⟨⟩, fun _ hb => hb⟩⟩
  | succ n ih =>
    have hstop (P : Table → Prop) : ∃ t', t'.root = t.root ∧ Same rest k k ∧
        Loaded L k t' rest sz tf ∧ (false = true → P t') := ⟨t, rfl, Same.refl _ _, h, by simp⟩
    have hph : f.readi ((phoff + i * 56) % 4294967296) 56 = f.phdr phoff i := rfl
    have hbytes : ∀ b ∈ f.phdr phoff i, b < 256 := f.readi_lt _ _
    -- the headers from the next one on, and this one
    have hheads : (f.phdr phoff i).length = 56 →
        (∀ j, i + 1 ≤ j → j < i + 1 + n → (f.phdr phoff j).length = 56) →
        ∀ j, i ≤ j → j < i + (n + 1) → (f.phdr phoff j).length = 56 := by
      intro h0 hj j h1 h2
      by_cases hji : j = i
      · rw [hji, h0]
      · exact hj j (by omega) (by omega)
    unfold loadSegments
    rw [segments]
    simp only [hph]
    generalize f.phdr phoff i = ph at *
    split
    case isTrue => exact hstop _
    case isFalse hlen =>
    replace hlen : ph.length = 56 := Decidable.not_not.mp hlen
    split
    case isTrue =>
      refine (ih h).mono ?_
      rintro r k' ⟨t', hroot, hs, hl, hb⟩
      refine ⟨t', hroot, hs, hl, fun hok => ?_⟩
      obtain ⟨h1, h2⟩ := hb hok
      exact ⟨hheads hlen h1, h2⟩
    case isFalse =>
    split
    case isTrue => exact hstop _
    case isFalse hmem =>
    split
    case isTrue => exact hstop _
    case isFalse hover =>
    split
    case isTrue => exact hstop _
    case isFalse halign =>
    have hvaddr := leNum_lt hbytes 16 8
    have hmemsz := leNum_lt hbytes 40 8
    have hend : u64 (leNum ph 16 8 + leNum ph 40 8) = leNum ph 16 8 + leNum ph 40 8 := by
      simp only [u64] at *
      omega
    rw [hend]
    refine (h.grow (flags2perm_lt _)).bind ?_
    rintro sz1 k1 ⟨t1, hroot1, hs1, hr⟩
    rcases hr with ⟨hsz1, h1, hhold1⟩ | ⟨rfl, h1⟩
    · split
      case isTrue h0 =>
        have hz : sz = 0 := by omega
        exact ⟨t1, hroot1, hs1, by rw [hz, ← h0]; exact h1, by simp⟩
      case isFalse =>
      -- memory ran out long before 2 ^ 32
      have hfew := h1.few
      have hsmall : leNum ph 32 8 % 4294967296 = leNum ph 32 8 := by
        simp only [npages, PGSIZE] at hfew
        omega
      rw [← hroot1, hsmall]
      refine (loadseg_spec h1 (by omega) (Decidable.not_not.mp halign)
        (Nat.mod_lt _ (by decide))).bind ?_
      rintro r k2 ⟨h2, hs2, ht⟩
      split
      case isTrue => exact ⟨t1, rfl, hs1.trans hs2, h2, by simp⟩
      case isFalse hr =>
        refine (ih h2).mono ?_
        rintro r k3 ⟨t3, hroot3, hs3, h3, hb⟩
        refine ⟨t3, hroot3, (hs1.trans hs2).trans hs3, h3, fun hok => ?_⟩
        obtain ⟨hj, hsize, hfits, hholds⟩ := hb hok
        obtain ⟨hin, hput⟩ := ht hr
        refine ⟨hheads hlen hj, by omega, fun s hs => ?_, fun bytes hb => ?_⟩
        · rcases List.mem_cons.mp hs with rfl | hs
          · refine ⟨Decidable.not_not.mp halign, Nat.le_of_not_lt hmem, ?_, hin.imp_right And.left⟩
            simp only [Seg.ofHeader]
            omega
          · exact hfits s hs
        · exact hholds _ (hput _ (hhold1 _ hb))
    · exact ⟨t1, hroot1, hs1, h1, by simp⟩

end Xv6.Vm
