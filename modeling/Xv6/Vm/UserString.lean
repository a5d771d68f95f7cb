import Xv6.Vm.AddressSpace

/-! `copyinstr` and `fetchstr` with the buffer that they fill: they find exactly the strings that
the user can read, and write nothing behind the buffer. -/

namespace Xv6.Vm

open Function List

variable {k : Kmem} {m : Nat → Page} {root va : Nat}

/-- The byte that the user reads at `va` through the table at `root`, if the page is mapped. -/
def userAt (m : Nat → Page) (root va : Nat) : Option Nat :=
  if va < MAXVA ∧ entry m root (va / PGSIZE) &&& PTE_V ≠ 0 ∧
      entry m root (va / PGSIZE) &&& PTE_U ≠ 0 then
    some ((m (pte2pa (entry m root (va / PGSIZE)))).byte (va % PGSIZE))
  else none

/-- The inner loop of `copyinstr`, with `n` bytes of the page left, from the offset `off` on:
`got_null`, `max`, `dst` as an index, and the buffer. -/
def scanPage (page : Page) : Nat → Nat → Nat → Nat → (Nat → Nat) → Bool × Nat × Nat × (Nat → Nat)
  | 0, _, max, d, buf => (false, max, d, buf)
  | n + 1, off, max, d, buf =>
    if page.byte off = 0 then (true, max, d, update buf d 0)
    else scanPage page n (off + 1) (max - 1) (d + 1) (update buf d (page.byte off))

/-- The outer loop of `copyinstr`; each pass but the last lowers `max`. -/
def copyinstrTo (pagetable : Nat) : Nat → Nat → Nat → Nat → (Nat → Nat) →
    Prog Kmem (Int × (Nat → Nat))
  | 0, _, _, _, buf => pure (-1, buf)
  | fuel + 1, srcva, max, d, buf =>
    if max = 0 then pure (-1, buf)
    else do
      let va0 := pgrounddown srcva
      let pa0 ← walkaddr pagetable va0
      if pa0 = 0 then pure (-1, buf)
      else do
        let n := min (PGSIZE - (srcva - va0)) max
        let k ← get
        match scanPage (k.mem pa0) n (srcva - va0) max d buf with
        | (true, _, _, buf) => pure (0, buf)
        | (false, max, d, buf) => copyinstrTo pagetable fuel (u64 (va0 + PGSIZE)) max d buf

def strlen (s : Nat → Nat) : Nat → Nat → Option Nat
  | 0, _ => none
  | fuel + 1, n => if s n = 0 then some n else strlen s fuel (n + 1)

/-- `fetchstr(addr, buf, max)`, where the `int` `max` is not negative; the string ends in the
buffer, so `strlen` looks no further. -/
def fetchstr (pagetable addr max : Nat) (buf : Nat → Nat) :
    Prog Kmem (Option Int × (Nat → Nat)) := do
  let (r, buf) ← copyinstrTo pagetable max addr max 0 buf
  if r < 0 then pure (some (-1), buf) else pure ((strlen buf max 0).map Int.ofNat, buf)

/-- A string of `n` bytes and its terminator at the user address `a`. -/
def IsString (m : Nat → Page) (root a n : Nat) : Prop :=
  userAt m root (a + n) = some 0 ∧ ∀ i < n, ∃ c, c ≠ 0 ∧ userAt m root (a + i) = some c

section walk

theorem readWord_bind {α : Type} (pa i : Nat) (g : Nat → Prog Kmem α) :
    (readWord pa i >>= g) k = g (k.mem pa i) k := rfl

theorem bind_ok {α β : Type} {f : Prog Kmem β} {g : β → Prog Kmem α} {b : β} {k' : Kmem}
    (h : f k = .ok (b, k')) : (f >>= g) k = g b k' := by
  show Except.bind (f k) _ = _
  rw [h]
  rfl

theorem walkLoop_raw (level pagetable : Nat) : walkLoop va false (level + 1) pagetable k =
    match leafPage (k.mem pagetable (px (level + 1) va)) with
    | none => .ok (none, k)
    | some q => walkLoop va false level q k := by
  rw [walkLoop, readWord_bind, leafPage]
  by_cases hv : k.mem pagetable (px (level + 1) va) &&& PTE_V ≠ 0
  · rw [if_pos hv, if_pos hv]
  · rw [if_neg hv, if_neg hv]
    rfl

theorem walk_raw (hva : va < MAXVA) : walk root va false k =
    .ok ((lowPage k.mem root (va / PGSIZE / 512)).map fun q => (q, px 0 va), k) := by
  have h2 : px 2 va = va / PGSIZE / 512 / 512 := by
    simp only [px_eq, Nat.shiftRight_eq_div_pow, MAXVA, PGSIZE] at *
    omega
  have h1 : px 1 va = va / PGSIZE / 512 % 512 := by
    simp only [px_eq, Nat.shiftRight_eq_div_pow, PGSIZE]
    omega
  rw [walk, if_neg (Nat.not_le.mpr hva), lowPage, ← h1, ← h2, walkLoop_raw]
  cases leafPage (k.mem root (px 2 va)) with
  | none => rfl
  | some q =>
    dsimp only
    rw [walkLoop_raw, Option.bind_some]
    cases leafPage (k.mem q (px 1 va)) with
    | none => rfl
    | some q' => rfl

def userFrame (m : Nat → Page) (root va : Nat) : Nat :=
  if va < MAXVA ∧ entry m root (va / PGSIZE) &&& PTE_V ≠ 0 ∧
      entry m root (va / PGSIZE) &&& PTE_U ≠ 0 then
    pte2pa (entry m root (va / PGSIZE))
  else 0

theorem walkaddr_raw (root va : Nat) : walkaddr root va k = .ok (userFrame k.mem root va, k) := by
  rw [walkaddr, userFrame]
  by_cases hva : MAXVA ≤ va
  · rw [if_pos hva, if_neg fun h => absurd h.1 (Nat.not_lt.mpr hva)]
    rfl
  rw [if_neg hva]
  have hpx : px 0 va = va / PGSIZE % 512 := by
    simp [px_eq, Nat.shiftRight_eq_div_pow, PGSIZE]
  rw [bind_ok (walk_raw (Nat.lt_of_not_le hva)), entry]
  cases lowPage k.mem root (va / PGSIZE / 512) with
  | none =>
    rw [if_neg (by simp)]
    rfl
  | some q =>
    dsimp only [Option.map_some]
    rw [readWord_bind, hpx]
    by_cases hv : k.mem q (va / PGSIZE % 512) &&& PTE_V = 0
    · rw [if_pos hv, if_neg fun h => h.2.1 hv]
      rfl
    rw [if_neg hv]
    by_cases hu : k.mem q (va / PGSIZE % 512) &&& PTE_U = 0
    · rw [if_pos hu, if_neg fun h => h.2.2 hu]
      rfl
    rw [if_neg hu, if_pos ⟨Nat.lt_of_not_le hva, hv, hu⟩]
    rfl

end walk

section scan

variable {page : Page} {n off max d : Nat} {buf : Nat → Nat}

theorem update_eq_put (buf : Nat → Nat) (d c : Nat) : update buf d c = put buf d [c] := by
  funext i
  by_cases hi : i = d
  · rw [hi, update_self, put_head]
  · rw [update_of_ne hi, put_outside]
    rw [length_singleton]
    omega

theorem bytes_succ (page : Page) (off n : Nat) :
    page.bytes off (n + 1) = page.byte off :: page.bytes (off + 1) n := by
  rw [Page.bytes, range_succ_eq_map, map_cons, map_map, Page.bytes]
  refine congrArg _ (map_congr_left fun i _ => ?_)
  rw [Function.comp_apply, show off + 1 + i = off + (i + 1) by omega]

theorem scanPage_cases (page : Page) (n off max d : Nat) (buf : Nat → Nat) :
    (∃ j < n, page.byte (off + j) = 0 ∧ (∀ i < j, page.byte (off + i) ≠ 0) ∧
      scanPage page n off max d buf = (true, max - j, d + j, put buf d (page.bytes off (j + 1)))) ∨
    (∀ i < n, page.byte (off + i) ≠ 0) ∧
      scanPage page n off max d buf = (false, max - n, d + n, put buf d (page.bytes off n)) := by
  induction n generalizing off max d buf with
  | zero =>
    refine .inr ⟨nofun, ?_⟩
    rw [scanPage, Page.bytes, range_zero, map_nil, put_nil]
    rfl
  | succ n ih =>
    rw [scanPage]
    by_cases h0 : page.byte off = 0
    · refine .inl ⟨0, Nat.zero_lt_succ n, h0, nofun, ?_⟩
      rw [if_pos h0, update_eq_put, bytes_succ, h0, Page.bytes, range_zero, map_nil]
      rfl
    rw [if_neg h0, update_eq_put]
    -- the other bytes are those of the page from the next offset on
    have hnext : ∀ i, page.byte (off + 1 + i) = page.byte (off + (i + 1)) := fun i => by
      rw [show off + 1 + i = off + (i + 1) by omega]
    have hput : ∀ j, put (put buf d [page.byte off]) (d + 1) (page.bytes (off + 1) j) =
        put buf d (page.bytes off (j + 1)) := fun j => by rw [bytes_succ, ← put_cons]
    have hbefore : ∀ j, (∀ i < j, page.byte (off + 1 + i) ≠ 0) →
        ∀ i < j + 1, page.byte (off + i) ≠ 0 := by
      intro j hj i hi
      cases i with
      | zero => exact h0
      | succ i => exact hnext i ▸ hj i (by omega)
    rcases ih (off + 1) (max - 1) (d + 1) (put buf d [page.byte off]) with
      ⟨j, hj, hz, hnz, hs⟩ | ⟨hnz, hs⟩
    · refine .inl ⟨j + 1, by omega, hnext j ▸ hz, hbefore j hnz, ?_⟩
      rw [hs, hput, Nat.sub_sub, add_comm 1 j, add_assoc, add_comm 1 j]
    · refine .inr ⟨hbefore n hnz, ?_⟩
      rw [hs, hput, Nat.sub_sub, add_comm 1 n, add_assoc, add_comm 1 n]

end scan

section loop

variable {a c n : Nat}

theorem isString_shift (h : ∀ i < c, ∃ b, b ≠ 0 ∧ userAt m root (a + i) = some b) :
    IsString m root (a + c) n ↔ IsString m root a (c + n) := by
  unfold IsString
  rw [add_assoc]
  refine and_congr_right fun _ => ⟨fun hi i hlt => ?_, fun hi i hlt => ?_⟩
  · by_cases hic : i < c
    · exact h i hic
    · have := hi (i - c) (by omega)
      rwa [show a + c + (i - c) = a + i by omega] at this
  · rw [add_assoc]
    exact hi (c + i) (by omega)

theorem IsString.ge (hs : IsString m root a n)
    (h : ∀ i < c, ∃ b, b ≠ 0 ∧ userAt m root (a + i) = some b) : c ≤ n := by
  by_contra hlt
  obtain ⟨b, hb, hb'⟩ := h n (by omega)
  rw [hs.1] at hb'
  exact hb (Option.some.inj hb').symm

theorem IsString.unique {n' : Nat} (h : IsString m root a n) (h' : IsString m root a n') :
    n = n' := le_antisymm (h'.ge h.2) (h.ge h'.2)

def userBytes (m : Nat → Page) (root a n : Nat) : List Nat :=
  (range n).map fun i => (userAt m root (a + i)).getD 0

theorem userAt_page {va0 off : Nat} (h : userFrame m root va0 ≠ 0) (hva : va0 % PGSIZE = 0)
    (hoff : off < PGSIZE) :
    va0 < MAXVA ∧ userAt m root (va0 + off) = some ((m (userFrame m root va0)).byte off) := by
  unfold userFrame at h ⊢
  split at h
  case isFalse => exact absurd rfl h
  case isTrue hc =>
    have hdiv : (va0 + off) / PGSIZE = va0 / PGSIZE := by
      simp only [PGSIZE] at *
      omega
    have hmod : (va0 + off) % PGSIZE = off := by
      simp only [PGSIZE] at *
      omega
    have hlt : va0 + off < MAXVA := by
      have := hc.1
      simp only [PGSIZE, MAXVA] at *
      omega
    rw [userAt, if_pos hc, hdiv, hmod, if_pos ⟨hlt, hc.2⟩]
    exact ⟨hc.1, rfl⟩

theorem userAt_none {va : Nat} (hnull : ∀ va b, userAt m root va = some b →
    pte2pa (entry m root (va / PGSIZE)) ≠ 0) (h : userFrame m root (pgrounddown va) = 0) :
    userAt m root va = none := by
  by_contra hne
  obtain ⟨b, hb⟩ := Option.ne_none_iff_exists'.mp hne
  have hpa := hnull va b hb
  have hdiv : pgrounddown va / PGSIZE = va / PGSIZE := Nat.mul_div_cancel _ (by decide)
  unfold userAt at hb
  split at hb
  case isFalse => cases hb
  case isTrue hc =>
    have hlt : pgrounddown va < MAXVA := lt_of_le_of_lt (Nat.div_mul_le_self _ _) hc.1
    rw [userFrame, hdiv, if_pos ⟨hlt, hc.2⟩] at h
    exact hpa h

/-- What `copyinstr` has done: it found the string and copied it, or there is none within `max`
bytes; and it wrote to the next `max` bytes of the buffer only. -/
structure Fetched (m : Nat → Page) (root a max d : Nat) (buf : Nat → Nat) (r : Int)
    (buf' : Nat → Nat) : Prop where
  result : r = 0 ∧ (∃ n < max, IsString m root a n ∧
    buf' = put buf d (userBytes m root a (n + 1))) ∨ r = -1 ∧ ∀ n < max, ¬IsString m root a n
  frame : ∀ i, i < d ∨ d + max ≤ i → buf' i = buf i

theorem length_userBytes (m : Nat → Page) (root a n : Nat) : (userBytes m root a n).length = n := by
  rw [userBytes, length_map, length_range]

theorem userBytes_add (m : Nat → Page) (root a n n' : Nat) :
    userBytes m root a (n + n') = userBytes m root a n ++ userBytes m root (a + n) n' := by
  rw [userBytes, userBytes, userBytes, range_add, map_append, map_map]
  refine congrArg _ (map_congr_left fun i _ => ?_)
  rw [Function.comp_apply, add_assoc]

theorem copyinstrTo_fetched (hnull : ∀ va b, userAt k.mem root va = some b →
    pte2pa (entry k.mem root (va / PGSIZE)) ≠ 0) {fuel srcva max d : Nat} {buf : Nat → Nat}
    (hfuel : max ≤ fuel) :
    ∃ r buf', copyinstrTo root fuel srcva max d buf k = .ok ((r, buf'), k) ∧
      Fetched k.mem root srcva max d buf r buf' := by
  induction fuel generalizing srcva max d buf with
  | zero =>
    obtain rfl : max = 0 := Nat.le_zero.mp hfuel
    exact ⟨-1, buf, rfl, .inr ⟨rfl, by simp⟩, fun _ _ => rfl⟩
  | succ fuel ih =>
    rw [copyinstrTo]
    by_cases hmax : max = 0
    · subst hmax
      rw [if_pos rfl]
      exact ⟨-1, buf, rfl, .inr ⟨rfl, by simp⟩, fun _ _ => rfl⟩
    rw [if_neg hmax]
    rw [bind_ok (walkaddr_raw root (pgrounddown srcva))]
    by_cases hpa : userFrame k.mem root (pgrounddown srcva) = 0
    · rw [if_pos hpa]
      refine ⟨-1, buf, rfl, .inr ⟨rfl, fun n _ hs => ?_⟩, fun _ _ => rfl⟩
      have hnone := userAt_none hnull hpa
      cases n with
      | zero => exact absurd hs.1 (by simp [add_zero, hnone])
      | succ n =>
        obtain ⟨b, -, hb⟩ := hs.2 0 (Nat.zero_lt_succ n)
        rw [add_zero, hnone] at hb
        cases hb
    rw [if_neg hpa]
    -- the bytes of this chunk, as the user reads them
    have hsplit : pgrounddown srcva + (srcva - pgrounddown srcva) = srcva :=
      Nat.add_sub_cancel' (Nat.div_mul_le_self _ _)
    have hoff : srcva - pgrounddown srcva < PGSIZE := by
      simp only [pgrounddown, PGSIZE]
      omega
    generalize hva0 : pgrounddown srcva = va0 at *
    generalize hoff' : srcva - va0 = off at *
    generalize hn : min (PGSIZE - off) max = n
    have hmod : va0 % PGSIZE = 0 := by
      rw [← hva0, pgrounddown, Nat.mul_mod_left]
    have hread : ∀ i < n, userAt k.mem root (srcva + i) =
        some ((k.mem (userFrame k.mem root va0)).byte (off + i)) := by
      intro i hi
      rw [← hsplit, add_assoc]
      exact (userAt_page hpa hmod (by omega)).2
    have hbytes : ∀ j ≤ n, (k.mem (userFrame k.mem root va0)).bytes off j =
        userBytes k.mem root srcva j := by
      intro j hj
      refine map_congr_left fun i hi => ?_
      rw [hread i (by have := mem_range.mp hi; omega)]
      rfl
    have hnz : ∀ j ≤ n, (∀ i < j, (k.mem (userFrame k.mem root va0)).byte (off + i) ≠ 0) →
        ∀ i < j, ∃ b, b ≠ 0 ∧ userAt k.mem root (srcva + i) = some b :=
      fun j hj h i hi => ⟨_, h i hi, hread i (by omega)⟩
    show ∃ r buf', (match scanPage (k.mem (userFrame k.mem root va0)) n off max d buf with
      | (true, _, _, buf) => pure (0, buf)
      | (false, max, d, buf) => copyinstrTo root fuel (u64 (va0 + PGSIZE)) max d buf :
        Prog Kmem (Int × (Nat → Nat))) k = _ ∧ _
    rcases scanPage_cases (k.mem (userFrame k.mem root va0)) n off max d buf with
      ⟨j, hj, hz, hb, hs⟩ | ⟨hb, hs⟩
    · -- the string ends on this page
      rw [hs]
      refine ⟨0, _, rfl, .inl ⟨rfl, j, by omega, ⟨?_, hnz j (by omega) hb⟩, ?_⟩, fun i hi => ?_⟩
      · rw [hread j hj, hz]
      · rw [hbytes (j + 1) hj]
      · rw [put_outside]
        rw [hbytes (j + 1) hj, length_userBytes]
        omega
    rw [hs]
    have hnext : u64 (va0 + PGSIZE) = va0 + PGSIZE := by
      have := (userAt_page hpa hmod (Nat.zero_lt_of_lt hoff)).1
      simp only [u64, MAXVA, PGSIZE] at *
      omega
    obtain ⟨r, buf', hr, hf⟩ := @ih (u64 (va0 + PGSIZE)) (max - n) (d + n)
      (put buf d ((k.mem (userFrame k.mem root va0)).bytes off n)) (by omega)
    refine ⟨r, buf', hr, ?_, fun i hi => ?_⟩
    · have hge : ∀ l, IsString k.mem root srcva l → n ≤ l := fun l hl => hl.ge (hnz n le_rfl hb)
      by_cases hlast : n = max
      · -- the buffer is full
        refine hf.result.imp ?_ fun h => ⟨h.1, fun l hl hs => absurd (hge l hs) (by omega)⟩
        rintro ⟨_, l, hl, _⟩
        omega
      · have haddr : u64 (va0 + PGSIZE) = srcva + n := by omega
        rw [haddr] at hf
        rcases hf.result with ⟨hr, l, hl, hstr, hbuf⟩ | ⟨hr, hno⟩
        · refine .inl ⟨hr, n + l, by omega, (isString_shift (hnz n le_rfl hb)).mp hstr, ?_⟩
          have happ := put_append buf d (userBytes k.mem root srcva n)
            (userBytes k.mem root (srcva + n) (l + 1))
          rw [length_userBytes, ← userBytes_add] at happ
          rw [hbuf, hbytes n le_rfl, happ, add_assoc]
        · refine .inr ⟨hr, fun l hl hstr => ?_⟩
          obtain ⟨l', rfl⟩ := Nat.exists_eq_add_of_le (hge l hstr)
          exact hno l' (by omega) ((isString_shift (hnz n le_rfl hb)).mpr hstr)
    · rw [hf.frame i (by omega), put_outside]
      rw [hbytes n le_rfl, length_userBytes]
      omega

end loop

theorem strlen_eq {s : Nat → Nat} {fuel n j : Nat} (h0 : s (n + j) = 0)
    (hnz : ∀ i < j, s (n + i) ≠ 0) (hj : j < fuel) : strlen s fuel n = some (n + j) := by
  induction fuel generalizing n j with
  | zero => exact absurd hj (Nat.not_lt_zero j)
  | succ fuel ih =>
    rw [strlen]
    cases j with
    | zero => rw [if_pos (show s n = 0 from h0), add_zero]
    | succ j =>
      rw [if_neg (show s n ≠ 0 from hnz 0 (Nat.zero_lt_succ j)),
        show n + (j + 1) = n + 1 + j by omega]
      refine ih ?_ (fun i hi => ?_) (by omega)
      · rwa [show n + 1 + j = n + (j + 1) by omega]
      · rw [show n + 1 + i = n + (i + 1) by omega]
        exact hnz (i + 1) (by omega)

theorem IsString.copied {n d : Nat} {a : Nat} (h : IsString m root a n) (buf : Nat → Nat) {i : Nat}
    (hi : i ≤ n) :
    userAt m root (a + i) = some (put buf d (userBytes m root a (n + 1)) (d + i)) := by
  have hlen : i < (userBytes m root a (n + 1)).length := by
    rw [length_userBytes]
    omega
  have hget : put buf d (userBytes m root a (n + 1)) (d + i) = (userAt m root (a + i)).getD 0 := by
    rw [put_inside i hlen]
    simp [userBytes]
  rw [hget]
  rcases lt_or_eq_of_le hi with hi | rfl
  · obtain ⟨c, -, hc⟩ := h.2 i hi
    rw [hc]
    rfl
  · rw [h.1]
    rfl

/-- In the tables of processes no user page has the physical address 0. -/
theorem Inv.userAt_frame {L : Layout} {s : Sys} {T : Wait.Slot → Table} {hand : Multiset Nat}
    {R : Multiset (Fin NFILE)} {p : Wait.Slot} (h : Inv L s T hand R)
    (hp : (s.proc p).state ≠ .unused) (va b : Nat)
    (hb : userAt s.k.mem (s.proc p).pagetable va = some b) :
    pte2pa (entry s.k.mem (s.proc p).pagetable (va / PGSIZE)) ≠ 0 := by
  unfold userAt at hb
  split at hb
  case isFalse => cases hb
  case isTrue hc =>
    obtain ⟨hlt, -, hu⟩ := hc
    have hpte : entry s.k.mem (s.proc p).pagetable (va / PGSIZE) = (T p).pte (va / PGSIZE) :=
      h.pte_eq hp (by simp only [VPAGES, PGSIZE, MAXVA] at *; omega)
    rw [hpte] at hu ⊢
    exact ((h.space hp).user_page (((h.procs p).live hp).addr.user_lt hu) hu).2

/-- For every page table with no user page at the physical address 0, which `walkaddr` returns for a
page that is not mapped, and for every address, `copyinstr` returns 0 if and only if within `max`
bytes there is a NUL behind bytes that the user can read, and then the buffer holds the string;
otherwise it returns -1. Nothing is written at or behind `buf[max]`, and `fetchstr` returns the
length. -/
theorem user_string_exact (k : Kmem) (root srcva max : Nat) (buf : Nat → Nat)
    (hnull : ∀ va b, userAt k.mem root va = some b →
      pte2pa (entry k.mem root (va / PGSIZE)) ≠ 0) :
    ∃ r buf', copyinstrTo root max srcva max 0 buf k = .ok ((r, buf'), k) ∧
      (r = 0 ∨ r = -1) ∧ (r = 0 ↔ ∃ n < max, IsString k.mem root srcva n) ∧
      (∀ n < max, IsString k.mem root srcva n →
        (∀ i ≤ n, userAt k.mem root (srcva + i) = some (buf' i)) ∧
        fetchstr root srcva max buf k = .ok ((some n, buf'), k)) ∧
      ((∀ n < max, ¬IsString k.mem root srcva n) →
        fetchstr root srcva max buf k = .ok ((some (-1), buf'), k)) ∧
      ∀ i, max ≤ i → buf' i = buf i := by
  obtain ⟨r, buf', hr, hf⟩ : ∃ r buf', copyinstrTo root max srcva max 0 buf k = .ok ((r, buf'), k) ∧
      Fetched k.mem root srcva max 0 buf r buf' := copyinstrTo_fetched hnull le_rfl
  have hfetch : fetchstr root srcva max buf k = (if r < 0 then pure (some (-1), buf')
      else pure ((strlen buf' max 0).map Int.ofNat, buf') :
      Prog Kmem (Option Int × (Nat → Nat))) k :=
    bind_ok hr
  refine ⟨r, buf', hr, ?_⟩
  rcases hf.result with ⟨rfl, n, hn, hs, hbuf⟩ | ⟨rfl, hno⟩
  · have hcopy : ∀ i ≤ n, userAt k.mem root (srcva + i) = some (buf' i) := by
      intro i hi
      have := hs.copied (d := 0) buf hi
      rwa [← hbuf, zero_add] at this
    have hlen : strlen buf' max 0 = some n := by
      have hzero : buf' (0 + n) = 0 := by
        have := hcopy n le_rfl
        rw [hs.1] at this
        rw [zero_add]
        exact (Option.some.inj this).symm
      have hnz : ∀ i < n, buf' (0 + i) ≠ 0 := by
        intro i hi
        obtain ⟨c, hc, hc'⟩ := hs.2 i hi
        rw [hcopy i hi.le] at hc'
        rw [zero_add, Option.some.inj hc']
        exact hc
      rw [strlen_eq hzero hnz hn, zero_add]
    refine ⟨.inl rfl, iff_of_true rfl ⟨n, hn, hs⟩, fun n' _ hs' => ?_,
      fun hno => absurd hs (hno n hn), fun i hi => hf.frame i (by omega)⟩
    obtain rfl := hs.unique hs'
    refine ⟨hcopy, ?_⟩
    rw [hfetch, if_neg (by decide), hlen]
    rfl
  · refine ⟨.inr rfl, iff_of_false (by decide) fun ⟨n, hn, hs⟩ => hno n hn hs,
      fun n hn hs => absurd hs (hno n hn), fun _ => ?_, fun i hi => hf.frame i (by omega)⟩
    rw [hfetch, if_pos (by decide)]
    rfl

/-- The string `ab` lies across a page boundary. Three bytes are enough for it, and two are not. -/
theorem user_string_exact_twoPages : ∃ s buf' buf'',
    runEvents (step roomy) roomyBoot
      [.userinit, .sbrk 0 8192 1, .store 0 4095 97, .store 0 4096 98] = some s ∧
    IsString s.k.mem (s.proc 0).pagetable 4095 2 ∧
    copyinstrTo (s.proc 0).pagetable 3 4095 3 0 (fun _ => 7) s.k = .ok ((0, buf'), s.k) ∧
    fetchstr (s.proc 0).pagetable 4095 3 (fun _ => 7) s.k = .ok ((some 2, buf'), s.k) ∧
    buf' 0 = 97 ∧ buf' 1 = 98 ∧ buf' 2 = 0 ∧ buf' 3 = 7 ∧
    copyinstrTo (s.proc 0).pagetable 2 4095 2 0 (fun _ => 7) s.k = .ok ((-1, buf''), s.k) := by
  have hrun : (runEvents (step roomy) roomyBoot
      [.userinit, .sbrk 0 8192 1, .store 0 4095 97, .store 0 4096 98]).any (fun s =>
      (s.proc 0).state ≠ .unused ∧ userAt s.k.mem (s.proc 0).pagetable 4095 = some 97 ∧
      userAt s.k.mem (s.proc 0).pagetable 4096 = some 98 ∧
      userAt s.k.mem (s.proc 0).pagetable 4097 = some 0) := by
    decide_cbv
  obtain ⟨s, hs, hp⟩ := (Option.any_eq_true _ _).mp hrun
  obtain ⟨hlive, ha, hb, hzero⟩ := of_decide_eq_true hp
  have hstart : Reachable (Boot roomy) (step roomy) roomyBoot := .start boot_roomy
  obtain ⟨T, hinv⟩ := reachable_inv (hstart.run _ hs)
  have hstr : IsString s.k.mem (s.proc 0).pagetable 4095 2 := by
    refine ⟨hzero, fun i hi => ?_⟩
    interval_cases i
    · exact ⟨97, by decide, ha⟩
    · exact ⟨98, by decide, hb⟩
  obtain ⟨r, buf', hr, -, hiff, hfetch, -, hframe⟩ :=
    user_string_exact s.k (s.proc 0).pagetable 4095 3 (fun _ => 7) (hinv.userAt_frame hlive)
  obtain ⟨r', buf'', hr', hor, hiff', -⟩ := user_string_exact s.k (s.proc 0).pagetable 4095 2
    (fun _ => 7) (hinv.userAt_frame hlive)
  have hshort : r' ≠ 0 := fun h0 => by
    obtain ⟨n, hn, hstr'⟩ := hiff'.mp h0
    have := hstr.unique hstr'
    omega
  obtain ⟨hcopy, hret⟩ := hfetch 2 (by decide) hstr
  have h0 := (hcopy 0 (by decide)).symm.trans ha
  have h1 := (hcopy 1 (by decide)).symm.trans hb
  have h2 := (hcopy 2 le_rfl).symm.trans hzero
  rw [hiff.mpr ⟨2, by decide, hstr⟩] at hr
  rw [hor.resolve_left hshort] at hr'
  exact ⟨s, buf', buf'', hs, hstr, hr, hret, Option.some.inj h0, Option.some.inj h1,
    Option.some.inj h2, hframe 3 le_rfl, hr'⟩

/-- A table that maps the first user page to the physical address 0, in memory that is otherwise
zero. -/
def nullPage : Kmem where
  mem := fun pa i =>
    if i ≠ 0 then 0
    else if pa = 0x80200000 then pa2pte 0x80201000 ||| PTE_V
    else if pa = 0x80201000 then pa2pte 0x80202000 ||| PTE_V
    else if pa = 0x80202000 then pa2pte 0 ||| PTE_R ||| PTE_U ||| PTE_V
    else 0
  freelist := []

/-- There is a string on that page, but `walkaddr` returns the address of the page. -/
theorem string_on_nullPage : IsString nullPage.mem 0x80200000 0 0 ∧
    copyinstrTo 0x80200000 1 0 1 0 (fun _ => 7) nullPage = .ok ((-1, fun _ => 7), nullPage) := by
  refine ⟨⟨by decide +kernel, by simp⟩, ?_⟩
  rw [copyinstrTo, if_neg one_ne_zero, bind_ok (walkaddr_raw _ _), if_pos (by decide +kernel)]
  rfl

section bytes

variable {page : Page} {off n j x : Nat}

theorem mem_bytes : x ∈ page.bytes off n ↔ ∃ i < n, page.byte (off + i) = x := by
  simp [Page.bytes]

theorem length_bytes (page : Page) (off n : Nat) : (page.bytes off n).length = n := by
  rw [Page.bytes, length_map, length_range]

theorem bytes_add (page : Page) (off n n' : Nat) :
    page.bytes off (n + n') = page.bytes off n ++ page.bytes (off + n) n' := by
  rw [Page.bytes, Page.bytes, Page.bytes, range_add, map_append, map_map]
  refine congrArg _ (map_congr_left fun i _ => ?_)
  rw [Function.comp_apply, add_assoc]

theorem takeWhile_bytes (hj : j < n) (hz : page.byte (off + j) = 0)
    (hb : ∀ i < j, page.byte (off + i) ≠ 0) :
    (page.bytes off n).takeWhile (· ≠ 0) = page.bytes off j := by
  obtain ⟨n', rfl⟩ : ∃ n', n = j + (n' + 1) := ⟨n - j - 1, by omega⟩
  have hpos : ∀ x ∈ page.bytes off j, decide (x ≠ 0) = true := by
    intro x hx
    obtain ⟨i, hi, rfl⟩ := mem_bytes.mp hx
    exact decide_eq_true (hb i hi)
  rw [bytes_add, takeWhile_append_of_pos hpos, bytes_succ, hz, takeWhile_cons_of_neg (by simp),
    append_nil]

end bytes

/-- `copyinstr` without its buffer finds what it finds with it. -/
theorem copyinstr_refines (fuel srcva max d : Nat) (buf : Nat → Nat) (dst : List Nat) :
    ∃ r buf' o, copyinstrTo root fuel srcva max d buf k = .ok ((r, buf'), k) ∧
      copyinstrLoop root fuel srcva max dst k = .ok (o, k) ∧
      (r = 0 ∧ (∃ l, o = some (dst ++ l) ∧ buf' = put buf d (l ++ [0])) ∨ r = -1 ∧ o = none) := by
  induction fuel generalizing srcva max d buf dst with
  | zero => exact ⟨-1, buf, none, rfl, rfl, .inr ⟨rfl, rfl⟩⟩
  | succ fuel ih =>
    rw [copyinstrTo, copyinstrLoop]
    by_cases hmax : max = 0
    · rw [if_pos hmax, if_pos hmax]
      exact ⟨-1, buf, none, rfl, rfl, .inr ⟨rfl, rfl⟩⟩
    rw [if_neg hmax, if_neg hmax]
    rw [bind_ok (walkaddr_raw root (pgrounddown srcva)),
      bind_ok (walkaddr_raw root (pgrounddown srcva))]
    by_cases hpa : userFrame k.mem root (pgrounddown srcva) = 0
    · rw [if_pos hpa, if_pos hpa]
      exact ⟨-1, buf, none, rfl, rfl, .inr ⟨rfl, rfl⟩⟩
    rw [if_neg hpa, if_neg hpa]
    have hlt : pgrounddown srcva < MAXVA := by
      by_contra hge
      exact hpa (if_neg fun hc => hge hc.1)
    have hnext : u64 (pgrounddown srcva + PGSIZE) = pgrounddown srcva + PGSIZE := by
      simp only [u64, MAXVA, PGSIZE] at *
      omega
    have hget : (get : Prog Kmem Kmem) k = .ok (k, k) := rfl
    rw [bind_ok hget, bind_ok hget, hnext]
    generalize k.mem (userFrame k.mem root (pgrounddown srcva)) = page
    generalize min (PGSIZE - (srcva - pgrounddown srcva)) max = n
    rcases scanPage_cases page n (srcva - pgrounddown srcva) max d buf with
      ⟨j, hj, hz, hb, hs⟩ | ⟨hb, hs⟩
    · rw [hs, if_pos (mem_bytes.mpr ⟨j, hj, hz⟩), takeWhile_bytes hj hz hb]
      refine ⟨0, _, _, rfl, rfl, .inl ⟨rfl, _, rfl, ?_⟩⟩
      rw [bytes_add, bytes_succ, hz]
      rfl
    rw [hs, if_neg fun h0 => ?_]
    · obtain ⟨r, buf', o, h1, h2, ho⟩ := ih (pgrounddown srcva + PGSIZE) (max - n) (d + n)
        (put buf d (page.bytes (srcva - pgrounddown srcva) n))
        (dst ++ page.bytes (srcva - pgrounddown srcva) n)
      refine ⟨r, buf', o, h1, h2, ho.imp_left fun ⟨hr, l, hl, hbuf⟩ =>
        ⟨hr, page.bytes (srcva - pgrounddown srcva) n ++ l, ?_, ?_⟩⟩
      · rw [hl, append_assoc]
      · have happ := put_append buf d (page.bytes (srcva - pgrounddown srcva) n) (l ++ [0])
        rw [length_bytes] at happ
        rw [hbuf, happ, append_assoc]
    · obtain ⟨i, hi, h0⟩ := mem_bytes.mp h0
      exact hb i hi h0

end Xv6.Vm
