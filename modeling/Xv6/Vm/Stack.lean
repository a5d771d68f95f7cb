import Xv6.Vm.Segments

/-! The stack of a new image: the arguments are copied to its top page, one below the other, with
the array of pointers to them last. -/

namespace Xv6.Vm

open Finset Function List

variable {E : String → Prop} {L : Layout} {k k' : Kmem} {t t' : Table} {used rest : Multiset Nat}
  {sz tf : Nat}

theorem and_user (pte : Nat) : pte &&& PTE_U = pte / 16 % 2 * 16 := by
  rw [show PTE_U = 2 ^ 4 from rfl, Nat.and_two_pow, Nat.toNat_testBit]
  rfl

def clearUser (pte : Nat) : Nat := pte - (pte &&& PTE_U)

theorem clearUser_user (pte : Nat) : clearUser pte &&& PTE_U = 0 := by
  rw [and_user, clearUser, and_user]
  omega

theorem clearUser_valid (pte : Nat) : clearUser pte &&& PTE_V = pte &&& PTE_V := by
  rw [clearUser, and_user, Nat.and_one_is_mod, Nat.and_one_is_mod]
  omega

theorem pte2pa_clearUser (pte : Nat) : pte2pa (clearUser pte) = pte2pa pte := by
  have hdiv : clearUser pte / 1024 = pte / 1024 := by
    rw [clearUser, and_user]
    omega
  rw [pte2pa, pte2pa, Nat.shiftRight_eq_div_pow, Nat.shiftRight_eq_div_pow]
  rw [show (2 : Nat) ^ 10 = 1024 from rfl, hdiv]

theorem uvmclear_spec {v : Nat} (h : Space L k t rest) (ha : AddrSpace L t.pte sz tf)
    (hv : v < npages sz) (hne : t.pte v ≠ 0) :
    wp E (uvmclear t.root (v * PGSIZE)) k fun _ k' => ∃ t', t'.root = t.root ∧
      Space L k' t' rest ∧ AddrSpace L t'.pte sz tf ∧ Same (userPages t.pte + rest) k k' ∧
      t'.pte = update t.pte v (clearUser (t.pte v)) := by
  have hn := npages_le ha.size
  have hva := mul_div_pgsize v
  refine (walk_spec h.heap (by simp only [UPAGES, PGSIZE, MAXVA] at *; omega)).bind
    fun r k' ⟨hk, hr⟩ => ?_
  subst hk hr
  rw [hva]
  obtain ⟨p, hp⟩ := t.pte_low v hne
  rw [hp]
  refine (wp_bind _ _).mpr ?_
  rw [wp_readWord, wp_writeWord, h.heap.read hp]
  have hleaf : leafPage (clearUser (t.pte v)) = leafPage (t.pte v) := by
    rw [leafPage, leafPage, clearUser_valid, pte2pa_clearUser]
  obtain ⟨hsp, hs⟩ := h.setPte (x := clearUser (t.pte v)) hp
    (.inr (by rw [clearUser_valid]; exact h.valid v hne)) fun _ => hleaf
  refine ⟨t.setPte v _ ⟨p, hp⟩, rfl, hsp, ha.change ha.size (fun w hw => ?_) (fun w hw hne' => ?_),
    hs, rfl⟩
  · exact update_of_ne (by omega) _ _
  · by_cases hwv : w = v
    · omega
    · change update t.pte v _ w ≠ 0 at hne'
      rw [update_of_ne hwv] at hne'
      by_contra hge
      exact hne' (ha.unmapped (by omega) hw)

variable {p : Cur}

theorem userPage_mapped {v : Nat} (h : Space L k t rest) (hv : v < UPAGES)
    (hu : t.pte v &&& PTE_U ≠ 0) :
    wp E (userPage L p t.root (v * PGSIZE)) k fun r k' => k' = k ∧ r = pte2pa (t.pte v) := by
  have hmax : v * PGSIZE < MAXVA := by simp only [UPAGES, PGSIZE, MAXVA] at *; omega
  refine (walkaddr_spec h (v * PGSIZE)).bind fun r k1 ⟨hk, hr⟩ => ?_
  subst hk
  rw [Nat.mul_div_cancel _ (by decide), if_pos ⟨hmax, hu⟩] at hr
  subst hr
  rw [if_neg (h.user_page hv hu).2]
  exact ⟨rfl, rfl⟩

theorem copyout_page {v dstva : Nat} {src : List Nat} (h : Space L k t rest)
    (hv : v < UPAGES) (hu : t.pte v &&& PTE_U ≠ 0) (h1 : v * PGSIZE ≤ dstva)
    (h2 : dstva + src.length ≤ (v + 1) * PGSIZE) (hsrc : src ≠ []) :
    wp E (copyout L p t.root dstva src) k fun r k' => r < 0 ∧ k' = k ∨ r = 0 ∧
      k' = k.setPage (pte2pa (t.pte v))
        ((k.mem (pte2pa (t.pte v))).setBytes (dstva - v * PGSIZE) src) := by
  obtain ⟨hmem, hpos⟩ := h.user_page hv hu
  have hne : t.pte v ≠ 0 := fun h0 => hu (by rw [h0, Nat.zero_and])
  unfold copyout
  cases src with
  | nil => exact absurd rfl hsrc
  | cons c cs =>
    rw [length_cons] at h2
    have hdiv : dstva / PGSIZE = v := by simp only [PGSIZE] at *; omega
    have hmax : v * PGSIZE < MAXVA := by simp only [UPAGES, PGSIZE, MAXVA] at *; omega
    have hva := mul_div_pgsize v
    rw [length_cons]
    unfold copyoutLoop
    dsimp only
    rw [pgrounddown, hdiv, if_neg (by omega)]
    refine (userPage_mapped h hv hu).bind ?_
    rintro r k1 ⟨hk, hr⟩
    subst hk hr
    rw [if_neg hpos]
    refine (walk_spec h.heap hmax).bind ?_
    rintro r k2 ⟨hk, hr⟩
    subst hk hr
    obtain ⟨q, hq⟩ := t.pte_low v hne
    rw [hva, hq]
    refine (wp_bind _ _).mpr ?_
    rw [wp_readWord]
    split
    case isTrue => exact .inl ⟨by decide, rfl⟩
    case isFalse =>
    have hmin : min (PGSIZE - (dstva - v * PGSIZE)) (c :: cs).length = (c :: cs).length := by
      rw [length_cons]
      simp only [PGSIZE] at *
      omega
    rw [hmin, drop_length, take_length]
    rw [wp_bind]
    rw [wp_get]
    rw [wp_bind]
    rw [wp_writePage]
    cases cs.length <;> exact .inr ⟨rfl, rfl⟩

theorem copyout_holds {v dstva : Nat} {src : List Nat} (h : Space L k t rest)
    (hfull : ∀ w < npages sz, t.pte w ≠ 0) (hsz : npages sz ≤ UPAGES) (hv : v < npages sz)
    (hu : t.pte v &&& PTE_U ≠ 0) (h1 : v * PGSIZE ≤ dstva)
    (h2 : dstva + src.length ≤ (v + 1) * PGSIZE) (hsrc : src ≠ []) :
    wp E (copyout L p t.root dstva src) k fun r k' => Space L k' t rest ∧ Same rest k k' ∧
      (¬r < 0 → (∀ b ∈ src, b < 256) → ∀ bytes, Holds k t.pte sz bytes →
        Holds k' t.pte sz (put bytes dstva src)) := by
  have hup : v < UPAGES := lt_of_lt_of_le hv hsz
  obtain ⟨hmem, -⟩ := h.user_page hup hu
  refine (copyout_page h hup hu h1 h2 hsrc).mono fun r k' hr => ?_
  rcases hr with ⟨hneg, rfl⟩ | ⟨-, rfl⟩
  · exact ⟨h, Same.refl _ _, fun hn => absurd hneg hn⟩
  · obtain ⟨hsp, hs⟩ := h.write hmem ((k.mem (pte2pa (t.pte v))).setBytes (dstva - v * PGSIZE) src)
    refine ⟨hsp, hs, fun _ hbs bytes hb => ?_⟩
    have hoff : dstva - v * PGSIZE + src.length ≤ PGSIZE := by
      simp only [PGSIZE] at *
      omega
    have := hb.write h hfull hsz hv hoff hbs
    rwa [Nat.add_sub_cancel' h1] at this

theorem pushDown_le {sp n : Nat} (hsp : sp ≤ TRAPFRAME) (hn : n ≤ sp) :
    pushDown sp n + n ≤ sp := by
  simp only [pushDown, u64, TRAPFRAME] at *
  omega

theorem pushDown_high {sp n : Nat} (hn : sp < n) (hlt : n ≤ 2147483647) :
    MAXVA ≤ pgrounddown (pushDown sp n) := by
  simp only [pushDown, pgrounddown, u64, MAXVA, PGSIZE]
  omega

theorem copyout_high {pagetable dstva : Nat} {src : List Nat}
    (h : MAXVA ≤ pgrounddown dstva) (hsrc : src ≠ []) :
    wp E (copyout L p pagetable dstva src) k fun r k' => r < 0 ∧ k' = k := by
  cases src with
  | nil => exact absurd rfl hsrc
  | cons b src =>
    rw [copyout, length_cons, copyoutLoop]
    · dsimp only
      rw [if_pos h]
      exact ⟨by decide, rfl⟩
    · exact hsrc

theorem pushDown_mod (sp n : Nat) : pushDown sp n % 16 = 0 := by
  simp only [pushDown]
  omega

theorem length_leBytes (v : Nat) : (leBytes v).length = 8 := by simp [leBytes]

theorem length_words (l : List Nat) : (l.flatMap leBytes).length = 8 * l.length := by
  induction l with
  | nil => rfl
  | cons v l ih =>
    rw [flatMap_cons, length_append, ih, length_leBytes, length_cons]
    omega

theorem stack_pages (n : Nat) : (n + 2) * PGSIZE - (USERSTACK + 1) * PGSIZE = n * PGSIZE ∧
    (n + 2) * PGSIZE - USERSTACK * PGSIZE = (n + 1) * PGSIZE := by
  simp only [PGSIZE, USERSTACK]
  omega

def word (bytes : Nat → Nat) (a : Nat) : Nat :=
  leNum ((List.range 8).map fun i => bytes (a + i)) 0 8

theorem leNum_leBytes {x : Nat} (h : x < 18446744073709551616) : leNum (leBytes x) 0 8 = x := by
  simp [leNum, leBytes, range_succ]
  omega

theorem word_put {x : Nat} (m : Nat → Nat) (a : Nat) (h : x < 18446744073709551616) :
    word (put m a (leBytes x)) a = x := by
  have hread : (List.range 8).map (fun i => put m a (leBytes x) (a + i)) = leBytes x := by
    refine ext_getElem (by simp [length_leBytes]) fun i h1 h2 => ?_
    rw [getElem_map, getElem_range]
    exact put_inside i h2
  rw [word, hread, leNum_leBytes h]

theorem word_congr {m m' : Nat → Nat} {a : Nat} (h : ∀ i < 8, m' (a + i) = m (a + i)) :
    word m' a = word m a :=
  congrArg (leNum · 0 8) (map_congr_left fun i hi => h i (List.mem_range.mp hi))

theorem word_put_words {l : List Nat} (hl : ∀ x ∈ l, x < 18446744073709551616) (m : Nat → Nat)
    (a i : Nat) (hi : i < l.length) : word (put m a (l.flatMap leBytes)) (a + 8 * i) = l[i] := by
  induction l generalizing m a i with
  | nil => exact absurd hi (Nat.not_lt_zero i)
  | cons x l ih =>
    have hput : put m a ((x :: l).flatMap leBytes) =
        put (put m a (leBytes x)) (a + 8) (l.flatMap leBytes) := by
      rw [flatMap_cons, ← put_append, length_leBytes]
    rw [hput]
    cases i with
    | zero =>
      rw [mul_zero, add_zero, getElem_cons_zero]
      refine (word_congr fun j hj => put_outside (.inl (by omega))).trans ?_
      exact word_put m a (hl x mem_cons_self)
    | succ i =>
      rw [show a + 8 * (i + 1) = a + 8 + 8 * i by omega, getElem_cons_succ]
      exact ih (fun y hy => hl y (mem_cons_of_mem _ hy)) _ _ i (by simpa using hi)

/-- The strings `argv`, each with its NUL, lie in memory at `ptrs`, one below the other from `top`
down to `sp`. -/
inductive Strings (bytes : Nat → Nat) (top : Nat) : Nat → List (List Nat) → List Nat → Prop
  | nil : Strings bytes top top [] []
  | snoc {sp p argv ptrs arg} (h : Strings bytes top sp argv ptrs)
    (below : p + (arg.length + 1) ≤ sp)
      (copy : ∀ i (hi : i < (arg ++ [0]).length), bytes (p + i) = (arg ++ [0])[i]) :
      Strings bytes top p (argv ++ [arg]) (ptrs ++ [p])

section strings

variable {bytes bytes' : Nat → Nat} {top sp : Nat} {argv : List (List Nat)} {ptrs : List Nat}

theorem Strings.le_top (h : Strings bytes top sp argv ptrs) : sp ≤ top := by
  induction h with
  | nil => exact le_rfl
  | snoc _ hle _ ih => omega

theorem Strings.congr (h : Strings bytes top sp argv ptrs)
    (hb : ∀ x, sp ≤ x → bytes' x = bytes x) : Strings bytes' top sp argv ptrs := by
  induction h with
  | nil => exact .nil
  | snoc _ hle hcopy ih =>
    refine .snoc (ih fun x hx => hb x (by omega)) hle fun i hi => ?_
    rw [hb _ (Nat.le_add_right _ _), hcopy i hi]

theorem Strings.length (h : Strings bytes top sp argv ptrs) : ptrs.length = argv.length := by
  induction h with
  | nil => rfl
  | snoc _ _ _ ih => rw [length_append, length_append, ih]; rfl

theorem getElem?_snoc {α : Type} {l : List α} {a b : α} {i : Nat}
    (h : (l ++ [a])[i]? = some b) : l[i]? = some b ∨ i = l.length ∧ b = a := by
  rcases Nat.lt_trichotomy i l.length with hi | hi | hi
  · rw [List.getElem?_append_left hi] at h
    exact .inl h
  · rw [hi, List.getElem?_concat_length] at h
    exact .inr ⟨hi, (Option.some.inj h).symm⟩
  · rw [List.getElem?_eq_none (by rw [length_append, length_singleton]; omega)] at h
    cases h

theorem Strings.string (h : Strings bytes top sp argv ptrs) {i p : Nat} {arg : List Nat}
    (harg : argv[i]? = some arg) (hp : ptrs[i]? = some p) : sp ≤ p ∧ p + arg.length < top ∧
      (∀ j c, arg[j]? = some c → bytes (p + j) = c) ∧ bytes (p + arg.length) = 0 := by
  induction h with
  | nil => cases hp
  | @snoc sp q argv ptrs a h hle hcopy ih =>
    have hlen := h.length
    rcases getElem?_snoc harg with harg | ⟨hi, rfl⟩
    · rcases getElem?_snoc hp with hp | ⟨hi, -⟩
      · obtain ⟨h1, h2⟩ := ih harg hp
        exact ⟨by omega, h2⟩
      · have := (List.getElem?_eq_some_iff.mp harg).1
        omega
    · rcases getElem?_snoc hp with hp | ⟨-, rfl⟩
      · have := (List.getElem?_eq_some_iff.mp hp).1
        omega
      · have htop := h.le_top
        refine ⟨le_rfl, by omega, fun j c hj => ?_, ?_⟩
        · obtain ⟨hlt, rfl⟩ := List.getElem?_eq_some_iff.mp hj
          rw [hcopy j (by rw [length_append]; omega), getElem_append_left hlt]
        · rw [hcopy arg.length (by simp), getElem_concat_length rfl]

theorem Strings.disjoint (h : Strings bytes top sp argv ptrs) {i j p q : Nat} {arg : List Nat}
    (hij : i < j) (hp : ptrs[i]? = some p) (hq : ptrs[j]? = some q) (harg : argv[j]? = some arg) :
    q + arg.length < p := by
  induction h with
  | nil => cases hp
  | @snoc sp r argv ptrs a h hle _ ih =>
    have hlen := h.length
    have hj := (List.getElem?_eq_some_iff.mp hq).1
    rw [length_append, length_singleton] at hj
    have hp' : ptrs[i]? = some p := by
      rcases getElem?_snoc hp with hp | ⟨hi, -⟩
      · exact hp
      · omega
    rcases getElem?_snoc hq with hq | ⟨hj', rfl⟩
    · have := (List.getElem?_eq_some_iff.mp hq).1
      rcases getElem?_snoc harg with harg | ⟨hj', -⟩
      · exact ih hp' hq harg
      · omega
    · rcases getElem?_snoc harg with harg | ⟨-, rfl⟩
      · have := (List.getElem?_eq_some_iff.mp harg).1
        omega
      · have hi := (List.getElem?_eq_some_iff.mp hp').1
        obtain ⟨h1, -⟩ := h.string (List.getElem?_eq_getElem (by omega)) hp'
        omega

end strings

theorem pushArgs_spec {v argc sp : Nat} {argv : List (List Nat)} {ustack : List Nat}
    (top : Nat) (h : Space L k t rest) (hfull : ∀ w < npages sz, t.pte w ≠ 0)
    (hsz : npages sz ≤ UPAGES) (hv : v < npages sz) (hv' : 1 ≤ v) (hu : t.pte v &&& PTE_U ≠ 0)
    (hargs : ∀ arg ∈ argv, arg.length < 2147483647) (h1 : v * PGSIZE ≤ sp)
    (h2 : sp ≤ (v + 1) * PGSIZE) :
    wp E (pushArgs L p t.root (v * PGSIZE) argv argc sp ustack) k fun r k' =>
      Space L k' t rest ∧ Same rest k k' ∧ ∀ sp' ustack', r = some (sp', ustack') →
        v * PGSIZE ≤ sp' ∧ sp' ≤ (v + 1) * PGSIZE ∧ ustack'.length = ustack.length + argv.length ∧
        (argv = [] ∨ argc + argv.length ≤ MAXARG) ∧
        ((∀ arg ∈ argv, ∀ b ∈ arg, b < 256) → ∀ bytes done, Holds k t.pte sz bytes →
          Strings bytes top sp done ustack → ∃ bytes', Holds k' t.pte sz bytes' ∧
            Strings bytes' top sp' (done ++ argv) ustack' ∧
            ∀ x, x < v * PGSIZE → bytes' x = bytes x) := by
  induction argv generalizing k argc sp ustack with
  | nil =>
    refine ⟨h, Same.refl _ _, fun sp' ustack' hr => ?_⟩
    cases hr
    refine ⟨h1, h2, rfl, .inl rfl, fun _ bytes done hb hs => ⟨bytes, hb, ?_, fun _ _ => rfl⟩⟩
    rwa [append_nil]
  | cons arg argv ih =>
    have harg := hargs arg (by simp)
    have hup : v < UPAGES := lt_of_lt_of_le hv hsz
    have hlen : (arg ++ [0]).length = arg.length + 1 := by rw [length_append]; rfl
    unfold pushArgs
    split
    case isTrue => exact ⟨h, Same.refl _ _, nofun⟩
    case isFalse hmax =>
    dsimp only
    split
    case isTrue => exact ⟨h, Same.refl _ _, nofun⟩
    case isFalse hbase =>
    by_cases hfit : sp < arg.length + 1
    · -- the pointer has wrapped around
      refine (copyout_high (pushDown_high hfit harg) (by simp)).bind fun r k1 ⟨hr, hk⟩ => ?_
      subst hk
      rw [if_pos hr]
      exact ⟨h, Same.refl _ _, nofun⟩
    have hle : pushDown sp (arg.length + 1) + (arg.length + 1) ≤ sp := by
      refine pushDown_le ?_ ?_ <;> simp only [UPAGES, PGSIZE, TRAPFRAME] at * <;> omega
    refine (copyout_holds h hfull hsz hv hu (Nat.le_of_not_lt hbase) (by rw [hlen]; omega)
      (by simp)).bind fun r k1 ⟨hsp1, hs1, hput⟩ => ?_
    split
    case isTrue => exact ⟨hsp1, hs1, nofun⟩
    case isFalse hr =>
    refine (ih hsp1 (fun a ha => hargs a (by simp [ha])) (Nat.le_of_not_lt hbase) (by omega)).mono
      fun r k2 ⟨hsp2, hs2, hr2⟩ => ⟨hsp2, hs1.trans hs2, fun sp' ustack' he => ?_⟩
    obtain ⟨h3, h4, h5, h6, h7⟩ := hr2 sp' ustack' he
    refine ⟨h3, h4, ?_, .inr ?_, fun hbytes bytes done hb hstr => ?_⟩
    · rw [h5, length_append, length_singleton, length_cons]
      omega
    · rw [length_cons]
      rcases h6 with rfl | h6
      · simp only [length_nil]
        omega
      · omega
    have hsmall : ∀ b ∈ arg ++ [0], b < 256 := by
      intro b hb
      rcases mem_append.mp hb with hb | hb
      · exact hbytes arg (by simp) b hb
      · rw [List.mem_singleton.mp hb]
        decide
    -- the string is stored below those that are there
    have hb1 := hput hr hsmall bytes hb
    have hstr1 : Strings (put bytes (pushDown sp (arg.length + 1)) (arg ++ [0])) top
        (pushDown sp (arg.length + 1)) (done ++ [arg]) (ustack ++ [pushDown sp (arg.length + 1)]) :=
      .snoc (hstr.congr fun x hx => put_outside (.inr (by rw [hlen]; omega))) hle
        put_inside
    obtain ⟨bytes', hb', hstr', hkeep⟩ := h7 (fun a ha => hbytes a (by simp [ha])) _ _ hb1 hstr1
    refine ⟨bytes', hb', by rwa [append_assoc] at hstr', fun x hx => ?_⟩
    rw [hkeep x hx, put_outside (.inl (by omega))]

/-- The arguments on the page from `base` to `top`: at `sp` the pointers `ptrs` and a null pointer,
and above them the strings. -/
structure ArgStack (bytes : Nat → Nat) (base top sp : Nat) (argv : List (List Nat))
    (ptrs : List Nat) : Prop where
  aligned : sp % 16 = 0
  above : base ≤ sp
  length : ptrs.length = argv.length
  pointer : ∀ i p : Nat, ptrs[i]? = some p → word bytes (sp + 8 * i) = p
  null : word bytes (sp + 8 * argv.length) = 0
  string : ∀ (i : Nat) (arg : List Nat) (p : Nat), argv[i]? = some arg → ptrs[i]? = some p →
    sp + 8 * (argv.length + 1) ≤ p ∧ p + arg.length < top ∧
      (∀ j c, arg[j]? = some c → bytes (p + j) = c) ∧ bytes (p + arg.length) = 0
  disjoint : ∀ (i j p q : Nat) (arg : List Nat), i < j → ptrs[i]? = some p → ptrs[j]? = some q →
    argv[j]? = some arg → q + arg.length < p

theorem Strings.argStack {bytes : Nat → Nat} {base top lo sp : Nat} {argv : List (List Nat)}
    {ptrs : List Nat} (h : Strings bytes top lo argv ptrs) (ha : sp % 16 = 0) (hb : base ≤ sp)
    (hle : sp + (argv.length + 1) * 8 ≤ lo) (htop : top < 18446744073709551616) :
    ArgStack (put bytes sp ((ptrs ++ [0]).flatMap leBytes)) base top sp argv ptrs := by
  have hlen := h.length
  have hwords : ∀ x ∈ ptrs ++ [0], x < 18446744073709551616 := by
    intro x hx
    rcases mem_append.mp hx with hx | hx
    · obtain ⟨i, hi, rfl⟩ := getElem_of_mem hx
      obtain ⟨-, h2, -⟩ := h.string (List.getElem?_eq_getElem (by omega))
        (List.getElem?_eq_getElem hi)
      omega
    · rw [List.mem_singleton.mp hx]
      decide
  have hsize : ((ptrs ++ [0]).flatMap leBytes).length = (argv.length + 1) * 8 := by
    rw [length_words, length_append, length_singleton, hlen]
    omega
  have hstr : Strings (put bytes sp ((ptrs ++ [0]).flatMap leBytes)) top lo argv ptrs :=
    h.congr fun x hx => put_outside (.inr (by omega))
  refine ⟨ha, hb, hlen, fun i p hp => ?_, ?_, fun i arg p harg hp => ?_,
    fun i j p q arg hij hp hq harg => hstr.disjoint hij hp hq harg⟩
  · obtain ⟨hi, rfl⟩ := List.getElem?_eq_some_iff.mp hp
    rw [word_put_words hwords _ _ i (by rw [length_append]; omega), getElem_append_left hi]
  · rw [← hlen, word_put_words hwords _ _ ptrs.length (by simp), getElem_concat_length rfl]
  · obtain ⟨h1, h2⟩ := hstr.string harg hp
    exact ⟨by omega, h2⟩

/-- The image with its stack: the old pages, a page of zeros without user access, and a page with
the arguments. -/
structure Stacked (k' : Kmem) (pte' : Nat → Nat) (n sz' sp : Nat) (argv : List (List Nat))
    (bytes : Nat → Nat) : Prop where
  size : sz' = (n + 2) * PGSIZE
  mapped : ∀ v < n + 2, pte' v ≠ 0
  user : ∀ v < n + 2, v ≠ n → pte' v &&& PTE_U ≠ 0
  read : ∀ v < n + 2, v ≠ n → pte' v &&& PTE_R ≠ 0
  guard : pte' n &&& PTE_U = 0
  args : ∃ bytes' ptrs, Holds k' pte' sz' bytes' ∧
    (∀ x, x < (n + 1) * PGSIZE → bytes' x = bytes x) ∧
    ArgStack bytes' ((n + 1) * PGSIZE) sz' sp argv ptrs

/-- The stack and the arguments, or an error; either way the space has the size returned. -/
theorem buildStack_spec {argv : List (List Nat)} (h : Loaded L k t rest sz tf)
    (hargs : ∀ arg ∈ argv, arg.length < 2147483647) :
    wp E (buildStack L p t.root sz argv) k fun r k' => ∃ t', t'.root = t.root ∧
      Space L k' t' rest ∧ AddrSpace L t'.pte r.1 tf ∧ Same rest k k' ∧
      ∀ sp, r.2 = some sp → (∀ arg ∈ argv, ∀ b ∈ arg, b < 256) → ∀ bytes, Holds k t.pte sz bytes →
        Stacked k' t'.pte (npages sz) r.1 sp argv bytes := by
  have hsize := h.addr.size
  have hround : pgroundup sz = npages sz * PGSIZE :=
    pgroundup_eq (by simp only [TRAPFRAME, MAXSZ] at *; omega)
  have hfew := h.few
  have hceil : npages (npages sz * PGSIZE) = npages sz := npages_mul _
  have h0 : Loaded L k t rest (npages sz * PGSIZE) tf := by
    refine ⟨h.space, h.addr.change ?_ (fun _ _ => rfl) fun v hv hne => ?_,
      by rw [hceil]; exact h.full, by rw [hceil]; exact h.read⟩
    · simp only [PGSIZE, TRAPFRAME]
      omega
    · rw [hceil]
      by_contra hge
      exact hne (h.addr.unmapped (by omega) hv)
  unfold buildStack
  dsimp only
  have hnew : u64 (npages sz * PGSIZE + (USERSTACK + 1) * PGSIZE) = (npages sz + 2) * PGSIZE := by
    simp only [u64, PGSIZE, USERSTACK]
    omega
  rw [hround, hnew]
  refine (h0.grow (by decide)).bind fun sz1 k1 ⟨t1, hroot1, hs1, hr⟩ => ?_
  rcases hr with ⟨hsz1, h1, hhold1⟩ | ⟨rfl, h1⟩
  · have hsz1' : sz1 = (npages sz + 2) * PGSIZE := by simp only [PGSIZE] at *; omega
    have hnp : npages sz1 = npages sz + 2 := by rw [hsz1', npages_mul]
    have hn1 := npages_le h1.addr.size
    rw [if_neg (by simp only [PGSIZE] at *; omega)]
    have hguard := (stack_pages (npages sz)).1
    have hbase := (stack_pages (npages sz)).2
    rw [hsz1', ← hroot1]
    simp only [hguard, hbase]
    refine (uvmclear_spec h1.space h1.addr (by omega) (h1.nonzero (by omega))).bind
      fun _ k2 ⟨t2, hroot2, hsp2, ha2, hs2, hpte2⟩ => ?_
    have hpte2' : ∀ v, v ≠ npages sz → t2.pte v = t1.pte v := fun v hv => by
      rw [hpte2, update_of_ne hv]
    have hu : t2.pte (npages sz + 1) &&& PTE_U ≠ 0 := by
      rw [hpte2' _ (by omega)]
      exact h1.full _ (by omega)
    have hfull2 : ∀ w < npages sz1, t2.pte w ≠ 0 := by
      intro w hw h0
      by_cases hwn : w = npages sz
      · rw [hpte2, hwn, update_self] at h0
        have := clearUser_valid (t1.pte (npages sz))
        rw [h0, Nat.zero_and] at this
        exact h1.space.valid _ (h1.nonzero (by omega)) this.symm
      · rw [hpte2' w hwn] at h0
        exact h1.nonzero hw h0
    -- taking the user bit of the guard page changes no byte
    have hhold2 : ∀ bytes, Holds k t.pte sz bytes → Holds k2 t2.pte sz1 bytes := by
      intro bytes hb
      refine (hhold1 bytes ⟨fun va hva => hb.read va (by rwa [hceil] at hva), fun va hva =>
        hb.zero va (by rwa [hceil] at hva)⟩).congr fun v hv => ?_
      have hpa : pte2pa (t2.pte v) = pte2pa (t1.pte v) := by
        by_cases hvn : v = npages sz
        · rw [hpte2, hvn, update_self, pte2pa_clearUser]
        · rw [hpte2' v hvn]
      rw [hpa]
      exact hs2 _ (Multiset.subset_add_left (h1.page_mem hv))
    have hs2' : Same rest k k2 := hs1.trans hs2.right
    rw [← hroot2]
    refine (pushArgs_spec ((npages sz + 2) * PGSIZE) hsp2 hfull2 hn1 (by omega) (by omega) hu hargs
      (by simp only [PGSIZE] at *; omega) (by simp only [PGSIZE] at *; omega)).bind
      fun r k3 ⟨hsp3, hs3, hr⟩ => ?_
    rw [← hsz1']
    have hs3' := hs2'.trans hs3
    cases r with
    | none => exact ⟨t2, rfl, hsp3, ha2, hs3', nofun⟩
    | some r =>
      obtain ⟨sp, ustack⟩ := r
      obtain ⟨hlo, hhi, hlen, hmax, hstr⟩ := hr sp ustack rfl
      have hargc : argv.length ≤ 32 := by
        rcases hmax with rfl | hmax
        · simp
        · simp only [MAXARG] at hmax
          omega
      have hle : pushDown sp ((argv.length + 1) * 8) + (argv.length + 1) * 8 ≤ sp := by
        refine pushDown_le ?_ ?_ <;> simp only [UPAGES, PGSIZE, TRAPFRAME] at * <;> omega
      dsimp only
      split
      case isTrue => exact ⟨t2, rfl, hsp3, ha2, hs3', nofun⟩
      case isFalse hge =>
      refine (copyout_holds hsp3 hfull2 hn1 (by omega) hu (Nat.le_of_not_lt hge) ?_ ?_).bind
        fun r k4 ⟨hsp4, hs4, hput⟩ => ?_
      · rw [length_words, length_append, length_singleton, hlen, length_nil]
        omega
      · simp [leBytes, flatMap_append]
      split
      case isTrue => exact ⟨t2, rfl, hsp4, ha2, hs3'.trans hs4, nofun⟩
      case isFalse hr =>
      refine ⟨t2, rfl, hsp4, ha2, hs3'.trans hs4, fun sp' hsp' hbytes bytes hb => ?_⟩
      obtain rfl := Option.some.inj hsp'
      obtain ⟨bytes', hb', hstr', hkeep⟩ := hstr hbytes bytes [] (hhold2 bytes hb) .nil
      rw [nil_append, ← hsz1'] at hstr'
      have hwords : ∀ b ∈ (ustack ++ [0]).flatMap leBytes, b < 256 := by
        intro b hb
        obtain ⟨x, -, hx⟩ := mem_flatMap.mp hb
        obtain ⟨i, -, rfl⟩ := mem_map.mp hx
        exact Nat.mod_lt _ (by decide)
      refine ⟨hsz1', fun v hv => hfull2 v (by omega), fun v hv hne => ?_, fun v hv hne => ?_, ?_, _,
        ustack, hput hr hwords bytes' hb', fun x hx => ?_,
        hstr'.argStack (pushDown_mod _ _) (Nat.le_of_not_lt hge) hle ?_⟩
      · rw [hpte2' v hne]
        exact h1.full v (by omega)
      · rw [hpte2' v hne]
        exact h1.read v (by omega)
      · rw [hpte2, update_self, clearUser_user]
      · rw [put_outside (.inl (by omega)), hkeep x hx]
      · simp only [PGSIZE] at hsz1'
        omega
  · exact ⟨t1, hroot1, h1.space, h1.addr, hs1, nofun⟩

end Xv6.Vm
