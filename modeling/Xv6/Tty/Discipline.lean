import Xv6.Tty.Refine

/-! What the reads of the console get: the committed input in order, line by line, with one empty
read for each end of file. The facts are proved over the lists and hold over the ring because its
steps are steps over the lists. -/

namespace Xv6.Tty

open Function List
open Blocking (Console ctrlD INPUT_BUF_SIZE)

def taken (outs : List (Option UInt8)) : List UInt8 := outs.map (·.getD ctrlD)

theorem count_taken {outs : List (Option UInt8)} (h : some ctrlD ∉ outs) :
    (taken outs).count ctrlD = outs.count none := by
  induction outs with
  | nil => rfl
  | cons o outs ih =>
    rw [mem_cons, not_or] at h
    have ih := ih h.2
    cases o with
    | none =>
      rw [taken, map_cons, count_cons, count_cons]
      exact congrArg (· + 1) ih
    | some c =>
      have hc : c ≠ ctrlD := fun he => h.1 (congrArg some he.symm)
      have hcons : taken (some c :: outs) = c :: taken outs := rfl
      rw [hcons, count_cons_of_ne hc, count_cons_of_ne (Option.some_ne_none c)]
      exact ih

def bytesOf (outs : List (Nat × Option UInt8)) (id : Nat) : List UInt8 :=
  outs.filterMap fun o => if o.1 = id then o.2 else none

def Plain (bs : List UInt8) : Prop := ∀ b ∈ bs, b ≠ 10 ∧ b ≠ ctrlD

/-- How a critical section of `consoleread` goes: it takes the bytes `bs` of a line, then ends for
one of six reasons with `u` left. -/
inductive Takes (target n : Nat) : List (Option UInt8) → List UInt8 → Outcome → Prop
  | all {l u} (h : l.length = n) (hb : Plain l) : Takes target n (l.map some) u (.ret target)
  | newline {l u} (h : l.length < n) (hb : Plain l) :
      Takes target n ((l ++ [10]).map some) u (.ret (target - n + l.length + 1))
  | endOfFile {u} (h : n = target) (hn : 0 < n) : Takes target n [none] u (.ret 0)
  | putBack {l u} (h : l.length < n) (hb : Plain l) (hlt : n < target + l.length) :
      Takes target n (l.map some) (ctrlD :: u) (.ret (target - n + l.length))
  | killed {l} (h : l.length < n) (hb : Plain l) : Takes target n (l.map some) [] (.ret (-1))
  | sleep {l} (h : l.length < n) (hb : Plain l) :
      Takes target n (l.map some) [] (.sleep (n - l.length))

variable {bs : List UInt8}

theorem Plain.cons {c : UInt8} (hD : c ≠ ctrlD) (hN : c ≠ 10) (h : Plain bs) :
    Plain (c :: bs) := forall_mem_cons.mpr ⟨⟨hN, hD⟩, h⟩

theorem Plain.nil : Plain [] := forall_mem_nil _

variable {target n : Nat}

theorem Takes.cons {c : UInt8} {new : List (Option UInt8)} {u : List UInt8}
    {o : Outcome} (hD : c ≠ ctrlD) (hN : c ≠ 10) (hle : n + 1 ≤ target)
    (h : Takes target n new u o) : Takes target (n + 1) (some c :: new) u o := by
  cases h with
  | all h hb => exact .all (l := c :: _) (congrArg _ h) (hb.cons hD hN)
  | @newline bs _ h hb =>
    have hr : (target : Int) - n + bs.length + 1 =
        target - (n + 1 : Nat) + (c :: bs).length + 1 := by
      simp only [length_cons]
      omega
    rw [hr]
    exact .newline (Nat.succ_lt_succ h) (hb.cons hD hN)
  | endOfFile h => omega
  | @putBack bs _ h hb hlt =>
    have hr : (target : Int) - n + bs.length = target - (n + 1 : Nat) + (c :: bs).length := by
      simp only [length_cons]
      omega
    rw [hr]
    exact .putBack (Nat.succ_lt_succ h) (hb.cons hD hN) (by simp; omega)
  | killed h hb => exact .killed (Nat.succ_lt_succ h) (hb.cons hD hN)
  | @sleep bs h hb =>
    have hn : n - bs.length = n + 1 - (c :: bs).length := by simp
    rw [hn]
    exact .sleep (Nat.succ_lt_succ h) (hb.cons hD hN)

theorem takeLoop_spec (killed : Bool) (hn : n ≤ target) (u : List UInt8)
    (outs : List (Option UInt8)) : ∃ new u' o,
      Line.takeLoop killed target n u outs = (u', outs ++ new, o) ∧ taken new ++ u' = u ∧
      Takes target n new u' o := by
  induction n generalizing u outs with
  | zero => exact ⟨[], u, _, by rw [Line.takeLoop, append_nil], rfl, .all rfl .nil⟩
  | succ n ih =>
    cases u with
    | nil =>
      refine ⟨[], [], _, by rw [Line.takeLoop, append_nil], rfl, ?_⟩
      cases killed with
      | false => exact .sleep (Nat.succ_pos n) .nil
      | true => exact .killed (Nat.succ_pos n) .nil
    | cons c u =>
      rw [Line.takeLoop]
      by_cases hD : c = ctrlD
      · subst hD
        rw [if_pos rfl]
        split_ifs with hlt
        · refine ⟨[], _, _, by rw [append_nil], rfl, ?_⟩
          have hr : (target : Int) - (n + 1 : Nat) + ([] : List UInt8).length =
              target - (n + 1 : Nat) := by simp
          rw [← hr]
          exact .putBack (Nat.succ_pos n) .nil hlt
        · have heq : n + 1 = target := by omega
          refine ⟨[none], u, _, rfl, rfl, ?_⟩
          rw [heq, Int.sub_self]
          exact .endOfFile rfl (by omega)
      rw [if_neg hD]
      by_cases hN : c = 10
      · subst hN
        rw [if_pos rfl]
        refine ⟨[some 10], u, _, rfl, rfl, ?_⟩
        have hr : (target : Int) - (n + 1 : Nat) + ([] : List UInt8).length + 1 = target - n := by
          simp only [length_nil]
          omega
        rw [← hr]
        exact .newline (Nat.succ_pos n) .nil
      · rw [if_neg hN]
        obtain ⟨new, u', o, heq, hu, ht⟩ := ih (by omega) u (outs ++ [some c])
        refine ⟨some c :: new, u', o, ?_, congrArg (c :: ·) hu, ht.cons hD hN hn⟩
        rw [heq, append_assoc, singleton_append]

section Bytes

variable {outs : List (Nat × Option UInt8)} {new : List (Option UInt8)} {id i : Nat}

theorem bytesOf_self :
    bytesOf (outs ++ new.map (id, ·)) id = bytesOf outs id ++ new.reduceOption := by
  simp [bytesOf, filterMap_append, filterMap_map, reduceOption]

theorem bytesOf_ne (hi : i ≠ id) : bytesOf (outs ++ new.map (id, ·)) i = bytesOf outs i := by
  simp [bytesOf, filterMap_append, filterMap_map, hi.symm]

theorem bytesOf_fresh (h : ∀ o ∈ outs, o.1 < id) : bytesOf outs id = [] :=
  filterMap_eq_nil_iff.mpr fun o ho => if_neg (ne_of_lt (h o ho))

theorem mem_new {o : Option UInt8} :
    (i, o) ∈ outs ++ new.map (id, ·) ↔ (i, o) ∈ outs ∨ i = id ∧ o ∈ new := by
  simp [eq_comm, and_comm]

end Bytes

variable {ρ : Type}

/-- A call of `consoleread` of `p` that has not returned: it has delivered a part of a line. -/
structure Pending (s : State ρ Line) (p : ρ) (rd : Reader) : Prop where
  lt : rd.id < s.calls
  len : (bytesOf s.outs rd.id).length + rd.n = rd.target
  plain : Plain (bytesOf s.outs rd.id)
  noEof : (rd.id, none) ∉ s.outs
  alone : ∀ q rd', q ≠ p → s.reader q = some rd' → rd'.id ≠ rd.id
  returned : ∀ t ∈ s.returns, t.id ≠ rd.id

/-- A call that has returned. It says how many bytes it has delivered, unless it was killed; it
stops at the length, after a newline, at an end of file that it takes or before one. -/
structure Returned (outs : List (Nat × Option UInt8)) (t : Return) : Prop where
  result : t.result = -1 ∨ t.result = (bytesOf outs t.id).length
  le : (bytesOf outs t.id).length ≤ t.target
  line : Plain (bytesOf outs t.id).dropLast ∧ ctrlD ∉ bytesOf outs t.id
  stops : t.result ≠ -1 → (bytesOf outs t.id).length = t.target ∨
    (bytesOf outs t.id).getLast? = some 10 ∨ (t.id, none) ∈ outs ∨ t.next = some ctrlD
  eof : (t.id, none) ∈ outs ↔ 0 < t.target ∧ t.result = 0
  empty : (t.id, none) ∈ outs → bytesOf outs t.id = []

def Return.isEmpty (t : Return) : Bool := 0 < t.target ∧ t.result = 0

/-- The reads follow the line discipline. -/
structure Inv (s : State ρ Line) : Prop where
  stream : taken (s.outs.map (·.2)) ++ s.buf.unread = s.committed
  lt : ∀ o ∈ s.outs, o.1 < s.calls
  reader : ∀ p rd, s.reader p = some rd → Pending s p rd
  returned : ∀ t ∈ s.returns, t.id < s.calls ∧ Returned s.outs t
  nodup : (s.returns.map (·.id)).Nodup
  noCtrlD : some ctrlD ∉ s.outs.map (·.2)
  ends : (s.outs.map (·.2)).count none = s.returns.countP Return.isEmpty

variable {s : State ρ Line} {p : ρ} {rd : Reader} {new : List (Option UInt8)} {u : List UInt8}

theorem Returned.frame {outs : List (Nat × Option UInt8)} {t : Return} {id : Nat}
    (h : Returned outs t) (hne : t.id ≠ id) : Returned (outs ++ new.map (id, ·)) t := by
  have hb : bytesOf (outs ++ new.map (id, ·)) t.id = bytesOf outs t.id := bytesOf_ne hne
  have hm : (t.id, none) ∈ outs ++ new.map (id, ·) ↔ (t.id, none) ∈ outs := by
    rw [mem_new]
    exact or_iff_left fun ⟨he, _⟩ => hne he
  constructor
  · rw [hb]; exact h.result
  · rw [hb]; exact h.le
  · rw [hb]; exact h.line
  · rw [hb, hm]; exact h.stops
  · rw [hm]; exact h.eof
  · rw [hb, hm]; exact h.empty

theorem reduceOption_map_some (bs : List UInt8) : (bs.map some).reduceOption = bs := by
  simp [reduceOption, filterMap_map]

theorem none_not_mem_map_some (bs : List UInt8) : none ∉ bs.map some := by simp

theorem bytesOf_bytes (outs : List (Nat × Option UInt8)) (id : Nat) (bs : List UInt8) :
    bytesOf (outs ++ (bs.map some).map (id, ·)) id = bytesOf outs id ++ bs := by
  rw [bytesOf_self, reduceOption_map_some]

theorem Plain.append {as bs : List UInt8} (ha : Plain as) (hb : Plain bs) : Plain (as ++ bs) :=
  forall_mem_append.mpr ⟨ha, hb⟩

theorem Plain.dropLast (h : Plain bs) : Plain bs.dropLast :=
  fun b hb => h b (dropLast_subset bs hb)

theorem Plain.not_mem (h : Plain bs) : ctrlD ∉ bs := fun hb => (h _ hb).2 rfl

theorem Pending.noEof_bytes (h : Pending s p rd) (bs : List UInt8) :
    (rd.id, none) ∉ s.outs ++ (bs.map some).map (rd.id, ·) := by
  rw [mem_new]
  rintro (hm | ⟨-, hm⟩)
  · exact h.noEof hm
  · exact none_not_mem_map_some bs hm

theorem Pending.returns_bytes (h : Pending s p rd) {r : Int} {next : Option UInt8}
    (hle : bs.length ≤ rd.n) (hline : Plain bs.dropLast ∧ ctrlD ∉ bs)
    (hr : r = -1 ∨ r = rd.target - rd.n + bs.length) (h0 : 0 < rd.target → r ≠ 0)
    (hstop : r ≠ -1 → bs.length = rd.n ∨ bs.getLast? = some 10 ∨ next = some ctrlD) :
    Returned (s.outs ++ (bs.map some).map (rd.id, ·)) ⟨rd.id, rd.target, r, next⟩ := by
  have hlen := h.len
  have hb := bytesOf_bytes s.outs rd.id bs
  have hno := h.noEof_bytes bs
  constructor
  · dsimp only
    rw [hb, length_append]
    omega
  · dsimp only
    rw [hb, length_append]
    omega
  · dsimp only
    rw [hb]
    refine ⟨?_, not_mem_append h.plain.not_mem hline.2⟩
    cases hbs : bs with
    | nil => simpa using h.plain.dropLast
    | cons b bs' =>
      rw [dropLast_append_of_ne_nil (cons_ne_nil b bs'), ← hbs]
      exact h.plain.append hline.1
  · intro hne
    dsimp only
    rw [hb, length_append]
    rcases hstop hne with hl | hl | hl
    · exact .inl (by omega)
    · refine .inr (.inl ?_)
      rw [getLast?_append, hl, Option.some_or]
    · exact .inr (.inr (.inr hl))
  · exact iff_of_false hno fun h0' => h0 h0'.1 h0'.2
  · exact fun hm => absurd hm hno

theorem Pending.returns (h : Pending s p rd) {r : Int}
    (ht : Takes rd.target rd.n new u (.ret r)) :
    Returned (s.outs ++ new.map (rd.id, ·)) ⟨rd.id, rd.target, r, u.head?⟩ := by
  have hlen := h.len
  cases ht with
  | @all bs _ hl hb =>
    refine h.returns_bytes hl.le ⟨hb.dropLast, hb.not_mem⟩ (.inr ?_) (fun h0 => ?_) fun _ => .inl hl
    · omega
    · omega
  | @newline bs _ hl hb =>
    refine h.returns_bytes ?_ ⟨?_, ?_⟩ (.inr ?_) (fun h0 => ?_) fun _ => .inr (.inl ?_)
    · simp only [length_append, length_singleton]
      omega
    · rwa [dropLast_concat]
    · exact not_mem_append hb.not_mem (by decide)
    · simp only [length_append, length_singleton]
      omega
    · omega
    · rw [getLast?_concat]
  | endOfFile hn h0 =>
    have hnil : bytesOf s.outs rd.id = [] := length_eq_zero_iff.mp (by omega)
    have hb : bytesOf (s.outs ++ [none].map (rd.id, ·)) rd.id = [] := by
      rw [bytesOf_self, hnil]
      rfl
    have hm : (rd.id, none) ∈ s.outs ++ [none].map (rd.id, ·) :=
      mem_new.mpr (.inr ⟨rfl, mem_singleton_self none⟩)
    constructor
    · exact .inr (by dsimp only; rw [hb]; rfl)
    · dsimp only
      rw [hb]
      exact Nat.zero_le _
    · dsimp only
      rw [hb]
      exact ⟨.nil, not_mem_nil⟩
    · exact fun _ => .inr (.inr (.inl hm))
    · exact iff_of_true hm ⟨by dsimp only; omega, rfl⟩
    · exact fun _ => hb
  | @putBack bs _ hl hb hlt =>
    refine h.returns_bytes hl.le ⟨hb.dropLast, hb.not_mem⟩ (.inr rfl) (fun h0 => ?_)
      fun _ => .inr (.inr rfl)
    omega
  | @killed bs hl hb =>
    exact h.returns_bytes hl.le ⟨hb.dropLast, hb.not_mem⟩ (.inl rfl) (fun _ => by decide)
      fun hne => absurd rfl hne

theorem Pending.sleeps (h : Pending s p rd) {k : Nat}
    (ht : Takes rd.target rd.n new u (.sleep k)) :
    (bytesOf (s.outs ++ new.map (rd.id, ·)) rd.id).length + k = rd.target ∧
      Plain (bytesOf (s.outs ++ new.map (rd.id, ·)) rd.id) ∧ none ∉ new := by
  cases ht with
  | @sleep bs hl hb =>
    have hlen := h.len
    rw [bytesOf_bytes, length_append]
    exact ⟨by omega, h.plain.append hb, none_not_mem_map_some bs⟩

theorem Pending.frame {s' : State ρ Line} {q : ρ} {rd' : Reader} (h : Pending s q rd') (hq : q ≠ p)
    (hne : rd'.id ≠ rd.id) (hcalls : s'.calls = s.calls)
    (houts : s'.outs = s.outs ++ new.map (rd.id, ·))
    (hreader : ∀ q', q' ≠ p → s'.reader q' = s.reader q')
    (hself : ∀ rd'', s'.reader p = some rd'' → rd''.id = rd.id)
    (hreturns : ∀ t ∈ s'.returns, t ∈ s.returns ∨ t.id = rd.id) : Pending s' q rd' where
  lt := hcalls ▸ h.lt
  len := by rw [houts, bytesOf_ne hne]; exact h.len
  plain := by rw [houts, bytesOf_ne hne]; exact h.plain
  noEof := by
    rw [houts, mem_new]
    rintro (hm | ⟨he, -⟩)
    · exact h.noEof hm
    · exact hne he
  alone q' rd'' hq' hr := by
    by_cases hp : q' = p
    · subst hp
      rw [hself rd'' hr]
      exact hne.symm
    · exact h.alone q' rd'' hq' (hreader q' hp ▸ hr)
  returned t ht := by
    rcases hreturns t ht with hm | hm
    · exact h.returned t hm
    · rw [hm]
      exact hne.symm

theorem count_none_map_some (bs : List UInt8) : (bs.map some).count none = 0 :=
  count_eq_zero.mpr (none_not_mem_map_some bs)

theorem Takes.ends {r : Int} (hn : n ≤ target)
    (h : Takes target n new u (.ret r)) (id : Nat) (next : Option UInt8) :
    new.count none = if Return.isEmpty ⟨id, target, r, next⟩ then 1 else 0 := by
  simp only [Return.isEmpty, decide_eq_true_eq]
  cases h with
  | all | newline | putBack | killed => rw [count_none_map_some, if_neg (by omega)]
  | endOfFile ht h0 => rw [if_pos ⟨ht ▸ h0, rfl⟩]; rfl

theorem Plain.some_not_mem (h : Plain bs) : some ctrlD ∉ bs.map some := fun hm =>
  have ⟨_, hb, he⟩ := mem_map.mp hm
  (h _ hb).2 (Option.some.inj he)

theorem Takes.ctrlD_not_mem {o : Outcome} (h : Takes target n new u o) :
    some ctrlD ∉ new := by
  cases h with
  | all _ hb | putBack _ hb _ | killed _ hb | sleep _ hb => exact hb.some_not_mem
  | newline _ hb =>
    rw [map_append]
    exact not_mem_append hb.some_not_mem (by decide)
  | endOfFile => decide

theorem snd_append (outs : List (Nat × Option UInt8)) (new : List (Option UInt8)) (id : Nat) :
    (outs ++ new.map (id, ·)).map (·.2) = outs.map (·.2) ++ new := by
  simp [comp_def]

variable [DecidableEq ρ]

theorem Inv.enter (h : Inv s) (hp : Pending s p rd) (killed : Bool) :
    Inv (Tty.enter Line.lists s p rd killed) := by
  have hle : rd.n ≤ rd.target := by
    have := hp.len
    omega
  obtain ⟨new, u', o, htake, hu, ht⟩ := takeLoop_spec killed hle s.buf.unread []
  simp only [Tty.enter, Line.lists, htake, nil_append]
  have hstream : taken ((s.outs ++ new.map (rd.id, ·)).map (·.2)) ++ u' = s.committed := by
    rw [snd_append, taken, map_append, append_assoc]
    exact (congrArg _ hu).trans h.stream
  have hlt : ∀ o ∈ s.outs ++ new.map (rd.id, ·), o.1 < s.calls := by
    intro o ho
    rcases mem_append.mp ho with ho | ho
    · exact h.lt o ho
    · obtain ⟨b, -, rfl⟩ := mem_map.mp ho
      exact hp.lt
  have hreturned : ∀ t ∈ s.returns, t.id < s.calls ∧ Returned (s.outs ++ new.map (rd.id, ·)) t :=
    fun t hm => ⟨(h.returned t hm).1, (h.returned t hm).2.frame (hp.returned t hm)⟩
  have hctrlD : some ctrlD ∉ (s.outs ++ new.map (rd.id, ·)).map (·.2) := by
    rw [snd_append]
    exact not_mem_append h.noCtrlD ht.ctrlD_not_mem
  cases o with
  | ret r =>
    refine ⟨hstream, hlt, ?_, ?_, ?_, hctrlD, ?_⟩
    · intro q rd' hq
      have hqp : q ≠ p := fun he => by simp [he] at hq
      have hq' : s.reader q = some rd' := by simpa [hqp] using hq
      refine (h.reader q rd' hq').frame hqp (hp.alone q rd' hqp hq') rfl rfl
        (fun q' hne => update_of_ne hne _ _) (fun rd'' hr => ?_) fun t hm => ?_
      · simp at hr
      · rcases mem_append.mp hm with hm | hm
        · exact .inl hm
        · exact .inr (by rw [mem_singleton.mp hm])
    · intro t hm
      rcases mem_append.mp hm with hm | hm
      · exact hreturned t hm
      · rw [mem_singleton.mp hm]
        exact ⟨hp.lt, hp.returns ht⟩
    · rw [map_append, nodup_append]
      refine ⟨h.nodup, nodup_singleton _, ?_⟩
      intro i hi j hj
      obtain ⟨t, hm, rfl⟩ := mem_map.mp hi
      rw [mem_singleton.mp hj]
      exact hp.returned t hm
    · rw [snd_append, count_append, countP_append, h.ends,
        ht.ends hle rd.id u'.head?, countP_singleton]
  | sleep k =>
    obtain ⟨hlen, hplain, hnone⟩ := hp.sleeps ht
    have hno : (rd.id, none) ∉ s.outs ++ new.map (rd.id, ·) := by
      rw [mem_new]
      rintro (hm | ⟨-, hm⟩)
      · exact hp.noEof hm
      · exact hnone hm
    refine ⟨hstream, hlt, ?_, hreturned, h.nodup, hctrlD, ?_⟩
    · intro q rd' hq
      by_cases hqp : q = p
      · subst hqp
        obtain rfl := Option.some.inj ((update_self q _ s.reader).symm.trans hq)
        refine ⟨hp.lt, hlen, hplain, hno, fun q' rd' hne hr => ?_, hp.returned⟩
        exact hp.alone q' rd' hne ((update_of_ne hne _ s.reader).symm.trans hr)
      · have hq' : s.reader q = some rd' := (update_of_ne hqp _ s.reader).symm.trans hq
        refine (h.reader q rd' hq').frame hqp (hp.alone q rd' hqp hq') rfl rfl
          (fun q' hne => update_of_ne hne _ _) (fun rd'' hr => ?_) fun t hm => .inl hm
        obtain rfl := Option.some.inj ((update_self p _ s.reader).symm.trans hr)
        rfl
    · rw [snd_append, count_append, count_eq_zero.mpr hnone, add_zero]
      exact h.ends

theorem Line.key_unread (l : Line) (c : UInt8) : (l.key c).1.unread = l.unread ++ (l.key c).2 := by
  grind [Line.key]

omit [DecidableEq ρ] in
theorem Inv.call (h : Inv s) (p : ρ) (n : Nat) :
    Inv { s with calls := s.calls + 1 } ∧
      Pending { s with calls := s.calls + 1 } p ⟨s.calls, n, n⟩ := by
  constructor
  · refine ⟨h.stream, fun o ho => Nat.lt_succ_of_lt (h.lt o ho), fun q rd hq => ?_, fun t ht =>
      ⟨Nat.lt_succ_of_lt (h.returned t ht).1, (h.returned t ht).2⟩, h.nodup, h.noCtrlD, h.ends⟩
    have hr := h.reader q rd hq
    exact ⟨Nat.lt_succ_of_lt hr.lt, hr.len, hr.plain, hr.noEof, hr.alone, hr.returned⟩
  have hb : bytesOf s.outs s.calls = [] := bytesOf_fresh h.lt
  refine ⟨Nat.lt_succ_self _, ?_, ?_, ?_, ?_, ?_⟩
  · change (bytesOf s.outs s.calls).length + n = n
    rw [hb, length_nil, zero_add]
  · change Plain (bytesOf s.outs s.calls)
    rw [hb]
    exact .nil
  · exact fun hm => lt_irrefl _ (h.lt _ hm)
  · exact fun q rd' _ hq => ne_of_lt (h.reader q rd' hq).lt
  · exact fun t ht => ne_of_lt (h.returned t ht).1

theorem Inv.step {s' : State ρ Line} {e : Event ρ} (h : Inv s)
    (hs : Tty.step Line.lists s e = some s') : Inv s' := by
  cases e with
  | intr c =>
    cases hs
    refine ⟨?_, h.lt, fun p rd hp => ?_, h.returned, h.nodup, h.noCtrlD, h.ends⟩
    · change taken (s.outs.map (·.2)) ++ (s.buf.key c).1.unread = s.committed ++ (s.buf.key c).2
      rw [Line.key_unread, ← append_assoc, h.stream]
    · have hr := h.reader p rd hp
      exact ⟨hr.lt, hr.len, hr.plain, hr.noEof, hr.alone, hr.returned⟩
  | read p n killed =>
    unfold Tty.step at hs
    cases hp : s.reader p with
    | some rd => simp [hp] at hs
    | none =>
      simp only [hp, Option.some.injEq] at hs
      obtain ⟨hinv, hpend⟩ := h.call p n.toNat
      exact hs ▸ hinv.enter hpend killed
  | resume p killed =>
    obtain ⟨rd, hp, rfl⟩ := Option.map_eq_some_iff.mp hs
    exact h.enter (h.reader p rd hp) killed

theorem Zero.sound {cons : Console} (h : Zero cons) : Sound cons ∧ line cons = ⟨[], []⟩ := by
  obtain ⟨buf, r, w, e⟩ := cons
  obtain ⟨rfl, rfl, rfl⟩ := h
  have hok : Ok buf 0 0 0 := ⟨by decide, by decide, fun _ => rfl, nofun⟩
  exact ⟨⟨buf, 0, 0, 0, hok, rfl⟩, hok.line_eq⟩

omit [DecidableEq ρ] in
theorem Boot.inv {s : State ρ Console} (h : Boot Zero s) : Inv s.line where
  stream := by
    change taken (s.outs.map (·.2)) ++ (line s.buf).unread = s.committed
    rw [h.buf.sound.2, h.outs, h.committed]
    rfl
  lt := by
    change ∀ o ∈ s.outs, _
    rw [h.outs]
    nofun
  reader p rd hp := by cases (h.reader p).symm.trans hp
  returned := by
    change ∀ t ∈ s.returns, _
    rw [h.returns]
    nofun
  nodup := by
    change (s.returns.map (·.id)).Nodup
    rw [h.returns]
    exact nodup_nil
  noCtrlD := by
    change some ctrlD ∉ s.outs.map (·.2)
    rw [h.outs]
    exact not_mem_nil
  ends := by
    change (s.outs.map (·.2)).count none = s.returns.countP Return.isEmpty
    rw [h.outs, h.returns]
    rfl

theorem Inv.of_reachable {s : State ρ Console} (h : Reachable (Boot Zero) (Tty.step ring) s) :
    Sound s.buf ∧ Inv s.line := by
  refine h.invariant (P := fun s => Sound s.buf ∧ Inv s.line) (fun s hs => ?_)
    fun s e s' hi hs => ?_
  · exact ⟨hs.buf.sound.1, hs.inv⟩
  · obtain ⟨hsound, hstep⟩ := step_refines hi.1 hs
    exact ⟨hsound, hi.2.step hstep⟩

theorem Sound.order {cons : Console} (h : Sound cons) :
    wsub (2 ^ 32) cons.w cons.r + wsub (2 ^ 32) cons.e cons.w = wsub (2 ^ 32) cons.e cons.r ∧
      wsub (2 ^ 32) cons.e cons.r ≤ INPUT_BUF_SIZE ∧
      (wsub (2 ^ 32) cons.e cons.r = INPUT_BUF_SIZE → cons.w = cons.e) := by
  obtain ⟨buf, r, m, n, hok, rfl⟩ := h
  simp only [ringOf]
  rw [hok.wsub_w, hok.wsub_edit, hok.wsub_e]
  refine ⟨rfl, hok.le, fun hfull => ?_⟩
  rw [hok.full hfull, add_zero]

/-- A character edits what is not committed and may commit it; the rest stays. -/
theorem intr_refines {s : State ρ Console} (h : Sound s.buf) (c : UInt8) :
    ∃ s' new, step ring s (.intr c) = some s' ∧ (line s.buf).key c = (line s'.buf, new) ∧
      s'.committed = s.committed ++ new ∧ unread s'.buf = unread s.buf ++ new ∧
      s'.outs = s.outs ∧ s'.returns = s.returns ∧ s'.reader = s.reader := by
  have hs : step ring s (.intr c) = some _ := rfl
  obtain ⟨-, hline⟩ := step_refines h hs
  have hkey := Option.some.inj hline
  have hbuf := congrArg State.buf hkey
  have hcommitted := congrArg State.committed hkey
  refine ⟨_, ((line s.buf).key c).2, hs, Prod.ext hbuf rfl, hcommitted.symm, ?_, rfl, rfl, rfl⟩
  exact (congrArg Line.unread hbuf).symm.trans (Line.key_unread (line s.buf) c)

/-- The console as a line discipline. In every state that interrupts and reads can reach, the
indices of the ring are in order under wrapping, and a full ring can be read. What the reads have
taken, followed by what they have not read, is what has been committed; a character only edits what
is not committed, and a read takes from what is committed and leaves the rest as it is. Every read
that has returned has delivered as many bytes as it says, stopping at its length, after a newline,
or at an end of file; the ends of file that have been taken are as many as the reads that got
nothing. -/
theorem console_line_discipline {s : State ρ Console} (h : Reachable (Boot Zero) (step ring) s) :
    (wsub (2 ^ 32) s.buf.w s.buf.r + wsub (2 ^ 32) s.buf.e s.buf.w =
        wsub (2 ^ 32) s.buf.e s.buf.r ∧
      wsub (2 ^ 32) s.buf.e s.buf.r ≤ INPUT_BUF_SIZE ∧
      (wsub (2 ^ 32) s.buf.e s.buf.r = INPUT_BUF_SIZE → s.buf.w = s.buf.e)) ∧
    taken (s.outs.map (·.2)) ++ unread s.buf = s.committed ∧
    (∀ c, ∃ s' new, step ring s (.intr c) = some s' ∧ (line s.buf).key c = (line s'.buf, new) ∧
      s'.committed = s.committed ++ new ∧ unread s'.buf = unread s.buf ++ new ∧
      s'.outs = s.outs ∧ s'.returns = s.returns ∧ s'.reader = s.reader) ∧
    (∀ e s', step ring s e = some s' → step Line.lists s.line e = some s'.line ∧
      ((∀ c, e ≠ .intr c) → edit s'.buf = edit s.buf ∧ s'.committed = s.committed)) ∧
    (s.returns.map (·.id)).Nodup ∧ (∀ t ∈ s.returns, Returned s.outs t) ∧
    some ctrlD ∉ s.outs.map (·.2) ∧
    (taken (s.outs.map (·.2))).count ctrlD = s.returns.countP Return.isEmpty := by
  obtain ⟨hsound, hinv⟩ := Inv.of_reachable h
  refine ⟨hsound.order, hinv.stream, intr_refines hsound,
    fun _ _ hs => ⟨(step_refines hsound hs).2, read_edit hsound hs⟩, hinv.nodup,
    fun t ht => (hinv.returned t ht).2, hinv.noCtrlD, ?_⟩
  exact (count_taken hinv.noCtrlD).trans hinv.ends

def fresh : State (Fin 2) Console := ⟨⟨fun _ => 0, 0, 0, 0⟩, fun _ => none, 0, [], [], []⟩

/-- A read sleeps; `ab`, a backspace, `c`, an end of file and `d` come in. The read gets `ac` and
puts the end of file back; the next read gets nothing, and `d` can still be edited. -/
def eofRun : List (Event (Fin 2)) :=
  [.read 0 5 false, .intr 97, .intr 98, .intr 127, .intr 99, .intr ctrlD, .intr 100,
    .resume 0 false, .read 1 3 false]

theorem console_line_discipline_eof : ∃ s : State (Fin 2) Console,
    Reachable (Boot Zero) (step ring) s ∧ s.committed = [97, 99, ctrlD] ∧
      s.outs = [(0, some 97), (0, some 99), (1, none)] ∧ s.returns.map (·.result) = [2, 0] ∧
      edit s.buf = [100] ∧
      (taken (s.outs.map (·.2))).count ctrlD = s.returns.countP Return.isEmpty := by
  have hany : (runEvents (step ring) fresh eofRun).any (fun s => decide
      (s.committed = [97, 99, ctrlD] ∧ s.outs = [(0, some 97), (0, some 99), (1, none)] ∧
        s.returns.map (·.result) = [2, 0] ∧ edit s.buf = [100])) = true := by decide +kernel
  obtain ⟨s, hs, hd⟩ := (Option.any_eq_true _ _).mp hany
  have hboot : Boot Zero fresh := ⟨⟨rfl, rfl, rfl⟩, fun _ => rfl, rfl, rfl, rfl, rfl⟩
  have hreach : Reachable (Boot Zero) (step ring) s := Reachable.run (.start hboot) _ hs
  obtain ⟨hcommitted, houts, hresults, hedit⟩ := of_decide_eq_true hd
  exact ⟨s, hreach, hcommitted, houts, hresults, hedit,
    (console_line_discipline hreach).2.2.2.2.2.2.2⟩

end Xv6.Tty
