import Xv6.Itable.Invariant

/-! Steps in which no reference is taken or dropped: a process goes on in a call, locks an entry or
releases it, or changes one that it has locked. -/

namespace Xv6.Itable

open Function Finset
open Fs (Dinode NINODE Ip)

variable {π ρ : Type} {s s' : State π ρ} {p q : π} {r : ρ} {i j : Ip} {pc : Pc ρ}

theorem update_disk_cases {disk : Nat → Nat → Dinode} {dev inum : Nat} {d : Dinode} (a b : Nat) :
    update disk dev (update (disk dev) inum d) a b = disk a b ∨
      dev = a ∧ inum = b ∧ update disk dev (update (disk dev) inum d) a b = d := by
  rcases eq_or_ne a dev with rfl | ha
  · rcases eq_or_ne b inum with rfl | hb
    · exact .inr ⟨rfl, rfl, by rw [update_self, update_self]⟩
    · exact .inl (by rw [update_self, update_of_ne hb])
  · exact .inl (by rw [update_of_ne ha])

/-- A step of `p` that leaves the references and the entries of others alone. -/
structure Own (s s' : State π ρ) (p : π) : Prop where
  pc : ∀ q, q ≠ p → s'.pc q = s.pc q
  ends : ∀ r, (s.pc p).ends = some r → (s'.pc p).ends = some r
  alloc : ∀ dev type inum r, s'.pc p ≠ .iallocGet dev type inum r
  refs : s'.refs = s.refs
  ref : ∀ j, (s'.inode j).ref = (s.inode j).ref
  dev : ∀ j, (s'.inode j).dev = (s.inode j).dev
  inum : ∀ j, (s'.inode j).inum = (s.inode j).inum
  lock : ∀ j q r, q ≠ p → (s'.lock j = some (q, r) ↔ s.lock j = some (q, r))
  copy : ∀ j, (∃ r, s.lock j = some (p, r)) ∨
    (s'.inode j).valid = (s.inode j).valid ∧ (s'.inode j).d = (s.inode j).d
  late : ∀ j r, s.lock j = some (p, r) → (s.pc p).ends = some r → (s'.inode j).valid = false
  disk : ∀ dev inum, s'.disk dev inum = s.disk dev inum ∨ (s.pc p).ends = none ∧
    ∃ j r, s.lock j = some (p, r) ∧ (s.inode j).dev = dev ∧ (s.inode j).inum = inum

namespace Own

variable [Fintype ρ]

theorem dinode (o : Own s s' p) (h : Inv s) (hr : s.refs r = some i)
    (hi : ∀ r', s.lock i ≠ some (p, r')) : s'.dinode i = s.dinode i := by
  rw [State.dinode, o.dev, o.inum]
  rcases o.disk (s.inode i).dev (s.inode i).inum with he | ⟨-, j, r', hl, hdev, hinum⟩
  · exact he
  · obtain rfl := h.same_entry (h.held j p r' hl).1 hr hdev hinum
    exact absurd hl (hi r')

omit [Fintype ρ] in
theorem stale (o : Own s s' p) (h : Stale s i) (hi : ∀ r, s.lock i ≠ some (p, r)) : Stale s' i := by
  intro hvalid
  rcases o.copy i with ⟨r, hl⟩ | ⟨hv, -⟩
  · exact absurd hl (hi r)
  · rw [hv] at hvalid
    obtain ⟨q, r, hl, hpc⟩ := h hvalid
    have e : q ≠ p := by
      rintro rfl
      exact hi r hl
    exact ⟨q, r, (o.lock i q r e).mpr hl, by rw [o.pc q e, hpc]⟩

theorem unclaimed {dev inum : Nat} (o : Own s s' p) (h : Inv s) (hu : Unclaimed s dev inum) :
    Unclaimed s' dev inum := by
  intro r i hr hdev hinum
  rw [o.refs] at hr
  rw [o.dev] at hdev
  rw [o.inum] at hinum
  obtain ⟨⟨q, hq⟩, hstale⟩ := hu r i hr hdev hinum
  refine ⟨⟨q, ?_⟩, ?_⟩
  · by_cases e : q = p
    · subst e
      exact o.ends r hq
    · rwa [o.pc q e]
  by_cases hl : ∃ r', s.lock i = some (p, r')
  · obtain ⟨r', hl⟩ := hl
    obtain ⟨hr', hsole⟩ := h.held i p r' hl
    obtain ⟨⟨q', hq'⟩, -⟩ := hu r' i hr' hdev hinum
    obtain ⟨rfl, -⟩ := hsole q' (Pc.sole_of_ends hq')
    intro hvalid
    rw [o.late i r' hl hq'] at hvalid
    cases hvalid
  · rw [not_exists] at hl
    exact o.stale hstale hl

theorem keeps (o : Own s s' p) (h : Inv s) (hq : q ≠ p) : Keeps s s' q := by
  have hlocked : ∀ {i r r'}, s.lock i = some (q, r) → s.lock i ≠ some (p, r') := by
    intro i r r' hl hl'
    cases hl.symm.trans hl'
    exact hq rfl
  refine ⟨fun r _ => by rw [o.refs], fun i r hl => ⟨(o.lock i q r hq).mpr hl, ?_⟩,
    fun i r _ hf => ⟨(o.ref i).trans hf.ref, ?_⟩, fun dev type inum r hpc => ⟨?_, ?_⟩⟩
  · rcases o.copy i with ⟨r', hl'⟩ | hsame
    · exact absurd hl' (hlocked hl)
    · exact hsame
  · rw [o.dinode h hf.refs fun r' => hlocked hf.lock]
    exact hf.type
  · rcases o.disk dev inum with he | ⟨hends, j, r', hl, hdev, hinum⟩
    · exact he
    -- the entry would be one that `p` is about to drop
    have hgood := h.good q
    rw [hpc] at hgood
    obtain ⟨hr', hsole⟩ := h.held j p r' hl
    obtain ⟨⟨p', hp'⟩, -⟩ := hgood.2.2.2 r' j hr' hdev hinum
    obtain ⟨rfl, -⟩ := hsole p' (Pc.sole_of_ends hp')
    rw [hends] at hp'
    cases hp'
  · have hgood := h.good q
    rw [hpc] at hgood
    exact o.unclaimed h hgood.2.2.2

theorem inv [DecidableEq ρ] (o : Own s s' p) (h : Inv s)
    (hsole : ∀ q r, q ≠ p → (s'.pc p).sole = some r → (s.pc q).place ≠ some r)
    (hplace : ∀ q r, q ≠ p → (s'.pc p).place = some r → (s.pc q).sole ≠ some r)
    (hheld : ∀ j q r, q ≠ p → s.lock j = some (q, r) → (s'.pc p).sole ≠ some r)
    (hlocks : ∀ j r, s'.lock j = some (p, r) → s.refs r = some j ∧
      ∀ q, (s'.pc q).sole = some r → q = p ∧ (s'.pc p).locked = some r)
    (hloaded : ∀ j r, s'.lock j = some (p, r) →
      (s'.inode j).valid = true ∨ s'.pc p = .ilockRead r ∨ s'.pc p = .unlock r)
    (hfree : ∀ dev inum, (s'.disk dev inum).type = 0 → (s'.disk dev inum).nlink = 0)
    (hzero : ∀ j r, s.lock j = some (p, r) → (s'.dinode j).type = 0 → (s.dinode j).type = 0 ∨
      (s.inode j).ref = 1 ∧ s'.pc p = .invalidate r)
    (hdisk : ∀ j r, s.lock j = some (p, r) → (s'.inode j).valid = true → (s'.dinode j).type = 0 →
      s'.lock j = some (p, r) ∧ s'.pc p = .invalidate r)
    (hcopy : ∀ j r, s.lock j = some (p, r) → (s'.inode j).valid = true → (s'.inode j).d.type = 0 →
      s'.lock j = some (p, r) ∧ (s'.pc p = .clearUpdate r ∨ s'.pc p = .invalidate r))
    (hgood : Good s' p (s'.pc p)) : Inv s' := by
  have hends : ∀ {r}, (∀ q, (s'.pc q).ends ≠ some r) → ∀ q, (s.pc q).ends ≠ some r := by
    intro r hne q hq
    by_cases e : q = p
    · subst e
      exact hne q (o.ends r hq)
    · exact hne q (by rwa [o.pc q e])
  refine ⟨fun j => ?_, fun j k hj hk hdev hinum => ?_, fun p' q r hp' hq => ?_, fun j q r hl => ?_,
    fun j q r hl => ?_, hfree, fun r j hr hne hzero' => ?_, fun j hj htype => ?_,
    fun j hj hvalid htype => ?_, fun p' q dev type type' inum r r' hp' hq => ?_, fun q => ?_⟩
  · rw [o.ref, o.refs, h.count]
  · rw [o.ref] at hj hk
    rw [o.dev, o.dev] at hdev
    rw [o.inum, o.inum] at hinum
    exact h.unique j k hj hk hdev hinum
  · by_cases ep : p' = p
    · by_cases eq : q = p
      · rw [ep, eq]
      · rw [ep] at hp'
        rw [o.pc q eq] at hq
        exact absurd hq (hsole q r eq hp')
    · by_cases eq : q = p
      · rw [eq] at hq
        rw [o.pc p' ep] at hp'
        exact absurd hp' (hplace p' r ep hq)
      · rw [o.pc p' ep] at hp'
        rw [o.pc q eq] at hq
        exact h.sole p' q r hp' hq
  · by_cases e : q = p
    · subst e
      rw [o.refs]
      exact hlocks j r hl
    have hl' := (o.lock j q r e).mp hl
    obtain ⟨hr, hsole'⟩ := h.held j q r hl'
    refine ⟨by rw [o.refs, hr], fun q' hq' => ?_⟩
    by_cases e' : q' = p
    · rw [e'] at hq'
      exact absurd hq' (hheld j q r e hl')
    · rw [o.pc q' e'] at hq'
      rw [o.pc q e]
      exact hsole' q' hq'
  · by_cases e : q = p
    · subst e
      exact hloaded j r hl
    · have hl' := (o.lock j q r e).mp hl
      rw [o.pc q e, ((o.keeps h e).lock j r hl').2.1]
      exact h.loaded j q r hl'
  · rw [o.refs] at hr
    by_cases hl : ∃ r', s.lock j = some (p, r')
    · obtain ⟨r', hl⟩ := hl
      rcases hzero j r' hl hzero' with hz | ⟨href, hpc⟩
      · exact h.live r j hr (hends hne) hz
      · obtain rfl := h.only_ref href hr (h.held j p r' hl).1
        exact hne p (by rw [hpc]; rfl)
    · rw [not_exists] at hl
      rw [o.dinode h hr hl] at hzero'
      exact h.live r j hr (hends hne) hzero'
  · rw [o.ref] at hj
    obtain ⟨r, hr⟩ := h.exists_ref hj
    by_cases hl : ∃ r', s.lock j = some (p, r')
    · obtain ⟨r', hl⟩ := hl
      exact fun hvalid => ⟨p, r', hdisk j r' hl hvalid htype⟩
    · rw [not_exists] at hl
      rw [o.dinode h hr hl] at htype
      exact o.stale (h.disk j hj htype) hl
  · rw [o.ref] at hj
    by_cases hl : ∃ r', s.lock j = some (p, r')
    · obtain ⟨r', hl⟩ := hl
      exact ⟨p, r', hcopy j r' hl hvalid htype⟩
    rw [not_exists] at hl
    rcases o.copy j with ⟨r', hl'⟩ | ⟨hv, hd⟩
    · exact absurd hl' (hl r')
    · rw [hv] at hvalid
      rw [hd] at htype
      obtain ⟨q, r', hl', hpc⟩ := h.copy j hj hvalid htype
      have hq : q ≠ p := by
        rintro rfl
        exact hl r' hl'
      exact ⟨q, r', (o.lock j q r' hq).mpr hl', by rwa [o.pc q hq]⟩
  · have e : p' ≠ p := by
      rintro rfl
      exact o.alloc _ _ _ _ hp'
    have e' : q ≠ p := by
      rintro rfl
      exact o.alloc _ _ _ _ hq
    rw [o.pc p' e] at hp'
    rw [o.pc q e'] at hq
    exact h.alloc p' q dev type type' inum r r' hp' hq
  · by_cases e : q = p
    · subst e
      exact hgood
    · rw [o.pc q e]
      exact (h.good q).keep (o.keeps h e)

end Own

section

variable [DecidableEq π]

theorem goto_pc_self (s : State π ρ) (p : π) (pc : Pc ρ) : (s.goto p pc).pc p = pc :=
  update_self ..

theorem goto_pc_ne (s : State π ρ) (pc : Pc ρ) (h : q ≠ p) : (s.goto p pc).pc q = s.pc q :=
  update_of_ne h ..

end

variable [Fintype ρ]

/-- What a process has locked and loaded is allocated on the disk, up to where `iput` has cleared
its type. -/
theorem Inv.type_of_lock (h : Inv s) (hl : s.lock j = some (p, r))
    (hpc : ∀ r, s.pc p ≠ .invalidate r)
    (hvalid : (s.inode j).valid = true) : (s.dinode j).type ≠ 0 := by
  intro htype
  obtain ⟨q, r', hl', hq⟩ := h.disk j (h.ref_pos (h.held j p r hl).1) htype hvalid
  cases hl.symm.trans hl'
  exact hpc r hq

theorem Inv.copy_of_lock (h : Inv s) (hl : s.lock j = some (p, r))
    (hpc : ∀ r, s.pc p ≠ .invalidate r)
    (hpc' : ∀ r, s.pc p ≠ .clearUpdate r) (hvalid : (s.inode j).valid = true) :
    (s.inode j).d.type ≠ 0 := by
  intro htype
  obtain ⟨q, r', hl', hq⟩ := h.copy j (h.ref_pos (h.held j p r hl).1) hvalid htype
  cases hl.symm.trans hl'
  rcases hq with hq | hq
  · exact hpc' r hq
  · exact hpc r hq

/-- A call goes on with the place that it has. -/
structure Pc.Next (pc pc' : Pc ρ) : Prop where
  place : ∀ r, pc'.place = some r → pc.place = some r
  sole : ∀ r, pc'.sole = some r → pc.sole = some r
  ends : ∀ r, pc.ends = some r → pc'.ends = some r
  alloc : ∀ dev type inum r, pc' ≠ .iallocGet dev type inum r

namespace Pc.Next

variable {pc pc' : Pc ρ}

omit [Fintype ρ] in
theorem idle (h : pc.ends = none) : pc.Next .idle :=
  ⟨nofun, nofun, fun _ hr => (nomatch h.symm.trans hr), nofun⟩

section

variable (n : (s.pc p).Next pc') (h : Inv s) (hq : q ≠ p)

include n h hq

theorem not_place (hr : pc'.sole = some r) :
    (s.pc q).place ≠ some r :=
  fun hq' => hq (h.sole p q r (n.sole r hr) hq')

theorem not_sole (hr : pc'.place = some r) :
    (s.pc q).sole ≠ some r :=
  fun hq' => hq (h.sole q p r hq' (n.place r hr)).symm

theorem not_held (hl : s.lock j = some (q, r)) :
    pc'.sole ≠ some r :=
  fun hr => hq (((h.held j q r hl).2 p (n.sole r hr)).1).symm

end

end Pc.Next

theorem Inv.valid_of_idle (h : Inv s) (hpc : s.pc p = .idle) (hl : s.lock j = some (p, r)) :
    (s.inode j).valid = true := by
  rcases h.loaded j p r hl with hv | hv | hv
  · exact hv
  · rw [hpc] at hv
    cases hv
  · rw [hpc] at hv
    cases hv

variable [DecidableEq π] [DecidableEq ρ]

theorem Inv.goto (h : Inv s) (hpc : (s.pc p).ends = none) (hclear : ∀ r, s.pc p ≠ .clearUpdate r)
    (halloc : ∀ dev type inum r, pc ≠ .iallocGet dev type inum r)
    (hvalid : ∀ j r, s.lock j = some (p, r) → (s.inode j).valid = true)
    (hsole : ∀ q r, q ≠ p → pc.sole = some r → (s.pc q).place ≠ some r)
    (hplace : ∀ q r, q ≠ p → pc.place = some r → (s.pc q).sole ≠ some r)
    (hheld : ∀ j q r, s.lock j = some (q, r) → pc.sole ≠ some r)
    (hgood : Good (s.goto p pc) p pc) : Own s (s.goto p pc) p ∧ Inv (s.goto p pc) := by
  have hself := goto_pc_self s p pc
  have hne : ∀ {q}, q ≠ p → (s.goto p pc).pc q = s.pc q := fun h => goto_pc_ne s pc h
  have hinv : ∀ r, s.pc p ≠ .invalidate r := by
    intro r he
    rw [he] at hpc
    cases hpc
  have o : Own s (s.goto p pc) p :=
    ⟨fun _ => hne, fun r hr => absurd hr (by rw [hpc]; nofun), by rw [hself]; exact halloc, rfl,
      fun _ => rfl, fun _ => rfl, fun _ => rfl, fun _ _ _ _ => Iff.rfl, fun _ => .inr ⟨rfl, rfl⟩,
      fun _ r _ hr => absurd hr (by rw [hpc]; nofun), fun _ _ => .inl rfl⟩
  refine ⟨o, o.inv h ?_ ?_ (fun j q r _ hl => ?_)
    (fun j r hl => ⟨(h.held j p r hl).1, fun q hq => ?_⟩)
    (fun j r hl => .inl (hvalid j r hl)) h.free (fun _ _ _ => .inl) (fun j r hl hv ht => ?_)
    (fun j r hl hv ht => ?_) ?_⟩
  · rw [hself]
    exact hsole
  · rw [hself]
    exact hplace
  · rw [hself]
    exact hheld j q r hl
  · by_cases e : q = p
    · rw [e, hself] at hq
      exact absurd hq (hheld j p r hl)
    · rw [hne e] at hq
      exact absurd ((h.held j p r hl).2 q hq).1 e
  · exact absurd ht (h.type_of_lock hl hinv hv)
  · exact absurd ht (h.copy_of_lock hl hinv hclear hv)
  · rw [hself]
    exact hgood

theorem Inv.start (h : Inv s) (hpc : s.pc p = .idle)
    (halloc : ∀ dev type inum r, pc ≠ .iallocGet dev type inum r)
    (hsole : ∀ q r, pc.sole = some r → (s.pc q).place ≠ some r)
    (hplace : ∀ q r, pc.place = some r → (s.pc q).sole ≠ some r)
    (hheld : ∀ j q r, s.lock j = some (q, r) → pc.sole ≠ some r)
    (hgood : Good (s.goto p pc) p pc) : Own s (s.goto p pc) p ∧ Inv (s.goto p pc) :=
  h.goto (by rw [hpc]; rfl) (by rw [hpc]; nofun) halloc (fun _ _ hl => h.valid_of_idle hpc hl)
    (fun q r _ => hsole q r) (fun q r _ => hplace q r) hheld hgood

theorem Inv.lock (h : Inv s) (hpc : (s.pc p).place = some r) (hends : (s.pc p).ends = none)
    (hclear : ∀ r, s.pc p ≠ .clearUpdate r)
    (hvalid : ∀ j r, s.lock j = some (p, r) → (s.inode j).valid = true)
    (hnext : (s.pc p).Next pc) (hlocked : pc.locked = some r) (hr : s.refs r = some i)
    (hfree : s.lock i = none) (hloaded : (s.inode i).valid = true ∨ pc = .ilockRead r)
    (hgood : Locks ((s.setLock i (some (p, r))).goto p pc) p r i →
      Good ((s.setLock i (some (p, r))).goto p pc) p pc) :
    Own s ((s.setLock i (some (p, r))).goto p pc) p ∧
      Inv ((s.setLock i (some (p, r))).goto p pc) := by
  have hself := goto_pc_self (s.setLock i (some (p, r))) p pc
  have hne : ∀ {q}, q ≠ p → ((s.setLock i (some (p, r))).goto p pc).pc q = s.pc q := fun h =>
    goto_pc_ne (s.setLock i (some (p, r))) pc h
  have hi : ((s.setLock i (some (p, r))).goto p pc).lock i = some (p, r) := update_self ..
  have hj : ∀ {j}, j ≠ i → ((s.setLock i (some (p, r))).goto p pc).lock j = s.lock j := fun h =>
    update_of_ne h ..
  have hinv : ∀ r, s.pc p ≠ .invalidate r := by
    intro r he
    rw [he] at hends
    cases hends
  have o : Own s ((s.setLock i (some (p, r))).goto p pc) p := by
    refine ⟨fun _ => hne, fun r hr => absurd hr (by rw [hends]; nofun),
      by rw [hself]; exact hnext.alloc, rfl, fun _ => rfl, fun _ => rfl, fun _ => rfl,
      fun j q r' hq => ?_, fun _ => .inr ⟨rfl, rfl⟩,
      fun _ r _ hr => absurd hr (by rw [hends]; nofun), fun _ _ => .inl rfl⟩
    by_cases e : j = i
    · rw [e, hi, hfree]
      refine iff_of_false (fun he => ?_) nofun
      exact hq (Prod.mk.inj (Option.some.inj he)).1.symm
    · rw [hj e]
  refine ⟨o, o.inv h (fun q r' hq hs => ?_) (fun q r' hq hs => ?_) (fun j q r' hq hl hs => ?_)
    (fun j r' hl => ?_) (fun j r' hl => ?_) h.free (fun _ _ _ => .inl) (fun j r' hl hv ht => ?_)
    (fun j r' hl hv ht => ?_) ?_⟩
  · rw [hself] at hs
    exact hnext.not_place h hq hs
  · rw [hself] at hs
    exact hnext.not_sole h hq hs
  · rw [hself] at hs
    exact hnext.not_held h hq hl hs
  · rw [hself]
    by_cases e : j = i
    · rw [e, hi] at hl
      cases hl
      refine ⟨e ▸ hr, fun q hq => ?_⟩
      by_cases eq : q = p
      · exact ⟨eq, hlocked⟩
      · rw [hne eq] at hq
        exact absurd (h.sole q p r hq hpc).symm eq
    · rw [hj e] at hl
      obtain ⟨hr', hs⟩ := h.held j p r' hl
      refine ⟨hr', fun q hq => ?_⟩
      by_cases eq : q = p
      · rw [eq, hself] at hq
        have := (hs p (hnext.sole r' hq)).2
        rw [Pc.place_of_locked this] at hpc
        cases hpc
        exact absurd (Option.some.inj (hr'.symm.trans hr)) e
      · rw [hne eq] at hq
        exact absurd (hs q hq).1 eq
  · rw [hself]
    by_cases e : j = i
    · rw [e, hi] at hl
      cases hl
      rw [e]
      exact hloaded.imp_right .inl
    · rw [hj e] at hl
      exact .inl (hvalid j r' hl)
  · exact absurd ht (h.type_of_lock hl hinv hv)
  · exact absurd ht (h.copy_of_lock hl hinv hclear hv)
  · rw [hself]
    exact hgood ⟨hr, hi⟩

theorem Inv.release (h : Inv s) (hl : s.lock i = some (p, r)) (hinv : ∀ r, s.pc p ≠ .invalidate r)
    (hclear : ∀ r, s.pc p ≠ .clearUpdate r)
    (hvalid : ∀ j r', j ≠ i → s.lock j = some (p, r') → (s.inode j).valid = true)
    (hlate : ∀ j r, s.lock j = some (p, r) → (s.pc p).ends = some r → (s.inode j).valid = false)
    (hnext : (s.pc p).Next pc) (hsole : ∀ r', pc.sole = some r' → r' = r)
    (hgood : Good ((s.setLock i none).goto p pc) p pc) :
    Own s ((s.setLock i none).goto p pc) p ∧ Inv ((s.setLock i none).goto p pc) := by
  have hself := goto_pc_self (s.setLock i none) p pc
  have hne : ∀ {q}, q ≠ p → ((s.setLock i none).goto p pc).pc q = s.pc q := fun h =>
    goto_pc_ne (s.setLock i none) pc h
  have hi : ((s.setLock i none).goto p pc).lock i = none := update_self ..
  have hj : ∀ {j}, j ≠ i → ((s.setLock i none).goto p pc).lock j = s.lock j := fun h =>
    update_of_ne h ..
  have hr := (h.held i p r hl).1
  have o : Own s ((s.setLock i none).goto p pc) p := by
    refine ⟨fun _ => hne, fun r hr => by rw [hself]; exact hnext.ends r hr,
      by rw [hself]; exact hnext.alloc, rfl, fun _ => rfl, fun _ => rfl, fun _ => rfl,
      fun j q r' hq => ?_, fun _ => .inr ⟨rfl, rfl⟩, hlate, fun _ _ => .inl rfl⟩
    by_cases e : j = i
    · rw [e, hi, hl]
      refine iff_of_false nofun fun he => ?_
      exact hq (Prod.mk.inj (Option.some.inj he)).1.symm
    · rw [hj e]
  refine ⟨o, o.inv h (fun q r' hq hs => ?_) (fun q r' hq hs => ?_) (fun j q r' hq hl hs => ?_)
    (fun j r' hl' => ?_) (fun j r' hl' => ?_) h.free (fun _ _ _ => .inl) (fun j r' hl' hv ht => ?_)
    (fun j r' hl' hv ht => ?_) ?_⟩
  · rw [hself] at hs
    exact hnext.not_place h hq hs
  · rw [hself] at hs
    exact hnext.not_sole h hq hs
  · rw [hself] at hs
    exact hnext.not_held h hq hl hs
  · have e : j ≠ i := by
      rintro rfl
      rw [hi] at hl'
      cases hl'
    rw [hj e] at hl'
    obtain ⟨hr', hs⟩ := h.held j p r' hl'
    refine ⟨hr', fun q hq => ?_⟩
    by_cases eq : q = p
    · rw [eq, hself] at hq
      obtain rfl := hsole r' hq
      exact absurd (Option.some.inj (hr'.symm.trans hr)) e
    · rw [hne eq] at hq
      exact absurd (hs q hq).1 eq
  · have e : j ≠ i := by
      rintro rfl
      rw [hi] at hl'
      cases hl'
    rw [hj e] at hl'
    exact .inl (hvalid j r' e hl')
  · exact absurd ht (h.type_of_lock hl' hinv hv)
  · exact absurd ht (h.copy_of_lock hl' hinv hclear hv)
  · rw [hself]
    exact hgood

theorem Inv.write {s₁ : State π ρ} {e : Inode} {d : Dinode} (h : Inv s)
    (hl : s.lock i = some (p, r))
    (hpcs : s₁.pc = s.pc) (hrefs : s₁.refs = s.refs) (hlock : s₁.lock = s.lock)
    (hinode : s₁.inode = update s.inode i e)
    (hdisk : s₁.disk = update s.disk (s.inode i).dev
      (update (s.disk (s.inode i).dev) (s.inode i).inum d))
    (href : e.ref = (s.inode i).ref) (hdev : e.dev = (s.inode i).dev)
    (hinum : e.inum = (s.inode i).inum) (hd : d = s.dinode i ∨ (s.pc p).ends = none)
    (hlate : (s.pc p).ends = some r → e.valid = false)
    (hnext : (s.pc p).Next pc) (hplace : ∀ r', (s.pc p).locked = some r' → r' = r)
    (hsole : ∀ r', pc.sole = some r' → pc.locked = some r')
    (hloaded : e.valid = true ∨ pc = .ilockRead r ∨ pc = .unlock r)
    (hfree : d.type = 0 → d.nlink = 0)
    (hzero : d.type = 0 → (s.dinode i).type = 0 ∨ (s.inode i).ref = 1 ∧ pc = .invalidate r)
    (htype : e.valid = true → d.type = 0 → pc = .invalidate r)
    (hcopy : e.valid = true → e.d.type = 0 → pc = .clearUpdate r ∨ pc = .invalidate r)
    (hgood : (s₁.goto p pc).inode i = e → (s₁.goto p pc).dinode i = d →
      Locks (s₁.goto p pc) p r i → Good (s₁.goto p pc) p pc) :
    Own s (s₁.goto p pc) p ∧ Inv (s₁.goto p pc) := by
  have hself := goto_pc_self s₁ p pc
  have hne : ∀ {q}, q ≠ p → (s₁.goto p pc).pc q = s.pc q := fun h => by
    rw [goto_pc_ne s₁ pc h, hpcs]
  have hi : (s₁.goto p pc).inode i = e := by
    show s₁.inode i = e
    rw [hinode, update_self]
  have hj : ∀ {j}, j ≠ i → (s₁.goto p pc).inode j = s.inode j := fun {j} h => by
    show s₁.inode j = _
    rw [hinode, update_of_ne h]
  have hlock' : (s₁.goto p pc).lock = s.lock := hlock
  have hdi : (s₁.goto p pc).dinode i = d := by
    rw [State.dinode, hi, hdev, hinum]
    show s₁.disk _ _ = d
    rw [hdisk, update_self, update_self]
  have hdisk' : ∀ dev inum, (s₁.goto p pc).disk dev inum = s.disk dev inum ∨
      (s.inode i).dev = dev ∧ (s.inode i).inum = inum ∧ (s₁.goto p pc).disk dev inum = d := by
    intro dev inum
    show s₁.disk dev inum = _ ∨ _ ∧ _ ∧ s₁.disk dev inum = d
    rw [hdisk]
    exact update_disk_cases dev inum
  have o : Own s (s₁.goto p pc) p := by
    refine ⟨fun _ => hne, fun r hr => by rw [hself]; exact hnext.ends r hr,
      by rw [hself]; exact hnext.alloc, hrefs, fun j => ?_, fun j => ?_, fun j => ?_,
      fun _ _ _ _ => by rw [hlock'], fun j => ?_, fun j r' hl' he => ?_, fun dev inum => ?_⟩
    · by_cases e : j = i
      · rw [e, hi, href]
      · rw [hj e]
    · by_cases e : j = i
      · rw [e, hi, hdev]
      · rw [hj e]
    · by_cases e : j = i
      · rw [e, hi, hinum]
      · rw [hj e]
    · by_cases e : j = i
      · exact .inl ⟨r, e ▸ hl⟩
      · exact .inr (by rw [hj e]; exact ⟨rfl, rfl⟩)
    · obtain ⟨hr', hs⟩ := h.held j p r' hl'
      obtain rfl := hplace r' (hs p (Pc.sole_of_ends he)).2
      obtain rfl : j = i := Option.some.inj (hr'.symm.trans (h.held i p r' hl).1)
      rw [hi]
      exact hlate he
    · rcases hdisk' dev inum with he | ⟨hdev', hinum', he⟩
      · exact .inl he
      · rcases hd with hd | hd
        · rw [he, hd, ← hdev', ← hinum']
          exact .inl rfl
        · exact .inr ⟨hd, i, r, hl, hdev', hinum'⟩
  -- the other entries that `p` has locked
  have hother : ∀ {j r'}, j ≠ i → s.lock j = some (p, r') → (s.pc p).locked ≠ some r' := by
    intro j r' hji hl' hlocked
    obtain rfl := hplace r' hlocked
    exact hji (Option.some.inj ((h.held j p r' hl').1.symm.trans (h.held i p r' hl).1))
  refine ⟨o, o.inv h (fun q r' hq hs => ?_) (fun q r' hq hs => ?_) (fun j q r' hq hl' hs => ?_)
    (fun j r' hl' => ?_) (fun j r' hl' => ?_) (fun dev inum ht => ?_) (fun j r' hl' ht => ?_)
    (fun j r' hl' hv ht => ?_) (fun j r' hl' hv ht => ?_) ?_⟩
  · rw [hself] at hs
    exact hnext.not_place h hq hs
  · rw [hself] at hs
    exact hnext.not_sole h hq hs
  · rw [hself] at hs
    exact hnext.not_held h hq hl' hs
  · rw [hlock'] at hl'
    obtain ⟨hr', hs⟩ := h.held j p r' hl'
    refine ⟨hr', fun q hq => ?_⟩
    by_cases eq : q = p
    · rw [eq, hself] at hq
      rw [hself]
      exact ⟨eq, hsole r' hq⟩
    · rw [hne eq] at hq
      exact absurd (hs q hq).1 eq
  · rw [hlock'] at hl'
    by_cases e : j = i
    · subst e
      cases hl.symm.trans hl'
      rw [hi, hself]
      exact hloaded
    · rw [hj e]
      rcases h.loaded j p r' hl' with hv | hv | hv
      · exact .inl hv
      · exact absurd (by rw [hv]; rfl) (hother e hl')
      · exact absurd (by rw [hv]; rfl) (hother e hl')
  · rcases hdisk' dev inum with he | ⟨-, -, he⟩
    · rw [he] at ht ⊢
      exact h.free dev inum ht
    · rw [he] at ht ⊢
      exact hfree ht
  · by_cases e : j = i
    · subst e
      cases hl.symm.trans hl'
      rw [hdi] at ht
      rw [hself]
      exact hzero ht
    · refine .inl ?_
      rcases hdisk' (s.inode j).dev (s.inode j).inum with he | ⟨hdev', hinum', -⟩
      · rwa [State.dinode, hj e, he] at ht
      · exact absurd (h.same_entry (h.held i p r hl).1 (h.held j p r' hl').1 hdev' hinum').symm e
  · rw [hlock', hself]
    by_cases e : j = i
    · subst e
      cases hl.symm.trans hl'
      rw [hi] at hv
      rw [hdi] at ht
      exact ⟨hl, htype hv ht⟩
    · rcases hdisk' (s.inode j).dev (s.inode j).inum with he | ⟨hdev', hinum', -⟩
      · rw [hj e] at hv
        rw [State.dinode, hj e, he] at ht
        obtain ⟨q, r'', hl'', hq⟩ := h.disk j (h.ref_pos (h.held j p r' hl').1) ht hv
        cases hl'.symm.trans hl''
        exact absurd (by rw [hq]; rfl) (hother e hl')
      · exact absurd (h.same_entry (h.held i p r hl).1 (h.held j p r' hl').1 hdev' hinum').symm e
  · rw [hlock', hself]
    by_cases e : j = i
    · subst e
      cases hl.symm.trans hl'
      rw [hi] at hv ht
      exact ⟨hl, hcopy hv ht⟩
    · rw [hj e] at hv ht
      obtain ⟨q, r'', hl'', hq⟩ := h.copy j (h.ref_pos (h.held j p r' hl').1) hv ht
      cases hl'.symm.trans hl''
      rcases hq with hq | hq <;> exact absurd (by rw [hq]; rfl) (hother e hl')
  · rw [hself]
    refine hgood hi hdi ⟨?_, by rw [hlock', hl]⟩
    show s₁.refs r = some i
    rw [hrefs]
    exact (h.held i p r hl).1

end Xv6.Itable
