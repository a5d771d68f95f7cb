import Xv6.Itable.Steps

/-! Steps in which a reference is taken or dropped, or an inode is allocated on the disk. -/

namespace Xv6.Itable

open Function Finset
open Fs (Dinode NINODE Ip)

variable {π ρ : Type} {s s' : State π ρ} {p q : π} {r : ρ} {i j : Ip} {dev inum type : Nat}

/-- A step of `p` that leaves the locks and what is loaded alone. -/
structure Shift (s s' : State π ρ) (p : π) : Prop where
  pc : ∀ q, q ≠ p → s'.pc q = s.pc q
  place : ∀ r, (s'.pc p).place = some r → (s.pc p).place = some r
  sole : ∀ r, (s'.pc p).sole = some r → (s.pc p).sole = some r
  lock : s'.lock = s.lock
  entry : ∀ j, 0 < (s'.inode j).ref → (s'.inode j).valid = true → 0 < (s.inode j).ref ∧
    (s.inode j).valid = true ∧ (s'.inode j).d = (s.inode j).d ∧
    ((s'.dinode j).type = 0 → (s.dinode j).type = 0)
  held : ∀ j q r, s.lock j = some (q, r) → s'.refs r = some j ∧
    (s'.inode j).valid = (s.inode j).valid ∧ (s'.inode j).d = (s.inode j).d
  keep : ∀ j, 0 < (s.inode j).ref → (s'.inode j).dev = (s.inode j).dev ∧
    (s'.inode j).inum = (s.inode j).inum ∧ (s'.inode j).valid = (s.inode j).valid
  disk : ∀ dev inum, (s.disk dev inum).type ≠ 0 → s'.disk dev inum = s.disk dev inum
  refs : ∀ q r, q ≠ p → (s.pc q).place = some r → s'.refs r = s.refs r
  frees : ∀ q i r, q ≠ p → (s.pc q).frees = some r → Frees s q r i →
    (s'.inode i).ref = 1 ∧ (s'.dinode i).type ≠ 0
  alloc : ∀ q dev type inum r, q ≠ p → s.pc q = .iallocGet dev type inum r →
    s'.disk dev inum = s.disk dev inum ∧ Unclaimed s' dev inum

theorem Stale.mono (h : Stale s j) (hlock : s'.lock = s.lock)
    (hpc : ∀ q, q ≠ p → s'.pc q = s.pc q) (hp : (s.pc p).locked = none)
    (hv : (s'.inode j).valid = (s.inode j).valid) : Stale s' j := by
  intro hv'
  obtain ⟨q, r, hl, hq⟩ := h (hv.symm.trans hv')
  have e : q ≠ p := by
    rintro rfl
    rw [hq] at hp
    cases hp
  exact ⟨q, r, by rw [hlock, hl], by rw [hpc q e, hq]⟩

/-- What `p` leaves unclaimed, unless it is the one that drops a reference to it. -/
theorem Unclaimed.drops (h : Unclaimed s dev inum) (hlock : s'.lock = s.lock)
    (hpc : ∀ q, q ≠ p → s'.pc q = s.pc q) (hp : (s.pc p).locked = none) (hr : s.refs r = some j)
    (hdev : (s.inode j).dev = dev) (hinum : (s.inode j).inum = inum)
    (hends : (s.pc p).ends ≠ some r) (hv : (s'.inode j).valid = (s.inode j).valid) :
    (∃ q, (s'.pc q).ends = some r) ∧ Stale s' j := by
  obtain ⟨⟨q, hq⟩, hstale⟩ := h r j hr hdev hinum
  refine ⟨⟨q, ?_⟩, hstale.mono hlock hpc hp hv⟩
  rwa [hpc]
  rintro rfl
  exact hends hq

namespace Shift

theorem inv [Fintype ρ] (t : Shift s s' p) (h : Inv s) (hp : (s.pc p).locked = none)
    (hcount : ∀ j, (s'.inode j).ref = (own univ s'.refs).count j)
    (hunique : ∀ i j, 0 < (s'.inode i).ref → 0 < (s'.inode j).ref →
      (s'.inode i).dev = (s'.inode j).dev → (s'.inode i).inum = (s'.inode j).inum → i = j)
    (hfree : ∀ dev inum, (s'.disk dev inum).type = 0 → (s'.disk dev inum).nlink = 0)
    (hlive : ∀ r i, s'.refs r = some i → (∀ p, (s'.pc p).ends ≠ some r) → (s'.dinode i).type ≠ 0)
    (halloc : ∀ q dev type type' inum r r', s'.pc p = .iallocGet dev type inum r → q ≠ p →
      s.pc q ≠ .iallocGet dev type' inum r')
    (hgood : Good s' p (s'.pc p)) : Inv s' := by
  refine ⟨hcount, hunique, fun p' q r hp' hq => ?_, fun j q r hl => ?_, fun j q r hl => ?_, hfree,
    hlive, fun j hj ht hv => ?_, fun j hj hv ht => ?_,
    fun p' q dev type type' inum r r' hp' hq => ?_, fun q => ?_⟩
  · have hp'' : (s.pc p').sole = some r := by
      by_cases e : p' = p
      · rw [e] at hp' ⊢
        exact t.sole r hp'
      · rwa [t.pc p' e] at hp'
    have hq' : (s.pc q).place = some r := by
      by_cases e : q = p
      · rw [e] at hq ⊢
        exact t.place r hq
      · rwa [t.pc q e] at hq
    exact h.sole p' q r hp'' hq'
  · rw [t.lock] at hl
    obtain ⟨hr, hs⟩ := h.held j q r hl
    refine ⟨(t.held j q r hl).1, fun q' hq' => ?_⟩
    have hq'' : (s.pc q').sole = some r := by
      by_cases e : q' = p
      · rw [e] at hq' ⊢
        exact t.sole r hq'
      · rwa [t.pc q' e] at hq'
    obtain ⟨rfl, hlocked⟩ := hs q' hq''
    have e : q' ≠ p := by
      rintro rfl
      rw [hp] at hlocked
      cases hlocked
    exact ⟨rfl, by rw [t.pc q' e, hlocked]⟩
  · rw [t.lock] at hl
    rw [(t.held j q r hl).2.1]
    rcases h.loaded j q r hl with hv | hv | hv
    · exact .inl hv
    all_goals
      have e : q ≠ p := by
        rintro rfl
        rw [hv] at hp
        cases hp
      rw [t.pc q e]
    · exact .inr (.inl hv)
    · exact .inr (.inr hv)
  · obtain ⟨hj', hv', -, ht'⟩ := t.entry j hj hv
    exact (h.disk j hj' (ht' ht)).mono t.lock t.pc hp (hv.trans hv'.symm) hv
  · obtain ⟨hj', hv', hd, -⟩ := t.entry j hj hv
    rw [hd] at ht
    obtain ⟨q, r, hl, hpc⟩ := h.copy j hj' hv' ht
    have e : q ≠ p := by
      rintro rfl
      rcases hpc with hpc | hpc <;> rw [hpc] at hp <;> cases hp
    exact ⟨q, r, by rw [t.lock, hl], by rwa [t.pc q e]⟩
  · by_cases e : p' = p
    · by_cases e' : q = p
      · rw [e, e']
      · rw [e] at hp'
        rw [t.pc q e'] at hq
        exact absurd hq (halloc q dev type type' inum r r' hp' e')
    · rw [t.pc p' e] at hp'
      by_cases e' : q = p
      · rw [e'] at hq
        exact absurd hp' (halloc p' dev type' type inum r' r hq e)
      · rw [t.pc q e'] at hq
        exact h.alloc p' q dev type type' inum r r' hp' hq
  · by_cases e : q = p
    · subst e
      exact hgood
    · rw [t.pc q e]
      refine (h.good q).keep ⟨fun r hr => t.refs q r e hr, fun i r hl => ?_,
        fun i r => t.frees q i r e, fun dev type inum r hpc => t.alloc q dev type inum r e hpc⟩
      exact ⟨by rw [t.lock, hl], (t.held i q r hl).2⟩

end Shift

variable [DecidableEq π] [DecidableEq ρ] [Fintype ρ]

theorem Inv.unref (h : Inv s) (hr : s.refs r = some i) (hsole : (s.pc p).sole = some r)
    (hp : (s.pc p).locked = none) :
    Shift s ((s.unref i r).goto p .idle) p ∧ Inv ((s.unref i r).goto p .idle) := by
  generalize hs' : (s.unref i r).goto p .idle = s'
  have hpc : ∀ {q}, q ≠ p → s'.pc q = s.pc q := fun h => hs' ▸ goto_pc_ne (s.unref i r) .idle h
  have hself : s'.pc p = .idle := hs' ▸ goto_pc_self (s.unref i r) p .idle
  have hlock : s'.lock = s.lock := hs' ▸ rfl
  have hdisk : s'.disk = s.disk := hs' ▸ rfl
  have hnone : s'.refs = update s.refs r none := hs' ▸ rfl
  have hi : s'.inode i = { s.inode i with ref := (s.inode i).ref - 1 } := hs' ▸ update_self ..
  have hj : ∀ {j}, j ≠ i → s'.inode j = s.inode j := fun h => hs' ▸ update_of_ne h ..
  have hpos := h.ref_pos hr
  have hsame : ∀ j, (s'.inode j).ref ≤ (s.inode j).ref ∧ (s'.inode j).dev = (s.inode j).dev ∧
      (s'.inode j).inum = (s.inode j).inum ∧ (s'.inode j).valid = (s.inode j).valid ∧
      (s'.inode j).d = (s.inode j).d := by
    intro j
    by_cases e : j = i
    · subst e
      rw [hi]
      exact ⟨Nat.sub_le _ _, rfl, rfl, rfl, rfl⟩
    · rw [hj e]
      exact ⟨le_rfl, rfl, rfl, rfl, rfl⟩
  have hdinode : ∀ j, s'.dinode j = s.dinode j := by
    intro j
    rw [State.dinode, (hsame j).2.1, (hsame j).2.2.1, hdisk]
    rfl
  have hrefs : ∀ {r'}, r' ≠ r → s'.refs r' = s.refs r' := fun h => hnone ▸ update_of_ne h ..
  have hne : ∀ {r' j}, s'.refs r' = some j → r' ≠ r := by
    rintro r' j hr' rfl
    rw [hnone, update_self] at hr'
    cases hr'
  have t : Shift s s' p := by
    refine ⟨fun _ => hpc, by rw [hself]; rintro _ ⟨⟩, by rw [hself]; rintro _ ⟨⟩, hlock,
      fun j hj' hv => ?_, fun j q r' hl => ⟨?_, (hsame j).2.2.2⟩,
      fun j _ => ⟨(hsame j).2.1, (hsame j).2.2.1, (hsame j).2.2.2.1⟩, fun _ _ _ => by rw [hdisk],
      fun q r' hq hr' => hrefs ?_, fun q k r' hq hf hfrees => ?_,
      fun q dev type inum r' hq hpcq => ⟨by rw [hdisk], fun r'' j hr'' hdev hinum => ?_⟩⟩
    · obtain ⟨hle, -, -, hv', hd⟩ := hsame j
      exact ⟨lt_of_lt_of_le hj' hle, hv'.symm.trans hv, hd, fun ht => by rwa [hdinode] at ht⟩
    · obtain ⟨hr', hs⟩ := h.held j q r' hl
      rw [hrefs, hr']
      rintro rfl
      obtain ⟨rfl, hlocked⟩ := hs p hsole
      rw [hp] at hlocked
      cases hlocked
    · rintro rfl
      exact hq (h.sole p q r' hsole hr')
    · have hk : k ≠ i := by
        rintro rfl
        obtain rfl := h.only_ref hfrees.ref hfrees.refs hr
        exact hq (h.sole p q r hsole (Pc.place_of_sole (Pc.sole_of_frees hf)))
      rw [hj hk, hdinode]
      exact ⟨hfrees.ref, hfrees.type⟩
    · have hgood := h.good q
      rw [hpcq] at hgood
      rw [(hsame j).2.1] at hdev
      rw [(hsame j).2.2.1] at hinum
      have hr₀ := hne hr''
      rw [hrefs hr₀] at hr''
      refine hgood.2.2.2.drops hlock (fun _ => hpc) hp hr'' hdev hinum (fun he => ?_)
        (hsame j).2.2.2.1
      exact hr₀ (Option.some.inj ((Pc.sole_of_ends he).symm.trans hsole))
  refine ⟨t, t.inv h hp (fun j => ?_) (fun j k hj' hk hdev hinum => ?_) (hdisk ▸ h.free)
    (fun r' j hr' hends => ?_) (fun _ _ _ _ _ _ _ he => ?_) (by rw [hself]; trivial)⟩
  · have hc := count_own_update (mem_univ r) s.refs none j
    rw [if_neg (by simp : (none : Option Ip) ≠ some j), ← h.count, ← hnone] at hc
    by_cases e : j = i
    · subst e
      rw [if_pos hr] at hc
      rw [hi]
      show (s.inode j).ref - 1 = _
      omega
    · rw [if_neg (by rw [hr]; exact fun he => e (Option.some.inj he).symm)] at hc
      rw [hj e]
      omega
  · rw [(hsame j).2.1, (hsame k).2.1] at hdev
    rw [(hsame j).2.2.1, (hsame k).2.2.1] at hinum
    exact h.unique j k (lt_of_lt_of_le hj' (hsame j).1) (lt_of_lt_of_le hk (hsame k).1) hdev
      hinum
  · have hr₀ := hne hr'
    rw [hrefs hr₀] at hr'
    rw [hdinode]
    refine h.live r' j hr' fun q hq => ?_
    by_cases e : q = p
    · subst e
      exact hr₀ (Option.some.inj ((Pc.sole_of_ends hq).symm.trans hsole))
    · exact hends q (by rwa [hpc e])
  · rw [hself] at he
    cases he

/-- A process gets a reference to an entry in use, or to one that is taken for another inode. -/
theorem Inv.addRef {e : Inode} (h : Inv s) (hr : s.refs r = none) (hp : (s.pc p).locked = none)
    (hends : (s.pc p).ends = none) (hplace : ∀ q, q ≠ p → (s.pc q).place ≠ some r)
    (href : e.ref = (s.inode i).ref + 1)
    (hsame : 0 < (s.inode i).ref → e.dev = (s.inode i).dev ∧ e.inum = (s.inode i).inum ∧
      e.valid = (s.inode i).valid ∧ e.d = (s.inode i).d)
    (hnew : (s.inode i).ref = 0 → e.valid = false ∧ ∀ j, ¬s.At e.dev e.inum j)
    (htype : (s.disk e.dev e.inum).type ≠ 0)
    (hfrees : ∀ q r', (s.pc q).frees = some r' → ¬Frees s q r' i)
    (halloc : ∀ q dev type inum r', q ≠ p → s.pc q = .iallocGet dev type inum r' →
      ¬(e.dev = dev ∧ e.inum = inum)) :
    Shift s ((({ s with inode := update s.inode i e }).setRef r (some i)).goto p .idle) p ∧
      Inv ((({ s with inode := update s.inode i e }).setRef r (some i)).goto p .idle) := by
  generalize hs' : (({ s with inode := update s.inode i e }).setRef r (some i)).goto p .idle = s'
  have hpc : ∀ {q}, q ≠ p → s'.pc q = s.pc q := fun h => hs' ▸ goto_pc_ne _ _ h
  have hself : s'.pc p = .idle := hs' ▸ goto_pc_self ..
  have hlock : s'.lock = s.lock := hs' ▸ rfl
  have hdisk : s'.disk = s.disk := hs' ▸ rfl
  have hrefs : s'.refs = update s.refs r (some i) := hs' ▸ rfl
  have hi : s'.inode i = e := hs' ▸ update_self ..
  have hj : ∀ {j}, j ≠ i → s'.inode j = s.inode j := fun h => hs' ▸ update_of_ne h ..
  have hold : ∀ {r' j}, s.refs r' = some j → s'.refs r' = some j := by
    intro r' j hr'
    rw [hrefs, update_of_ne, hr']
    rintro rfl
    rw [hr] at hr'
    cases hr'
  have hcases : ∀ {r' j}, s'.refs r' = some j → r' = r ∧ j = i ∨ s.refs r' = some j := by
    intro r' j hr'
    rw [hrefs] at hr'
    by_cases e' : r' = r
    · rw [e', update_self] at hr'
      exact .inl ⟨e', (Option.some.inj hr').symm⟩
    · rw [update_of_ne e'] at hr'
      exact .inr hr'
  have hkeep : ∀ {j}, 0 < (s.inode j).ref → (s'.inode j).dev = (s.inode j).dev ∧
      (s'.inode j).inum = (s.inode j).inum ∧ (s'.inode j).valid = (s.inode j).valid ∧
      (s'.inode j).d = (s.inode j).d := by
    intro j hpos
    by_cases e' : j = i
    · subst e'
      rw [hi]
      exact hsame hpos
    · rw [hj e']
      exact ⟨rfl, rfl, rfl, rfl⟩
  have hdinode : ∀ {j}, 0 < (s.inode j).ref → s'.dinode j = s.dinode j := by
    intro j hpos
    rw [State.dinode, (hkeep hpos).1, (hkeep hpos).2.1, hdisk]
    rfl
  have hdi : (s'.dinode i).type ≠ 0 := by
    rw [State.dinode, hi, hdisk]
    exact htype
  have t : Shift s s' p := by
    refine ⟨fun _ => hpc, by rw [hself]; rintro _ ⟨⟩, by rw [hself]; rintro _ ⟨⟩, hlock,
      fun j hpos hv => ?_,
      fun j q r' hl => ?_, fun j hpos => ⟨(hkeep hpos).1, (hkeep hpos).2.1, (hkeep hpos).2.2.1⟩,
      fun _ _ _ => by rw [hdisk], fun q r' hq hr' => ?_, fun q k r' hq hf hfr => ?_,
      fun q dev type inum r' hq hpcq => ⟨by rw [hdisk], fun r'' j hr'' hdev hinum => ?_⟩⟩
    · have hpos' : 0 < (s.inode j).ref := by
        by_contra hzero
        have hj0 : (s.inode j).ref = 0 := Nat.eq_zero_of_not_pos hzero
        by_cases e' : j = i
        · subst e'
          rw [hi, (hnew hj0).1] at hv
          cases hv
        · rw [hj e', hj0] at hpos
          exact lt_irrefl 0 hpos
      obtain ⟨-, -, hv', hd⟩ := hkeep hpos'
      exact ⟨hpos', hv'.symm.trans hv, hd, fun ht => by rwa [hdinode hpos'] at ht⟩
    · obtain ⟨hr', -⟩ := h.held j q r' hl
      exact ⟨hold hr', (hkeep (h.ref_pos hr')).2.2⟩
    · rw [hrefs, update_of_ne]
      rintro rfl
      exact hplace q hq hr'
    · have hk : k ≠ i := by
        rintro rfl
        exact hfrees q r' hf hfr
      rw [hj hk, hdinode (h.ref_pos hfr.refs)]
      exact ⟨hfr.ref, hfr.type⟩
    · rcases hcases hr'' with ⟨-, rfl⟩ | hr''
      · rw [hi] at hdev hinum
        exact absurd ⟨hdev, hinum⟩ (halloc q dev type inum r' hq hpcq)
      · have hpos := h.ref_pos hr''
        rw [(hkeep hpos).1] at hdev
        rw [(hkeep hpos).2.1] at hinum
        have hgood := h.good q
        rw [hpcq] at hgood
        exact hgood.2.2.2.drops hlock (fun _ => hpc) hp hr'' hdev hinum (by simp [hends])
          (hkeep hpos).2.2.1
  refine ⟨t, t.inv h hp (fun j => ?_) (fun j k hj' hk hdev hinum => ?_)
    (by rw [hdisk]; exact h.free)
    (fun r' j hr' hne => ?_) (fun _ _ _ _ _ _ _ he => ?_) (by rw [hself]; trivial)⟩
  · have hc := count_own_update (mem_univ r) s.refs (some i) j
    rw [if_neg (by simp [hr]), ← h.count, ← hrefs] at hc
    by_cases e' : j = i
    · subst e'
      rw [if_pos rfl] at hc
      rw [hi, href]
      omega
    · rw [if_neg fun he => e' (Option.some.inj he).symm] at hc
      rw [hj e']
      omega
  · -- the new entry is the only one for its inode
    have hother : ∀ {k}, k ≠ i → 0 < (s.inode k).ref → (s.inode k).dev = e.dev →
        (s.inode k).inum = e.inum → False := by
      intro k hk hpos hdev hinum
      by_cases hz : (s.inode i).ref = 0
      · exact (hnew hz).2 k ⟨hpos, hdev, hinum⟩
      · obtain ⟨hd, hn, -, -⟩ := hsame (pos_of_ne_zero hz)
        exact hk (h.unique k i hpos (pos_of_ne_zero hz) (hdev.trans hd) (hinum.trans hn))
    by_cases ej : j = i <;> by_cases ek : k = i
    · rw [ej, ek]
    · subst ej
      rw [hj ek] at hk hdev hinum
      rw [hi] at hdev hinum
      exact absurd (hother ek hk hdev.symm hinum.symm) id
    · subst ek
      rw [hj ej] at hj' hdev hinum
      rw [hi] at hdev hinum
      exact absurd (hother ej hj' hdev hinum) id
    · rw [hj ej] at hj' hdev hinum
      rw [hj ek] at hk hdev hinum
      exact h.unique j k hj' hk hdev hinum
  · rcases hcases hr' with ⟨-, rfl⟩ | hr'
    · exact hdi
    · rw [hdinode (h.ref_pos hr')]
      refine h.live r' j hr' fun q hq => ?_
      by_cases e' : q = p
      · subst e'
        rw [hends] at hq
        cases hq
      · exact hne q (by rwa [hpc e'])
  · rw [hself] at he
    cases he

omit [DecidableEq ρ] in
theorem Inv.pick (h : Inv s) (hpc : s.pc p = .ialloc dev type inum r)
    (hfree : (s.disk dev inum).type = 0) :
    Shift s ((s.setDisk dev inum (newInode type)).goto p (.iallocGet dev type inum r)) p ∧
      Inv ((s.setDisk dev inum (newInode type)).goto p (.iallocGet dev type inum r)) := by
  have hgood := h.good p
  rw [hpc] at hgood
  obtain ⟨hr, htype⟩ := hgood
  have hp : (s.pc p).locked = none := by rw [hpc]; rfl
  have hends : (s.pc p).ends = none := by rw [hpc]; rfl
  generalize hs' : (s.setDisk dev inum (newInode type)).goto p (.iallocGet dev type inum r) = s'
  have hpcs : ∀ {q}, q ≠ p → s'.pc q = s.pc q := fun h => hs' ▸ goto_pc_ne _ _ h
  have hself : s'.pc p = .iallocGet dev type inum r := hs' ▸ goto_pc_self ..
  have hlock : s'.lock = s.lock := hs' ▸ rfl
  have hrefs : s'.refs = s.refs := hs' ▸ rfl
  have hinode : s'.inode = s.inode := hs' ▸ rfl
  have hat : s'.disk dev inum = newInode type := by
    rw [← hs']
    show update s.disk dev (update (s.disk dev) inum (newInode type)) dev inum = _
    rw [update_self, update_self]
  have hdisk : ∀ d n, s'.disk d n = s.disk d n ∨ d = dev ∧ n = inum := by
    intro d n
    rw [← hs']
    exact (update_disk_cases d n).imp_right fun he => ⟨he.1.symm, he.2.1.symm⟩
  have hzero : ∀ d n, (s'.disk d n).type = 0 → (s.disk d n).type = 0 ∧
    s'.disk d n = s.disk d n := by
    intro d n ht
    rcases hdisk d n with he | ⟨rfl, rfl⟩
    · exact ⟨he ▸ ht, he⟩
    · rw [hat] at ht
      exact absurd ht htype
  have t : Shift s s' p := by
    refine ⟨fun _ => hpcs, by rw [hself, hpc]; exact fun _ => id,
      by rw [hself, hpc]; exact fun _ => id, hlock, fun j hpos hv => ?_, fun j q r' hl => ?_,
      fun _ _ => by rw [hinode]; exact ⟨rfl, rfl, rfl⟩, fun d n ht => ?_,
      fun q r' _ _ => by rw [hrefs],
      fun q k r' hq hf hfr => ?_, fun q d ty n r' hq hpcq => ⟨?_, fun r'' j hr'' hdev hinum => ?_⟩⟩
    · rw [hinode] at hpos hv ⊢
      refine ⟨hpos, hv, rfl, fun ht => ?_⟩
      rw [State.dinode, hinode] at ht
      exact (hzero _ _ ht).1
    · rw [hrefs, hinode]
      exact ⟨(h.held j q r' hl).1, rfl, rfl⟩
    · rcases hdisk d n with he | ⟨rfl, rfl⟩
      · exact he
      · exact absurd hfree ht
    · rw [hinode]
      refine ⟨hfr.ref, fun ht => ?_⟩
      rw [State.dinode, hinode] at ht
      exact hfr.type (hzero _ _ ht).1
    · have hgood := h.good q
      rw [hpcq] at hgood
      rcases hdisk d n with he | ⟨rfl, rfl⟩
      · exact he
      · rw [hgood.2.2.1] at hfree
        exact absurd hfree hgood.2.1
    · have hgood := h.good q
      rw [hpcq] at hgood
      rw [hrefs] at hr''
      rw [hinode] at hdev hinum
      exact hgood.2.2.2.drops hlock (fun _ => hpcs) hp hr'' hdev hinum (by simp [hends])
        (by rw [hinode])
  have hends' : ∀ {r' q}, (s'.pc q).ends = some r' ↔ (s.pc q).ends = some r' := by
    intro r' q
    by_cases e : q = p
    · rw [e, hself, hends]
      exact Iff.rfl
    · rw [hpcs e]
  refine ⟨t, t.inv h hp (by rw [hinode, hrefs]; exact h.count) (by rw [hinode]; exact h.unique)
    (fun d n ht => ?_) (fun r' j hr' hne ht => ?_) (fun q d ty ty' n r₁ r₂ he hq hpcq => ?_) ?_⟩
  · obtain ⟨ht', he⟩ := hzero d n ht
    rw [he]
    exact h.free d n ht'
  · rw [hrefs] at hr'
    rw [State.dinode, hinode] at ht
    exact h.live r' j hr' (fun q hq => hne q (hends'.mpr hq)) (hzero _ _ ht).1
  · -- another allocation would have found the inode in use
    rw [hself] at he
    cases he
    have hgood := h.good q
    rw [hpcq] at hgood
    rw [hgood.2.2.1] at hfree
    exact hgood.2.1 hfree
  · rw [hself]
    refine ⟨by rw [hrefs, hr], htype, hat, fun r' j hr' hdev hinum => ?_⟩
    rw [hrefs] at hr'
    rw [hinode] at hdev hinum
    have hd : (s.dinode j).type = 0 := by rw [State.dinode, hdev, hinum, hfree]
    refine ⟨?_, (h.disk j (h.ref_pos hr') hd).mono hlock (fun _ => hpcs) hp (by rw [hinode])⟩
    by_contra hno
    rw [not_exists] at hno
    exact h.live r' j hr' (fun q hq => hno q (hends'.mpr hq)) hd

end Xv6.Itable
