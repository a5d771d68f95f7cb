import Xv6.Itable.References

/-! The inode table under concurrency: every step keeps the invariant, and with it an inode has one
entry, is freed by the holder of its only reference, and can be allocated again while it is being
freed. -/

namespace Xv6.Itable

open Function Finset
open Fs (Dinode NINODE Ip)

section

variable {π ρ : Type} {s : State π ρ} {i : Ip} {dev inum : Nat}

theorem igetLoop_inl {empty : Option Ip} {l : List Ip}
    (h : s.igetLoop dev inum empty l = .inl i) : s.At dev inum i := by
  induction l generalizing empty with
  | nil => cases h
  | cons j l ih =>
    rw [State.igetLoop] at h
    by_cases hj : s.At dev inum j
    · rw [if_pos hj] at h
      cases h
      exact hj
    · rw [if_neg hj] at h
      exact ih h

theorem igetLoop_inr {empty e : Option Ip} {l : List Ip}
    (h : s.igetLoop dev inum empty l = .inr e) :
    (∀ i ∈ l, ¬s.At dev inum i) ∧ ∀ i, e = some i → empty = some i ∨ (s.inode i).ref = 0 := by
  induction l generalizing empty with
  | nil =>
    cases h
    exact ⟨nofun, fun i => .inl⟩
  | cons j l ih =>
    rw [State.igetLoop] at h
    by_cases hj : s.At dev inum j
    · rw [if_pos hj] at h
      cases h
    rw [if_neg hj] at h
    obtain ⟨hnone, hempty⟩ := ih h
    refine ⟨fun i hi => ?_, fun i hi => ?_⟩
    · rcases List.mem_cons.mp hi with rfl | hi
      · exact hj
      · exact hnone i hi
    · rcases hempty i hi with hi | hi
      · split_ifs at hi with hc
        · cases hi
          exact .inr hc.2
        · exact .inl hi
      · exact .inr hi

theorem goto_idle [DecidableEq π] {p : π} (h : s.pc p = .idle) : s.goto p .idle = s := by
  simp [State.goto, ← h]

/-- The link count of an inode is in its valid entry, or else on the disk. -/
theorem State.nlink_cases (s : State π ρ) (dev inum : Nat) :
    (∃ i, s.At dev inum i ∧ (s.inode i).valid = true ∧ s.nlink dev inum = (s.inode i).d.nlink) ∨
    (∀ i, s.At dev inum i → (s.inode i).valid = false) ∧
      s.nlink dev inum = (s.disk dev inum).nlink := by
  unfold State.nlink
  cases hf : (List.finRange NINODE).find? fun i => s.At dev inum i ∧ (s.inode i).valid with
  | some i =>
    have := List.find?_some hf
    simp only [Bool.decide_and, Bool.and_eq_true, decide_eq_true_eq] at this
    exact .inl ⟨i, this.1, by simpa using this.2, rfl⟩
  | none =>
    rw [List.find?_eq_none] at hf
    refine .inr ⟨fun i hi => ?_, rfl⟩
    simpa [hi] using hf i (List.mem_finRange i)

variable [Fintype ρ]

theorem Inv.eq_of_at {j : Ip} (h : Inv s) (hi : s.At dev inum i) (hj : s.At dev inum j) : i = j :=
  h.unique i j hi.1 hj.1 (hi.2.1.trans hj.2.1.symm) (hi.2.2.trans hj.2.2.symm)

theorem Inv.nlink_of_valid (h : Inv s) (hi : s.At dev inum i) (hv : (s.inode i).valid = true) :
    s.nlink dev inum = (s.inode i).d.nlink := by
  rcases s.nlink_cases dev inum with ⟨j, hj, -, he⟩ | ⟨hno, -⟩
  · rw [he, h.eq_of_at hi hj]
  · rw [hno i hi] at hv
    cases hv

theorem Inv.nlink_of_stale (h : Inv s) (hs : Stale s i) (hv : (s.inode i).valid = true) :
    (s.inode i).d.nlink = 0 := by
  obtain ⟨q, r, hl, hpc⟩ := hs hv
  have hgood := h.good q
  rw [hpc] at hgood
  obtain ⟨j, hlocks, -, hn⟩ := hgood
  obtain rfl : j = i := Option.some.inj (hlocks.refs.symm.trans (h.held i q r hl).1)
  exact hn

theorem Inv.type_of_nlink (h : Inv s) (hn : s.nlink dev inum ≠ 0) : (s.disk dev inum).type ≠ 0 := by
  intro ht
  rcases s.nlink_cases dev inum with ⟨i, hi, hv, he⟩ | ⟨-, he⟩
  · have hd : (s.dinode i).type = 0 := by rw [State.dinode, hi.2.1, hi.2.2, ht]
    exact hn (he.trans (h.nlink_of_stale (h.disk i hi.1 hd) hv))
  · exact hn (he.trans (h.free dev inum ht))

theorem Inv.nlink_of_alloc {q : π} {type : Nat} {r : ρ} (h : Inv s)
    (hpc : s.pc q = .iallocGet dev type inum r) : s.nlink dev inum = 0 := by
  have hgood := h.good q
  rw [hpc] at hgood
  rcases s.nlink_cases dev inum with ⟨i, hi, hv, he⟩ | ⟨-, he⟩
  · obtain ⟨r', hr'⟩ := h.exists_ref hi.1
    exact he.trans (h.nlink_of_stale (hgood.2.2.2 r' i hr' hi.2.1 hi.2.2).2 hv)
  · rw [he, hgood.2.2.1]
    rfl

end

variable {π ρ : Type} [DecidableEq π] [DecidableEq ρ] [Fintype ρ] {s s' : State π ρ} {p q : π}
  {r : ρ} {i : Ip} {dev inum type : Nat}

/-- A step of `p` on what is its own or on the references, and the invariant after it. -/
def Moves (s s' : State π ρ) (p : π) : Prop :=
  (Own s s' p ∨ Shift s s' p ∧ (s.pc p).locked = none) ∧ Inv s'

omit [DecidableEq π] [DecidableEq ρ] in
theorem Inv.valid_of_lock (h : Inv s) (hp : (s.pc p).locked = none) (hl : s.lock i = some (p, r)) :
    (s.inode i).valid = true := by
  rcases h.loaded i p r hl with hv | hv | hv
  · exact hv
  · rw [hv] at hp
    cases hp
  · rw [hv] at hp
    cases hp

omit [DecidableEq π] [DecidableEq ρ] in
theorem Inv.stop (h : Inv s) (msg : String) : Inv (s.stop msg) :=
  ⟨h.count, h.unique, h.sole, h.held, h.loaded, h.free, h.live, h.disk, h.copy, h.alloc, fun q =>
    (h.good q).keep ⟨fun _ _ => rfl, fun _ _ hl => ⟨hl, rfl, rfl⟩,
      fun _ _ _ hf => ⟨hf.ref, hf.type⟩, fun _ _ _ _ hpc => by
        have hgood := h.good q
        rw [hpc] at hgood
        exact ⟨rfl, hgood.2.2.2⟩⟩⟩

omit [DecidableEq π] [DecidableEq ρ] [Fintype ρ] in
theorem Own.stop (o : Own s s' p) (msg : String) : Own s (s'.stop msg) p :=
  ⟨o.pc, o.ends, o.alloc, o.refs, o.ref, o.dev, o.inum, o.lock, o.copy, o.late, o.disk⟩

theorem Inv.leave (h : Inv s) (hends : (s.pc p).ends = none) (hclear : ∀ r, s.pc p ≠ .clearUpdate r)
    (hvalid : ∀ j r, s.lock j = some (p, r) → (s.inode j).valid = true) :
    Own s (s.goto p .idle) p ∧ Inv (s.goto p .idle) :=
  h.goto hends hclear nofun hvalid nofun nofun nofun trivial

/-- `iget` finds the entry of the inode or takes an empty one. -/
theorem Inv.iget (h : Inv s) (hr : s.refs r = none) (hp : (s.pc p).locked = none)
    (hends : (s.pc p).ends = none) (hplace : ∀ q, q ≠ p → (s.pc q).place ≠ some r)
    (htype : (s.disk dev inum).type ≠ 0)
    (hfrees : ∀ i q r', s.At dev inum i → (s.pc q).frees = some r' → ¬Frees s q r' i)
    (halloc : ∀ q type r', q ≠ p → s.pc q ≠ .iallocGet dev type inum r') :
    Moves s ((s.iget dev inum r).goto p .idle) p := by
  have hclear : ∀ r, s.pc p ≠ .clearUpdate r := by
    intro r he
    rw [he] at hp
    cases hp
  have halloc' : ∀ q d ty n r', q ≠ p → s.pc q = .iallocGet d ty n r' → ¬(dev = d ∧ inum = n) := by
    rintro q d ty n r' hq hpc ⟨rfl, rfl⟩
    exact halloc q ty r' hq hpc
  unfold State.iget
  cases hloop : s.igetLoop dev inum none (List.finRange NINODE) with
  | inl i =>
    have hi := igetLoop_inl hloop
    have hm := h.addRef (e := { s.inode i with ref := (s.inode i).ref + 1 }) hr hp hends
      hplace rfl (fun _ => ⟨rfl, rfl, rfl, rfl⟩) (fun h0 => absurd hi.1 (by omega))
      (by rw [hi.2.1, hi.2.2]; exact htype) (hfrees i · · hi)
      (fun q d ty n r' hq hpc => by rw [hi.2.1, hi.2.2]; exact halloc' q d ty n r' hq hpc)
    exact ⟨.inr ⟨hm.1, hp⟩, hm.2⟩
  | inr e =>
    obtain ⟨hnone, hempty⟩ := igetLoop_inr hloop
    cases e with
    | none =>
      have hm := h.leave hends hclear fun _ _ => h.valid_of_lock hp
      exact ⟨.inl (hm.1.stop _), hm.2.stop _⟩
    | some i =>
      have hi : (s.inode i).ref = 0 := (hempty i rfl).resolve_left nofun
      have hm := h.addRef
        (e := { s.inode i with dev := dev, inum := inum, ref := 1, valid := false }) (i := i) hr hp
        hends hplace (by rw [hi]) (fun hpos => absurd hi (by omega))
        (fun _ => ⟨rfl, fun j => hnone j (List.mem_finRange j)⟩) htype
        (fun q r' _ hf => absurd (h.ref_pos hf.refs) (by omega)) halloc'
      exact ⟨.inr ⟨hm.1, hp⟩, hm.2⟩

omit [DecidableEq π] [Fintype ρ] in
theorem iget_pc (s : State π ρ) (dev inum : Nat) (r : ρ) : (s.iget dev inum r).pc = s.pc := by
  unfold State.iget
  split <;> rfl

theorem Inv.lookup (h : Inv s) (hpc : s.pc p = .idle) (hr : s.refs r = none)
    (hplace : ∀ q, (s.pc q).place ≠ some r) (hn : s.nlink dev inum ≠ 0) :
    Moves s (s.iget dev inum r) p := by
  have hm := h.iget hr (by rw [hpc]; rfl) (by rw [hpc]; rfl) (fun q _ => hplace q)
    (h.type_of_nlink hn)
    (fun i q r' hi _ hf => hn ((h.nlink_of_valid hi hf.valid).trans hf.nlink))
    (fun q type r' _ hq => hn (h.nlink_of_alloc hq))
  rwa [goto_idle (by rw [iget_pc, hpc])] at hm

theorem Inv.idup {r' : ρ} (h : Inv s) (hpc : s.pc p = .idle) (hr : s.refs r = some i)
    (hsole : ∀ q, (s.pc q).sole ≠ some r) (hr' : s.refs r' = none)
    (hplace : ∀ q, (s.pc q).place ≠ some r') :
    Moves s ((s.setInode i fun e => { e with ref := e.ref + 1 }).setRef r' (some i)) p := by
  have hfrees : ∀ q r'', (s.pc q).frees = some r'' → ¬Frees s q r'' i := by
    intro q r'' hq hf
    obtain rfl := h.only_ref hf.ref hf.refs hr
    exact hsole q (Pc.sole_of_frees hq)
  have halloc : ∀ q dev type inum r'', q ≠ p → s.pc q = .iallocGet dev type inum r'' →
      ¬((s.inode i).dev = dev ∧ (s.inode i).inum = inum) := by
    rintro q dev type inum r'' - hq ⟨hdev, hinum⟩
    have hgood := h.good q
    rw [hq] at hgood
    obtain ⟨⟨q', hends⟩, -⟩ := hgood.2.2.2 r i hr hdev hinum
    exact hsole q' (Pc.sole_of_ends hends)
  have hm := h.addRef (e := { s.inode i with ref := (s.inode i).ref + 1 }) hr'
    (by rw [hpc]; rfl) (by rw [hpc]; rfl) (fun q _ => hplace q) rfl (fun _ => ⟨rfl, rfl, rfl, rfl⟩)
    (fun h0 => absurd (h.ref_pos hr) (by omega))
    (h.live r i hr fun q hq => hsole q (Pc.sole_of_ends hq)) hfrees halloc
  rw [goto_idle (by exact hpc)] at hm
  exact ⟨.inr ⟨hm.1, by rw [hpc]; rfl⟩, hm.2⟩

omit [DecidableEq π] [DecidableEq ρ] [Fintype ρ] in
theorem disk_same (s : State π ρ) (i : Ip) : s.disk = update s.disk (s.inode i).dev
    (update (s.disk (s.inode i).dev) (s.inode i).inum (s.dinode i)) := by
  simp [State.dinode]

theorem Inv.setInode {f : Inode → Inode} {pc : Pc ρ} (h : Inv s) (hl : s.lock i = some (p, r))
    (href : (f (s.inode i)).ref = (s.inode i).ref) (hdev : (f (s.inode i)).dev = (s.inode i).dev)
    (hinum : (f (s.inode i)).inum = (s.inode i).inum)
    (hlate : (s.pc p).ends = some r → (f (s.inode i)).valid = false) (hnext : (s.pc p).Next pc)
    (hplace : ∀ r', (s.pc p).locked = some r' → r' = r)
    (hsole : ∀ r', pc.sole = some r' → pc.locked = some r')
    (hloaded : (f (s.inode i)).valid = true ∨ pc = .ilockRead r ∨ pc = .unlock r)
    (htype : (f (s.inode i)).valid = true → (s.dinode i).type = 0 → pc = .invalidate r)
    (hcopy : (f (s.inode i)).valid = true → (f (s.inode i)).d.type = 0 →
      pc = .clearUpdate r ∨ pc = .invalidate r)
    (hgood : ((s.setInode i f).goto p pc).inode i = f (s.inode i) →
      ((s.setInode i f).goto p pc).dinode i = s.dinode i →
      Locks ((s.setInode i f).goto p pc) p r i → Good ((s.setInode i f).goto p pc) p pc) :
    Moves s ((s.setInode i f).goto p pc) p := by
  have hm : Own s ((s.setInode i f).goto p pc) p ∧ Inv ((s.setInode i f).goto p pc) :=
    h.write hl rfl rfl rfl rfl (disk_same s i) href hdev hinum
      (.inl rfl) hlate hnext hplace hsole hloaded (h.free _ _) .inl htype hcopy hgood
  exact ⟨.inl hm.1, hm.2⟩

theorem Inv.iupdate {pc : Pc ρ} (h : Inv s) (hl : s.lock i = some (p, r))
    (hends : (s.pc p).ends = none) (hnext : (s.pc p).Next pc)
    (hplace : ∀ r', (s.pc p).locked = some r' → r' = r)
    (hsole : ∀ r', pc.sole = some r' → pc.locked = some r')
    (hvalid : (s.inode i).valid = true)
    (hzero : (s.inode i).d.type = 0 →
      (s.inode i).d.nlink = 0 ∧ (s.inode i).ref = 1 ∧ pc = .invalidate r)
    (hgood : ((s.iupdate i).goto p pc).inode i = s.inode i →
      ((s.iupdate i).goto p pc).dinode i = (s.inode i).d →
      Locks ((s.iupdate i).goto p pc) p r i → Good ((s.iupdate i).goto p pc) p pc) :
    Moves s ((s.iupdate i).goto p pc) p := by
  have hm : Own s ((s.iupdate i).goto p pc) p ∧ Inv ((s.iupdate i).goto p pc) :=
    h.write hl rfl rfl rfl (by rw [update_eq_self]; rfl) rfl rfl rfl rfl (.inr hends)
      (by rw [hends]; nofun) hnext hplace
    hsole (.inl hvalid) (fun h0 => (hzero h0).1) (fun h0 => .inr (hzero h0).2)
    (fun _ h0 => (hzero h0).2.2) (fun _ h0 => .inr (hzero h0).2.2) hgood
  exact ⟨.inl hm.1, hm.2⟩

end Xv6.Itable
