import Xv6.Fs.Trunc

/-! The inode table: what `iget`, `ilock` and `iput` do to a consistent state, and what `ireclaim`
makes of the inodes that a crash has left without links. -/

namespace Xv6.Fs

open Function

variable {E : String → Prop} {sb : Superblock} {s s' : State} {ip : Ip} {i inum : Nat}
  {D : Nat → Dinode} {disk disk' : Disk}

/-- `iget` has returned `ip`: an entry in use has one reference more, an unused one is new. -/
structure Got (s : State) (i : Nat) (ip : Ip) (s' : State) : Prop where
  disk : s'.disk = s.disk
  inum : (s'.itable ip).inum = i
  ref : (s'.itable ip).ref = (s.itable ip).ref + 1
  others : ∀ jp ≠ ip, s'.itable jp = s.itable jp
  old : 0 < (s.itable ip).ref → (s.itable ip).inum = i ∧
    (s'.itable ip).valid = (s.itable ip).valid ∧ (s'.itable ip).d = (s.itable ip).d
  new : (s.itable ip).ref = 0 → (s'.itable ip).valid = false ∧
    ∀ jp, 0 < (s.itable jp).ref → (s.itable jp).inum ≠ i

theorem iget_got (hE : (∀ jp, 0 < (s.itable jp).ref ∧ (s.itable jp).inum ≠ inum) →
    E "iget: no inodes") : wp E (iget inum) s fun ip s' => Got s inum ip s' := by
  rw [iget, wp_bind, wp_get]
  cases hfind : (List.finRange NINODE).find? fun ip =>
      0 < (s.itable ip).ref ∧ (s.itable ip).inum = inum with
  | some ip =>
    have hip := List.find?_some hfind
    simp only [Bool.decide_and, Bool.and_eq_true, decide_eq_true_eq] at hip
    rw [wp_bind, wp_modInode, wp_pure]
    refine ⟨rfl, ?_, ?_, fun jp hj => update_of_ne hj _ _, fun _ => ⟨hip.2, ?_⟩,
      fun h0 => absurd hip.1 (by omega)⟩
    · simp [hip.2]
    · simp
    · simp
  | none =>
    have hnone : ∀ jp, 0 < (s.itable jp).ref → (s.itable jp).inum ≠ inum := by
      intro jp hr he
      have := List.find?_eq_none.mp hfind jp (List.mem_finRange jp)
      simp only [Bool.decide_and, Bool.and_eq_true, decide_eq_true_eq, not_and] at this
      exact this hr he
    cases hfind' : (List.finRange NINODE).find? fun ip => (s.itable ip).ref = 0 with
    | none =>
      refine hE fun jp => ?_
      have hused := List.find?_eq_none.mp hfind' jp (List.mem_finRange jp)
      simp only [decide_eq_true_eq] at hused
      exact ⟨pos_of_ne_zero hused, hnone jp (pos_of_ne_zero hused)⟩
    | some ip =>
      have hip := List.find?_some hfind'
      simp only [decide_eq_true_eq] at hip
      rw [wp_bind, wp_modInode, wp_pure]
      refine ⟨rfl, ?_, ?_, fun jp hj => update_of_ne hj _ _, fun hpos => absurd hpos (by omega),
        fun _ => ⟨?_, hnone⟩⟩
      · simp
      · simp [hip]
      · simp

theorem Consistent.table (h : Consistent sb s D) (hdisk : s'.disk = s.disk)
    (hcached : ∀ jp, 0 < (s'.itable jp).ref → (s'.itable jp).valid = true →
      (s'.itable jp).inum < sb.ninodes ∧ (s'.itable jp).d = D (s'.itable jp).inum)
    (hunique : ∀ jp kp, 0 < (s'.itable jp).ref → 0 < (s'.itable kp).ref →
      (s'.itable jp).inum = (s'.itable kp).inum → jp = kp) : Consistent sb s' D :=
  ⟨hdisk ▸ h.owned, hdisk ▸ h.stored, h.beyond, hcached, hunique⟩

theorem Got.consistent (h : Consistent sb s D) (hg : Got s inum ip s') : Consistent sb s' D := by
  refine h.table hg.disk (fun jp hr hv => ?_) fun jp kp hr hr' he => ?_
  · by_cases hj : jp = ip
    · subst hj
      rcases Nat.eq_zero_or_pos (s.itable jp).ref with h0 | hpos
      · rw [(hg.new h0).1] at hv
        cases hv
      · obtain ⟨hinum, hvalid, hd⟩ := hg.old hpos
        rw [hd, hg.inum, ← hinum]
        exact h.cached jp hpos (hvalid ▸ hv)
    · rw [hg.others jp hj] at hr hv ⊢
      exact h.cached jp hr hv
  -- an entry other than `ip` with this inode would have been found
  · have hother : ∀ kp ≠ ip, 0 < (s.itable kp).ref → (s.itable kp).inum ≠ inum := by
      intro kp hk hpos heq
      rcases Nat.eq_zero_or_pos (s.itable ip).ref with h0 | hpos'
      · exact (hg.new h0).2 kp hpos heq
      · exact hk (h.unique kp ip hpos hpos' (heq.trans (hg.old hpos').1.symm))
    by_cases hj : jp = ip <;> by_cases hk : kp = ip
    · rw [hj, hk]
    · rw [hg.others kp hk] at hr' he
      rw [hj, hg.inum] at he
      exact absurd he.symm (hother kp hk hr')
    · rw [hg.others jp hj] at hr he
      rw [hk, hg.inum] at he
      exact absurd he (hother jp hj hr)
    · rw [hg.others jp hj] at hr he
      rw [hg.others kp hk] at hr' he
      exact h.unique jp kp hr hr' he

/-- `ilock` makes the entry a copy of the inode. -/
structure Locked (s : State) (ip : Ip) (d : Dinode) (s' : State) : Prop where
  disk : s'.disk = s.disk
  inum : (s'.itable ip).inum = (s.itable ip).inum
  ref : (s'.itable ip).ref = (s.itable ip).ref
  valid : (s'.itable ip).valid = true
  dinode : (s'.itable ip).d = d
  others : ∀ jp ≠ ip, s'.itable jp = s.itable jp

theorem ilock_locked (h : Consistent sb s D) (href : 0 < (s.itable ip).ref)
    (hinum : (s.itable ip).inum = i) (hi : i < sb.ninodes) (htype : (D i).type ≠ 0) :
    wp E (ilock sb ip) s fun _ s' => Locked s ip (D i) s' := by
  rw [ilock, wp_bind, wp_getInode, if_neg (by omega)]
  cases hv : (s.itable ip).valid with
  | true =>
    rw [if_pos rfl, wp_pure]
    have hd := (h.cached ip href hv).2
    rw [hinum] at hd
    exact ⟨rfl, rfl, rfl, hv, hd, fun _ _ => rfl⟩
  | false =>
    have hread : (s.disk (sb.iblock i)).dinode (64 * (i % IPB)) = D i := h.stored i hi
    simp only [Bool.false_eq_true, if_false, wp_bind, wp_bread, wp_modInode, hinum, hread,
      if_neg htype]
    refine ⟨rfl, ?_, ?_, ?_, ?_, fun jp hj => update_of_ne hj _ _⟩
    all_goals simp only [update_self, hinum]

theorem Locked.consistent (h : Consistent sb s D)
    (hinum : (s.itable ip).inum = i) (hi : i < sb.ninodes) (hl : Locked s ip (D i) s') :
    Consistent sb s' D := by
  have hinum' : ∀ jp, (s'.itable jp).inum = (s.itable jp).inum := by
    intro jp
    by_cases hj : jp = ip
    · rw [hj, hl.inum]
    · rw [hl.others jp hj]
  have href' : ∀ jp, (s'.itable jp).ref = (s.itable jp).ref := by
    intro jp
    by_cases hj : jp = ip
    · rw [hj, hl.ref]
    · rw [hl.others jp hj]
  refine h.table hl.disk (fun jp hr hv => ?_) fun jp kp hr hr' he => ?_
  · rw [href'] at hr
    by_cases hj : jp = ip
    · rw [hj, hl.inum, hinum, hl.dinode]
      exact ⟨hi, rfl⟩
    · rw [hl.others jp hj] at hv ⊢
      exact h.cached jp hr hv
  · rw [href'] at hr hr'
    rw [hinum', hinum'] at he
    exact h.unique jp kp hr hr' he

/-- An `iput` that is not the last one of an inode without links. -/
structure Dropped (s : State) (ip : Ip) (s' : State) : Prop where
  disk : s'.disk = s.disk
  inum : (s'.itable ip).inum = (s.itable ip).inum
  ref : (s'.itable ip).ref = (s.itable ip).ref - 1
  valid : (s'.itable ip).valid = (s.itable ip).valid
  dinode : (s'.itable ip).d = (s.itable ip).d
  others : ∀ jp ≠ ip, s'.itable jp = s.itable jp

theorem iput_dropped (hkeep : ¬((s.itable ip).ref = 1 ∧ (s.itable ip).valid = true ∧
    (s.itable ip).d.nlink = 0)) : wp E (iput sb ip) s fun _ s' => Dropped s ip s' := by
  rw [iput, wp_bind, wp_getInode, if_neg hkeep]
  refine ⟨rfl, ?_, ?_, ?_, ?_, fun jp hj => update_of_ne hj _ _⟩
  all_goals simp only [update_self]

theorem Dropped.consistent (h : Consistent sb s D) (hd : Dropped s ip s') :
    Consistent sb s' D := by
  have href : ∀ jp, 0 < (s'.itable jp).ref → 0 < (s.itable jp).ref := by
    intro jp hr
    by_cases hj : jp = ip
    · rw [hj, hd.ref] at hr
      rw [hj]
      omega
    · rwa [hd.others jp hj] at hr
  have hinum : ∀ jp, (s'.itable jp).inum = (s.itable jp).inum := by
    intro jp
    by_cases hj : jp = ip
    · rw [hj, hd.inum]
    · rw [hd.others jp hj]
  refine h.table hd.disk (fun jp hr hv => ?_) fun jp kp hr hr' he => ?_
  · by_cases hj : jp = ip
    · subst hj
      rw [hd.valid] at hv
      rw [hd.inum, hd.dinode]
      exact h.cached jp (href jp hr) hv
    · rw [hd.others jp hj] at hr hv ⊢
      exact h.cached jp hr hv
  · rw [hinum, hinum] at he
    exact h.unique jp kp (href jp hr) (href kp hr') he

def Dinode.freed (d : Dinode) : Dinode := { d.emptied with type := 0 }

theorem Dinode.Fits.freed {d : Dinode} (h : d.Fits) : d.freed.Fits :=
  ⟨Nat.two_pow_pos 16, h.major, h.minor, h.nlink, Nat.two_pow_pos 32, fun _ => Nat.two_pow_pos 32,
    fun _ _ => rfl⟩

/-- The last `iput` of an inode without links. -/
structure Last (sb : Superblock) (i : Nat) (D : Nat → Dinode) (s : State) (ip : Ip)
    (s' : State) : Prop where
  disk : Emptied sb i D s.disk (D i).freed s'.disk
  ref : (s'.itable ip).ref = 0
  others : ∀ jp ≠ ip, s'.itable jp = s.itable jp

theorem iput_last (h : Consistent sb s D) (href : (s.itable ip).ref = 1)
    (hvalid : (s.itable ip).valid = true) (hinum : (s.itable ip).inum = i)
    (hnlink : (D i).nlink = 0) : wp E (iput sb ip) s fun _ s' => Last sb i D s ip s' := by
  obtain ⟨hi, hd⟩ := h.cached ip (by omega) hvalid
  rw [hinum] at hi hd
  rw [iput, wp_bind, wp_getInode, if_pos ⟨href, hvalid, by rw [hd, hnlink]⟩]
  refine (itrunc_spec h.owned hd (h.fits i) hinum hi).bind ?_
  rintro _ s1 ⟨h1, hit1⟩
  rw [wp_bind, modDinode, wp_modInode, wp_bind]
  refine (iupdate_spec (d := (D i).freed) ?_ hi ?_ (h.fits i).freed).mono
    fun _ s2 h2 => ?_
  · dsimp only
    rw [update_self, hit1, update_self]
    exact hinum
  · dsimp only
    rw [update_self, hit1, update_self]
    rfl
  · simp only [wp_bind, wp_modInode]
    refine ⟨h1.copied h.owned h2.2 rfl rfl, ?_, fun jp hj => ?_⟩
    · simp [h2.1, hit1, href]
    · simp [update_of_ne hj, h2.1, hit1]

theorem Last.consistent (h : Consistent sb s D) (href : 0 < (s.itable ip).ref)
    (hinum : (s.itable ip).inum = i) (hi : i < sb.ninodes) (hl : Last sb i D s ip s') :
    Consistent sb s' (update D i (D i).freed) := by
  have hne : ∀ jp, 0 < (s'.itable jp).ref → jp ≠ ip := by
    rintro jp hr rfl
    rw [hl.ref] at hr
    exact absurd hr (lt_irrefl 0)
  refine ⟨hl.disk.owned, fun j hj => ?_, fun j hj => ?_, fun jp hr hv => ?_,
    fun jp kp hr hr' he => ?_⟩
  · rw [hl.disk.inodes j hj]
    by_cases hji : j = i
    · rw [hji, update_self, update_self]
    · rw [update_of_ne hji, update_of_ne hji, h.stored j hj]
  · rw [update_of_ne (by omega), h.beyond j hj]
  · have hj := hne jp hr
    rw [hl.others jp hj] at hr hv ⊢
    rw [update_of_ne fun he => hj (h.unique jp ip hr href (he.trans hinum.symm))]
    exact h.cached jp hr hv
  · have hj := hne jp hr
    have hk := hne kp hr'
    rw [hl.others jp hj] at hr he
    rw [hl.others kp hk] at hr' he
    exact h.unique jp kp hr hr' he

end Xv6.Fs
