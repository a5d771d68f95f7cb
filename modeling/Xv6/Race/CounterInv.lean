import Xv6.Race.Counter

/-! The locked counter loses no update: the lock gives one process at a time the counter, and the
counting follows the holder from access to access. -/

namespace Xv6.Race

open Function List State Option

theorem sum_map_update {l : List Nat} (hn : l.Nodup) {p : Nat} (hp : p ∈ l) (f : Nat → Nat)
    (v : Nat) : (l.map (update f p v)).sum + f p = (l.map f).sum + v := by
  induction l with
  | nil => cases hp
  | cons a l ih =>
    rw [nodup_cons] at hn
    rw [map_cons, map_cons, sum_cons, sum_cons]
    rcases mem_cons.mp hp with rfl | hp
    · have hsame : l.map (update f p v) = l.map f :=
        map_congr_left fun q hq => update_of_ne (by rintro rfl; exact hn.1 hq) _ _
      rw [hsame, update_self]
      omega
    · have hap : a ≠ p := by
        rintro rfl
        exact hn.1 hp
      have := ih hn.2 hp
      rw [update_of_ne hap]
      omega

def State.pending (s : State) : Nat := (s.workers.map fun q => (s.job q).left).sum

/-- Where the processes are, what is in the counter, and how much work is left. -/
structure Inv (s : State) : Prop where
  spin : Spin.Inv s.spin
  place : ∀ p, JobAt (s.spin.pc p) (s.job p)
  free : s.spin.lk.locked = false →
    s.counter = s.completed % 2 ^ 32 ∧ s.totalOps = s.completed % 2 ^ 32
  data : ∀ p, (s.spin.pc p).holds = true → (s.job p).Data s.completed s.counter s.totalOps
  got : ∀ g ∈ s.got, g.value = g.completed % 2 ^ 32
  bound : ∀ p i n pc, s.job p = .inc i n pc → pc ≠ .loop → i < n
  nodup : s.workers.Nodup
  workers : ∀ p, p ∈ s.workers ↔ ∃ i n pc, s.job p = .inc i n pc
  total : s.owed + (s.calls.map Int.toNat).sum = s.completed + s.pending

theorem inv_init : Inv init where
  spin :=
    { unique := by simp [init, Spin.Pc.holds], locked := by simp [init, Spin.Pc.holds]
      cpu := by simp [init], pinned := by simp [init], running := by simp [init], panic := rfl }
  place _ := trivial
  free _ := ⟨rfl, rfl⟩
  data p hp := by simp [init, Spin.Pc.holds] at hp
  got := by simp [init]
  bound := by simp [init]
  nodup := nodup_nil
  workers := by simp [init]
  total := rfl

variable {s s' : State} {p c : Nat}

theorem Inv.setSpin (h : Inv s) {spin : Spin.Sys} (hspin : Spin.Inv spin)
    (hpc : spin.pc = s.spin.pc) (hlk : spin.lk = s.spin.lk) : Inv { s with spin } :=
  { h with
    spin := hspin
    place := fun p => by rw [hpc]; exact h.place p
    free := fun hl => h.free (by rw [← hlk]; exact hl)
    data := fun p hp => h.data p (by rw [← hpc]; exact hp) }

variable {counter totalOps : Nat} {job : Job}

section

variable (h : Inv s) {spin : Spin.Sys} {pc : Spin.Pc} (hspin : Spin.Inv spin)
  (hpc : spin.pc = update s.spin.pc p pc)

include h hspin hpc

/-- `p` goes on, in the same call, and the others see no change of the counter unless `p` holds the
lock. -/
theorem Inv.move (hplace : JobAt pc job)
    (hfree : spin.lk.locked = false →
      counter = s.completed % 2 ^ 32 ∧ totalOps = s.completed % 2 ^ 32)
    (hothers : (s.spin.pc p).holds = true ∨ counter = s.counter ∧ totalOps = s.totalOps)
    (hdata : pc.holds = true → job.Data s.completed counter totalOps)
    (hbound : ∀ i n k, job = .inc i n k → k ≠ .loop → i < n)
    (hwork : (∃ i n k, job = .inc i n k) ↔ ∃ i n k, s.job p = .inc i n k)
    (hleft : job.left = (s.job p).left) :
    Inv { s with spin, counter, totalOps, job := update s.job p job } := by
  have hlefts : (fun q => (update s.job p job q).left) = fun q => (s.job q).left := by
    funext q
    rcases eq_or_ne q p with rfl | hq
    · simp [hleft]
    · simp [hq]
  refine { h with spin := hspin, place := ?_, free := hfree, data := ?_, bound := ?_,
                  workers := ?_, total := ?_ }
  · intro q
    rw [hpc]
    rcases eq_or_ne q p with rfl | hq
    · simpa using hplace
    · simpa [hq] using h.place q
  · intro q hq
    dsimp only at hq ⊢
    rw [hpc] at hq
    rcases eq_or_ne q p with rfl | hqp
    · rw [update_self] at hq ⊢
      exact hdata hq
    · rw [update_of_ne hqp] at hq ⊢
      rcases hothers with hp | ⟨rfl, rfl⟩
      · exact absurd (h.spin.unique q p hq hp) hqp
      · exact h.data q hq
  · intro q i n k hq
    rcases eq_or_ne q p with rfl | hqp
    · exact hbound i n k (by simpa using hq)
    · exact h.bound q i n k (by simpa [hqp] using hq)
  · intro q
    rcases eq_or_ne q p with rfl | hqp
    · simp [hwork, h.workers]
    · simp [hqp, h.workers]
  · simp only [pending, hlefts]
    exact h.total

theorem Inv.moveSpin (hlk : spin.lk.locked = s.spin.lk.locked)
    (hholds : pc.holds = (s.spin.pc p).holds) (hplace : JobAt pc (s.job p)) :
    Inv { s with spin } := by
  have hmove := h.move hspin hpc hplace (fun hl => h.free (hlk.symm.trans hl))
    (.inr ⟨rfl, rfl⟩) (fun hp => h.data p (hholds.symm.trans hp)) (h.bound p) Iff.rfl rfl
  rwa [update_eq_self] at hmove

end

theorem Inv.moveJob (h : Inv s)
    (hplace : JobAt (s.spin.pc p) job)
    (hcounter : (s.spin.pc p).holds = true ∧ job.Data s.completed counter totalOps ∨
      (s.spin.pc p).holds = false ∧ counter = s.counter ∧ totalOps = s.totalOps)
    (hbound : ∀ i n k, job = .inc i n k → k ≠ .loop → i < n)
    (hwork : (∃ i n k, job = .inc i n k) ↔ ∃ i n k, s.job p = .inc i n k)
    (hleft : job.left = (s.job p).left) :
    Inv { s with counter, totalOps, job := update s.job p job } := by
  rcases hcounter with ⟨hp, hdata⟩ | ⟨hp, rfl, rfl⟩
  · refine h.move h.spin (update_eq_self p s.spin.pc).symm hplace (fun hl => ?_) (.inl hp)
      (fun _ => hdata) hbound hwork hleft
    rw [h.spin.locked.mpr ⟨p, hp⟩] at hl
    cases hl
  · refine h.move h.spin (update_eq_self p s.spin.pc).symm hplace h.free (.inr ⟨rfl, rfl⟩)
      (fun hh => ?_) hbound hwork hleft
    rw [hp] at hh
    cases hh

variable {i n : Int}

theorem left_inc {k : IncPc} (hk : k ≠ .next) :
    (Job.inc i n k).left = (n - i).toNat := by
  cases k <;> first | rfl | exact absurd rfl hk

theorem succ32_mod (n : Nat) : succ32 (n % 2 ^ 32) = (n + 1) % 2 ^ 32 := Nat.mod_add_mod _ _ _

section

variable (h : Inv s)

include h

theorem Inv.incAccess (hp : s.spin.pc p = .held) {k k' : IncPc}
    (hjob : s.job p = .inc i n k) (hk : k ≠ .loop ∧ k ≠ .next) (hk' : k' ≠ .loop ∧ k' ≠ .next)
    (hdata : (Job.inc i n k').Data s.completed counter totalOps) :
    Inv { s with counter, totalOps, job := update s.job p (.inc i n k') } := by
  refine h.moveJob (by rw [hp]; exact hk') (.inl ⟨by rw [hp]; rfl, hdata⟩) ?_ ?_ ?_
  · intro i' n' k'' he _
    cases he
    exact h.bound p i n k hjob hk.1
  · simp [hjob]
  · rw [hjob, left_inc hk.2, left_inc hk'.2]

theorem Inv.otherAccess (hp : s.spin.pc p = .held)
    (hplace : JobAt .held job) (hdata : job.Data s.completed counter totalOps)
    (hold : ∀ i n k, s.job p ≠ .inc i n k) (hnew : ∀ i n k, job ≠ .inc i n k)
    (hleft : job.left = (s.job p).left) :
    Inv { s with counter, totalOps, job := update s.job p job } := by
  refine h.moveJob (by rw [hp]; exact hplace) (.inl ⟨by rw [hp]; rfl, hdata⟩) ?_ ?_ hleft
  · exact fun i n k he => absurd he (hnew i n k)
  · exact ⟨fun ⟨i, n, k, he⟩ => absurd he (hnew i n k), fun ⟨i, n, k, he⟩ => absurd he (hold i n k)⟩

theorem Inv.heldStep (hp : s.spin.pc p = .held) (hc : s.spin.cpu p = some c)
    (hs : heldStep s p = some s') : Inv s' := by
  have hdata := h.data p (by rw [hp]; rfl)
  have hrelease : JobAt .checkLocked (s.job p) → Inv { s with spin := Spin.release s.spin p } :=
    fun hplace => h.moveSpin (h.spin.release hp hc) rfl rfl (by rw [hp]; rfl) hplace
  unfold Race.heldStep at hs
  cases hjob : s.job p with
  | user => simp [hjob] at hs
  | inc i n k =>
    rw [hjob] at hdata hrelease
    cases k with
    | loop => simp [hjob] at hs
    | next => simp [hjob] at hs
    | enter =>
      simp only [hjob] at hs
      cases hs
      exact h.incAccess hp hjob (by simp) (by simp) ⟨hdata.1, hdata⟩
    | store temp =>
      simp only [hjob] at hs
      cases hs
      obtain ⟨rfl, -, hops⟩ := hdata
      exact h.incAccess hp hjob (by simp) (by simp) ⟨succ32_mod _, hops⟩
    | loadOps =>
      simp only [hjob] at hs
      cases hs
      exact h.incAccess hp hjob (by simp) (by simp) ⟨hdata.2, hdata⟩
    | storeOps ops =>
      simp only [hjob] at hs
      cases hs
      obtain ⟨rfl, hcounter, -⟩ := hdata
      exact h.incAccess hp hjob (by simp) (by simp) ⟨hcounter, succ32_mod _⟩
    | leave =>
      simp only [hjob, some.injEq] at hs
      exact hs ▸ hrelease (.inr (.inr ⟨i, n, rfl⟩))
  | get =>
    simp only [hjob] at hs
    cases hs
    rw [hjob] at hdata
    exact h.otherAccess hp trivial ⟨hdata.1, hdata⟩ (by simp [hjob]) (by simp) (by rw [hjob]; rfl)
  | getLeave val =>
    simp only [hjob, some.injEq] at hs
    rw [hjob] at hrelease
    exact hs ▸ hrelease (.inl ⟨val, rfl⟩)
  | reset =>
    simp only [hjob] at hs
    cases hs
    rw [hjob] at hdata
    exact h.otherAccess hp trivial ⟨rfl, hdata.2⟩ (by simp [hjob]) (by simp) (by rw [hjob]; rfl)
  | resetOps =>
    simp only [hjob] at hs
    cases hs
    rw [hjob] at hdata
    exact h.otherAccess hp trivial ⟨hdata.1, rfl⟩ (by simp [hjob]) (by simp) (by rw [hjob]; rfl)
  | resetLeave =>
    simp only [hjob, some.injEq] at hs
    rw [hjob] at hrelease
    exact hs ▸ hrelease (.inr (.inl rfl))

theorem Inv.exitLoop (hp : s.spin.pc p = .idle)
    (hjob : s.job p = .inc i n .loop) (hi : ¬i < n) :
    Inv ({ s with workers := s.workers.erase p }.goto p .user) := by
  have hzero : (s.job p).left = 0 := by
    rw [hjob, left_inc (by simp)]
    omega
  have hmem : p ∈ s.workers := (h.workers p).mpr ⟨i, n, .loop, hjob⟩
  have hsum := sum_map_erase (fun q => (s.job q).left) hmem
  have hsame : (s.workers.erase p).map (fun q => (update s.job p Job.user q).left) =
      (s.workers.erase p).map fun q => (s.job q).left := by
    refine map_congr_left fun q hq => ?_
    have hqp : q ≠ p := by
      rintro rfl
      exact Nodup.not_mem_erase h.nodup hq
    simp [hqp]
  refine { h with place := ?_, data := ?_, bound := ?_, nodup := h.nodup.erase p, workers := ?_,
                  total := ?_ }
  · intro q
    rcases eq_or_ne q p with rfl | hq
    · simp [goto, hp, JobAt]
    · simpa [goto, hq] using h.place q
  · intro q hq
    have hqp : q ≠ p := by
      rintro rfl
      simp [goto, hp, Spin.Pc.holds] at hq
    simpa [goto, hqp] using h.data q hq
  · intro q i n k hq
    have hqp : q ≠ p := by
      rintro rfl
      simp [goto] at hq
    exact h.bound q i n k (by simpa [goto, hqp] using hq)
  · intro q
    rcases eq_or_ne q p with rfl | hq
    · simpa [goto] using Nodup.not_mem_erase h.nodup
    · simp [goto, hq, h.workers, mem_erase_of_ne]
  · have htotal := h.total
    simp only [pending, goto, hsame] at *
    omega

theorem Inv.acquire (hp : s.spin.pc p = .idle) (hc : s.spin.cpu p = some c)
    (hjob : JobAt .loadLocked (s.job p)) : Inv { s with spin := Spin.acquire s.spin p } :=
  h.moveSpin (h.spin.acquire hp hc) rfl rfl (by rw [hp]; rfl) hjob

theorem Inv.ret (hp : s.spin.pc p = .idle) (hjob : ∀ i n k, s.job p ≠ .inc i n k)
    (hleft : (s.job p).left = 0) : Inv (s.goto p .user) := by
  have hwork : (∃ i n k, Job.user = .inc i n k) ↔ ∃ i n k, s.job p = .inc i n k := by
    simp [hjob]
  exact h.moveJob (by rw [hp]; trivial) (.inr ⟨by rw [hp]; rfl, rfl, rfl⟩) (by simp) hwork
    hleft.symm

theorem Inv.freeStep (hp : s.spin.pc p = .idle) (hc : s.spin.cpu p = some c)
    (hs : freeStep s p = some s') : Inv s' := by
  unfold Race.freeStep at hs
  cases hjob : s.job p with
  | user => simp [hjob] at hs
  | resetOps => simp [hjob] at hs
  | inc i n k =>
    cases k with
    | loop =>
      simp only [hjob] at hs
      split at hs <;> cases hs
      · rename_i hi
        have hpc : (Spin.acquire s.spin p).pc = update s.spin.pc p .loadLocked := rfl
        refine h.move (h.spin.acquire hp hc) hpc ?_ h.free (.inr ⟨rfl, rfl⟩)
          (by simp [Spin.Pc.holds]) ?_ (by simp [hjob]) ?_
        · exact .inr (.inr ⟨i, n, rfl⟩)
        · rintro i' n' k' he -
          cases he
          exact hi
        · rw [hjob, left_inc (by simp), left_inc (by simp)]
      · exact h.exitLoop hp hjob (by assumption)
    | next =>
      simp only [hjob] at hs
      cases hs
      refine h.moveJob (by rw [hp]; exact .inl rfl) (.inr ⟨by rw [hp]; rfl, rfl, rfl⟩) ?_
        (by simp [hjob]) ?_
      · rintro i' n' k' he hk
        cases he
        exact absurd rfl hk
      · rw [hjob, left_inc (by simp)]
        simp only [Job.left]
        omega
    | _ => simp [hjob] at hs
  | get =>
    simp only [hjob, some.injEq] at hs
    exact hs ▸ h.acquire hp hc (by rw [hjob]; exact .inl rfl)
  | reset =>
    simp only [hjob, some.injEq] at hs
    exact hs ▸ h.acquire hp hc (by rw [hjob]; exact .inr (.inl rfl))
  | getLeave val | resetLeave =>
    simp only [hjob, some.injEq] at hs
    exact hs ▸ h.ret hp (by simp [hjob]) (by rw [hjob]; rfl)

theorem Inv.lockStep (hc : s.spin.cpu p = some c) (hne : s.spin.pc p ≠ .clearLocked) :
    Inv { s with spin := Spin.step s.spin p c } := by
  have hspin := h.spin.step hc
  have hpanic := hspin.panic
  have hplace := h.place p
  unfold Spin.step at hspin hpanic ⊢
  cases hpc : s.spin.pc p with
  | idle => exact h
  | held => exact h
  | clearLocked => exact absurd hpc hne
  | loadLocked =>
    simp only [hpc] at hspin hplace ⊢
    refine h.moveSpin hspin rfl rfl ?_ ?_
    · rw [hpc]
      split <;> rfl
    · split <;> exact hplace
  | loadCpu =>
    simp only [hpc] at hspin hpanic hplace ⊢
    by_cases hcpu : s.spin.lk.cpu = some c
    · rw [if_pos hcpu] at hpanic
      cases hpanic
    · rw [if_neg hcpu] at hspin ⊢
      exact h.moveSpin hspin rfl rfl (by rw [hpc]; rfl) hplace
  | swap =>
    simp only [hpc] at hspin hplace ⊢
    cases hl : s.spin.lk.locked with
    | true => exact h
    | false =>
      simp only [hl, Bool.false_eq_true, if_false] at hspin ⊢
      have hdata : (s.job p).Data s.completed s.counter s.totalOps := by
        rcases hplace with hj | hj | ⟨i, n, hj⟩ <;> rw [hj] <;> exact h.free hl
      have hmove := h.move hspin rfl hplace (nofun) (.inr ⟨rfl, rfl⟩)
        (fun _ => hdata) (h.bound p) Iff.rfl rfl
      rwa [update_eq_self] at hmove
  | storeCpu =>
    simp only [hpc] at hspin hplace ⊢
    refine h.moveSpin hspin rfl rfl (by rw [hpc]; rfl) ?_
    rcases hplace with hj | hj | ⟨i, n, hj⟩ <;> rw [hj] <;> simp [JobAt]
  | checkLocked =>
    simp only [hpc] at hspin hpanic hplace ⊢
    cases hl : s.spin.lk.locked with
    | true =>
      simp only [hl, if_true] at hspin ⊢
      exact h.moveSpin hspin rfl rfl (by rw [hpc]; rfl) hplace
    | false => simp [hl] at hpanic
  | checkCpu =>
    simp only [hpc] at hspin hpanic hplace ⊢
    by_cases hcpu : s.spin.lk.cpu = some c
    · rw [if_pos hcpu] at hspin ⊢
      exact h.moveSpin hspin rfl rfl (by rw [hpc]; rfl) hplace
    · rw [if_neg hcpu] at hpanic
      cases hpanic
  | clearCpu =>
    simp only [hpc] at hspin hplace ⊢
    exact h.moveSpin hspin rfl rfl (by rw [hpc]; rfl) hplace
  | popOff =>
    simp only [hpc] at hspin hplace ⊢
    refine h.moveSpin hspin rfl rfl (by rw [hpc]; rfl) ?_
    rcases hplace with ⟨v, hj⟩ | hj | ⟨i, n, hj⟩ <;> rw [hj] <;> simp [JobAt]

section

variable (hp : s.spin.pc p = .clearLocked) (hc : s.spin.cpu p = some c)

include hp hc

theorem Inv.unlock {completed owed : Nat} {got : List Got} {calls : List Int}
    (hplace : JobAt .popOff job)
    (hcounter : s.counter = completed % 2 ^ 32 ∧ s.totalOps = completed % 2 ^ 32)
    (hgot : ∀ g ∈ got, g.value = g.completed % 2 ^ 32)
    (hbound : ∀ i n k, job = .inc i n k → k ≠ .loop → i < n)
    (hwork : (∃ i n k, job = .inc i n k) ↔ ∃ i n k, s.job p = .inc i n k)
    (htotal : owed + (calls.map Int.toNat).sum =
      completed + (s.workers.map fun q => (update s.job p job q).left).sum) :
    Inv { s with
      spin := Spin.step s.spin p c, job := update s.job p job, completed, got, owed, calls } := by
  have hspin := h.spin.step hc
  have hstep : Spin.step s.spin p c =
      ({ s.spin with lk := { s.spin.lk with locked := false } }).goto p .popOff := by
    rw [Spin.step, hp]
  have hlocked : (Spin.step s.spin p c).lk.locked = false := by rw [hstep]; rfl
  refine { h with spin := hspin, place := ?_, free := fun _ => hcounter, data := ?_, got := hgot,
                  bound := ?_, workers := ?_, total := htotal }
  · intro q
    rw [hstep]
    rcases eq_or_ne q p with rfl | hq
    · simpa [Spin.Sys.goto] using hplace
    · simpa [Spin.Sys.goto, hq] using h.place q
  · -- Nobody has the lock now.
    intro q hq
    have hheld := hspin.locked.mpr ⟨q, hq⟩
    rw [hlocked] at hheld
    cases hheld
  · intro q i n k hq
    rcases eq_or_ne q p with rfl | hqp
    · exact hbound i n k (by simpa using hq)
    · exact h.bound q i n k (by simpa [hqp] using hq)
  · intro q
    rcases eq_or_ne q p with rfl | hqp
    · simp [hwork, h.workers]
    · simp [hqp, h.workers]

theorem Inv.incUnlock (hjob : s.job p = .inc i n .leave) :
    Inv { s with
      spin := Spin.step s.spin p c, job := update s.job p (.inc i n .next)
      completed := s.completed + 1 } := by
  have hdata := h.data p (by rw [hp]; rfl)
  have hi := h.bound p i n .leave hjob (by simp)
  have hmem : p ∈ s.workers := (h.workers p).mpr ⟨i, n, .leave, hjob⟩
  have hlefts : (fun q => (update s.job p (Job.inc i n .next) q).left) =
      update (fun q => (s.job q).left) p (n - i - 1).toNat := by
    funext q
    rcases eq_or_ne q p with rfl | hq
    · simp [Job.left]
    · simp [hq]
  have hsum := sum_map_update h.nodup hmem (fun q => (s.job q).left) (n - i - 1).toNat
  have hleft : (s.job p).left = (n - i).toNat := by rw [hjob, left_inc (by simp)]
  rw [hjob] at hdata
  refine h.unlock hp hc (.inr (.inr ⟨i, n, rfl⟩)) hdata h.got ?_ (by simp [hjob]) ?_
  · intro i' n' k he _
    cases he
    exact hi
  · have htotal := h.total
    rw [hlefts]
    simp only [pending, hleft] at htotal hsum
    omega

theorem Inv.endSection :
    Inv { endSection s p with spin := Spin.step s.spin p c } := by
  have hdata := h.data p (by rw [hp]; rfl)
  have hplace := h.place p
  rw [hp] at hplace
  unfold Race.endSection
  rcases hplace with ⟨v, hj⟩ | hj | ⟨i, n, hj⟩
  · rw [hj] at hdata
    have hgot : ∀ g ∈ ({ value := v, completed := s.completed } :: s.got : List Got),
        g.value = g.completed % 2 ^ 32 := by
      intro g hg
      rcases mem_cons.mp hg with rfl | hg
      · exact hdata.1
      · exact h.got g hg
    have hsec := h.unlock hp hc (.inl ⟨v, hj⟩) hdata.2 hgot (h.bound p) Iff.rfl
      (by rw [update_eq_self]; exact h.total)
    rw [update_eq_self] at hsec
    simpa only [hj] using hsec
  · rw [hj] at hdata
    have htotal : s.pending + ([].map Int.toNat).sum =
        0 + (s.workers.map fun q => (update s.job p (s.job p) q).left).sum := by
      rw [update_eq_self]
      simp [pending]
    have hzero : s.counter = 0 % 2 ^ 32 ∧ s.totalOps = 0 % 2 ^ 32 := hdata
    have hsec := h.unlock hp hc (.inr (.inl hj)) hzero h.got (h.bound p) Iff.rfl htotal
    rw [update_eq_self] at hsec
    simpa only [hj, pending] using hsec
  · simpa only [hj, goto] using h.incUnlock hp hc hj

end

theorem Inv.runStep (hc : s.spin.cpu p = some c) (hs : runStep s p c = some s') :
    Inv s' := by
  unfold Race.runStep at hs
  cases hpc : s.spin.pc p with
  | idle =>
    simp only [hpc] at hs
    exact h.freeStep hpc hc hs
  | held =>
    simp only [hpc] at hs
    exact h.heldStep hpc hc hs
  | clearLocked =>
    simp only [hpc, some.injEq] at hs
    exact hs ▸ h.endSection hpc hc
  | _ =>
    simp only [hpc, some.injEq] at hs
    exact hs ▸ h.lockStep hc (by simp [hpc])

theorem Inv.idle_of_user (hu : s.job p = .user) : s.spin.pc p = .idle := by
  have hplace := h.place p
  rw [hu] at hplace
  cases hpc : s.spin.pc p with
  | idle => rfl
  | _ => simp [hpc, JobAt] at hplace

theorem Inv.increment (hu : s.job p = .user) (iterations : Int) :
    Inv (callStep s p (.increment iterations)) := by
  have hpc := h.idle_of_user hu
  have hmem : p ∉ s.workers := by simp [h.workers, hu]
  have hsame : (s.workers.map fun q => (update s.job p (Job.inc 0 iterations .loop) q).left) =
      s.workers.map fun q => (s.job q).left := by
    refine map_congr_left fun q hq => ?_
    have hqp : q ≠ p := by
      rintro rfl
      exact hmem hq
    simp [hqp]
  refine { h with place := ?_, data := ?_, bound := ?_,
                  nodup := nodup_cons.mpr ⟨hmem, h.nodup⟩, workers := ?_, total := ?_ }
  · intro q
    rcases eq_or_ne q p with rfl | hq
    · simp [callStep, goto, hpc, JobAt]
    · simpa [callStep, goto, hq] using h.place q
  · intro q hq
    have hqp : q ≠ p := by
      rintro rfl
      simp [callStep, goto, hpc, Spin.Pc.holds] at hq
    simpa [callStep, goto, hqp] using h.data q hq
  · intro q i n k hq hk
    rcases eq_or_ne q p with rfl | hqp
    · simp only [callStep, goto, update_self, Job.inc.injEq] at hq
      exact absurd hq.2.2.symm hk
    · exact h.bound q i n k (by simpa [callStep, goto, hqp] using hq) hk
  · intro q
    rcases eq_or_ne q p with rfl | hq
    · simp [callStep, goto]
    · simp [callStep, goto, hq, h.workers]
  · have htotal := h.total
    simp only [pending, callStep, goto, map_cons, sum_cons, hsame,
      update_self, left_inc (k := .loop) (by simp)] at htotal ⊢
    omega

theorem Inv.call (hu : s.job p = .user) (hjob : job = .get ∨ job = .reset) :
    Inv (s.goto p job) := by
  have hpc := h.idle_of_user hu
  rcases hjob with rfl | rfl <;>
    exact h.moveJob (by rw [hpc]; trivial) (.inr ⟨by rw [hpc]; rfl, rfl, rfl⟩) (by simp)
      (by simp [hu]) (by rw [hu]; rfl)

theorem Inv.step {e : Event} (hs : step s e = some s') : Inv s' := by
  simp only [Race.step, h.spin.panic, isSome_none, Bool.false_eq_true, if_false] at hs
  cases e with
  | sched p c =>
    obtain ⟨spin, hspin, rfl⟩ := map_eq_some_iff.mp hs
    have hinv := h.spin.sched hspin
    simp only [Spin.sched, guard_eq_some] at hspin
    exact h.setSpin hinv (by rw [← hspin.2]) (by rw [← hspin.2])
  | preempt p =>
    obtain ⟨spin, hspin, rfl⟩ := map_eq_some_iff.mp hs
    have hinv := h.spin.preempt hspin
    unfold Spin.preempt at hspin
    cases hcpu : s.spin.cpu p with
    | none => simp [hcpu] at hspin
    | some c =>
      simp only [hcpu, guard_eq_some] at hspin
      exact h.setSpin hinv (by rw [← hspin.2]) (by rw [← hspin.2])
  | call p call =>
    obtain ⟨⟨hu, -⟩, rfl⟩ := guard_eq_some.mp hs
    cases call with
    | increment iterations => exact h.increment hu iterations
    | getCounter => exact h.call hu (.inl rfl)
    | reset => exact h.call hu (.inr rfl)
  | run p =>
    obtain ⟨c, hc, hrun⟩ := bind_eq_some_iff.mp hs
    exact h.runStep hc hrun

end

theorem reachable_inv (h : Reachable (· = init) step s) : Inv s :=
  h.invariant (by rintro _ rfl; exact inv_init) fun _ _ _ hs hstep => hs.step hstep

theorem Inv.pending_eq_zero (h : Inv s) (hnone : ∀ p i n k, s.job p ≠ .inc i n k) :
    s.pending = 0 := by
  have hworkers : s.workers = [] := by
    refine eq_nil_iff_forall_not_mem.mpr fun p hp => ?_
    obtain ⟨i, n, k, hk⟩ := (h.workers p).mp hp
    exact hnone p i n k hk
  simp [pending, hworkers]

/-- **The locked counter loses no update.** In every interleaving the lock does not panic, and while
it is free both counters are the number of critical sections completed since the last reset, up to
the width of an `int`. Every `race_get_counter` returns such a number. When no process is inside
`race_increment` the counter is what the calls asked for, each call since the reset and the rest of
each that the reset fell into. -/
theorem locked_counter_exact (h : Reachable (· = init) step s) :
    s.spin.panic = none ∧
      (s.spin.lk.locked = false →
        s.counter = s.completed % 2 ^ 32 ∧ s.totalOps = s.completed % 2 ^ 32) ∧
      (∀ g ∈ s.got, g.value = g.completed % 2 ^ 32) ∧
      (s.spin.lk.locked = false → (∀ p i n k, s.job p ≠ .inc i n k) →
        s.counter = (s.owed + (s.calls.map Int.toNat).sum) % 2 ^ 32) := by
  have hinv := reachable_inv h
  refine ⟨hinv.spin.panic, hinv.free, hinv.got, fun hfree hnone => ?_⟩
  have htotal := hinv.total
  rw [hinv.pending_eq_zero hnone, add_zero] at htotal
  rw [(hinv.free hfree).1, htotal]

def twoWorkers : List Event :=
  [.sched 0 0, .sched 1 1, .call 0 (.increment 1), .call 1 (.increment 1)] ++
    replicate 4 (.run 0) ++ replicate 4 (.run 1) ++ replicate 12 (.run 0) ++
    replicate 14 (.run 1) ++ [.call 0 .getCounter] ++ replicate 12 (.run 0)

theorem locked_counter_exact_two :
    ∃ s, Reachable (· = init) step s ∧ s.counter = 2 ∧ s.got.map Got.value = [2] ∧
      s.calls = [1, 1] ∧ s.spin.lk.locked = false ∧
      (s.spin.panic = none ∧
        (s.spin.lk.locked = false →
          s.counter = s.completed % 2 ^ 32 ∧ s.totalOps = s.completed % 2 ^ 32) ∧
        (∀ g ∈ s.got, g.value = g.completed % 2 ^ 32) ∧
        (s.spin.lk.locked = false → (∀ p i n k, s.job p ≠ .inc i n k) →
          s.counter = (s.owed + (s.calls.map Int.toNat).sum) % 2 ^ 32)) := by
  have hrun : (runEvents step init twoWorkers).any (fun s => decide (s.counter = 2 ∧
      s.got.map Got.value = [2] ∧ s.calls = [1, 1] ∧ s.spin.lk.locked = false)) := by
    decide +kernel
  obtain ⟨s, hreach, h1, h2, h3, h4⟩ : ∃ s, Reachable (· = init) step s ∧ _ :=
    Reachable.exists_run rfl hrun
  exact ⟨s, hreach, h1, h2, h3, h4, locked_counter_exact hreach⟩

end Xv6.Race
