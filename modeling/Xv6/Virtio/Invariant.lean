import Xv6.Virtio.Descriptors

/-! What holds of the driver and the device between any two steps: who has which descriptors, and
where each request that the device has not given back is. -/

namespace Xv6.Virtio

open Function

def Stage.waits : Stage → Bool
  | wait | sleep => true
  | _ => false

namespace Pc

variable {β : Type}

def holds : Pc β → Bool
  | idle | acquire _ _ | sleep _ _ | req _ .sleep | intr => false
  | _ => true

def buf : Pc β → Option β
  | acquire b _ | alloc b _ | sleep b _ => some b
  | req r _ => some r.b
  | _ => none

end Pc

/-- Three different descriptors. -/
structure Req.Wf {β : Type} (r : Req β) : Prop where
  lt : r.idx0 < NUM ∧ r.idx1 < NUM ∧ r.idx2 < NUM
  ne : r.idx0 ≠ r.idx1 ∧ r.idx0 ≠ r.idx2 ∧ r.idx1 ≠ r.idx2

/-- The descriptors of `r` are linked, and the first leads to the buffer of `r`. -/
structure Formatted {β : Type} (d : Disk β) (r : Req β) : Prop where
  head : (d.desc r.idx0).flags &&& VRING_DESC_F_NEXT ≠ 0 ∧ (d.desc r.idx0).next = r.idx1
  data : (d.desc r.idx1).flags &&& VRING_DESC_F_NEXT ≠ 0 ∧ (d.desc r.idx1).next = r.idx2
  last : (d.desc r.idx2).flags &&& VRING_DESC_F_NEXT = 0 ∧
    (d.desc r.idx2).addr = .status r.idx0
  info : (d.info r.idx0).b = some r.b

section

variable {τ β : Type}

namespace State

def availQueue (s : State τ β) : List Nat :=
  slots NUM s.disk.avail.ring s.dev.idx (wsub WRAP s.disk.avail.idx s.dev.idx)

/-- The requests in the used ring that `virtio_disk_intr` has not seen. -/
def usedQueue (s : State τ β) : List Nat :=
  slots NUM s.disk.used.ring s.disk.usedIdx (wsub WRAP s.disk.used.idx s.disk.usedIdx)

/-- All requests between `virtio_disk_rw` and `virtio_disk_intr`. -/
def heads (s : State τ β) : List Nat :=
  s.availQueue ++ s.dev.taken ++ (s.dev.done ++ s.usedQueue)

def Waits (s : State τ β) (r : Req β) : Prop := ∃ t stage, s.pc t = .req r stage ∧ stage.waits

end State

/-- Who has the lock, the buffers and the descriptors. -/
structure Descs (s : State τ β) : Prop where
  lock : ∀ t, (s.pc t).holds → s.lock = some t
  owner : ∀ t b, (s.pc t).buf = some b → s.locked b = some t
  wf : ∀ t r stage, s.pc t = .req r stage → r.Wf
  used : ∀ t r stage, s.pc t = .req r stage → ∀ i ∈ r.idx, s.disk.free i = false
  disj : ∀ t t' r r' stage stage', s.pc t = .req r stage → s.pc t' = .req r' stage' →
    ∀ i ∈ r.idx, i ∈ r'.idx → t = t'
  cover : ∀ i < NUM, s.disk.free i = false → ∃ t r stage, s.pc t = .req r stage ∧ i ∈ r.idx
  formatted : ∀ t r stage, s.pc t = .req r stage → stage ≠ .format → Formatted s.disk r

def Knows (s : State τ β) : Pc β → Prop
  | .req r .ring => s.inDisk r.b
  | .req r .publish => s.inDisk r.b ∧ s.disk.avail.ring (s.disk.avail.idx % NUM) = r.idx0
  | .req r .finish => s.inDisk r.b = false
  | .intrEntry => s.disk.usedIdx ≠ s.disk.used.idx
  | _ => True

/-- Where the requests are. -/
structure Queue (s : State τ β) : Prop where
  avail : s.disk.avail.idx < WRAP
  dev : s.dev.idx < WRAP
  usedIdx : s.disk.usedIdx < WRAP
  used : s.disk.used.idx < WRAP
  nodup : s.heads.Nodup
  mem : ∀ id, id ∈ s.heads ↔ ∃ r, s.Waits r ∧ s.inDisk r.b ∧ r.idx0 = id
  status : ∀ id ∈ s.dev.done ++ s.usedQueue, (s.disk.info id).status = 0
  knows : ∀ t, Knows s (s.pc t)

theorem knows_of_not_holds {s : State τ β} {pc : Pc β} (h : pc.holds = false) : Knows s pc := by
  cases pc with
  | req r stage => cases stage <;> trivial
  | _ => trivial

namespace Descs

variable {s s' : State τ β} {t t' : τ} {r r' : Req β} {stage stage' : Stage}

theorem others (h : Descs s) (ht : (s.pc t).holds) (ht' : t' ≠ t) : (s.pc t').holds = false := by
  by_contra hh
  exact ht' (Option.some.inj ((h.lock t' (by simpa using hh)).symm.trans (h.lock t ht)))

theorem not_holds (h : Descs s) (hlock : s.lock = none) (t : τ) : (s.pc t).holds = false := by
  by_contra hh
  rw [h.lock t (by simpa using hh)] at hlock
  cases hlock

theorem buf_ne (h : Descs s) (hr : s.pc t = .req r stage) (hr' : s.pc t' = .req r' stage')
    (ht : t' ≠ t) : r'.b ≠ r.b := by
  intro he
  have hb := h.owner t r.b (by rw [hr]; rfl)
  have hb' := h.owner t' r'.b (by rw [hr']; rfl)
  rw [he, hb] at hb'
  exact ht (Option.some.inj hb').symm

theorem head_ne (h : Descs s) (hr : s.pc t = .req r stage) (hr' : s.pc t' = .req r' stage')
    (ht : t' ≠ t) {i : Nat} (hi : i ∈ r.idx) : r'.idx0 ≠ i := by
  rintro rfl
  exact ht (h.disj t t' r r' _ _ hr hr' _ hi (by simp [Req.idx])).symm

theorem chain (h : Descs s) (hr : s.pc t = .req r stage) (hf : stage ≠ .format) :
    Chain s.disk r.idx0 r.idx1 r.idx2 := by
  have hfmt := h.formatted t r stage hr hf
  have hused := h.used t r stage hr
  simp only [Req.idx, List.mem_cons, List.not_mem_nil, or_false, forall_eq_or_imp,
    forall_eq] at hused
  exact ⟨(h.wf t r stage hr).lt, (h.wf t r stage hr).ne, hused, hfmt.head, hfmt.data, hfmt.last.1⟩

end Descs

end

section

variable {τ β : Type} [DecidableEq τ] {s s' : State τ β} {t t' : τ} {r : Req β} {pc : Pc β}

theorem goto_pc_self (s : State τ β) (t : τ) (pc : Pc β) : (s.goto t pc).pc t = pc :=
  update_self ..

theorem goto_pc_ne (s : State τ β) (pc : Pc β) (h : t' ≠ t) : (s.goto t pc).pc t' = s.pc t' :=
  update_of_ne h ..

theorem release_pc_self (s : State τ β) (t : τ) (pc : Pc β) : (s.release t pc).pc t = pc :=
  update_self ..

theorem release_pc_ne (s : State τ β) (pc : Pc β) (h : t' ≠ t) :
    (s.release t pc).pc t' = s.pc t' :=
  update_of_ne h ..

theorem goto_heads (s : State τ β) (t : τ) (pc : Pc β) : (s.goto t pc).heads = s.heads := rfl

theorem goto_inDisk (s : State τ β) (t : τ) (pc : Pc β) : (s.goto t pc).inDisk = s.inDisk := rfl

omit [DecidableEq τ] in
theorem Descs.congr (h : Descs s) (hpc : s'.pc = s.pc) (hlock : s'.lock = s.lock)
    (hlocked : s'.locked = s.locked) (hfree : s'.disk.free = s.disk.free)
    (hfmt : ∀ t r stage, s.pc t = .req r stage → stage ≠ .format → Formatted s.disk r →
      Formatted s'.disk r) : Descs s' := by
  refine ⟨?_, ?_, ?_, ?_, ?_, ?_, ?_⟩
  · rw [hpc, hlock]
    exact h.lock
  · rw [hpc, hlocked]
    exact h.owner
  · rw [hpc]
    exact h.wf
  · rw [hpc, hfree]
    exact h.used
  · rw [hpc]
    exact h.disj
  · rw [hpc, hfree]
    exact h.cover
  · rw [hpc]
    exact fun t r stage hr hs => hfmt t r stage hr hs (h.formatted t r stage hr hs)

theorem Descs.goto (h : Descs s) (hl : pc.holds → s.lock = some t)
    (hb : ∀ b, pc.buf = some b → s.locked b = some t)
    (hr : ∀ r stage, pc = .req r stage →
      ∃ stage', s.pc t = .req r stage' ∧ (stage ≠ .format → Formatted s.disk r))
    (hr' : ∀ r stage, s.pc t = .req r stage → ∃ stage', pc = .req r stage') :
    Descs (s.goto t pc) := by
  -- A request is that of the same thread before.
  have hreq : ∀ t' r stage, (s.goto t pc).pc t' = .req r stage →
      ∃ stage', s.pc t' = .req r stage' ∧ (stage ≠ .format → Formatted s.disk r) := by
    intro t' r stage hr₀
    by_cases ht : t' = t
    · subst ht
      rw [goto_pc_self] at hr₀
      exact hr r stage hr₀
    · rw [goto_pc_ne s pc ht] at hr₀
      exact ⟨stage, hr₀, h.formatted t' r stage hr₀⟩
  refine ⟨fun t' hh => ?_, fun t' b hb' => ?_, fun t' r stage hr₀ => ?_, fun t' r stage hr₀ => ?_,
    fun t₁ t₂ r₁ r₂ _ _ h₁ h₂ => ?_, fun i hi hf => ?_, fun t' r stage hr₀ => ?_⟩
  · by_cases ht : t' = t
    · subst ht
      rw [goto_pc_self] at hh
      exact hl hh
    · rw [goto_pc_ne s pc ht] at hh
      exact h.lock t' hh
  · by_cases ht : t' = t
    · subst ht
      rw [goto_pc_self] at hb'
      exact hb b hb'
    · rw [goto_pc_ne s pc ht] at hb'
      exact h.owner t' b hb'
  · obtain ⟨_, hr₀, -⟩ := hreq t' r stage hr₀
    exact h.wf t' r _ hr₀
  · obtain ⟨_, hr₀, -⟩ := hreq t' r stage hr₀
    exact h.used t' r _ hr₀
  · obtain ⟨_, h₁, -⟩ := hreq t₁ r₁ _ h₁
    obtain ⟨_, h₂, -⟩ := hreq t₂ r₂ _ h₂
    exact h.disj t₁ t₂ r₁ r₂ _ _ h₁ h₂
  · obtain ⟨t', r, stage, hr₀, hi⟩ := h.cover i hi hf
    by_cases ht : t' = t
    · subst ht
      obtain ⟨stage', rfl⟩ := hr' r stage hr₀
      exact ⟨t', r, stage', goto_pc_self .., hi⟩
    · exact ⟨t', r, stage, (goto_pc_ne s pc ht).trans hr₀, hi⟩
  · obtain ⟨_, -, hf⟩ := hreq t' r stage hr₀
    exact hf

omit [DecidableEq τ] in
theorem Descs.setLock (h : Descs s) (hno : ∀ t, (s.pc t).holds = false) (o : Option τ) :
    Descs { s with lock := o } :=
  ⟨fun t hh => absurd ((hno t).symm.trans hh) nofun, h.owner, h.wf, h.used, h.disj, h.cover,
    h.formatted⟩

omit [DecidableEq τ] in
theorem Queue.setLock (q : Queue s) (o : Option τ) : Queue { s with lock := o } :=
  ⟨q.avail, q.dev, q.usedIdx, q.used, q.nodup, q.mem, q.status, q.knows⟩

theorem Queue.goto (q : Queue s) (hw : ∀ r, (∃ stage, pc = .req r stage ∧ stage.waits) ↔
    ∃ stage, s.pc t = .req r stage ∧ stage.waits) (hk : Knows s pc) : Queue (s.goto t pc) := by
  have hwaits : ∀ r, (s.goto t pc).Waits r ↔ s.Waits r := by
    intro r
    refine exists_congr fun t' => ?_
    by_cases ht : t' = t
    · subst ht
      rw [goto_pc_self]
      exact hw r
    · rw [goto_pc_ne s pc ht]
  refine ⟨q.avail, q.dev, q.usedIdx, q.used, q.nodup, fun id => ?_, q.status, fun t' => ?_⟩
  · simp only [hwaits]
    exact q.mem id
  · by_cases ht : t' = t
    · subst ht
      rw [goto_pc_self]
      exact hk
    · rw [goto_pc_ne s pc ht]
      exact q.knows t'

end

end Xv6.Virtio
