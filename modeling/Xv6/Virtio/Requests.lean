import Xv6.Virtio.Steps

/-! What the device and `virtio_disk_intr` do with the requests, and what the queue of requests
promises. -/

namespace Xv6.Virtio

open Function List State

variable {τ β : Type} {s s' : State τ β} {t t' : τ} {r r' : Req β} {stage : Stage} {pc : Pc β}
  {id : Nat}

theorem Inv.request (h : Inv s) (hid : id ∈ s.heads) :
    ∃ t r stage, s.pc t = .req r stage ∧ stage.waits ∧ s.inDisk r.b ∧ r.idx0 = id ∧
      Formatted s.disk r := by
  obtain ⟨r, ⟨t, stage, hr, hw⟩, hin, he⟩ := (h.queue.mem id).mp hid
  refine ⟨t, r, stage, hr, hw, hin, he, h.descs.formatted t r stage hr ?_⟩
  rintro rfl
  cases hw

theorem Descs.req_eq {stage' : Stage} (h : Descs s) (hr : s.pc t = .req r stage)
    (hr' : s.pc t' = .req r' stage') (he : r'.idx0 = r.idx0) : t' = t := by
  by_contra ht
  exact h.head_ne hr hr' ht (by simp [Req.idx]) he

theorem Queue.perm (q : Queue s) (hpc : s'.pc = s.pc) (hin : s'.inDisk = s.inDisk)
    (havail : s'.disk.avail = s.disk.avail) (hdev : s'.dev.idx < WRAP)
    (husedIdx : s'.disk.usedIdx = s.disk.usedIdx) (hused : s'.disk.used.idx < WRAP)
    (hheads : s'.heads.Perm s.heads)
    (hstatus : ∀ id ∈ s'.dev.done ++ s'.usedQueue, (s'.disk.info id).status = 0)
    (hne : s.disk.usedIdx ≠ s.disk.used.idx → s.disk.usedIdx ≠ s'.disk.used.idx) : Queue s' := by
  refine ⟨havail ▸ q.avail, hdev, husedIdx ▸ q.usedIdx, hused, hheads.nodup_iff.mpr q.nodup,
    fun id => ?_, hstatus, fun t => ?_⟩
  · rw [hheads.mem_iff, q.mem, hin]
    simp [Waits, hpc]
  have hk := q.knows t
  rw [hpc]
  cases he : s.pc t with
  | req r stage =>
    rw [he] at hk
    cases stage with
    | ring | publish | finish => simpa only [Knows, hin, havail] using hk
    | _ => trivial
  | intrEntry =>
    rw [he] at hk
    simpa only [Knows, husedIdx] using hne hk
  | _ => trivial

theorem Inv.take (h : Inv s) (hne : s.dev.idx ≠ s.disk.avail.idx) :
    Inv { s with dev :=
      { s.dev with
        idx := (s.dev.idx + 1) % WRAP
        taken := s.dev.taken ++ [s.disk.avail.ring (s.dev.idx % NUM)] } } := by
  have htake := h.queue.take hne (s.dev.taken ++ [s.disk.avail.ring (s.dev.idx % NUM)])
  refine ⟨h.descs.congr rfl rfl rfl rfl fun _ _ _ _ _ hf => hf, ?_, h.panic⟩
  refine h.queue.perm rfl rfl rfl (Nat.mod_lt _ (by decide)) rfl h.queue.used ?_ h.queue.status
    fun hne => hne
  rw [heads, heads, htake]
  refine Perm.append_right _ ?_
  rw [← append_assoc]
  exact perm_append_comm.trans (by simp)

/-- The third descriptor of a request leads to its status. -/
theorem Formatted.complete {d : Disk β} (h : Formatted d r) :
    d.complete r.idx0 = { d with info := update d.info r.idx0 ⟨(d.info r.idx0).b, 0⟩ } := by
  unfold Disk.complete
  rw [h.head.2, h.data.2, h.last.2]

theorem Inv.done (h : Inv s) (hid : id ∈ s.dev.taken) :
    Inv { s with
      disk := s.disk.complete id
      dev := { s.dev with taken := s.dev.taken.erase id, done := s.dev.done ++ [id] } } := by
  have hmem : id ∈ s.heads := by simp [heads, hid]
  obtain ⟨t, r, stage, hr, hw, hin, rfl, hfmt⟩ := h.request hmem
  rw [hfmt.complete]
  -- The request moves from those taken to those done.
  have hperm : (s.availQueue ++ s.dev.taken.erase r.idx0 ++
      (s.dev.done ++ [r.idx0] ++ s.usedQueue)).Perm s.heads := by
    have htaken := (perm_cons_erase hid).append_right (s.dev.done ++ s.usedQueue)
    rw [heads, append_assoc, append_assoc, append_assoc]
    refine Perm.append_left _ (Perm.trans ?_ htaken.symm)
    rw [singleton_append, ← append_assoc, cons_append]
    exact perm_middle.trans (by rw [append_assoc])
  refine ⟨h.descs.congr rfl rfl rfl rfl fun t' r' stage' hr' hs hf => hf.congr (fun _ _ => rfl) ?_,
    h.queue.perm rfl rfl rfl h.queue.dev rfl h.queue.used hperm (fun id hid' => ?_) fun hne => hne,
    h.panic⟩
  · by_cases he : r'.idx0 = r.idx0
    · simp [he]
    · simp [update_of_ne he]
  · replace hid' : id ∈ s.dev.done ++ [r.idx0] ++ s.usedQueue := hid'
    by_cases he : id = r.idx0
    · simp [he]
    · have hstatus := h.queue.status id (by simpa [he] using hid')
      simpa [update_of_ne he] using hstatus

theorem Inv.report (h : Inv s) (hid : id ∈ s.dev.done) :
    Inv { s with
      disk := s.disk.putUsed id
      dev := { s.dev with done := s.dev.done.erase id } } := by
  have hlt := h.used_lt hid
  have hput := h.queue.putUsed hlt id { s.dev with done := s.dev.done.erase id }
  have hdone := perm_cons_erase hid
  have hqueue : ((s.dev.done.erase id) ++ (s.usedQueue ++ [id])).Perm
      (s.dev.done ++ s.usedQueue) := by
    refine Perm.trans ?_ (hdone.symm.append_right _)
    rw [← append_assoc]
    exact perm_append_comm.trans (by simp)
  refine ⟨h.descs.congr rfl rfl rfl rfl fun _ _ _ _ _ hf => hf.congr (fun _ _ => rfl) rfl, ?_,
    h.panic⟩
  refine h.queue.perm rfl rfl rfl h.queue.dev rfl (Nat.mod_lt _ (by decide)) ?_ (fun id' hid' => ?_)
    fun _ he => ?_
  · rw [heads, hput]
    exact Perm.append_left _ hqueue
  · rw [hput] at hid'
    exact h.queue.status id' (hqueue.mem_iff.mp hid')
  · -- The used ring has at least the new entry.
    have hlen : wsub WRAP ((s.disk.used.idx + 1) % WRAP) s.disk.usedIdx =
      s.usedQueue.length + 1 := by
      have := congrArg length hput
      rwa [length_usedQueue, length_append] at this
    rw [(wsub_eq_zero (Nat.mod_lt _ (by decide)) h.queue.usedIdx).mpr he.symm] at hlen
    omega

theorem Inv.entry (h : Inv s) (hpc : s.pc t = .intrEntry) :
    ∃ t' r stage, s.pc t' = .req r stage ∧ stage.waits ∧ s.inDisk r.b ∧
      r.idx0 = s.disk.used.ring (s.disk.usedIdx % NUM) ∧
      (s.disk.info r.idx0).status = 0 ∧ (s.disk.info r.idx0).b = some r.b := by
  have hknows := h.queue.knows t
  rw [hpc] at hknows
  have hid : s.disk.used.ring (s.disk.usedIdx % NUM) ∈ s.usedQueue := by
    rw [usedQueue, ← wsub_pred h.queue.used h.queue.usedIdx hknows.symm, slots_cons]
    exact mem_cons_self
  obtain ⟨t', r, stage, hr, hw, hin, he, hfmt⟩ :=
    h.request (mem_append_right _ (mem_append_right _ hid))
  refine ⟨t', r, stage, hr, hw, hin, he, ?_, hfmt.info⟩
  exact h.queue.status _ (mem_append_right _ (he ▸ hid))

theorem Inv.give [DecidableEq τ] [DecidableEq β] (h : Inv s) (hpc : s.pc t = .intrEntry)
    (hr : s.pc t' = .req r stage) (he : r.idx0 = s.disk.used.ring (s.disk.usedIdx % NUM)) :
    Inv ((s.giveBack r.b).goto t .intrLoop) := by
  have hholds : (s.pc t).holds := by rw [hpc]; rfl
  have q := h.queue
  have hknows := q.knows t
  rw [hpc] at hknows
  have hused := q.giveBack hknows r.b
  rw [← he] at hused
  have hperm : s.heads.Perm (r.idx0 :: (s.giveBack r.b).heads) := by
    rw [heads, heads, hused, ← append_assoc, ← append_assoc]
    exact perm_middle
  have hnodup := nodup_cons.mp (hperm.nodup_iff.mp q.nodup)
  have hpcs : ∀ r' stage', s.pc t ≠ .req r' stage' := by
    rw [hpc]
    simp
  have hdescs : Descs (s.giveBack r.b) :=
    h.descs.congr rfl rfl rfl rfl fun _ _ _ _ _ hf => hf.congr (fun _ _ => rfl) rfl
  refine ⟨hdescs.goto (fun _ => h.descs.lock t hholds) (by rintro _ ⟨⟩) (by simp)
      (fun r' stage' hr' => absurd hr' (hpcs r' stage')), ?_, h.panic⟩
  refine ⟨q.avail, q.dev, Nat.mod_lt _ (by decide), q.used, hnodup.2, fun id => ?_,
    fun id hid => ?_, knows_goto (fun t' ht => h.descs.others hholds ht) rfl trivial⟩
  · -- A request keeps its buffer unless it is the one that is given back.
    have hwaits : ∀ r', ((s.giveBack r.b).goto t .intrLoop).Waits r' ↔ s.Waits r' :=
      waits_goto rfl (waits_congr (by simp) hpcs)
    have hmem : id ∈ s.heads ↔ id = r.idx0 ∨ id ∈ (s.giveBack r.b).heads :=
      hperm.mem_iff.trans mem_cons
    have hin' : (s.giveBack r.b).inDisk = update s.inDisk r.b false := rfl
    simp only [goto_heads, goto_inDisk, hwaits, hin']
    constructor
    · intro hid
      obtain ⟨r', hw', hin', he'⟩ := (q.mem id).mp (hmem.mpr (.inr hid))
      refine ⟨r', hw', ?_, he'⟩
      obtain ⟨t₁, stage₁, hr₁, -⟩ := hw'
      have ht : t₁ ≠ t' := by
        rintro rfl
        rw [hr] at hr₁
        cases hr₁
        exact hnodup.1 (he' ▸ hid)
      rwa [update_of_ne (h.descs.buf_ne hr hr₁ ht)]
    · rintro ⟨r', hw', hin', he'⟩
      have hb : r'.b ≠ r.b := by
        intro hb
        rw [hb, update_self] at hin'
        cases hin'
      rw [update_of_ne hb] at hin'
      refine (hmem.mp ((q.mem id).mpr ⟨r', hw', hin', he'⟩)).resolve_left fun hid => ?_
      obtain ⟨t₁, stage₁, hr₁, -⟩ := hw'
      obtain rfl := h.descs.req_eq hr hr₁ (he'.trans hid)
      rw [hr] at hr₁
      cases hr₁
      exact hb rfl
  · refine q.status id ?_
    rw [hused]
    rcases mem_append.mp hid with hid | hid
    · exact mem_append_left _ hid
    · exact mem_append_right _ (mem_cons_of_mem _ hid)

section

variable [DecidableEq τ] [DecidableEq β] {e : Event τ β}

theorem Inv.reqStep (h : Inv s) (hpc : s.pc t = .req r stage)
    (hs : reqStep s t r stage = some s') : Inv s' := by
  cases stage with
  | format =>
    cases hs
    exact h.format hpc
  | ring =>
    cases hs
    exact h.ring hpc
  | publish =>
    cases hs
    exact h.publish hpc
  | wait =>
    have hholds : (s.pc t).holds := by rw [hpc]; rfl
    cases hs
    split
    · have h₁ : Inv (s.goto t (.req r .sleep)) := h.advance hpc nofun nofun rfl trivial
      exact h₁.release rfl fun t' ht => h.descs.others hholds ht
    · rename_i hin
      exact h.waited hpc (by simpa using hin)
  | sleep =>
    exact h.acquire hs fun h₁ => h₁.advance hpc nofun (fun _ => rfl) rfl trivial
  | finish =>
    rw [Virtio.reqStep, h.freeChain hpc (by decide)] at hs
    cases hs
    exact h.finish hpc

theorem Inv.run (h : Inv s) (hs : run s t = some s') : Inv s' := by
  unfold Virtio.run at hs
  cases hpc : s.pc t with
  | idle =>
    rw [hpc] at hs
    cases hs
  | acquire b write | sleep b write =>
    simp only [hpc] at hs
    refine h.acquire hs fun h₁ => h₁.idle ?_ nofun (fun _ => rfl) ?_ trivial
    · intro r stage
      rw [show s.pc t = _ from hpc]
      nofun
    · rintro _ ⟨⟩
      exact h.descs.owner t _ (by rw [hpc]; rfl)
  | alloc b write =>
    simp only [hpc] at hs
    rcases alloc3Desc_cases s.disk with ⟨i, j, k, d, hd, ht⟩ | ⟨d, hd, hun, hfree⟩
    · rw [hd] at hs
      cases hs
      exact h.allocDone hpc ht
    · rw [hd] at hs
      cases hs
      exact h.allocFail hpc hun hfree
  | req r stage =>
    simp only [hpc] at hs
    exact h.reqStep hpc hs
  | intr =>
    simp only [hpc] at hs
    refine h.acquire hs fun h₁ => h₁.idle ?_ nofun (fun _ => rfl) nofun trivial
    intro r stage
    rw [show s.pc t = _ from hpc]
    nofun
  | intrLoop =>
    have hholds : (s.pc t).holds := by rw [hpc]; rfl
    simp only [hpc] at hs
    cases hs
    split
    · rename_i hne
      exact h.idle (by rw [hpc]; nofun) nofun (fun _ => h.descs.lock t hholds) nofun hne
    · have h₁ : Inv (s.goto t .idle) := h.idle (by rw [hpc]; nofun) nofun nofun nofun trivial
      exact h₁.release rfl fun t' ht => h.descs.others hholds ht
  | intrEntry =>
    obtain ⟨t', r, stage, hr, -, -, he, hstatus, hb⟩ := h.entry hpc
    simp only [hpc, ← he, hstatus, hb, ne_eq, not_true, if_false] at hs
    cases hs
    exact h.give hpc hr he

theorem Inv.step (h : Inv s) (hs : step s e = some s') : Inv s' := by
  unfold Virtio.step at hs
  rw [Option.ite_none_left_eq_some] at hs
  obtain ⟨-, hs⟩ := hs
  cases e with
  | rw t b write =>
    cases hpc : s.pc t <;> cases hb : s.locked b <;> simp only [hpc, hb] at hs <;> cases hs
    exact h.rw hpc hb
  | intr t =>
    cases hpc : s.pc t <;> simp only [hpc] at hs <;> cases hs
    exact h.idle (by rw [hpc]; nofun) nofun nofun nofun trivial
  | run t => exact h.run hs
  | take =>
    obtain ⟨hne, rfl⟩ := by simpa using hs
    exact h.take hne
  | done id =>
    obtain ⟨hid, rfl⟩ := by simpa using hs
    exact h.done hid
  | report id =>
    obtain ⟨hid, rfl⟩ := by simpa using hs
    exact h.report hid

omit [DecidableEq τ] [DecidableEq β] in
theorem boot_inv (h : Boot s) : Inv s := by
  have hreq : ∀ t r stage, s.pc t ≠ .req r stage := fun t r stage => by simp [h.pc]
  have haq : s.availQueue = [] := by
    rw [availQueue, h.avail, h.dev]
    rfl
  have huq : s.usedQueue = [] := by
    rw [usedQueue, h.used, h.usedIdx]
    rfl
  have hheads : s.heads = [] := by rw [heads, haq, huq, h.dev]; rfl
  refine ⟨⟨fun t => by simp [h.pc, Pc.holds], fun t b => by simp [h.pc, Pc.buf],
    fun t r stage hr => absurd hr (hreq t r stage), fun t r stage hr => absurd hr (hreq t r stage),
    fun t t' r r' stage stage' hr => absurd hr (hreq t r stage), fun i hi hf => ?_,
    fun t r stage hr => absurd hr (hreq t r stage)⟩,
    ⟨by rw [h.avail]; decide, by rw [h.dev]; decide, by rw [h.usedIdx]; decide,
      by rw [h.used]; decide, by rw [hheads]; exact nodup_nil, fun id => ?_, fun id hid => ?_,
      fun t => by rw [h.pc]; trivial⟩, h.panic⟩
  · rw [h.free] at hf
    exact absurd hi (by simpa using hf)
  · rw [hheads]
    refine ⟨by simp, ?_⟩
    rintro ⟨r, ⟨t, stage, hr, _⟩, _⟩
    exact absurd hr (hreq t r stage)
  · rw [huq, h.dev] at hid
    cases hid

theorem Inv.of_reachable (h : Reachable Boot Virtio.step s) : Inv s :=
  h.invariant (fun _ => boot_inv) fun _ _ _ => Inv.step

end

/-- Where the requests are that `virtio_disk_rw` waits for: in the avail ring, with the device, done
by the device, and in the used ring. -/
@[ext] structure Queues where
  avail : List Nat
  taken : List Nat
  done : List Nat
  used : List Nat

def State.queues (s : State τ β) : Queues := ⟨s.availQueue, s.dev.taken, s.dev.done, s.usedQueue⟩

variable [DecidableEq τ] [DecidableEq β] {e : Event τ β}

/-- How a step changes the queues and the field `disk` of the buffers. -/
inductive Moved (s s' : State τ β) : Event τ β → Prop
  | publish (t : τ) (r : Req β) (hpc : s.pc t = .req r .publish) (hin : s'.inDisk = s.inDisk)
      (h : s'.queues = { s.queues with avail := s.queues.avail ++ [r.idx0] }) : Moved s s' (.run t)
  | take (id : Nat) (havail : s.queues.avail = id :: s'.queues.avail) (hin : s'.inDisk = s.inDisk)
      (h : s'.queues =
        { s.queues with avail := s'.queues.avail, taken := s.queues.taken ++ [id] }) :
      Moved s s' .take
  | done (id : Nat) (hid : id ∈ s.queues.taken) (hin : s'.inDisk = s.inDisk)
      (h : s'.queues =
        { s.queues with taken := s.queues.taken.erase id, done := s.queues.done ++ [id] }) :
      Moved s s' (.done id)
  | report (id : Nat) (hid : id ∈ s.queues.done) (hin : s'.inDisk = s.inDisk)
      (h : s'.queues =
        { s.queues with done := s.queues.done.erase id, used := s.queues.used ++ [id] }) :
      Moved s s' (.report id)
  | complete (c t : τ) (r : Req β) (stage : Stage) (hc : s.pc c = .intrEntry)
      (hpc : s.pc t = .req r stage) (hw : stage.waits)
      (hused : s.queues.used = r.idx0 :: s'.queues.used) (hin : s.inDisk r.b)
      (hin' : s'.inDisk = update s.inDisk r.b false)
      (h : s'.queues = { s.queues with used := s'.queues.used }) : Moved s s' (.run c)
  | stay (e : Event τ β) (he : ∀ t, e = .run t → s.pc t ≠ .intrEntry)
      (hin : ∀ b, s.inDisk b → s'.inDisk b) (h : s'.queues = s.queues) : Moved s s' e

theorem reqStep_moved (h : Inv s) (hpc : s.pc t = .req r stage)
    (hs : reqStep s t r stage = some s') : Moved s s' (.run t) := by
  have he : ∀ t', (.run t : Event τ β) = .run t' → s.pc t' ≠ .intrEntry := by
    rintro _ ⟨⟩
    rw [hpc]
    nofun
  cases stage with
  | format =>
    cases hs
    refine .stay _ he (fun b hb => ?_) rfl
    by_cases hrb : b = r.b
    · rw [hrb]
      exact update_self ..
    · exact (update_of_ne hrb ..).trans hb
  | ring =>
    cases hs
    have hlt := h.avail_lt (h.descs.wf t r _ hpc).lt.1 (h.not_mem_heads hpc rfl)
    exact .stay _ he (fun _ hb => hb)
      (Queues.ext (h.queue.putAvail hlt r.idx0) rfl rfl rfl)
  | publish =>
    cases hs
    have hlt := h.avail_lt (h.descs.wf t r _ hpc).lt.1 (h.not_mem_heads hpc rfl)
    have hknows := h.queue.knows t
    rw [hpc] at hknows
    have havail := h.queue.incAvail hlt
    rw [hknows.2] at havail
    exact .publish t r hpc rfl (Queues.ext havail rfl rfl rfl)
  | wait =>
    cases hs
    split
    · exact .stay _ he (fun _ hb => hb) rfl
    · exact .stay _ he (fun _ hb => hb) rfl
  | sleep =>
    obtain ⟨-, rfl⟩ := by simpa [reqStep, acquire] using hs
    exact .stay _ he (fun _ hb => hb) rfl
  | finish =>
    rw [reqStep, h.freeChain hpc (by decide)] at hs
    cases hs
    exact .stay _ he (fun _ hb => hb) rfl

theorem run_moved (h : Inv s) (hs : run s t = some s') : Moved s s' (.run t) := by
  have hstay : s.pc t ≠ .intrEntry → (∀ b, s.inDisk b → s'.inDisk b) → s'.queues = s.queues →
      Moved s s' (.run t) := by
    refine fun hne => .stay _ ?_
    rintro _ ⟨⟩
    exact hne
  unfold run at hs
  cases hpc : s.pc t with
  | idle =>
    rw [hpc] at hs
    cases hs
  | acquire b write | sleep b write | intr =>
    simp only [hpc] at hs
    obtain ⟨-, rfl⟩ := by simpa [acquire] using hs
    exact hstay (by simp [hpc]) (fun _ hb => hb) rfl
  | alloc b write =>
    simp only [hpc] at hs
    rcases alloc3Desc_cases s.disk with ⟨i, j, k, d, hd, hun⟩ | ⟨d, hd, hun, -⟩
    · rw [hd] at hs
      cases hs
      refine hstay (by simp [hpc]) (fun _ hb => hb) ?_
      simp only [queues, availQueue, usedQueue, goto, hun.avail, hun.used,
        hun.usedIdx]
    · rw [hd] at hs
      cases hs
      refine hstay (by simp [hpc]) (fun _ hb => hb) ?_
      simp only [queues, availQueue, usedQueue, release, hun.avail, hun.used,
        hun.usedIdx]
  | req r stage =>
    simp only [hpc] at hs
    exact reqStep_moved h hpc hs
  | intrLoop =>
    simp only [hpc] at hs
    split_ifs at hs
    · cases hs
      exact hstay (by simp [hpc]) (fun _ hb => hb) rfl
    · cases hs
      exact hstay (by simp [hpc]) (fun _ hb => hb) rfl
  | intrEntry =>
    obtain ⟨t', r, stage, hr, hw, hin, he, hstatus, hb⟩ := h.entry hpc
    simp only [hpc, ← he, hstatus, hb, ne_eq, not_true, if_false] at hs
    cases hs
    have hknows := h.queue.knows t
    rw [hpc] at hknows
    have hused := h.queue.giveBack hknows r.b
    rw [← he] at hused
    exact .complete t t' r stage hpc hr hw hused hin rfl rfl

theorem step_moved (h : Inv s) (hs : step s e = some s') : Moved s s' e := by
  unfold step at hs
  rw [Option.ite_none_left_eq_some] at hs
  obtain ⟨-, hs⟩ := hs
  cases e with
  | rw t b write =>
    cases hpc : s.pc t <;> cases hb : s.locked b <;> simp only [hpc, hb] at hs <;> cases hs
    exact .stay _ nofun (fun _ hb => hb) rfl
  | intr t =>
    cases hpc : s.pc t <;> simp only [hpc] at hs <;> cases hs
    exact .stay _ nofun (fun _ hb => hb) rfl
  | run t => exact run_moved h hs
  | take =>
    obtain ⟨hne, rfl⟩ := by simpa using hs
    exact .take _ (h.queue.take hne _) rfl rfl
  | done id =>
    obtain ⟨hid, rfl⟩ := by simpa using hs
    have hmem : id ∈ s.heads := by simp [heads, hid]
    obtain ⟨t, r, stage, -, -, -, rfl, hfmt⟩ := h.request hmem
    refine .done _ hid rfl ?_
    rw [hfmt.complete]
    rfl
  | report id =>
    obtain ⟨hid, rfl⟩ := by simpa using hs
    exact .report id hid rfl (Queues.ext rfl rfl rfl (h.queue.putUsed (h.used_lt hid) id _))

/-- The request queue of the disk. Every descriptor is free or in one request. An `alloc3_desc` that
fails leaves the free descriptors as they were, and `free_chain` ends after the three descriptors of
its request. No panic happens. The requests that threads wait for with `b->disk` set are those in
the two rings and with the device, each once. A step only moves the oldest entry of a ring to the
next place or adds one at the end, so that no entry is lost or seen twice, and `virtio_disk_intr`
clears `b->disk` of the request that the oldest report is of. -/
theorem disk_request_queue (h : Reachable Boot step s) :
    (∀ i < NUM, (s.disk.free i = true ∧ ∀ t r stage, s.pc t = .req r stage → i ∉ r.idx) ∨
      s.disk.free i = false ∧ ∃! t, ∃ r stage, s.pc t = .req r stage ∧ i ∈ r.idx) ∧
    (∀ d, s.disk.alloc3Desc = .ok (none, d) → ∀ i, d.free i = s.disk.free i) ∧
    (∀ t r, s.pc t = .req r .finish → ∃ d,
      (∀ fuel, 3 ≤ fuel → (s.disk.clearBuf r.idx0).freeChain fuel r.idx0 = some (.ok d)) ∧
      ∀ i, d.free i = true ↔ s.disk.free i = true ∨ i ∈ r.idx) ∧
    s.panic = none ∧
    s.heads.Nodup ∧
    (∀ id, id ∈ s.heads ↔ ∃ t r stage, s.pc t = .req r stage ∧ stage.waits ∧ s.inDisk r.b ∧
      r.idx0 = id) ∧
    ∀ e s', step s e = some s' → Moved s s' e := by
  have hinv := Inv.of_reachable h
  refine ⟨fun i hi => ?_, fun d hd => ?_, fun t r hpc => ⟨s.disk.retire r, ?_, fun i => ?_⟩,
    hinv.panic, hinv.queue.nodup, fun id => ?_, fun e s' => step_moved hinv⟩
  · cases hf : s.disk.free i with
    | true =>
      refine .inl ⟨rfl, fun t r stage hr hmem => ?_⟩
      rw [hinv.descs.used t r stage hr i hmem] at hf
      cases hf
    | false =>
      obtain ⟨t, r, stage, hr, hmem⟩ := hinv.descs.cover i hi hf
      refine .inr ⟨rfl, t, ⟨r, stage, hr, hmem⟩, ?_⟩
      rintro t' ⟨r', stage', hr', hmem'⟩
      exact hinv.descs.disj t' t r' r _ _ hr' hr i hmem' hmem
  · rcases alloc3Desc_cases s.disk with ⟨_, _, _, _, hd', -⟩ | ⟨d', hd', -, hfree⟩
    · rw [hd] at hd'
      cases hd'
    · rw [hd] at hd'
      cases hd'
      exact hfree
  · exact fun fuel => hinv.freeChain hpc
  · rw [retire_free]
    split <;> simp [*]
  · rw [hinv.queue.mem]
    constructor
    · rintro ⟨r, ⟨t, stage, hr, hw⟩, hin, he⟩
      exact ⟨t, r, stage, hr, hw, hin, he⟩
    · rintro ⟨t, r, stage, hr, hw, hin, he⟩
      exact ⟨r, ⟨t, stage, hr, hw⟩, hin, he⟩

/-- Four threads and three buffers after `virtio_disk_init`. -/
def fourThreads : State (Fin 4) (Fin 3) where
  disk :=
    { desc := fun _ => Desc.zero
      avail := ⟨0, fun _ => 0⟩
      used := ⟨0, fun _ => 0⟩
      free := fun i => decide (i < NUM)
      usedIdx := 0
      info := fun _ => ⟨none, 0⟩
      ops := fun _ => ⟨0, 0, 0⟩ }
  blockno b := b
  inDisk _ := false
  locked _ := none
  lock := none
  pc _ := .idle
  dev := ⟨0, [], []⟩
  panic := none

def outOfOrder : List (Event (Fin 4) (Fin 3)) :=
  .rw 0 0 false :: replicate 6 (.run 0) ++ .rw 1 1 true :: replicate 6 (.run 1) ++
    [.rw 2 2 false, .run 2, .run 2, .take, .take, .done 3, .report 3, .intr 3, .run 3, .run 3]

theorem disk_request_queue_outOfOrder : ∃ s s' : State (Fin 4) (Fin 3), Reachable Boot step s ∧
    s.pc 2 = .sleep 2 false ∧ s.dev.taken = [0] ∧ s.pc 3 = .intrEntry ∧
    step s (.run 3) = some s' ∧ s'.inDisk 0 = true ∧ s'.inDisk 1 = false ∧
    Moved s s' (.run 3) := by
  have hrun : (runEvents step fourThreads outOfOrder).any (fun s =>
      decide (s.pc 2 = .sleep 2 false ∧ s.dev.taken = [0] ∧ s.pc 3 = .intrEntry) &&
      (step s (.run 3)).any fun s' => decide (s'.inDisk 0 = true ∧ s'.inDisk 1 = false)) =
      true := by
    decide +kernel
  obtain ⟨s, hs, hprop⟩ := (Option.any_eq_true _ _).mp hrun
  rw [Bool.and_eq_true] at hprop
  obtain ⟨hsleep, htaken, hpc⟩ := of_decide_eq_true hprop.1
  obtain ⟨s', hs', hprop⟩ := (Option.any_eq_true _ _).mp hprop.2
  obtain ⟨hin, hin'⟩ := of_decide_eq_true hprop
  have hboot : Boot fourThreads :=
    ⟨rfl, rfl, rfl, rfl, rfl, fun _ => rfl, fun _ => rfl, rfl, fun _ => rfl, rfl, rfl⟩
  have hreach : Reachable Boot step s := (Reachable.start hboot).run _ hs
  exact ⟨s, s', hreach, hsleep, htaken, hpc, hs', hin, hin',
    (disk_request_queue hreach).2.2.2.2.2.2 _ s' hs'⟩

end Xv6.Virtio
