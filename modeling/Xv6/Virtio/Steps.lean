import Xv6.Virtio.Invariant

/-! Every step of a thread and of the device keeps the invariant. -/

namespace Xv6.Virtio

open Function List State

variable {τ β : Type} {s s' : State τ β} {t t' : τ} {r : Req β} {stage : Stage} {pc : Pc β} {b : β}
  {write : Bool} {id : Nat}

structure Inv (s : State τ β) : Prop where
  descs : Descs s
  queue : Queue s
  panic : s.panic = none

/-! ### The rings -/

theorem Inv.heads_lt (h : Inv s) (hid : id ∈ s.heads) : id < NUM := by
  obtain ⟨r, ⟨t, stage, hr, -⟩, -, rfl⟩ := (h.queue.mem id).mp hid
  exact (h.descs.wf t r stage hr).lt.1

theorem length_lt_of_nodup {l : List Nat} {n i : Nat} (hl : l.Nodup) (hlt : ∀ x ∈ l, x < n)
    (hi : i < n) (hmem : i ∉ l) : l.length < n := by
  have hsub : i :: l ⊆ range n := by
    intro x hx
    rcases mem_cons.mp hx with rfl | hx
    · exact mem_range.mpr hi
    · exact mem_range.mpr (hlt x hx)
  have := ((nodup_cons.mpr ⟨hmem, hl⟩).subperm hsub).length_le
  rwa [length_cons, length_range] at this

theorem Inv.avail_lt (h : Inv s) (hid : id < NUM) (hmem : id ∉ s.heads) :
    s.availQueue.length < NUM := by
  have := length_lt_of_nodup h.queue.nodup (fun _ => h.heads_lt) hid hmem
  simp only [heads, length_append] at this
  omega

theorem Inv.used_lt (h : Inv s) (hid : id ∈ s.dev.done) : s.usedQueue.length < NUM := by
  have hmem : id ∈ s.heads := by simp [heads, hid]
  have hnodup := (nodup_append.mp h.queue.nodup).2.1
  refine length_lt_of_nodup (nodup_append.mp hnodup).2.1 (fun x hx => ?_) (h.heads_lt hmem) ?_
  · exact h.heads_lt (by simp [heads, hx])
  · exact fun hu => (nodup_append.mp hnodup).2.2 id hid id hu rfl

theorem dvd_wrap : NUM ∣ WRAP := by decide

theorem num_lt_wrap : NUM < WRAP := by decide

theorem length_availQueue (s : State τ β) :
    s.availQueue.length = wsub WRAP s.disk.avail.idx s.dev.idx := length_slots ..

theorem length_usedQueue (s : State τ β) :
    s.usedQueue.length = wsub WRAP s.disk.used.idx s.disk.usedIdx := length_slots ..

theorem Queue.avail_slot (q : Queue s) :
    s.disk.avail.idx % NUM = (s.dev.idx + s.availQueue.length) % NUM := by
  rw [length_availQueue, add_wsub_mod dvd_wrap q.avail q.dev]

theorem Queue.used_slot (q : Queue s) :
    s.disk.used.idx % NUM = (s.disk.usedIdx + s.usedQueue.length) % NUM := by
  rw [length_usedQueue, add_wsub_mod dvd_wrap q.used q.usedIdx]

theorem Queue.putAvail (q : Queue s) (hlt : s.availQueue.length < NUM) (id : Nat) :
    ({ s with disk := s.disk.putAvail id } : State τ β).availQueue = s.availQueue := by
  unfold availQueue Disk.putAvail
  simp only
  rw [q.avail_slot]
  exact slots_update (le_of_eq (length_availQueue s).symm) hlt ..

theorem Queue.incAvail (q : Queue s) (hlt : s.availQueue.length < NUM) :
    ({ s with disk := s.disk.incAvail } : State τ β).availQueue =
      s.availQueue ++ [s.disk.avail.ring (s.disk.avail.idx % NUM)] := by
  have hlen := length_availQueue s
  unfold availQueue Disk.incAvail
  simp only
  rw [wsub_succ q.avail q.dev (by have := num_lt_wrap; omega), slots_succ, ← hlen, ← q.avail_slot]

theorem Queue.take (q : Queue s) (hne : s.dev.idx ≠ s.disk.avail.idx) (taken : List Nat) :
    s.availQueue = s.disk.avail.ring (s.dev.idx % NUM) ::
      ({ s with dev := { s.dev with idx := (s.dev.idx + 1) % WRAP, taken := taken } } :
        State τ β).availQueue := by
  unfold availQueue
  simp only
  rw [← wsub_pred q.avail q.dev hne.symm, slots_cons, slots_mod dvd_wrap]

theorem Queue.putUsed (q : Queue s) (hlt : s.usedQueue.length < NUM) (id : Nat) (dev : Device) :
    ({ s with disk := s.disk.putUsed id, dev := dev } : State τ β).usedQueue =
      s.usedQueue ++ [id] := by
  have hlen := length_usedQueue s
  unfold State.usedQueue Disk.putUsed
  simp only
  rw [wsub_succ q.used q.usedIdx (by have := num_lt_wrap; omega), q.used_slot, hlen]
  exact slots_push (by omega) ..

theorem Queue.giveBack [DecidableEq β] (q : Queue s) (hne : s.disk.usedIdx ≠ s.disk.used.idx)
    (b : β) : s.usedQueue = s.disk.used.ring (s.disk.usedIdx % NUM) ::
    (s.giveBack b).usedQueue := by
  unfold State.usedQueue State.giveBack Disk.incUsedIdx
  simp only
  rw [← wsub_pred q.used q.usedIdx hne.symm, slots_cons, slots_mod dvd_wrap]

/-! ### Threads -/

theorem Queue.congr (q : Queue s) (hpc : s'.pc = s.pc) (hin : s'.inDisk = s.inDisk)
    (hdev : s'.dev = s.dev) (havail : s'.disk.avail = s.disk.avail)
    (hused : s'.disk.used = s.disk.used) (hidx : s'.disk.usedIdx = s.disk.usedIdx)
    (hstatus : ∀ id, (s'.disk.info id).status = (s.disk.info id).status) : Queue s' := by
  have haq : s'.availQueue = s.availQueue := by simp only [availQueue, havail, hdev]
  have huq : s'.usedQueue = s.usedQueue := by simp only [State.usedQueue, hused, hidx]
  have hheads : s'.heads = s.heads := by simp only [heads, haq, huq, hdev]
  have hknows : ∀ pc, Knows s' pc ↔ Knows s pc := by
    intro pc
    unfold Knows
    rw [hin, havail, hused, hidx]
  refine ⟨?_, ?_, ?_, ?_, ?_, fun id => ?_, fun id => ?_, fun t => ?_⟩
  · rw [havail]
    exact q.avail
  · rw [hdev]
    exact q.dev
  · rw [hidx]
    exact q.usedIdx
  · rw [hused]
    exact q.used
  · rw [hheads]
    exact q.nodup
  · simp [hheads, q.mem, Waits, hpc, hin]
  · rw [hdev, huq, hstatus]
    exact q.status id
  · rw [hpc, hknows]
    exact q.knows t

theorem waits_stage (stage' : Stage) (hpc : s.pc t = .req r stage) (hw : stage'.waits = stage.waits)
    (r' : Req β) : (∃ st, (.req r stage' : Pc β) = .req r' st ∧ st.waits) ↔
      ∃ st, s.pc t = .req r' st ∧ st.waits := by
  rw [hpc]
  constructor
  · rintro ⟨_, ⟨⟩, hw'⟩
    exact ⟨stage, rfl, hw ▸ hw'⟩
  · rintro ⟨_, ⟨⟩, hw'⟩
    exact ⟨stage', rfl, hw.symm ▸ hw'⟩

variable [DecidableEq τ]

theorem Inv.goto (h : Inv s) (hl : pc.holds → s.lock = some t)
    (hb : ∀ b, pc.buf = some b → s.locked b = some t)
    (hr : ∀ r stage, pc = .req r stage →
      ∃ stage', s.pc t = .req r stage' ∧ (stage ≠ .format → Formatted s.disk r))
    (hr' : ∀ r stage, s.pc t = .req r stage → ∃ stage', pc = .req r stage')
    (hw : ∀ r, (∃ stage, pc = .req r stage ∧ stage.waits) ↔
      ∃ stage, s.pc t = .req r stage ∧ stage.waits)
    (hk : Knows s pc) : Inv (s.goto t pc) :=
  ⟨h.descs.goto hl hb hr hr', h.queue.goto hw hk, h.panic⟩

omit [DecidableEq τ] in
theorem Inv.setLock (h : Inv s) (hno : ∀ t, (s.pc t).holds = false) (o : Option τ) :
    Inv { s with lock := o } :=
  ⟨h.descs.setLock hno o, h.queue.setLock o, h.panic⟩

theorem waits_congr {pc pc' : Pc β} (h : ∀ r stage, pc ≠ .req r stage)
    (h' : ∀ r stage, pc' ≠ .req r stage) (r : Req β) :
    (∃ stage, pc = .req r stage ∧ stage.waits) ↔ ∃ stage, pc' = .req r stage ∧ stage.waits :=
  ⟨fun ⟨stage, he, _⟩ => absurd he (h r stage), fun ⟨stage, he, _⟩ => absurd he (h' r stage)⟩

theorem Inv.idle (h : Inv s) (hpc : ∀ r stage, s.pc t ≠ .req r stage)
    (hpc' : ∀ r stage, pc ≠ .req r stage) (hl : pc.holds → s.lock = some t)
    (hb : ∀ b, pc.buf = some b → s.locked b = some t) (hk : Knows s pc) : Inv (s.goto t pc) :=
  h.goto hl hb (fun r stage he => absurd he (hpc' r stage))
    (fun r stage he => absurd he (hpc r stage)) (waits_congr hpc' hpc) hk

theorem Inv.acquire (h : Inv s) (hs : s.acquire t pc = some s')
    (hgoto : Inv { s with lock := some t } → Inv ({ s with lock := some t }.goto t pc)) :
    Inv s' := by
  obtain ⟨hlock, rfl⟩ := by simpa [State.acquire] using hs
  exact hgoto (h.setLock (h.descs.not_holds hlock) _)

theorem Inv.release (h : Inv (s.goto t pc)) (ht : pc.holds = false)
    (hothers : ∀ t', t' ≠ t → (s.pc t').holds = false) : Inv (s.release t pc) := by
  refine h.setLock (fun t' => ?_) none
  by_cases he : t' = t
  · rw [he, goto_pc_self, ht]
  · rw [goto_pc_ne s pc he]
    exact hothers t' he

theorem Inv.rw [DecidableEq β] (h : Inv s) (hpc : s.pc t = .idle) (hb : s.locked b = none) :
    Inv ({ s with locked := update s.locked b (some t) }.goto t (.acquire b write)) := by
  have howner : ∀ t' b', (s.pc t').buf = some b' → update s.locked b (some t) b' = some t' := by
    intro t' b' hb'
    have := h.descs.owner t' b' hb'
    rw [update_of_ne, this]
    rintro rfl
    rw [hb] at this
    cases this
  have h₁ : Inv { s with locked := update s.locked b (some t) } :=
    ⟨⟨h.descs.lock, howner, h.descs.wf, h.descs.used, h.descs.disj, h.descs.cover,
      h.descs.formatted⟩, h.queue.congr rfl rfl rfl rfl rfl rfl fun _ => rfl, h.panic⟩
  refine h₁.idle (by rw [hpc]; nofun) nofun nofun ?_ trivial
  rintro _ ⟨⟩
  exact update_self ..

/-! ### Descriptors -/

omit [DecidableEq τ] in
theorem Formatted.congr {d d' : Disk β} (h : Formatted d r)
    (hdesc : ∀ i ∈ r.idx, d'.desc i = d.desc i)
    (hinfo : (d'.info r.idx0).b = (d.info r.idx0).b) : Formatted d' r := by
  simp only [Req.idx, mem_cons, not_mem_nil, or_false, forall_eq_or_imp,
    forall_eq] at hdesc
  obtain ⟨h0, h1, h2⟩ := hdesc
  exact ⟨h0 ▸ h.head, h1 ▸ h.data, h2 ▸ h.last, hinfo.trans h.info⟩

omit [DecidableEq τ] in
theorem Untouched.formatted {d d' : Disk β} (hd : Untouched d d')
    (hused : ∀ i ∈ r.idx, d.free i = false) (h : Formatted d r) : Formatted d' r :=
  h.congr (fun i hi => hd.desc i (hused i hi)) (by rw [hd.info])

theorem Inv.allocFail {d : Disk β} (h : Inv s) (hpc : s.pc t = .alloc b write)
    (hd : Untouched s.disk d) (hfree : ∀ i, d.free i = s.disk.free i) :
    Inv ({ s with disk := d }.release t (.sleep b write)) := by
  have hholds : (s.pc t).holds := by rw [hpc]; rfl
  have h₁ : Inv { s with disk := d } := by
    refine ⟨h.descs.congr rfl rfl rfl (funext hfree) fun t' r stage hr hs hf => ?_,
      h.queue.congr rfl rfl rfl hd.avail hd.used hd.usedIdx fun _ => by rw [hd.info], h.panic⟩
    exact hd.formatted (h.descs.used t' r stage hr) hf
  have h₂ : Inv ({ s with disk := d }.goto t (.sleep b write)) := by
    refine h₁.idle (fun r stage => ?_) nofun nofun ?_ trivial
    · rw [show _ = _ from hpc]
      nofun
    · rintro _ ⟨⟩
      exact h.descs.owner t b (by rw [hpc]; rfl)
  exact h₂.release rfl fun t' ht => h.descs.others hholds ht

theorem Inv.allocDone {d : Disk β} (h : Inv s) (hpc : s.pc t = .alloc r.b r.write)
    (hd : Taken s.disk d r.idx) : Inv ({ s with disk := d }.goto t (.req r .format)) := by
  have hdescs := h.descs
  have hreq : ∀ t' r' stage, update s.pc t (.req r .format) t' = .req r' stage →
      t' = t ∧ r' = r ∧ stage = .format ∨ t' ≠ t ∧ s.pc t' = .req r' stage := by
    intro t' r' stage hr
    by_cases ht : t' = t
    · subst ht
      rw [update_self] at hr
      cases hr
      exact .inl ⟨rfl, rfl, rfl⟩
    · rw [update_of_ne ht] at hr
      exact .inr ⟨ht, hr⟩
  -- The descriptors were free, so no other request has them.
  have hnew : ∀ t' r' stage, s.pc t' = .req r' stage → ∀ i ∈ r'.idx, i ∉ r.idx := by
    intro t' r' stage hr i hi hi'
    have := (hd.lt i hi').2
    rw [hdescs.used t' r' stage hr i hi] at this
    cases this
  have hwf : r.Wf := by
    have hn := hd.nodup
    have hlt := fun i hi => (hd.lt i hi).1
    simp only [Req.idx, nodup_cons, mem_cons, not_mem_nil, or_false, not_or,
      forall_eq_or_imp, forall_eq] at hn hlt
    exact ⟨hlt, hn.1.1, hn.1.2, hn.2.1⟩
  have hq : Queue { s with disk := d } :=
    h.queue.congr rfl rfl rfl hd.avail hd.used hd.usedIdx fun _ => by rw [hd.info]
  refine ⟨⟨fun t' hh => ?_, fun t' b hb => ?_, fun t' r' stage hr => ?_, fun t' r' stage hr => ?_,
    fun t₁ t₂ r₁ r₂ _ _ h₁ h₂ i hi₁ hi₂ => ?_, fun i hi hf => ?_, fun t' r' stage hr hs => ?_⟩,
    hq.goto (fun r' => ?_) trivial, h.panic⟩
  · by_cases ht : t' = t
    · rw [ht]
      exact hdescs.lock t (by rw [hpc]; rfl)
    · rw [goto_pc_ne _ _ ht] at hh
      exact hdescs.lock t' hh
  · by_cases ht : t' = t
    · subst ht
      rw [goto_pc_self] at hb
      exact hdescs.owner t' b (by rw [hpc]; exact hb)
    · rw [goto_pc_ne _ _ ht] at hb
      exact hdescs.owner t' b hb
  · rcases hreq t' r' stage hr with ⟨-, rfl, -⟩ | ⟨-, hr⟩
    · exact hwf
    · exact hdescs.wf t' r' stage hr
  · intro i hi
    rw [← Bool.not_eq_true]
    rcases hreq t' r' stage hr with ⟨-, rfl, -⟩ | ⟨-, hr⟩
    · exact fun hf => ((hd.free i).mp hf).2 hi
    · intro hf
      have := ((hd.free i).mp hf).1
      rw [hdescs.used t' r' stage hr i hi] at this
      cases this
  · rcases hreq t₁ r₁ _ h₁ with ⟨rfl, rfl, -⟩ | ⟨-, hr₁⟩
    · rcases hreq t₂ r₂ _ h₂ with ⟨rfl, -, -⟩ | ⟨-, hr₂⟩
      · rfl
      · exact absurd hi₁ (hnew t₂ r₂ _ hr₂ i hi₂)
    · rcases hreq t₂ r₂ _ h₂ with ⟨rfl, rfl, -⟩ | ⟨-, hr₂⟩
      · exact absurd hi₂ (hnew t₁ r₁ _ hr₁ i hi₁)
      · exact hdescs.disj t₁ t₂ r₁ r₂ _ _ hr₁ hr₂ i hi₁ hi₂
  · by_cases hmem : i ∈ r.idx
    · exact ⟨t, r, .format, goto_pc_self .., hmem⟩
    have hf' : s.disk.free i = false := by
      rw [← Bool.not_eq_true]
      intro hf'
      cases (show d.free i = false from hf).symm.trans ((hd.free i).mpr ⟨hf', hmem⟩)
    obtain ⟨t', r', stage, hr, hi⟩ := hdescs.cover i hi hf'
    have ht : t' ≠ t := by
      rintro rfl
      rw [hpc] at hr
      cases hr
    exact ⟨t', r', stage, (goto_pc_ne _ _ ht).trans hr, hi⟩
  · rcases hreq t' r' stage hr with ⟨-, -, rfl⟩ | ⟨-, hr⟩
    · exact absurd rfl hs
    · exact hd.toUntouched.formatted (hdescs.used t' r' stage hr)
        (hdescs.formatted t' r' stage hr hs)
  · rw [show _ = _ from hpc]
    constructor
    · rintro ⟨_, ⟨⟩, hw⟩
      cases hw
    · rintro ⟨_, ⟨⟩, _⟩

theorem format_formatted (d : Disk β) (hr : r.Wf) (blockno : Nat) :
    Formatted (d.format r blockno) r := by
  obtain ⟨h01, h02, h12⟩ := hr.ne
  refine ⟨?_, ?_, ?_, ?_⟩
  · simp [Disk.format, h01, h02]
  · simp only [Disk.format, update_of_ne h12, update_self]
    cases r.write <;> decide
  · simp [Disk.format]
  · simp [Disk.format]

theorem format_desc (d : Disk β) (blockno : Nat) {i : Nat} (hi : i ∉ r.idx) :
    (d.format r blockno).desc i = d.desc i := by
  simp only [Req.idx, mem_cons, not_mem_nil, or_false, not_or] at hi
  simp [Disk.format, hi.1, hi.2.1, hi.2.2]

omit [DecidableEq τ] in
/-- The first descriptor of a request that does not wait for the device is nowhere in the rings. -/
theorem Inv.not_mem_heads (h : Inv s) (hr : s.pc t = .req r stage) (hs : stage.waits = false) :
    r.idx0 ∉ s.heads := by
  intro hid
  obtain ⟨r', ⟨t', stage', hr', hw⟩, -, he⟩ := (h.queue.mem _).mp hid
  have ht : t' ≠ t := by
    rintro rfl
    rw [hr] at hr'
    cases hr'
    rw [hs] at hw
    cases hw
  exact h.descs.head_ne hr hr' ht (by simp [Req.idx]) he

theorem waits_goto (hpc : s'.pc = s.pc) (hw : ∀ r, (∃ stage, pc = .req r stage ∧ stage.waits) ↔
    ∃ stage, s.pc t = .req r stage ∧ stage.waits) (r : Req β) :
    (s'.goto t pc).Waits r ↔ s.Waits r := by
  refine exists_congr fun t' => ?_
  by_cases ht : t' = t
  · subst ht
    rw [goto_pc_self]
    exact hw r
  · rw [goto_pc_ne _ pc ht, hpc]

theorem knows_goto (hothers : ∀ t', t' ≠ t → (s.pc t').holds = false) (hpc : s'.pc = s.pc)
    (hk : Knows (s'.goto t pc) pc) (t' : τ) : Knows (s'.goto t pc) ((s'.goto t pc).pc t') := by
  by_cases ht : t' = t
  · rw [ht, goto_pc_self]
    exact hk
  · rw [goto_pc_ne _ _ ht, hpc]
    exact knows_of_not_holds (hothers t' ht)

/-- The request of `t` goes to another stage. -/
theorem Descs.move {stage' : Stage} (h : Descs s) (hpc : s.pc t = .req r stage)
    (hl : (Pc.req r stage').holds → s.lock = some t) (hf : Formatted s.disk r) :
    Descs (s.goto t (.req r stage')) := by
  refine h.goto hl ?_ ?_ ?_
  · rintro _ ⟨⟩
    exact h.owner t _ (by rw [hpc]; rfl)
  · rintro _ _ ⟨⟩
    exact ⟨stage, hpc, fun _ => hf⟩
  · intro r' _ hr'
    rw [hpc] at hr'
    cases hr'
    exact ⟨stage', rfl⟩

theorem Inv.format [DecidableEq β] (h : Inv s) (hpc : s.pc t = .req r .format) :
    Inv ({ s with
      disk := s.disk.format r (s.blockno r.b), inDisk := update s.inDisk r.b true }.goto t
        (.req r .ring)) := by
  have hwf := h.descs.wf t r _ hpc
  have hholds : (s.pc t).holds := by rw [hpc]; rfl
  have hdescs : Descs
      { s with
        disk := s.disk.format r (s.blockno r.b)
        inDisk := update s.inDisk r.b true } := by
    refine h.descs.congr rfl rfl rfl rfl fun t' r' stage hr' hs hf => ?_
    have ht : t' ≠ t := by
      rintro rfl
      rw [hpc] at hr'
      cases hr'
      exact hs rfl
    refine hf.congr (fun i hi => format_desc _ _ fun hi' => ?_) ?_
    · exact ht (h.descs.disj t' t r' r _ _ hr' hpc i hi hi')
    · exact congrArg Info.b
        (update_of_ne (h.descs.head_ne hpc hr' ht (by simp [Req.idx])) ..)
  have hnot := h.not_mem_heads hpc rfl
  refine ⟨hdescs.move hpc (fun _ => h.descs.lock t hholds) (format_formatted _ hwf _), ?_, h.panic⟩
  have q := h.queue
  refine ⟨q.avail, q.dev, q.usedIdx, q.used, q.nodup, fun id => ?_, fun id hid => ?_,
    knows_goto (fun t' ht => h.descs.others hholds ht) rfl (update_self ..)⟩
  · refine (q.mem id).trans (exists_congr fun r' => ?_)
    refine Iff.trans ?_ (and_congr_left' (waits_goto rfl (waits_stage .ring hpc rfl) r')).symm
    refine and_congr_right ?_
    rintro ⟨t', stage, hr', hw'⟩
    refine and_congr_left fun _ => ?_
    have ht : t' ≠ t := by
      rintro rfl
      rw [hpc] at hr'
      cases hr'
      cases hw'
    simp [goto_inDisk, update_of_ne (h.descs.buf_ne hpc hr' ht)]
  · have hid' : id ≠ r.idx0 := by
      rintro rfl
      exact hnot (mem_append_right _ hid)
    exact (congrArg Info.status (update_of_ne hid' ..)).trans (q.status id hid)

theorem Inv.advance {stage' : Stage} (h : Inv s) (hpc : s.pc t = .req r stage)
    (hs : stage ≠ .format) (hl : (Pc.req r stage').holds → s.lock = some t)
    (hw : stage'.waits = stage.waits) (hk : Knows s (.req r stage')) :
    Inv (s.goto t (.req r stage')) := by
  have hf := h.descs.formatted t r stage hpc hs
  exact ⟨h.descs.move hpc hl hf, h.queue.goto (waits_stage _ hpc hw) hk, h.panic⟩

theorem Inv.ring (h : Inv s) (hpc : s.pc t = .req r .ring) :
    Inv ({ s with disk := s.disk.putAvail r.idx0 }.goto t (.req r .publish)) := by
  have hholds : (s.pc t).holds := by rw [hpc]; rfl
  have q := h.queue
  have hknows := q.knows t
  rw [hpc] at hknows
  have hlt := h.avail_lt (h.descs.wf t r _ hpc).lt.1 (h.not_mem_heads hpc rfl)
  have hheads : ({ s with disk := s.disk.putAvail r.idx0 } : State τ β).heads = s.heads := by
    rw [heads, q.putAvail hlt]
    rfl
  have hdescs : Descs { s with disk := s.disk.putAvail r.idx0 } :=
    h.descs.congr rfl rfl rfl rfl fun _ _ _ _ _ hf => hf.congr (fun _ _ => rfl) rfl
  have hf := hdescs.formatted t r .ring hpc nofun
  refine ⟨hdescs.move hpc (fun _ => h.descs.lock t hholds) hf, ?_, h.panic⟩
  refine ⟨q.avail, q.dev, q.usedIdx, q.used, hheads.symm ▸ q.nodup, fun id => ?_, q.status,
    knows_goto (fun t' ht => h.descs.others hholds ht) rfl ⟨hknows, update_self ..⟩⟩
  rw [goto_heads, hheads, q.mem]
  exact exists_congr fun r' => and_congr_left'
    (waits_goto rfl (waits_stage .publish hpc rfl) r').symm

theorem Inv.publish (h : Inv s) (hpc : s.pc t = .req r .publish) :
    Inv ({ s with disk := s.disk.incAvail }.goto t (.req r .wait)) := by
  have hholds : (s.pc t).holds := by rw [hpc]; rfl
  have q := h.queue
  have hknows := q.knows t
  rw [hpc] at hknows
  have hnot := h.not_mem_heads hpc rfl
  have hlt := h.avail_lt (h.descs.wf t r _ hpc).lt.1 hnot
  have hheads : (({ s with disk := s.disk.incAvail } : State τ β).heads).Perm
      (r.idx0 :: s.heads) := by
    rw [heads, q.incAvail hlt, hknows.2, heads, append_assoc, append_assoc,
      append_assoc]
    exact perm_middle
  have hwaits : ∀ r', ({ s with disk := s.disk.incAvail }.goto t (.req r .wait)).Waits r' ↔
      r' = r ∨ s.Waits r' := by
    intro r'
    constructor
    · rintro ⟨t', stage, hr', hw⟩
      by_cases ht : t' = t
      · rw [ht, goto_pc_self] at hr'
        cases hr'
        exact .inl rfl
      · rw [goto_pc_ne _ _ ht] at hr'
        exact .inr ⟨t', stage, hr', hw⟩
    · rintro (rfl | ⟨t', stage, hr', hw⟩)
      · exact ⟨t, .wait, goto_pc_self .., rfl⟩
      · refine ⟨t', stage, (goto_pc_ne _ _ ?_).trans hr', hw⟩
        rintro rfl
        rw [hpc] at hr'
        cases hr'
        cases hw
  have hdescs : Descs { s with disk := s.disk.incAvail } :=
    h.descs.congr rfl rfl rfl rfl fun _ _ _ _ _ hf => hf.congr (fun _ _ => rfl) rfl
  have hf := hdescs.formatted t r .publish hpc nofun
  refine ⟨hdescs.move hpc (fun _ => h.descs.lock t hholds) hf, ?_, h.panic⟩
  refine ⟨Nat.mod_lt _ (by decide), q.dev, q.usedIdx, q.used,
    hheads.nodup_iff.mpr (nodup_cons.mpr ⟨hnot, q.nodup⟩), fun id => ?_, q.status,
    knows_goto (fun t' ht => h.descs.others hholds ht) rfl trivial⟩
  rw [goto_heads, hheads.mem_iff, mem_cons, q.mem]
  simp only [hwaits]
  constructor
  · rintro (rfl | ⟨r', hw, hin, he⟩)
    · exact ⟨r, .inl rfl, hknows.1, rfl⟩
    · exact ⟨r', .inr hw, hin, he⟩
  · rintro ⟨r', rfl | hw, hin, he⟩
    · exact .inl he.symm
    · exact .inr ⟨r', hw, hin, he⟩

theorem Inv.waited (h : Inv s) (hpc : s.pc t = .req r .wait) (hin : s.inDisk r.b = false) :
    Inv (s.goto t (.req r .finish)) := by
  have hholds : (s.pc t).holds := by rw [hpc]; rfl
  have q := h.queue
  have hf := h.descs.formatted t r .wait hpc nofun
  refine ⟨h.descs.move hpc (fun _ => h.descs.lock t hholds) hf, ?_, h.panic⟩
  refine ⟨q.avail, q.dev, q.usedIdx, q.used, q.nodup, fun id => ?_, q.status,
    knows_goto (fun t' ht => h.descs.others hholds ht) rfl hin⟩
  rw [goto_heads, q.mem, goto_inDisk]
  constructor
  · rintro ⟨r', ⟨t', stage, hr', hw⟩, hin', he⟩
    refine ⟨r', ⟨t', stage, (goto_pc_ne _ _ ?_).trans hr', hw⟩, hin', he⟩
    rintro rfl
    rw [hpc] at hr'
    cases hr'
    rw [hin] at hin'
    cases hin'
  · rintro ⟨r', ⟨t', stage, hr', hw⟩, hin', he⟩
    by_cases ht : t' = t
    · rw [ht, goto_pc_self] at hr'
      cases hr'
      cases hw
    · rw [goto_pc_ne _ _ ht] at hr'
      exact ⟨r', ⟨t', stage, hr', hw⟩, hin', he⟩

/-- The disk when `virtio_disk_rw` has freed its descriptors. -/
def Disk.retire (d : Disk β) (r : Req β) : Disk β :=
  (((d.clearBuf r.idx0).freed r.idx0).freed r.idx1).freed r.idx2

omit [DecidableEq τ] in
theorem retire_free (d : Disk β) (r : Req β) (i : Nat) :
    (d.retire r).free i = if i ∈ r.idx then true else d.free i := by
  simp only [Disk.retire, freed_free, Disk.clearBuf, Req.idx, mem_cons, not_mem_nil,
    or_false]
  split_ifs <;> simp_all

omit [DecidableEq τ] in
theorem retire_info (d : Disk β) (r : Req β) :
    (d.retire r).info = update d.info r.idx0 ⟨none, (d.info r.idx0).status⟩ := rfl

omit [DecidableEq τ] in
theorem retire_desc (d : Disk β) {i : Nat} (hi : i ∉ r.idx) :
    (d.retire r).desc i = d.desc i := by
  simp only [Req.idx, mem_cons, not_mem_nil, or_false, not_or] at hi
  simp [Disk.retire, freed_desc, Disk.clearBuf, hi.1, hi.2.1, hi.2.2]

omit [DecidableEq τ] in
theorem Inv.freeChain {fuel : Nat} (h : Inv s) (hpc : s.pc t = .req r .finish) (hfuel : 3 ≤ fuel) :
    (s.disk.clearBuf r.idx0).freeChain fuel r.idx0 = some (.ok (s.disk.retire r)) := by
  have hc := h.descs.chain hpc nofun
  exact Chain.freeChain ⟨hc.lt, hc.ne, hc.used, hc.head, hc.data, hc.last⟩ hfuel

theorem Inv.finish [DecidableEq β] (h : Inv s) (hpc : s.pc t = .req r .finish) :
    Inv ({ s with disk := s.disk.retire r, locked := update s.locked r.b none }.release t
      .idle) := by
  have hdescs := h.descs
  have hholds : (s.pc t).holds := by rw [hpc]; rfl
  have hothers : ∀ t', t' ≠ t → (s.pc t').holds = false := fun t' ht => hdescs.others hholds ht
  have hreq : ∀ t' r' stage, update s.pc t .idle t' = .req r' stage →
      t' ≠ t ∧ s.pc t' = .req r' stage := by
    intro t' r' stage hr
    by_cases ht : t' = t
    · rw [ht, update_self] at hr
      cases hr
    · rw [update_of_ne ht] at hr
      exact ⟨ht, hr⟩
  have hw : ∀ r', (∃ stage, (.idle : Pc β) = .req r' stage ∧ stage.waits) ↔
      ∃ stage, s.pc t = .req r' stage ∧ stage.waits := by
    intro r'
    rw [hpc]
    constructor
    · rintro ⟨_, ⟨⟩, _⟩
    · rintro ⟨_, ⟨⟩, hw⟩
      cases hw
  have hdisj : ∀ t' r' stage, t' ≠ t → s.pc t' = .req r' stage → ∀ i ∈ r'.idx, i ∉ r.idx :=
    fun t' r' stage ht hr i hi hi' => ht (hdescs.disj t' t r' r _ _ hr hpc i hi hi')
  have hq : Queue
      { s with
        disk := s.disk.retire r
        locked := update s.locked r.b none } := by
    refine h.queue.congr rfl rfl rfl rfl rfl rfl fun id => ?_
    rw [retire_info]
    by_cases hid : id = r.idx0
    · rw [hid, update_self]
    · rw [update_of_ne hid]
  refine ⟨⟨fun t' hh => ?_, fun t' b hb => ?_, fun t' r' stage hr => ?_, fun t' r' stage hr => ?_,
    fun t₁ t₂ r₁ r₂ _ _ h₁ h₂ => ?_, fun i hi hf => ?_, fun t' r' stage hr hs => ?_⟩,
    (hq.goto hw trivial).setLock none, h.panic⟩
  · by_cases ht : t' = t
    · rw [ht, release_pc_self] at hh
      cases hh
    · rw [release_pc_ne _ _ ht, hothers t' ht] at hh
      cases hh
  · by_cases ht : t' = t
    · rw [ht, release_pc_self] at hb
      cases hb
    · rw [release_pc_ne _ _ ht] at hb
      have hlocked := hdescs.owner t' b hb
      refine (update_of_ne ?_ ..).trans hlocked
      rintro rfl
      rw [hdescs.owner t r.b (by rw [hpc]; rfl)] at hlocked
      exact ht (Option.some.inj hlocked).symm
  · exact hdescs.wf t' r' stage (hreq t' r' stage hr).2
  · obtain ⟨ht, hr⟩ := hreq t' r' stage hr
    intro i hi
    exact (retire_free s.disk r i).trans ((if_neg (hdisj t' r' stage ht hr i hi)).trans
      (hdescs.used t' r' stage hr i hi))
  · exact hdescs.disj t₁ t₂ r₁ r₂ _ _ (hreq t₁ r₁ _ h₁).2 (hreq t₂ r₂ _ h₂).2
  · have hf' := (retire_free s.disk r i).symm.trans hf
    by_cases hmem : i ∈ r.idx
    · rw [if_pos hmem] at hf'
      cases hf'
    · rw [if_neg hmem] at hf'
      obtain ⟨t', r', stage, hr, hi⟩ := hdescs.cover i hi hf'
      refine ⟨t', r', stage, (update_of_ne ?_ ..).trans hr, hi⟩
      rintro rfl
      rw [hpc] at hr
      cases hr
      exact hmem hi
  · obtain ⟨ht, hr⟩ := hreq t' r' stage hr
    refine (hdescs.formatted t' r' stage hr hs).congr
      (fun i hi => retire_desc _ (hdisj t' r' stage ht hr i hi)) ?_
    exact congrArg Info.b (update_of_ne (hdescs.head_ne hpc hr ht (by simp [Req.idx])) ..)

end Xv6.Virtio
