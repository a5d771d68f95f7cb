import Xv6.Ipc.PipeInv

/-! Which bytes of a pipe a `pipewrite` stored: the calls are numbered, and the bytes with the
number of a call are the first bytes of its buffer. -/

namespace Xv6.Ipc

open Function List
open Sleep (Act Pos Return step_moves)
open Wait (Slot)

/-- The `pipewrite` that a place belongs to, and its loop index there. -/
def Place.writes : Place → Option (Write × Nat)
  | .write w => some (w, 0)
  | .writeLoop w i _ | .writeFull w i | .writeSleep w i | .writeCopy w i _ | .writeLeave w i
  | .writeFail w i => some (w, i)
  | _ => none

def posWrites : Pos Unit Chan Place → Option (Write × Nat)
  | .call place | .waking _ _ place | .asleep _ place | .relock _ place => place.writes
  | _ => none

def Pipe.bytesOf (d : Pipe) (id : Nat) : List UInt8 :=
  (d.accepted.filter fun x => x.1 == id).map Prod.snd

/-- The call has stored the first `i` bytes of its buffer. -/
def Stored (d : Pipe) (w : Write) (i : Nat) : Prop := d.bytesOf w.id = (range i).map w.buf

def Marks (d : Pipe) (place : Place) : Act Unit Chan Pipe Place → Prop
  | .acquire _ next | .wakeup _ next | .sleep _ _ next => next.writes = place.writes
  | .killed next => ∀ k, (next k).writes = place.writes
  | .data d' next =>
    d'.accepted = d.accepted ∧ next.writes = place.writes ∨
      ∃ w i, place.writes = some (w, i) ∧ next.writes = some (w, i + 1) ∧
        d'.accepted = d.accepted ++ [(w.id, w.buf i)]
  | .leave _ d' _ r =>
    d'.accepted = d.accepted ∧ ∀ w i, place.writes = some (w, i) → 0 ≤ r → r = i
  | .setParent _ _ _ | .exit _ _ => False

variable {a : Act Unit Chan Pipe Place} {place : Place} {w : Write} {i : Nat}
variable {ok : Bool} {d : Pipe}

theorem marks_write (hw : place.writes = some (w, i))
    (hc : writeCode d w ok place = some a) : Marks d place a := by
  cases place with
  | write _ =>
    cases hw
    cases hc
    rfl
  | writeLoop _ j stored =>
    cases hw
    simp only [writeCode] at hc
    split_ifs at hc <;> cases hc
    · exact ⟨rfl, fun w i _ h => by omega⟩
    · intro k
      dsimp only
      split <;> rfl
    · intro k
      dsimp only
      split <;> rfl
    · rfl
  | writeFull _ j | writeSleep _ j =>
    cases hw
    cases hc
    rfl
  | writeCopy _ j stored =>
    cases hw
    simp only [writeCode] at hc
    split_ifs at hc <;> cases hc
    · exact .inr ⟨w, i, rfl, rfl, rfl⟩
    · rfl
  | writeLeave _ j =>
    cases hw
    cases hc
    exact ⟨rfl, fun w i he _ => by cases he; rfl⟩
  | writeFail _ j =>
    cases hw
    cases hc
    exact ⟨rfl, fun w i _ h => by omega⟩
  | _ => cases hw

theorem marks_read {n : Int}
    (hc : readCode d n ok place = some a) : Marks d place a := by
  cases place with
  | readWait _ =>
    simp only [readCode] at hc
    split_ifs at hc <;> cases hc
    · intro k
      dsimp only
      split <;> rfl
    · exact .inl ⟨rfl, rfl⟩
  | readCopy _ i =>
    simp only [readCode] at hc
    split_ifs at hc <;> cases hc <;> first | rfl | exact .inl ⟨rfl, rfl⟩
  | read _ | readSleep _ =>
    cases hc
    rfl
  | readLeave _ _ | readFail _ =>
    cases hc
    exact ⟨rfl, by rintro _ _ ⟨⟩⟩
  | _ => cases hc

theorem marks_close {b : Bool}
    (hc : closeCode d b place = some a) : Marks d place a := by
  cases place with
  | closeSet _ =>
    cases hc
    refine .inl ⟨?_, rfl⟩
    cases b <;> rfl
  | close _ | closeWake _ =>
    cases hc
    rfl
  | closeLeave _ =>
    cases hc
    refine ⟨?_, nofun⟩
    unfold Pipe.free
    split <;> rfl
  | _ => cases hc

theorem marks_code
    (hc : code d place ok = some a) : Marks d place a := by
  unfold code at hc
  split at hc
  · cases hc
  · cases place with
    | read n | readWait n | readSleep n | readCopy n i | readLeave n r | readFail n =>
      exact marks_read hc
    | close b | closeSet b | closeWake b | closeLeave b => exact marks_close hc
    | _ => exact marks_write rfl hc

theorem bytesOf_append (d : Pipe) (x : Nat × UInt8) (d' : Pipe)
    (h : d'.accepted = d.accepted ++ [x]) (id : Nat) :
    d'.bytesOf id = d.bytesOf id ++ if x.1 = id then [x.2] else [] := by
  unfold Pipe.bytesOf
  rw [h, filter_append, map_append]
  by_cases hx : x.1 = id <;> simp [hx]

theorem Stored.congr {d d' : Pipe} (h : Stored d w i)
    (hd : d'.accepted = d.accepted) : Stored d' w i := by
  unfold Stored Pipe.bytesOf at *
  rw [hd]
  exact h

theorem Stored.next {d d' : Pipe} (h : Stored d w i)
    (hd : d'.accepted = d.accepted ++ [(w.id, w.buf i)]) : Stored d' w (i + 1) := by
  unfold Stored at *
  rw [bytesOf_append d _ d' hd, h, if_pos rfl, range_succ, map_append]
  rfl

theorem Stored.other {d d' : Pipe} (h : Stored d w i) {id : Nat} {ch : UInt8}
    (hd : d'.accepted = d.accepted ++ [(id, ch)]) (hne : id ≠ w.id) : Stored d' w i := by
  unfold Stored at *
  rw [bytesOf_append d _ d' hd, if_neg hne, append_nil]
  exact h

/-- Every number is of one call, in progress or returned, and the bytes with that number are the
first of its buffer. -/
structure Tagged (s : State) : Prop where
  active : ∀ p w i, posWrites (s.pos p) = some (w, i) → w.id < s.calls ∧ Stored s.data w i
  apart : ∀ p q w i w' i', posWrites (s.pos p) = some (w, i) → posWrites (s.pos q) = some (w', i') →
    w.id = w'.id → p = q
  done : ∀ r ∈ s.returns, ∀ w i, r.place.writes = some (w, i) →
    w.id < s.calls ∧ Stored s.data w i ∧ (0 ≤ r.result → r.result = i) ∧
      ∀ p w' i', posWrites (s.pos p) = some (w', i') → w'.id ≠ w.id
  old : ∀ x ∈ s.data.accepted, x.1 < s.calls

theorem Start.tagged {s : State} (h : Start s) : Tagged s := by
  have hnone : ∀ p, posWrites (s.pos p) = none := fun p => by
    rcases h.pos p with hp | hp <;> rw [hp] <;> rfl
  obtain ⟨data, hd⟩ := h.data
  constructor
  · intro p w i hp
    rw [hnone] at hp
    cases hp
  · intro p q w i w' i' hp
    rw [hnone] at hp
    cases hp
  · simp [h.returns]
  · simp [hd, Pipe.alloc]

variable {s s' : State} {p : Slot} {x : Pos Unit Chan Place}

theorem Tagged.move (h : Tagged s) (hpos : s'.pos = update s.pos p x)
    (hdata : s'.data.accepted = s.data.accepted) (hcalls : s'.calls = s.calls)
    (hreturns : s'.returns = s.returns)
    (hx : posWrites x = posWrites (s.pos p) ∨ posWrites x = none) : Tagged s' := by
  have hsub : ∀ q w i, posWrites (s'.pos q) = some (w, i) → posWrites (s.pos q) = some (w, i) := by
    intro q w i hq
    rw [hpos] at hq
    rcases eq_or_ne q p with rfl | hqp
    · rw [update_self] at hq
      rcases hx with hx | hx
      · exact hx ▸ hq
      · rw [hx] at hq
        cases hq
    · rwa [update_of_ne hqp] at hq
  constructor
  · intro q w i hq
    obtain ⟨hid, hst⟩ := h.active q w i (hsub q w i hq)
    exact ⟨hcalls ▸ hid, hst.congr hdata⟩
  · intro q r w i w' i' hq hr
    exact h.apart q r w i w' i' (hsub q w i hq) (hsub r w' i' hr)
  · intro r hr w i hw
    obtain ⟨hid, hst, hres, hne⟩ := h.done r (hreturns ▸ hr) w i hw
    exact ⟨hcalls ▸ hid, hst.congr hdata, hres, fun q w' i' hq => hne q w' i' (hsub q w' i' hq)⟩
  · rw [hdata, hcalls]
    exact h.old

theorem Tagged.store (h : Tagged s) (hp : posWrites (s.pos p) = some (w, i))
    (hpos : s'.pos = update s.pos p x) (hx : posWrites x = some (w, i + 1))
    (hdata : s'.data.accepted = s.data.accepted ++ [(w.id, w.buf i)]) (hcalls : s'.calls = s.calls)
    (hreturns : s'.returns = s.returns) : Tagged s' := by
  obtain ⟨hid, hst⟩ := h.active p w i hp
  -- Where each writer was before.
  have hbefore : ∀ q w' i', posWrites (s'.pos q) = some (w', i') →
      q = p ∧ w' = w ∧ i' = i + 1 ∨ q ≠ p ∧ posWrites (s.pos q) = some (w', i') := by
    intro q w' i' hq
    rw [hpos] at hq
    rcases eq_or_ne q p with rfl | hqp
    · rw [update_self, hx] at hq
      cases hq
      exact .inl ⟨rfl, rfl, rfl⟩
    · rw [update_of_ne hqp] at hq
      exact .inr ⟨hqp, hq⟩
  have hid' : ∀ q w' i', posWrites (s'.pos q) = some (w', i') →
      ∃ j, posWrites (s.pos q) = some (w', j) := by
    intro q w' i' hq
    rcases hbefore q w' i' hq with ⟨rfl, rfl, -⟩ | ⟨-, hq⟩
    · exact ⟨i, hp⟩
    · exact ⟨i', hq⟩
  constructor
  · intro q w' i' hq
    rw [hcalls]
    rcases hbefore q w' i' hq with ⟨rfl, rfl, rfl⟩ | ⟨hqp, hq⟩
    · exact ⟨hid, hst.next hdata⟩
    · obtain ⟨hid', hst'⟩ := h.active q w' i' hq
      exact ⟨hid', hst'.other hdata fun he => hqp (h.apart q p w' i' w i hq hp he.symm)⟩
  · intro q r w' i' w'' i'' hq hr
    obtain ⟨j, hj⟩ := hid' q w' i' hq
    obtain ⟨k, hk⟩ := hid' r w'' i'' hr
    exact h.apart q r w' j w'' k hj hk
  · intro r hr w' i' hw
    obtain ⟨hid'', hst', hres, hne⟩ := h.done r (hreturns ▸ hr) w' i' hw
    refine ⟨hcalls ▸ hid'', hst'.other hdata (hne p w i hp), hres, fun q w'' i'' hq => ?_⟩
    obtain ⟨j, hj⟩ := hid' q w'' i'' hq
    exact hne q w'' j hj
  · intro y hy
    rw [hcalls]
    rw [hdata] at hy
    rcases mem_append.mp hy with hy | hy
    · exact h.old y hy
    · rw [mem_singleton.mp hy]
      exact hid

theorem Tagged.leave (h : Tagged s) {r : Int} (hp : s.pos p = .call place)
    (hr : ∀ w i, place.writes = some (w, i) → 0 ≤ r → r = i)
    (hpos : s'.pos = update s.pos p .user) (hdata : s'.data.accepted = s.data.accepted)
    (hcalls : s'.calls = s.calls)
    (hreturns : s'.returns = s.returns ++ [{ place, data := s'.data, result := r }]) :
    Tagged s' := by
  have hgone : Tagged { s' with returns := s.returns } :=
    h.move hpos hdata hcalls rfl (.inr rfl)
  refine { hgone with done := fun r' hr' w i hw => ?_ }
  rw [hreturns] at hr'
  rcases mem_append.mp hr' with hr' | hr'
  · exact hgone.done r' hr' w i hw
  obtain rfl := mem_singleton.mp hr'
  have hp' : posWrites (s.pos p) = some (w, i) := by rw [hp]; exact hw
  obtain ⟨hid, hst⟩ := h.active p w i hp'
  refine ⟨hcalls ▸ hid, hst.congr hdata, hr w i hw, fun q w' i' hq he => ?_⟩
  rw [hpos] at hq
  rcases eq_or_ne q p with rfl | hqp
  · rw [update_self] at hq
    cases hq
  · rw [update_of_ne hqp] at hq
    exact hqp (h.apart q p w' i' w i hq hp' he)

theorem Tagged.call (h : Tagged s) (hp : s.pos p = .user) (call : Call)
    (hpos : s'.pos = update s.pos p (.call (enter s.calls call)))
    (hdata : s'.data.accepted = s.data.accepted) (hcalls : s'.calls = s.calls + 1)
    (hreturns : s'.returns = s.returns) : Tagged s' := by
  have hnew : ∀ w i, (enter s.calls call).writes = some (w, i) → w.id = s.calls ∧ i = 0 := by
    intro w i hw
    cases call with
    | write buf n =>
      cases hw
      exact ⟨rfl, rfl⟩
    | read n => cases hw
    | close b => cases hw
  have hfresh : ∀ w : Write, w.id = s.calls → Stored s'.data w 0 := by
    intro w hw
    unfold Stored Pipe.bytesOf
    rw [hdata, filter_eq_nil_iff.mpr]
    · rfl
    · intro y hy
      have := h.old y hy
      simp only [beq_iff_eq]
      omega
  have hcases : ∀ q w i, posWrites (s'.pos q) = some (w, i) →
      q = p ∧ w.id = s.calls ∧ i = 0 ∨ posWrites (s.pos q) = some (w, i) := by
    intro q w i hq
    rw [hpos] at hq
    rcases eq_or_ne q p with rfl | hqp
    · rw [update_self] at hq
      exact .inl ⟨rfl, hnew w i hq⟩
    · rw [update_of_ne hqp] at hq
      exact .inr hq
  constructor
  · intro q w i hq
    rw [hcalls]
    rcases hcases q w i hq with ⟨rfl, hid, rfl⟩ | hq
    · exact ⟨by omega, hfresh w hid⟩
    · obtain ⟨hid, hst⟩ := h.active q w i hq
      exact ⟨by omega, hst.congr hdata⟩
  · intro q r w i w' i' hq hr he
    rcases hcases q w i hq with ⟨rfl, hid, -⟩ | hq <;>
      rcases hcases r w' i' hr with ⟨rfl, hid', -⟩ | hr
    · rfl
    · have := (h.active r w' i' hr).1
      omega
    · have := (h.active q w i hq).1
      omega
    · exact h.apart q r w i w' i' hq hr he
  · intro r hr w i hw
    obtain ⟨hid, hst, hres, hne⟩ := h.done r (hreturns ▸ hr) w i hw
    refine ⟨by omega, hst.congr hdata, hres, fun q w' i' hq => ?_⟩
    rcases hcases q w' i' hq with ⟨rfl, hid', -⟩ | hq
    · omega
    · exact hne q w' i' hq
  · intro y hy
    rw [hdata] at hy
    have := h.old y hy
    omega

theorem Tagged.perform (h : Tagged s)
    (hp : s.pos p = .call place) (hc : code s.data place ok = some a)
    (ha : Sleep.perform s p place a = some s') (hfifo : Fifo s.data)
    (hsees : Sees s.data place) : Tagged s' := by
  have hmarks := marks_code hc
  have hpost := post_code hfifo hsees hc
  have hwrites : posWrites (s.pos p) = place.writes := by rw [hp]; rfl
  cases a with
  | acquire lk next =>
    simp only [Sleep.perform, guard_eq_some] at ha
    obtain ⟨-, rfl⟩ := ha
    exact h.move rfl rfl rfl rfl (.inl (Eq.trans hmarks hwrites.symm))
  | data d next =>
    cases ha
    rcases hmarks with ⟨hd, hnext⟩ | ⟨w, i, hw, hnext, hd⟩
    · exact h.move rfl hd rfl rfl (.inl (Eq.trans hnext hwrites.symm))
    · exact h.store (hwrites.trans hw) rfl hnext hd rfl rfl
  | killed next =>
    cases ha
    exact h.move rfl rfl rfl rfl (.inl (Eq.trans (hmarks _) hwrites.symm))
  | sleep chan lk next | wakeup chan next =>
    cases ha
    exact h.move rfl rfl rfl rfl (.inl (Eq.trans hmarks hwrites.symm))
  | leave lk d effect r =>
    obtain ⟨-, rfl, -⟩ := hpost
    cases ha
    exact h.leave hp hmarks.2 rfl hmarks.1 rfl rfl
  | setParent pp parent next => exact hmarks.elim
  | exit lk status => exact hmarks.elim

theorem Tagged.step (h : Tagged s) (hinv : PipeInv s) {e : Event} (hstep : step s e = some s') :
    Tagged s' := by
  cases step_moves hstep with
  | sched | yield | kill => exact ⟨h.active, h.apart, h.done, h.old⟩
  | call hs hp => exact h.call hp _ rfl rfl rfl rfl
  | @act p place _ _ _ hs hp hc ha =>
    have hsees := hinv.sees p
    rw [hp] at hsees
    exact h.perform hp hc ha hinv.fifo hsees
  | @waking p _ chan j next hs hp =>
    have hwrites : posWrites (s.pos p) = next.writes := by rw [hp]; rfl
    unfold Sleep.wakeupStep
    split_ifs <;> exact h.move rfl rfl rfl rfl (.inl hwrites.symm)
  | awake hs hp => exact h.move rfl rfl rfl rfl (.inl (by rw [hp]; rfl))
  | relock hs hp => exact h.move rfl rfl rfl rfl (.inl (by rw [hp]; rfl))
  | @intr i => exact i.elim

theorem reachable_tagged (h : Reachable Start step s) : Tagged s := by
  induction h with
  | start h => exact h.tagged
  | next e hreach hstep ih => exact ih.step (reachable_pipeInv hreach) hstep

/-- **A pipe is a queue.** In every interleaving of writers, readers, closes and kills, at most
`PIPESIZE` bytes are in the pipe, and the bytes delivered followed by the bytes in `data` are the
bytes stored. A `pipewrite` that returned `r` has stored the first `r` bytes of its buffer, and a
`piperead` for a positive `n` that returned 0 left the pipe empty with its write end closed. -/
theorem pipe_fifo (h : Reachable Start step s) :
    s.data.count ≤ PIPESIZE ∧
      s.data.delivered ++ s.data.content = s.data.accepted.map Prod.snd ∧
      (∀ r ∈ s.returns, ∀ w i, r.place.writes = some (w, i) → 0 ≤ r.result →
        s.data.bytesOf w.id = (range r.result.toNat).map w.buf) ∧
      (∀ r ∈ s.returns, ∀ n, r.place.reads = some n → 0 < n → r.result = 0 →
        r.data.isEmpty = true ∧ r.data.writeopen = false) := by
  have hinv := reachable_pipeInv h
  have htag := reachable_tagged h
  refine ⟨?_, hinv.fifo.delivered_append, fun r hr w i hw hres => ?_, hinv.ends⟩
  · have hroom := hinv.fifo.room
    rw [hinv.fifo.count_eq]
    omega
  · obtain ⟨-, hst, hi, -⟩ := htag.done r hr w i hw
    rw [hi hres, Int.toNat_natCast]
    exact hst

def start : State where
  proc p :=
    { state := .running, chan := none, killed := false, xstate := 0, pid := p, parent := none }
  pos _ := .user
  lock _ := none
  data := Pipe.alloc fun _ => 0
  calls := 0
  returns := []

theorem start_start : Start start where
  data := ⟨_, rfl⟩
  pos _ := .inl rfl
  gone p h := by simp [start] at h
  awake p := by simp [start]
  lock := rfl
  calls := rfl
  returns := rfl

def writeThenRead : List Event :=
  [.call 0 (.read 2)] ++ replicate 3 (.run 0 true) ++
    [.call 1 (.write (fun i => UInt8.ofNat (i + 7)) 3)] ++ replicate 6 (.run 1 true) ++
    replicate 67 (.run 1 false) ++ [.sched 0] ++ replicate 72 (.run 0 true)

set_option maxRecDepth 4000 in
theorem pipe_fifo_writeThenRead :
    ∃ s, Reachable Start step s ∧ s.returns.map Return.result = [2, 2] ∧
      s.data.delivered = [7, 8] ∧ s.data.content = [] ∧
      (s.data.count ≤ PIPESIZE ∧
        s.data.delivered ++ s.data.content = s.data.accepted.map Prod.snd ∧
        (∀ r ∈ s.returns, ∀ w i, r.place.writes = some (w, i) → 0 ≤ r.result →
          s.data.bytesOf w.id = (range r.result.toNat).map w.buf) ∧
        (∀ r ∈ s.returns, ∀ n, r.place.reads = some n → 0 < n → r.result = 0 →
          r.data.isEmpty = true ∧ r.data.writeopen = false)) := by
  have hrun : (runEvents step start writeThenRead).any (fun s => decide (
      s.returns.map Return.result = [2, 2] ∧ s.data.delivered = [7, 8] ∧
        s.data.content = [])) := by
    decide +kernel
  obtain ⟨s, hreach, h1, h2, h3⟩ := Reachable.exists_run start_start hrun
  exact ⟨s, hreach, h1, h2, h3, pipe_fifo hreach⟩

end Xv6.Ipc
