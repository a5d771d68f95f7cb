import Xv6.Ipc.Writes

/-! Which processes sleep on a pipe: whoever ends the reason for sleeping wakes the sleepers up
before it gives up the lock, except a `pipewrite` that finds itself killed after it has stored
bytes. -/

namespace Xv6.Ipc

open Function
open Sleep (Act Pos Mutex Proc step_moves)
open Wait (Slot)

def SleepsOn (s : State) (q : Slot) (chan : Chan) : Prop :=
  (s.proc q).state = .sleeping ∧ (s.proc q).chan = some chan

instance (s : State) (q : Slot) (chan : Chan) : Decidable (SleepsOn s q chan) :=
  inferInstanceAs (Decidable (_ ∧ _))

/-- The holder of the lock at a place owes the sleepers on a channel a `wakeup`. -/
def Place.wakes : Place → Chan → Bool
  | .writeLoop _ _ true, .nread | .writeCopy _ _ true, .nread | .writeFull _ _, .nread
  | .readCopy _ _, .nwrite | .closeWake true, .nread | .closeWake false, .nwrite => true
  | _, _ => false

/-- A `pipewrite` between a test of `killed` that let it store a byte and a further one. -/
def Place.storing : Place → Bool
  | .writeLoop w i true => i < w.n
  | .writeCopy w i _ => i + 1 < w.n
  | _ => false

def posStoring : Pos Unit Chan Place → Bool
  | .call place => place.storing
  | _ => false

def Owes (d : Pipe) (place : Place) : Act Unit Chan Pipe Place → Prop
  | .acquire _ next => next.storing = false
  | .data d' next =>
    (∀ chan : Chan, chan.Waits d ∨ place.wakes chan = true →
      chan.Waits d' ∨ next.wakes chan = true) ∧ (next.storing = true → place.storing = true)
  | .killed next =>
    (∀ chan, place.wakes chan = true →
      (next false).wakes chan = true ∧ chan = .nread ∧ place.storing = true) ∧
      (next true).storing = false
  | .sleep _ _ next => (∀ chan, place.wakes chan = false) ∧ next.storing = false
  | .wakeup chan next =>
    (∀ chan', place.wakes chan' = true → chan' = chan ∨ next.wakes chan' = true) ∧
      next.storing = false
  | .leave _ d' _ _ =>
    (∀ chan, place.wakes chan = false) ∧ ∀ chan : Chan, chan.Waits d → chan.Waits d'
  | .setParent _ _ _ | .exit _ _ => False

variable {a : Act Unit Chan Pipe Place} {place : Place} {ok : Bool} {d : Pipe}

theorem owes_write {w : Write} (hsees : Sees d place)
    (hw : ∀ v i, place.writes = some (v, i) → v = w)
    (hc : writeCode d w ok place = some a) : Owes d place a := by
  cases place with
  | write _ =>
    cases hc
    rfl
  | writeLoop v i stored =>
    obtain rfl := hw v i rfl
    simp only [writeCode] at hc
    split_ifs at hc with hi hr hf <;> cases hc
    · -- The read end was open when this call stored its last byte.
      cases stored with
      | true => rw [hsees rfl] at hr; cases hr
      | false => exact ⟨fun chan => by cases chan <;> rfl, fun _ h => h⟩
    · refine ⟨fun chan hw => ?_, rfl⟩
      cases stored <;> cases chan <;> first | exact ⟨rfl, rfl, decide_eq_true hi⟩ | cases hw
    · refine ⟨fun chan hw => ?_, rfl⟩
      cases stored <;> cases chan <;> first | exact ⟨rfl, rfl, decide_eq_true hi⟩ | cases hw
    · refine ⟨fun chan hw => ?_, rfl⟩
      cases stored <;> cases chan <;> first | exact .inl rfl | cases hw
  | writeFull _ i =>
    cases hc
    refine ⟨fun chan hw => ?_, rfl⟩
    cases chan <;> first | exact .inl rfl | cases hw
  | writeSleep _ i =>
    cases hc
    exact ⟨fun chan => by cases chan <;> rfl, rfl⟩
  | writeCopy v i stored =>
    obtain rfl := hw v i rfl
    simp only [writeCode] at hc
    split_ifs at hc <;> cases hc
    · refine ⟨fun chan hw => ?_, id⟩
      cases chan with
      | nread => exact .inr rfl
      | nwrite =>
        -- Nobody waits for room while there is room.
        rcases hw with hw | hw
        · have hfull := hw.1
          rw [hsees.1] at hfull
          cases hfull
        · cases stored <;> cases hw
    · refine ⟨fun chan hw => ?_, rfl⟩
      cases stored <;> cases chan <;> first | exact .inl rfl | cases hw
  | writeLeave _ i | writeFail _ i =>
    cases hc
    exact ⟨fun chan => by cases chan <;> rfl, fun _ h => h⟩
  | _ => cases hc

theorem owes_read {n : Int}
    (hc : readCode d n ok place = some a) : Owes d place a := by
  cases place with
  | read _ =>
    cases hc
    rfl
  | readWait _ =>
    simp only [readCode] at hc
    split_ifs at hc <;> cases hc
    · refine ⟨fun chan hw => ?_, rfl⟩
      cases chan <;> cases hw
    · refine ⟨fun chan hw => hw.imp_right fun hw => ?_, by rintro ⟨⟩⟩
      cases chan <;> cases hw
  | readSleep _ =>
    cases hc
    exact ⟨fun chan => by cases chan <;> rfl, rfl⟩
  | readCopy m i =>
    have hwake : ∀ r, Owes d (.readCopy m i) (.wakeup .nwrite (.readLeave n r)) := by
      refine fun r => ⟨fun chan hw => ?_, rfl⟩
      cases chan <;> first | exact .inl rfl | cases hw
    simp only [readCode] at hc
    split_ifs at hc with hi he <;> cases hc
    · exact hwake _
    · refine ⟨fun chan hw => ?_, by rintro ⟨⟩⟩
      cases chan with
      | nwrite => exact .inr rfl
      | nread =>
        -- Nobody waits for bytes while there are bytes.
        rcases hw with hw | hw
        · exact absurd hw.1 he
        · cases hw
    · exact hwake _
    · exact hwake _
    · exact hwake _
  | readLeave _ _ | readFail _ =>
    cases hc
    exact ⟨fun chan => by cases chan <;> rfl, fun _ h => h⟩
  | _ => cases hc

theorem owes_close {b : Bool}
    (hb : ∀ chan, place.wakes chan = true → chan = if b then .nread else .nwrite)
    (hc : closeCode d b place = some a) : Owes d place a := by
  cases place with
  | close _ =>
    cases hc
    rfl
  | closeSet _ =>
    cases hc
    refine ⟨fun chan hw => ?_, nofun⟩
    have hw : chan.Waits d := hw.resolve_right (by cases chan <;> simp [Place.wakes])
    cases b <;> cases chan <;> first | exact .inl hw | exact .inr rfl
  | closeWake _ =>
    cases hc
    exact ⟨fun chan hw => .inl (hb chan hw), rfl⟩
  | closeLeave _ =>
    cases hc
    refine ⟨fun chan => by cases chan <;> rfl, fun chan hw => ?_⟩
    unfold Pipe.free
    split
    · cases chan <;> exact hw
    · exact hw
  | _ => cases hc

/-- The code pays what it owes before it leaves, unless it has been killed. -/
theorem owes_code
    (hsees : Sees d place) (hc : code d place ok = some a) : Owes d place a := by
  unfold code at hc
  split at hc
  · cases hc
  · cases place with
    | read n | readWait n | readSleep n | readCopy n i | readLeave n r | readFail n =>
      exact owes_read hc
    | close b | closeSet b | closeWake b | closeLeave b =>
      refine owes_close (fun chan hw => ?_) hc
      cases b <;> cases chan <;> first | rfl | cases hw
    | _ => exact owes_write hsees (by rintro v i ⟨⟩; rfl) hc

def posWakes (chan : Chan) (q : Slot) : Pos Unit Chan Place → Prop
  | .call place => place.wakes chan = true
  | .waking chan' j next => chan' = chan ∧ j ≤ q ∨ next.wakes chan = true
  | _ => False

/-- A process that goes on from `sleep` has not stored anything since. -/
def posRests : Pos Unit Chan Place → Prop
  | .asleep _ next | .relock _ next | .waking _ _ next => next.storing = false
  | _ => True

/-- Whoever sleeps has a reason to, or is going to be woken up by the holder of the lock. A killed
`pipewrite` is not storing bytes while a reader sleeps. -/
structure Woken (s : State) : Prop where
  sleepers : ∀ q chan, SleepsOn s q chan →
    chan.Waits s.data ∨ ∃ p, (s.pos p).held held = some () ∧ posWakes chan q (s.pos p)
  killed : ∀ p, posStoring (s.pos p) = true → (s.proc p).killed = true → ∀ q, ¬SleepsOn s q .nread
  rests : ∀ p, posRests (s.pos p)

theorem Start.woken {s : State} (h : Start s) : Woken s where
  sleepers q chan hq := absurd hq.1 (h.awake q)
  killed p _ _ q hq := h.awake q hq.1
  rests p := by rcases h.pos p with hp | hp <;> rw [hp] <;> trivial

theorem held_of_storing {pos : Pos Unit Chan Place} (h : posStoring pos = true) :
    pos.held held = some () := by
  cases pos with
  | call place => cases place <;> first | rfl | cases h
  | _ => cases h

variable {s s' : State} {p : Slot} {x : Pos Unit Chan Place}

theorem Woken.move (h : Woken s) (hpos : s'.pos = update s.pos p x)
    (howed : ∀ q chan, SleepsOn s' q chan →
      chan.Waits s.data ∨ (s.pos p).held held = some () ∧ posWakes chan q (s.pos p) →
      chan.Waits s'.data ∨ x.held held = some () ∧ posWakes chan q x)
    (hstoring : posStoring x = true → posStoring (s.pos p) = true ∨ (s.proc p).killed = false)
    (hrests : posRests x)
    (hsleep : ∀ q chan, SleepsOn s' q chan → SleepsOn s q chan := by exact fun _ _ hq => hq)
    (hkilled : ∀ q, (s'.proc q).killed = (s.proc q).killed := by exact fun _ => rfl) :
    Woken s' := by
  constructor
  · intro q chan hq
    rcases h.sleepers q chan (hsleep q chan hq) with hw | ⟨p', hp', hw⟩
    · refine (howed q chan hq (.inl hw)).imp_right fun hx => ⟨p, ?_⟩
      rw [hpos, update_self]
      exact hx
    · rcases eq_or_ne p' p with rfl | hne
      · refine (howed q chan hq (.inr ⟨hp', hw⟩)).imp_right fun hx => ⟨p', ?_⟩
        rw [hpos, update_self]
        exact hx
      · refine .inr ⟨p', ?_⟩
        rw [hpos, update_of_ne hne]
        exact ⟨hp', hw⟩
  · intro p' hp' hk q hq
    rw [hkilled] at hk
    rw [hpos] at hp'
    have hq := hsleep q .nread hq
    rcases eq_or_ne p' p with rfl | hne
    · rw [update_self] at hp'
      rcases hstoring hp' with hst | hk'
      · exact h.killed p' hst hk q hq
      · rw [hk'] at hk
        cases hk
    · rw [update_of_ne hne] at hp'
      exact h.killed p' hp' hk q hq
  · intro p'
    rw [hpos]
    rcases eq_or_ne p' p with rfl | hne
    · rw [update_self]
      exact hrests
    · rw [update_of_ne hne]
      exact h.rests p'

variable {chan : Chan}

theorem Woken.waits (h : Woken s) (hm : Mutex held s) (hfree : s.lock () = none) {q : Slot}
    (hq : SleepsOn s q chan) : chan.Waits s.data := by
  refine (h.sleepers q chan hq).resolve_right ?_
  rintro ⟨p, hp, -⟩
  rw [(hm.agree () p).mpr hp] at hfree
  cases hfree

theorem Woken.waits_of_paid (h : Woken s) (hm : Mutex held s)
    (hp : s.pos p = .call place) (hheld : held place = some ())
    (hpaid : ∀ chan, place.wakes chan = false) {q : Slot}
    (hq : SleepsOn s q chan) : chan.Waits s.data := by
  refine (h.sleepers q chan hq).resolve_right ?_
  rintro ⟨p', hp', hw⟩
  obtain rfl := hm.unique hp' (by rw [hp]; exact hheld)
  rw [hp] at hw
  simp [posWakes, hpaid] at hw

theorem Woken.sleep (h : Woken s) (hm : Mutex held s) {place next : Place}
    (hp : s.pos p = .call place) (hheld : held place = some ())
    (hpaid : ∀ chan, place.wakes chan = false) (hwaits : chan.Waits s.data)
    (hnext : next.storing = false) (hpos : s'.pos = update s.pos p (.asleep () next))
    (hdata : s'.data = s.data)
    (hproc : s'.proc = update s.proc p { s.proc p with state := .sleeping, chan := some chan }) :
    Woken s' := by
  have hbefore : ∀ q chan', SleepsOn s' q chan' → chan'.Waits s.data := by
    rintro q chan' ⟨hst, hch⟩
    rw [hproc] at hst hch
    rcases eq_or_ne q p with rfl | hq
    · rw [update_self] at hch
      cases hch
      exact hwaits
    · rw [update_of_ne hq] at hst hch
      exact h.waits_of_paid hm hp hheld hpaid ⟨hst, hch⟩
  have hplace : (s.pos p).held held = some () := by rw [hp]; exact hheld
  constructor
  · intro q chan' hq
    rw [hdata]
    exact .inl (hbefore q chan' hq)
  · -- Nobody else has the lock, so nobody is storing bytes.
    intro p' hp' _ q _
    rw [hpos] at hp'
    rcases eq_or_ne p' p with rfl | hne
    · rw [update_self] at hp'
      cases hp'
    · rw [update_of_ne hne] at hp'
      exact hne (hm.unique (held_of_storing hp') hplace)
  · intro p'
    rw [hpos]
    rcases eq_or_ne p' p with rfl | hne
    · rw [update_self]
      exact hnext
    · rw [update_of_ne hne]
      exact h.rests p'

theorem Woken.kill (h : Woken s) {v : Slot}
    (hspares : ¬(posStoring (s.pos v) = true ∧ ∃ q, SleepsOn s q .nread)) :
    Woken (s.upd v Sleep.kkill) := by
  have hsleep : ∀ q chan, SleepsOn (s.upd v Sleep.kkill) q chan → SleepsOn s q chan := by
    rintro q chan ⟨hst, hch⟩
    rcases eq_or_ne q v with rfl | hq
    · simp only [Sleep.State.upd, update_self, Sleep.kkill] at hst hch
      split at hst
      · cases hst
      · exact ⟨hst, hch⟩
    · simpa [SleepsOn, Sleep.State.upd, hq] using And.intro hst hch
  refine ⟨fun q chan hq => h.sleepers q chan (hsleep q chan hq), fun p hp hk q hq => ?_, h.rests⟩
  rcases eq_or_ne p v with rfl | hpv
  · exact hspares ⟨hp, q, hsleep q .nread hq⟩
  · exact h.killed p hp (by simpa [Sleep.State.upd, hpv] using hk) q (hsleep q .nread hq)

theorem Woken.perform (h : Woken s) (hinv : PipeInv s) (hp : s.pos p = .call place)
    (hc : code s.data place ok = some a) (ha : Sleep.perform s p place a = some s') :
    Woken s' := by
  have hsees := hinv.sees p
  rw [hp] at hsees
  have hpost := post_code hinv.fifo hsees hc
  have hkeeps := keeps_code hc
  have howes := owes_code hsees hc
  have hheld : (s.pos p).held held = held place := by rw [hp]; rfl
  have hwakes : ∀ {q chan}, posWakes chan q (s.pos p) → place.wakes chan = true :=
    fun hw => by rw [hp] at hw; exact hw
  have hstoring : posStoring (s.pos p) = place.storing := by rw [hp]; rfl
  cases a with
  | acquire lk next =>
    simp only [Sleep.perform, guard_eq_some] at ha
    obtain ⟨hfree, rfl⟩ := ha
    refine h.move rfl (fun q chan hq _ => .inl (h.waits hinv.mutex hfree hq)) (fun hs => ?_) trivial
    rw [show posStoring (.call next) = false from howes] at hs
    cases hs
  | data d next =>
    cases ha
    refine h.move rfl (fun q chan hq hw => ?_)
      (fun hs => .inl (hstoring.trans (howes.2 hs))) trivial
    obtain ⟨lk, hlk⟩ := Option.ne_none_iff_exists'.mp hkeeps.1
    refine (howes.1 chan (hw.imp_right fun hw => hwakes hw.2)).imp_right fun hw => ⟨?_, hw⟩
    exact hkeeps.2.trans hlk
  | killed next =>
    cases ha
    have hnext := hkeeps (s.proc p).killed
    refine h.move rfl (fun q chan hq hw => ?_) ?_ trivial
    · rcases hw with hw | ⟨hh, hw⟩
      · exact .inl hw
      · obtain ⟨hfalse, rfl, hst⟩ := howes.1 chan (hwakes hw)
        cases hk : (s.proc p).killed with
        | false => exact .inr ⟨by rw [← hh, hheld, ← hnext, hk]; rfl, hfalse⟩
        | true => exact absurd hq (h.killed p (hstoring.trans hst) hk q)
    · intro hs
      cases hk : (s.proc p).killed with
      | false => exact .inr rfl
      | true =>
        rw [hk, show posStoring (.call (next true)) = false from howes.2] at hs
        cases hs
  | sleep chan lk next =>
    cases ha
    exact h.sleep hinv.mutex hp hkeeps.1 howes.1 hpost.1 howes.2 rfl rfl rfl
  | wakeup chan next =>
    cases ha
    refine h.move rfl (fun q chan' hq hw => ?_) (by rintro ⟨⟩) howes.2
    refine hw.imp_right fun hw => ⟨?_, ?_⟩
    · rw [← hw.1, hheld]
      exact hkeeps
    · exact (howes.1 chan' (hwakes hw.2)).imp_left fun he => ⟨he.symm, Nat.zero_le _⟩
  | leave lk d effect r =>
    obtain ⟨-, rfl, -⟩ := hpost
    cases ha
    refine h.move rfl (fun q chan hq hw => ?_) (by rintro ⟨⟩) trivial
    exact .inl (howes.2 chan (h.waits_of_paid hinv.mutex hp hkeeps howes.1 hq))
  | setParent pp parent next => exact howes.elim
  | exit lk status => exact howes.elim

theorem not_sleeping_wakeOne {q : Proc Chan} :
    ¬((Sleep.wakeOne chan q).state = .sleeping ∧ (Sleep.wakeOne chan q).chan = some chan) := by
  unfold Sleep.wakeOne
  split
  · simp
  · assumption

theorem sleeping_of_wakeOne {chan chan' : Chan} {q : Proc Chan}
    (h : (Sleep.wakeOne chan q).state = .sleeping ∧ (Sleep.wakeOne chan q).chan = some chan') :
    q.state = .sleeping ∧ q.chan = some chan' := by
  unfold Sleep.wakeOne at h
  split at h
  · simp at h
  · exact h

theorem killed_wakeOne (chan : Chan) (q : Proc Chan) :
    (Sleep.wakeOne chan q).killed = q.killed := by
  unfold Sleep.wakeOne
  split <;> rfl

theorem Woken.wakeupStep (h : Woken s) (hs : (s.proc p).state = .running) {j : Nat}
    {next : Place} (hp : s.pos p = .waking chan j next) :
    Woken (Sleep.wakeupStep s p chan j next) := by
  have hheld : (s.pos p).held held = held next := by rw [hp]; rfl
  have hrests := h.rests p
  rw [hp] at hrests
  unfold Sleep.wakeupStep
  split
  · rename_i hj
    have hpaid : ∀ q chan', ¬(chan = chan' ∧ q = ⟨j, hj⟩) →
        chan'.Waits s.data ∨ (s.pos p).held held = some () ∧ posWakes chan' q (s.pos p) →
        chan'.Waits s.data ∨ (Pos.waking chan (j + 1) next).held held = some () ∧
          posWakes chan' q (.waking chan (j + 1) next) := by
      intro q chan' hne hw
      refine hw.imp_right fun ⟨hh, hw⟩ => ⟨by rw [← hh, hheld]; rfl, ?_⟩
      rw [hp] at hw
      refine hw.imp_left fun ⟨he, hle⟩ => ⟨he, Nat.lt_of_le_of_ne hle fun hjq => ?_⟩
      exact hne ⟨he, Fin.ext hjq.symm⟩
    -- Slot `j` does not sleep on the channel then: it has been woken up, or it is `p`.
    by_cases hjp : (⟨j, hj⟩ : Slot) = p
    · rw [if_neg (by simpa using hjp)]
      refine h.move rfl (fun q chan' hq => hpaid q chan' ?_) (nofun) hrests
      rintro ⟨-, rfl⟩
      have hst : (s.proc ⟨j, hj⟩).state = .sleeping := hq.1
      rw [hjp, hs] at hst
      cases hst
    rw [if_pos hjp]
    refine h.move rfl (fun q chan' hq => hpaid q chan' ?_) (nofun) hrests ?_ ?_
    · rintro ⟨rfl, rfl⟩
      obtain ⟨hst, hch⟩ := hq
      simp only [Sleep.State.goto, Sleep.State.upd, update_self] at hst hch
      exact not_sleeping_wakeOne ⟨hst, hch⟩
    · rintro q chan' ⟨hst, hch⟩
      rcases eq_or_ne q ⟨j, hj⟩ with rfl | hq
      · simp only [Sleep.State.goto, Sleep.State.upd, update_self] at hst hch
        exact sleeping_of_wakeOne ⟨hst, hch⟩
      · simp only [Sleep.State.goto, Sleep.State.upd, update_of_ne hq] at hst hch
        exact ⟨hst, hch⟩
    · intro q
      rcases eq_or_ne q ⟨j, hj⟩ with rfl | hq
      · simp [Sleep.State.goto, Sleep.State.upd, killed_wakeOne]
      · simp [Sleep.State.goto, Sleep.State.upd, hq]
  · rename_i hj
    refine h.move rfl (fun q chan' hq hw => ?_) (fun hs => ?_) trivial
    · refine hw.imp_right fun ⟨hh, hw⟩ => ⟨by rw [← hh, hheld]; rfl, ?_⟩
      rw [hp] at hw
      exact hw.resolve_left fun he => hj (Nat.lt_of_le_of_lt he.2 q.isLt)
    · rw [show posStoring (.call next) = false from hrests] at hs
      cases hs

/-- No `kkill` reaches a `pipewrite` that is storing bytes, between a test of `killed` that let it
store one and a further test, while a process sleeps on `&pi->nread`. -/
def SparesWriter (s : State) : Event → Prop
  | .kill _ v => ¬(posStoring (s.pos v) = true ∧ ∃ q, SleepsOn s q .nread)
  | _ => True

instance (s : State) : (e : Event) → Decidable (SparesWriter s e)
  | .kill _ v =>
    inferInstanceAs (Decidable (¬(posStoring (s.pos v) = true ∧ ∃ q, SleepsOn s q .nread)))
  | .sched _ | .yield _ | .call _ _ | .run _ _ | .intr _ => inferInstanceAs (Decidable True)

theorem Woken.step (h : Woken s) (hinv : PipeInv s) {e : Event} (hok : SparesWriter s e)
    (hstep : step s e = some s') : Woken s' := by
  -- The scheduler moves processes between RUNNABLE and RUNNING.
  have hsched : ∀ (p : Slot) (f : Proc Chan → Proc Chan), (f (s.proc p)).state ≠ .sleeping →
      (f (s.proc p)).killed = (s.proc p).killed → Woken (s.upd p f) := by
    intro p f hf hk
    have hsleep : ∀ q chan, SleepsOn (s.upd p f) q chan → SleepsOn s q chan := by
      rintro q chan ⟨hst, hch⟩
      rcases eq_or_ne q p with rfl | hq
      · exact absurd (by simpa [Sleep.State.upd] using hst) hf
      · simpa [SleepsOn, Sleep.State.upd, hq] using And.intro hst hch
    refine ⟨fun q chan hq => h.sleepers q chan (hsleep q chan hq), fun p' hp' hk' q hq => ?_,
      h.rests⟩
    refine h.killed p' hp' ?_ q (hsleep q .nread hq)
    rcases eq_or_ne p' p with rfl | hne
    · simpa [Sleep.State.upd, hk] using hk'
    · simpa [Sleep.State.upd, hne] using hk'
  cases step_moves hstep with
  | sched => exact hsched _ _ (by simp) rfl
  | yield => exact hsched _ _ (by simp) rfl
  | kill => exact h.kill hok
  | @call p call hs hp =>
    refine h.move rfl (fun q chan _ hw => ?_) (fun hst => ?_) trivial
    · refine hw.imp_right ?_
      rintro ⟨hh, _⟩
      rw [hp] at hh
      cases hh
    · cases call <;> cases hst
  | act hs hp hc ha => exact h.perform hinv hp hc ha
  | waking hs hp => exact h.wakeupStep hs hp
  | @awake p _ lk next hs hp =>
    have hwoken := hsched p (fun q => { q with chan := none }) (by simp [hs]) rfl
    have hrests := h.rests p
    rw [hp] at hrests
    refine hwoken.move rfl (fun q chan _ hw => ?_) (by rintro ⟨⟩) hrests
    refine hw.imp_right ?_
    rintro ⟨hh, _⟩
    rw [show (s.upd p _).pos p = .asleep lk next from hp] at hh
    cases hh
  | @relock p _ lk next hs hp hfree =>
    have hrests := h.rests p
    rw [hp] at hrests
    refine h.move rfl
      (fun q chan hq _ => .inl (h.waits hinv.mutex hfree hq)) (fun hst => ?_) trivial
    rw [show posStoring (.call next) = false from hrests] at hst
    cases hst
  | @intr i => exact i.elim

theorem reachable_woken (h : Reachable Start (restrict SparesWriter step) s) : Woken s := by
  induction h with
  | start h => exact h.woken
  | next e hreach hstep ih =>
    obtain ⟨hok, hstep⟩ := restrict_eq_some.mp hstep
    exact ih.step (reachable_pipeInv hreach.of_restrict) hok hstep

/-- **No lost wakeup.** In every interleaving in which `kkill` spares the writers that are storing
bytes for a sleeping reader and test `killed` again, while `pi->lock` is free a process sleeps on
`&pi->nread` only if the pipe is empty with its write end open, and on `&pi->nwrite` only if it is
full with its read end open. -/
theorem pipe_no_lost_wakeup (h : Reachable Start (restrict SparesWriter step) s)
    (hfree : s.lock () = none) (q : Slot) :
    (SleepsOn s q .nread → s.data.isEmpty = true ∧ s.data.writeopen = true) ∧
      (SleepsOn s q .nwrite → s.data.isFull = true ∧ s.data.readopen = true) := by
  have hm := (reachable_pipeInv h.of_restrict).mutex
  have hwoken := reachable_woken h
  exact ⟨fun hq => hwoken.waits hm hfree hq, fun hq => hwoken.waits hm hfree hq⟩

def readerSleeps : List Event := .call 0 (.read 1) :: List.replicate 3 (.run 0 true)

/-- A writer takes the lock and is killed before it tests `killed`. -/
def killedWriter : List Event :=
  [.call 1 (.write (fun _ => 7) 2), .run 1 true, .kill 1 1, .run 1 true, .run 1 true]

theorem pipe_no_lost_wakeup_killedWriter :
    ∃ s, Reachable Start (restrict SparesWriter step) s ∧ s.lock () = none ∧
      SleepsOn s 0 .nread ∧ (s.proc 1).killed = true ∧
      ((SleepsOn s 0 .nread → s.data.isEmpty = true ∧ s.data.writeopen = true) ∧
        (SleepsOn s 0 .nwrite → s.data.isFull = true ∧ s.data.readopen = true)) := by
  have hrun : (runEvents (restrict SparesWriter step) start (readerSleeps ++ killedWriter)).any
      (fun s => decide (s.lock () = none ∧ SleepsOn s 0 .nread ∧ (s.proc 1).killed = true)) := by
    decide +kernel
  obtain ⟨s, hreach, hfree, hsleeps, hkilled⟩ := Reachable.exists_run start_start hrun
  exact ⟨s, hreach, hfree, hsleeps, hkilled, pipe_no_lost_wakeup hreach hfree 0⟩

def killedStoring : List Event :=
  .call 1 (.write (fun _ => 7) 2) :: List.replicate 3 (.run 1 true) ++
    [.kill 1 1, .run 1 true, .run 1 true]

/-- A process sleeps on `&pi->nread` although the pipe holds a byte and `pi->lock` is free. -/
theorem reader_sleeps_on_bytes :
    ∃ s, Reachable Start step s ∧ s.lock () = none ∧ SleepsOn s 0 .nread ∧
      s.data.content = [7] := by
  have hrun : (runEvents step start (readerSleeps ++ killedStoring)).any (fun s =>
      decide (s.lock () = none ∧ SleepsOn s 0 .nread ∧ s.data.content = [7])) := by
    decide +kernel
  exact Reachable.exists_run start_start hrun

end Xv6.Ipc
