import Xv6.Sched.Deeds

/-! The steps of `kfork`, `kexit` and `kwait` that change the process tree or look at it follow the
protocol, and with them every step of the machine does. -/

namespace Xv6.Sched

open Function
open Wait (Slot ProcState Chan initproc)

variable {κ : Type} [DecidableEq κ] {s s' s₁ : State κ} {c : κ} {t : Thread κ} {g f : Frame}
  {frames : List Frame} {act : Act} {next : Next} {p q : Slot} {status : Int} {addr : Nat}

/-! `allocproc`. -/

theorem renew_proto (h : Inv s) (hq : (s.proc q).state = .unused) :
    (s.renew q).proto = s.proto := by
  have hrests : Rests s q := by
    refine h.rests ?_ ?_ <;> rw [hq]
    · decide
    · rintro (h' | h' | h') <;> cases h'
  have hpend : ∀ r chan lk, Pending (s.renew q) r chan lk = Pending s r chan lk := by
    intro r chan lk
    by_cases e : r = q
    · have hno : ¬Pending s q chan lk := by
        rintro (⟨c, hsp, -⟩ | ⟨-, hst, -⟩)
        · exact hrests c hsp
        · rw [hq] at hst
          cases hst
      have hno' : ¬Pending (s.renew q) q chan lk := by
        rintro (⟨c, hsp, -⟩ | ⟨-, hst, -⟩)
        · exact hrests c hsp
        · rw [renew_proc, hq] at hst
          cases hst
      rw [e]
      exact propext (iff_of_false hno' hno)
    · simp only [Pending, renew_proc, renew_context e]
      rfl
  have hparent : ∀ r, ((s.renew q).proc r).parent = (s.proc r).parent := by
    intro r
    by_cases e : r = q
    · rw [e, State.renew, State.upd_proc_self]
    · rw [State.renew, State.upd_proc_ne _ e]
  have hphase : ∀ c, (s.renew q).phase c = s.phase c := by
    intro c
    show (s.cur c).pc.phase ((s.renew q).stack (s.cur c).sp) = _
    rw [renew_stack (hrests c)]
    rfl
  simp only [State.proto, Proto.mk.injEq]
  refine ⟨?_, rfl, funext hphase, funext hparent, ?_⟩
  · funext r chan lk
    exact hpend r chan lk
  · funext r
    rw [renew_proc]

theorem Sound.renew (h : Sound s) (hq : (s.proc q).state = .unused) : Sound (s.renew q) := by
  have hproto := renew_proto h.inv hq
  have hbelow : ∀ t, Below ((s.renew q).stack t) := by
    intro t
    by_cases e : t = .proc q
    · rw [e, show (s.renew q).stack (.proc q) = [] from update_self ..]
      trivial
    · rw [renew_stack e]
      exact h.stack t
  refine ⟨h.inv.renew hq, by rw [hproto]; exact h.proto, fun r hr => ?_, hbelow, fun c hc => ?_⟩
  · have hne : r ≠ q := by
      rintro rfl
      rw [renew_proc, hq] at hr
      cases hr
    rw [renew_proc] at hr
    obtain ⟨chan, lk, hchan, hp⟩ := h.sleepers r hr
    refine ⟨chan, lk, ?_, ?_⟩
    · rw [State.renew, State.upd_proc_ne _ hne]
      exact hchan
    · have := congrFun (congrFun (congrFun (congrArg Proto.pend hproto) r) chan) lk
      exact this.mpr hp
  · have hsp : (s.cur c).sp ≠ .proc q := by
      refine h.inv.rests ?_ ?_ c <;> rw [hq]
      · decide
      · rintro (h' | h' | h') <;> cases h'
    show (phaseOf ((s.renew q).stack (s.cur c).sp)).holds = false
    rw [renew_stack hsp]
    exact h.irq c hc

theorem alloc_mild (s : State κ) (q : Slot) (c : κ) : Mild (s.renew q) (alloc s q true) c := by
  have hm : Mild (s.renew q) ((s.renew q).upd q fun r =>
      { r with state := .used, pid := s.nextpid }) c := .upd rfl nofun nofun fun _ he => he
  have hproc : (alloc s q true).proc = ((s.renew q).upd q fun r =>
      { r with state := .used, pid := s.nextpid }).proc := by
    simp [alloc, State.upd, State.renew, update_idem]
  refine ⟨⟨fun r => ?_, fun r => ?_, fun _ _ _ => Iff.rfl⟩, fun r => ?_, fun r => ?_,
    fun r => ?_⟩ <;>
    rw [hproc]
  · exact hm.tame.asleep r
  · exact hm.tame.saved r
  · exact hm.sleeping r
  · exact hm.zombie r
  · exact hm.parent r

theorem Sound.alloc (h : Sound s) (hinv : Inv s') (hcur : s.cur c = ⟨t, .forkTest p q⟩)
    (hstate : (s.proc q).state = .unused)
    (hs' : (Sched.alloc s q true).next c (.goto (.forkRel p q)) = some s') : Sound s' := by
  have h₀ := h.renew hstate
  have hcur₀ : (s.renew q).cur c = ⟨t, .forkTest p q⟩ := hcur
  have hstill : Still (s.renew q) (Sched.alloc s q true) c := ⟨rfl, rfl, fun _ _ => rfl⟩
  obtain rfl := next_goto hstill hcur₀ hs'
  exact h₀.mild hinv hcur₀ (hstill.jump hcur₀ _ _) (alloc_mild s q c).jump rfl .idle nofun
    (h₀.stack t) nofun

/-! The parents of processes and their `ZOMBIE` children. -/

section

variable (h : Sound s) (hinv : Inv s')

include h hinv

/-- A write to `parent`, under `wait_lock`. -/
theorem Sound.setParent (hcur : s.cur c = ⟨t, g⟩)
    (m : Move s s' c ⟨t, f⟩ frames)
    (hproc : s'.proc = (s.upd q (Write.parent (some p)).apply).proc) (hlock : s'.lock = s.lock)
    (hg : ∀ rest, g.phase rest = .hold) (hsleeper : g.sleeper = none) (hsleeper' : f.sleeper = none)
    (hzombie : (s.proc q).state = .zombie →
      ∃ i site, f.phase frames = .wake (.proc p) i site ∧ (f.phase frames).holds = true)
    (hgood : s'.proto.Good c (f.phase frames)) (hbelow : Below frames) (hirq : f ≠ .irq) :
    Sound s' := by
  have hself : s'.proc q = { s.proc q with parent := some p } := by
    rw [hproc]
    exact State.upd_proc_self _
  have hne : ∀ {r}, r ≠ q → s'.proc r = s.proc r := by
    intro r hr
    rw [hproc]
    exact State.upd_proc_ne _ hr
  have hsame : ∀ r, (s'.proc r).state = (s.proc r).state ∧ (s'.proc r).chan = (s.proc r).chan ∧
      (s'.proc r).context = (s.proc r).context := by
    intro r
    by_cases e : r = q
    · subst e
      rw [hself]
      exact ⟨rfl, rfl, rfl⟩
    · rw [hne e]
      exact ⟨rfl, rfl, rfl⟩
  have hwait : s.lock (.cond .wait) = some c := (h.good hcur).hold (by rw [hg]; rfl)
  refine h.inner hinv hcur m
    ⟨fun r _ hr => (hsame r).1.symm.trans hr, fun r _ => (hsame r).2.2, fun _ _ _ => by rw [hlock]⟩
    (fun _ hx => ?_) (fun r hr => .inl ⟨(hsame r).1.symm.trans hr, (hsame r).2.1⟩)
    (fun _ _ hx => ?_) (fun r hr => .inl ((hsame r).1.symm.trans hr)) (fun r p' hr => ?_) hgood
    (fun _ _ _ hph => ?_) hbelow fun he => absurd he hirq
  · cases hsleeper.symm.trans hx
  · cases hsleeper'.symm.trans hx
  · by_cases e : r = q
    · subst e
      rw [hself] at hr ⊢
      cases hr
      exact .inr ⟨hwait, hzombie⟩
    · rw [hne e] at hr
      exact .inl hr
  · rw [hg] at hph
    cases hph

theorem Sound.forkParent (hcur : s.cur c = ⟨t, .forkParent p q⟩)
    (hs' : (s.upd q (Write.parent (some p)).apply).next c (.goto (.forkWaitRel q)) = some s') :
    Sound s' := by
  obtain rfl := next_goto Still.upd hcur hs'
  refine h.setParent hinv hcur (Still.upd.jump hcur _ _) rfl rfl (fun _ => rfl) rfl rfl
    (fun hz => ?_) (.of_hold ((h.good hcur).hold rfl)) (h.stack t) nofun
  -- the child is not there yet
  rw [(h.inv.creating.used t _ q (.inr ⟨c, hcur⟩) rfl).1] at hz
  cases hz

theorem Sound.adopt (hcur : s.cur c = ⟨t, .reparent p status q.val⟩)
    (hs' : (s.upd q (Write.parent (some initproc)).apply).next c
      (.call (.reparent p status (q.val + 1)) (.wakeup (.proc initproc) 0)) = some s') :
    Sound s' := by
  obtain rfl := next_call Still.upd hcur hs'
  exact h.setParent hinv hcur (Still.upd.jump hcur _ _) rfl rfl (fun _ => rfl) rfl rfl
    (fun _ => ⟨0, .reparent, rfl, rfl⟩) (.called ((h.good hcur).hold rfl) nofun)
    ⟨nofun, h.stack t⟩ nofun

theorem Sound.exitWake (hcur : s.cur c = ⟨t, .exitWake p status⟩)
    (hs' : s.next c (.call (.exitLock p status) (.wakeup (parentChan (s.proc p).parent) 0)) =
      some s') : Sound s' := by
  obtain rfl := next_call Still.refl hcur hs'
  refine h.mild hinv hcur (Still.refl.jump hcur _ _) Mild.refl.jump rfl
    (.called ((h.good hcur).hold rfl) fun p' hp' r hr => ?_) nofun ⟨nofun, h.stack t⟩ nofun
  cases hp'
  rw [show (s.proc p).parent = some r from hr, parentChan]

theorem Sound.exitZombie (hcur : s.cur c = ⟨t, .exitZombie p status⟩)
    (hs' : (s.upd p (Write.zombie status).apply).next c (.goto (.exitRel p)) = some s') :
    Sound s' := by
  obtain rfl := next_goto Still.upd hcur hs'
  have hself : (s.upd p (Write.zombie status).apply).proc p =
      { s.proc p with xstate := status, state := .zombie } := State.upd_proc_self _
  have hne : ∀ {q}, q ≠ p → (s.upd p (Write.zombie status).apply).proc q = s.proc q :=
    State.upd_proc_ne _
  have hsleeping : ∀ q, ((s.upd p (Write.zombie status).apply).proc q).state = .sleeping →
    q ≠ p := by
    rintro q hq rfl
    rw [hself] at hq
    cases hq
  refine h.inner hinv hcur (Still.upd.jump hcur _ _)
    ⟨fun q _ hq => ?_, fun q _ => ?_, fun _ _ _ => Iff.rfl⟩ nofun (fun q hq => .inl ?_) nofun
    (fun q hq => ?_) (fun q p' hq => .inl ?_) (.of_hold ((h.good hcur).hold rfl)) nofun (h.stack t)
    nofun
  · rw [jump_proc] at hq
    have e := hsleeping q hq
    rwa [hne e] at hq
  · rw [jump_proc]
    by_cases e : q = p
    · rw [e, hself]
    · rw [hne e]
  · rw [jump_proc] at hq ⊢
    have e := hsleeping q hq
    rw [hne e] at hq ⊢
    exact ⟨hq, rfl⟩
  · by_cases e : q = p
    · rw [e]
      exact .inr rfl
    · rw [jump_proc, hne e] at hq
      exact .inl hq
  · rw [jump_proc] at hq
    by_cases e : q = p
    · subst e
      rwa [hself] at hq
    · rwa [hne e] at hq

end

/-- The scan of `kwait` passes slots that are no zombie children. -/
theorem Sound.scan {i j : Nat} (h : Sound s) (hinv : Inv s') (hcur : s.cur c = ⟨t, g⟩)
    (hs' : s.next c (.goto f) = some s') (hg : ∀ rest, g.phase rest = .scan p i)
    (hf : ∀ rest, f.phase rest = .scan p j) (hsleeper : f.sleeper = g.sleeper)
    (hpass : ∀ q : Slot, q.val < j → i ≤ q.val → (s.proc q).parent = some p →
      (s.proc q).state ≠ .zombie) : Sound s' := by
  obtain rfl := next_goto Still.refl hcur hs'
  have hgood := h.good hcur
  rw [hg] at hgood
  have hirq : f ≠ .irq := by
    rintro rfl
    cases hf []
  refine h.mild hinv hcur (Still.refl.jump hcur _ _) Mild.refl.jump hsleeper ?_
    (fun _ _ _ hph => ?_) (h.stack t) fun he => absurd he hirq
  · rw [hf]
    refine .of_scan (hgood.hold rfl) fun q hq hp hz => ?_
    by_cases hlt : q.val < i
    · exact hgood.scan p i rfl q hlt hp hz
    · exact hpass q hq (Nat.not_lt.mp hlt) hp hz
  · rw [hg] at hph
    cases hph

theorem Sound.waitSleep (h : Sound s) (hinv : Inv s')
    (hcur : s.cur c = ⟨t, .waitKilledRel p addr false⟩)
    (hp : perform s c (.release (.proc p)) = some s₁) (hpanic : s₁.panic = none)
    (hs' : s₁.next c (.call (.waitScan p addr 0 false) (.sleep (.proc p) .wait)) = some s') :
    Sound s' := by
  have hm := perform_mild hp hpanic rfl
  have hstill := perform_still hp hpanic rfl
  obtain rfl := next_call hstill hcur hs'
  have hmove := hstill.jump hcur (.sleep (.proc p) .wait) (.waitScan p addr 0 false :: s.stack t)
  have hlk := perform_cond hp hpanic rfl rfl
  exact h.mild hinv hcur hmove hm.jump rfl (h.good_mono hcur hmove hm.jump rfl hlk) nofun
    ⟨nofun, h.stack t⟩ nofun

/-! Every step. -/

/-- Every step that the code makes follows the protocol. -/
theorem Sound.deed (h : Sound s) (hinv : Inv s') (hcur : s.cur c = ⟨t, g⟩)
    (hd : Deed s c g act next)
    (hp : perform s c act = some s₁) (hpanic : s₁.panic = none) (hs' : s₁.next c next = some s') :
    Sound s' := by
  cases hd with
  | keep hact hcond hphase hsleeper hirq =>
    exact h.keep hinv hcur hact hcond hphase hsleeper hirq hp hpanic hs'
  | idle hact hg hphase hsleeper hirq =>
    exact h.idle hinv hcur hact hg hphase hsleeper hirq hp hpanic hs'
  | call hg hphase hsleeper hirq hr =>
    cases hp
    exact h.call hinv hcur hg hphase hsleeper hirq hr hs'
  | ret hact hsleeper hg => exact h.ret hinv hcur hact hsleeper hg hp hpanic hs'
  | take hg hphase hsleeper => exact h.take hinv hcur hg hphase hsleeper hp hpanic hs'
  | hold hact hcond hg hholds hphase hsleeper =>
    exact h.hold hinv hcur hact hcond hg hholds hphase hsleeper hp hpanic hs'
  | sleepRel hg =>
    subst hg
    exact h.sleepRel hinv hcur hp hpanic hs'
  | sleepSet hg =>
    subst hg
    cases hp
    exact h.sleepSet hinv hcur hs'
  | swtchSave hg =>
    subst hg
    exact h.swtchSave hinv hcur hp hs'
  | swtchLoad hg =>
    subst hg
    cases Option.some.inj hs'
    exact h.swtchLoad hinv hcur hp
  | load hg =>
    subst hg
    cases Option.some.inj hs'
    exact h.load hinv hcur hp
  | tidy hg =>
    subst hg
    cases hp
    exact h.tidy hinv hcur hs'
  | relock hg =>
    subst hg
    exact h.relock hinv hcur hp hpanic hs'
  | skip hg hproc =>
    subst hg
    cases hp
    exact h.skip hinv hcur hproc hs'
  | done hg hi =>
    subst hg
    cases hp
    exact h.done hinv hcur hi hs'
  | wake hg hstate =>
    subst hg
    cases hp
    exact h.wake hinv hcur hs'
  | pass hg hstate =>
    subst hg
    cases hp
    exact h.pass hinv hcur hstate hs'
  | alloc hg hstate =>
    subst hg
    cases hp
    exact h.alloc hinv hcur hstate hs'
  | forkParent hg =>
    subst hg
    cases hp
    exact h.forkParent hinv hcur hs'
  | adopt hg =>
    subst hg
    cases hp
    exact h.adopt hinv hcur hs'
  | exitWake hg =>
    subst hg
    cases hp
    exact h.exitWake hinv hcur hs'
  | exitZombie hg =>
    subst hg
    cases hp
    exact h.exitZombie hinv hcur hs'
  | @scanNext p i addr havekids hg hparent =>
    subst hg
    cases hp
    refine h.scan hinv hcur hs' (fun _ => rfl) (fun _ => rfl) rfl fun q hlt hle hq => ?_
    obtain rfl : q = i := Fin.ext (by omega)
    exact absurd hq hparent
  | scanDone hg hi =>
    subst hg
    cases hp
    exact h.scan hinv hcur hs' (fun _ => rfl) (fun _ => rfl) rfl fun q hlt hle => by omega
  | @scanTest p i addr hg hstate =>
    subst hg
    cases hp
    refine h.scan hinv hcur hs' (fun _ => rfl) (fun _ => rfl) rfl fun q hlt hle _ => ?_
    obtain rfl : q = i := Fin.ext (by omega)
    exact hstate
  | waitSleep hg =>
    subst hg
    exact h.waitSleep hinv hcur hp hpanic hs'
  | panic =>
    cases hp
    cases hpanic

theorem Sound.intr (h : Sound s) (hsie : (s.core c).sie = true) :
    Sound ((s.jump c .irq ((s.cur c).pc :: s.stack (s.cur c).sp)).updCore c fun core =>
      { core with sie := false }) := by
  have hinv := h.inv.intr hsie
  generalize hcur : s.cur c = x at hinv ⊢
  obtain ⟨t, g⟩ := x
  have hg : g.plock t = none := by
    have := h.inv.plock_of_sie hsie
    rwa [hcur] at this
  have hholds : (g.phase (s.stack t)).holds = false := by
    by_contra hh
    exact h.inv.no_lock (h.inv.spin.sie c hsie) _ ((h.good hcur).hold (by simpa using hh))
  rw [jump_intr] at hinv ⊢
  have hm : Mild s (s.updCore c fun core => { core with sie := false }) c :=
    .of_proc rfl fun _ _ _ => Iff.rfl
  have hstill : Still s (s.updCore c fun core => { core with sie := false }) c :=
    .of_updCore rfl rfl rfl
  refine h.mild hinv hcur (hstill.jump hcur .irq (g :: s.stack t)) hm.jump
    (Frame.sleeper_of_plock_none hg).symm .idle (fun _ _ _ _ hh => ?_) ⟨fun he => ?_, h.stack t⟩
    fun _ => hholds
  · rw [hholds] at hh
    cases hh
  · rw [he] at hcur
    exact h.irq_of hcur

theorem Sound.step {e : Event κ} (h : Sound s) (hs : step s e = some s') : Sound s' := by
  have hinv := h.inv.step hs
  cases e with
  | run c choice =>
    obtain ⟨act, next, hcode, hcase⟩ := step_run hs
    rcases hcase with ⟨msg, rfl⟩ | ⟨s₁, hp, hpanic, hnext⟩
    · exact h.panic _
    · exact h.deed hinv rfl (code_deed rfl hcode) hp hpanic hnext
  | intr c =>
    simp only [Sched.step] at hs
    split at hs
    · cases hs
      exact h.intr (by simp_all)
    · cases hs

omit [DecidableEq κ] in
theorem boot_sound : Sound (boot : State κ) := by
  have hstate : ∀ q, ((boot : State κ).proc q).state = .runnable ∨
      ((boot : State κ).proc q).state = .unused := by
    intro q
    by_cases e : q = initproc
    · exact .inl (if_pos e)
    · exact .inr (if_neg e)
  refine ⟨boot_inv, ⟨fun c => .idle, fun p q _ hq => ?_⟩, fun q hq => ?_, fun _ => trivial, nofun⟩
  · cases hq
  · rcases hstate q with h | h <;> cases h.symm.trans hq

theorem Sound.of_reachable (h : Reachable (· = (boot : State κ)) Sched.step s) : Sound s :=
  h.invariant (fun _ he => he ▸ boot_sound) fun _ _ _ h hs => h.step hs

end Xv6.Sched
