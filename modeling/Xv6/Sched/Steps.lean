import Xv6.Sched.Invariant

/-! Every step of the machine keeps the invariant. -/

namespace Xv6.Sched

open Function State
open Wait (Slot ProcState Chan initproc)

variable {κ : Type} [DecidableEq κ] {s s' s₁ : State κ} {c c' : κ} {t : Thread κ} {g f : Frame}
  {frames : List Frame} {act : Act} {next : Next} {p q : Slot}

/-! Steps inside of a thread. -/

theorem Inv.contexts_inner (h : Inv s) (m : Move s s' c ⟨t, f⟩ frames) (ht : (s.cur c).sp = t)
    (hloads : f.loads = false) (hsaved : ∀ q, (s'.proc q).context = (s.proc q).context)
    (hcontext : (s'.core c).context = (s.core c).context)
    (hlive : ∀ p, Live (s'.proc p).state → Live (s.proc p).state ∨ Fresh s p) : Contexts s' where
  sched c' p hp := by
    by_cases e : c' = c
    · subst e
      rw [m.cur] at hp
      rcases hp with rfl | rfl
      · rw [hcontext, m.stack_ne (by rw [ht]; nofun)]
        exact h.contexts.sched c' p (.inl ht)
      · cases hloads
    · rw [m.cur_ne e] at hp
      rw [m.other c' e, m.stack_ne fun he => e (h.place.sched c c' he.symm)]
      exact h.contexts.sched c' p hp
  saving c' p k hp := by
    rw [hsaved]
    by_cases e : c' = c
    · subst e
      rw [m.cur] at hp
      subst hp
      cases hloads
    · rw [m.cur_ne e] at hp
      exact h.contexts.saving c' p k hp
  saved p hrests hp := by
    have hrests' : Rests s p := fun c' => by
      by_cases e : c' = c
      · have := hrests c
        rw [m.cur] at this
        rwa [e, ht]
      · rw [← m.cur_ne e]
        exact hrests c'
    rw [hsaved, m.stack_ne (Ne.symm (hrests' c))]
    rcases hlive p hp with hl | hfresh
    · exact h.contexts.saved p hrests' hl
    · rw [hfresh.context, hfresh.stack]
      exact ⟨rfl, rfl, .inl rfl⟩

/-- A slot that `allocproc` takes in a step. -/
structure Taken (s s' : State κ) (np : Slot) : Prop where
  unused : (s.proc np).state = .unused
  used : (s'.proc np).state = .used
  fresh : Fresh s np

/-- A slot that is taken and not started stays as it is while its creator does other things. -/
theorem Inv.fresh_move {x : Context κ} (h : Inv s) (m : Move s s' c x frames) (hp : Fresh s p)
    (hsaved : ∀ q, Rests s q → (s'.proc q).context = (s.proc q).context)
    (hstate : (s.proc p).state = .used ∨ (s.proc p).state = .unused) : Fresh s' p := by
  have hrests : Rests s p := by
    rcases hstate with hs | hs <;>
    · refine h.rests ?_ ?_ <;> rw [hs]
      · decide
      · rintro (h' | h' | h') <;> cases h'
  exact ⟨(hsaved p hrests).trans hp.context, (m.stack_ne (Ne.symm (hrests c))).trans hp.stack⟩

theorem Inv.creating_move {x : Context κ} (h : Inv s) (m : Move s s' c x frames)
    (hsaved : ∀ q, Rests s q → (s'.proc q).context = (s.proc q).context)
    (hold : ∀ t f np, Occurs s' t f → f.creates = some np →
      (∃ r, Occurs s t r ∧ r.creates = some np) ∧ (s'.proc np).state = .used ∨
        t = (s.cur c).sp ∧ Taken s s' np) : Creating s' where
  used t f np ho hf := by
    rcases hold t f np ho hf with ⟨⟨r, hr, hnp⟩, hused⟩ | ⟨-, htaken⟩
    · obtain ⟨hstate, hfresh⟩ := h.creating.used t r np hr hnp
      exact ⟨hused, h.fresh_move m hfresh hsaved (.inl hstate)⟩
    · exact ⟨htaken.used, h.fresh_move m htaken.fresh hsaved (.inr htaken.unused)⟩
  unique t t' f f' np ho ho' hf hf' := by
    have hne : ∀ {t r}, Occurs s t r → r.creates = some np → ¬Taken s s' np := by
      intro t r hr hnp htaken
      have := (h.creating.used t r np hr hnp).1
      rw [htaken.unused] at this
      cases this
    rcases hold t f np ho hf with ⟨⟨r, hr, hnp⟩, -⟩ | ⟨ht, htaken⟩ <;>
      rcases hold t' f' np ho' hf' with ⟨⟨r', hr', hnp'⟩, -⟩ | ⟨ht', htaken'⟩
    · exact h.creating.unique t t' r r' np hr hr' hnp hnp'
    · exact absurd htaken' (hne hr hnp)
    · exact absurd htaken (hne hr' hnp')
    · rw [ht, ht']

/-- A step from `g` to `f` in thread `t` that leaves the saved registers alone. -/
structure Inner (s s' : State κ) (c : κ) (t : Thread κ) (g f : Frame) (frames : List Frame) :
    Prop where
  move : Move s s' c ⟨t, f⟩ frames
  turn : Turn t f frames
  loads : f.loads = false
  proc : (s'.core c).proc = f.proc t
  context : (s'.core c).context = (s.core c).context
  saved : ∀ q, (s'.proc q).context = (s.proc q).context
  live : ∀ p, Live (s'.proc p).state → Live (s.proc p).state ∨ Fresh s p
  creates : ∀ np, (∃ r ∈ f :: frames, r.creates = some np) →
    (∃ r ∈ g :: s.stack t, r.creates = some np) ∨ Taken s s' np
  used : ∀ np, (s.proc np).state = .used → (s'.proc np).state = .used ∨
    g.creates = some np ∧ ∀ r ∈ f :: frames, r.creates ≠ some np

theorem Inv.inner (h : Inv s) (hcur : s.cur c = ⟨t, g⟩) (i : Inner s s' c t g f frames)
    (hown : s.own.Step c s'.own) (hspin : Spin s') (hplocks : Plocks s') : Inv s' := by
  have ht : (s.cur c).sp = t := by rw [hcur]
  have hframes := i.turn.stack
  refine ⟨h.own.step hown, ?_, hspin, hplocks,
    h.contexts_inner i.move ht i.loads i.saved i.context i.live, ?_⟩
  · refine h.place_move i.move i.turn.fits i.proc (fun c' hc => ?_) (by rwa [ht]) ?_
    · exact h.place.sched c c' (ht.trans hc)
    · rw [i.move.stack_self ht]
      exact i.turn.wf
  have hocc : ∀ r ∈ g :: s.stack t, Occurs s t r := by
    intro r hr
    rcases List.mem_cons.mp hr with rfl | hr
    · exact .inr ⟨c, hcur⟩
    · exact .inl hr
  refine h.creating_move i.move (fun q _ => i.saved q) fun t' f' np ho hnp => ?_
  have hcase : (t' = t ∧ f' ∈ f :: frames) ∨ t' ≠ t ∧ Occurs s t' f' := by
    rw [← ht]
    rcases i.move.occurs h ho with he | ⟨rfl, hf'⟩ | ho
    · cases he
      exact .inl ⟨ht.symm, List.mem_cons_self⟩
    · exact .inl ⟨rfl, List.mem_cons_of_mem _ hf'⟩
    · exact .inr ho
  rcases hcase with ⟨rfl, hf'⟩ | ⟨hne, ho'⟩
  · rcases i.creates np ⟨f', hf', hnp⟩ with ⟨r, hr, hr'⟩ | htaken
    · refine .inl ⟨⟨r, hocc r hr, hr'⟩, ?_⟩
      rcases i.used np (h.creating.used t' r np (hocc r hr) hr').1 with hu | ⟨-, hno⟩
      · exact hu
      · exact absurd hnp (hno f' hf')
    · exact .inr ⟨ht.symm, htaken⟩
  · refine .inl ⟨⟨f', ho', hnp⟩, ?_⟩
    rcases i.used np (h.creating.used t' f' np ho' hnp).1 with hu | ⟨hg, -⟩
    · exact hu
    · -- the slot belongs to this thread
      exact absurd (h.creating.unique t' t f' g np ho' (.inr ⟨c, hcur⟩) hnp hg) hne

/-! Steps that change no state of a process and no saved registers. -/

theorem jump_proc : (s.jump c f frames).proc = s.proc := rfl

theorem jump_core_proc : ((s.jump c f frames).core c).proc = (s.core c).proc := by
  simp [jump, updCore]

theorem jump_core_context : ((s.jump c f frames).core c).context = (s.core c).context := by
  simp [jump, updCore]

theorem jump_core_noff : ((s.jump c f frames).core c).noff = (s.core c).noff := by
  simp [jump, updCore]

/-- Quiet steps, and those that take or release a `p->lock`. -/
def Act.Calm : Act → Prop
  | .acquire (.proc _) | .release (.proc _) => True
  | act => act.Quiet

theorem Act.Quiet.calm (h : act.Quiet) : act.Calm := by
  unfold Calm
  split
  · trivial
  · trivial
  · exact h

structure Calm (s s₁ : State κ) (c : κ) : Prop where
  proc : (s₁.core c).proc = (s.core c).proc
  context : (s₁.core c).context = (s.core c).context
  state : ∀ q, (s₁.proc q).state = (s.proc q).state
  saved : ∀ q, (s₁.proc q).context = (s.proc q).context

theorem Calm.updCore {s₀ : State κ} {r : Core κ → Core κ} (hcore : s₀.core = s.core)
    (hproc : s₀.proc = s.proc) (hr : (r (s.core c)).proc = (s.core c).proc)
    (hr' : (r (s.core c)).context = (s.core c).context) : Calm s (s₀.updCore c r) c := by
  have hproc' : (s₀.updCore c r).proc = s.proc := hproc
  refine ⟨?_, ?_, fun q => by rw [hproc'], fun q => by rw [hproc']⟩
  · rw [updCore_core_self, hcore, hr]
  · rw [updCore_core_self, hcore, hr']

theorem perform_calm (hp : perform s c act = some s₁) (hpanic : s₁.panic = none)
    (hact : act.Calm) : Calm s s₁ c := by
  cases act with
  | nop =>
    cases hp
    exact ⟨rfl, rfl, fun _ => rfl, fun _ => rfl⟩
  | acquire lk =>
    obtain ⟨-, rfl⟩ := acquire_eq hp hpanic
    exact .updCore rfl rfl rfl rfl
  | release lk =>
    cases hp
    rw [(release_eq hpanic).2.2]
    exact .updCore rfl rfl rfl rfl
  | intena _ | sie _ =>
    cases hp
    exact .updCore rfl rfl rfl rfl
  | write q w =>
    cases hp
    have hw : (w.apply (s.proc q)).state = (s.proc q).state ∧
        (w.apply (s.proc q)).context = (s.proc q).context := by
      cases w <;> first | exact ⟨rfl, rfl⟩ | cases hact
    refine ⟨rfl, rfl, fun r => ?_, fun r => ?_⟩ <;>
    · by_cases e : r = q
      · rw [e, upd_proc_self]
        first | exact hw.1 | exact hw.2
      · rw [upd_proc_ne _ e]
  | _ => cases hact

theorem Act.Calm.switches (h : act.Calm) : act.switches = false := by
  cases act <;> first | rfl | cases h

theorem Inner.of_calm (h : Inv s) (hcur : s.cur c = ⟨t, g⟩) (hcalm : Calm s s₁ c)
    (hstill : Still s s₁ c) (hturn : Turn t f frames) (hloads : f.loads = false)
    (hproc : f.proc t = g.proc t) (hcreates : KeepsCreates g (s.stack t) f frames) :
    Inner s (s₁.jump c f frames) c t g f frames where
  move := hstill.jump hcur f frames
  turn := hturn
  loads := hloads
  proc := by rw [jump_core_proc, hcalm.proc, h.place.proc, hcur, hproc]
  context := by rw [jump_core_context, hcalm.context]
  saved := hcalm.saved
  live p hp := .inl (hcalm.state p ▸ hp)
  creates np hnp := .inl (hcreates np hnp)
  used np hnp := .inl ((hcalm.state np).trans hnp)

theorem Calm.own (hcalm : Calm s s₁ c) (hstill : Still s s₁ c) (hcur : s.cur c = ⟨t, g⟩)
    (hruns : f.runs t = g.runs t) (hplock : f.plock t = g.plock t) :
    s.own.Step c (s₁.jump c f frames).own := by
  rw [(hstill.jump hcur f frames).own_same hcalm.state (by rw [hcur]; exact hruns)
    (by rw [hcur]; exact hplock)]
  exact .stay

theorem perform_quiet_lock (hp : perform s c act = some s₁) (hpanic : s₁.panic = none)
    (hact : act.Quiet) (q : Slot) : s₁.lock (.proc q) = s.lock (.proc q) := by
  cases act with
  | acquire lk =>
    cases lk with
    | proc _ => cases hact
    | cond lk =>
      obtain ⟨-, rfl⟩ := acquire_eq hp hpanic
      show update s.lock (.cond lk) (some c) (.proc q) = _
      exact update_of_ne (by simp) _ _
  | release lk =>
    cases lk with
    | proc _ => cases hact
    | cond lk =>
      cases hp
      rw [(release_eq hpanic).2.2]
      show update s.lock (.cond lk) none (.proc q) = _
      exact update_of_ne (by simp) _ _
  | nop | write _ _ | intena _ | sie _ =>
    cases hp
    rfl
  | _ => cases hact

theorem Inv.opened (h : Inv s) (hcur : s.cur c = ⟨t, g⟩) (hnext : next.Open t g)
    (hstill : Still s s₁ c) (hs' : s₁.next c next = some s') :
    ∃ f frames, s' = s₁.jump c f frames ∧ Opened t g (s.stack t) next f frames := by
  have hwf := h.place.wf c
  have hstack := h.place.stack t
  rw [hcur, ← hstill.stack] at hwf
  rw [← hstill.stack] at hstack ⊢
  exact hnext.leads hwf hstack (hstill.cur.trans hcur) hs'

theorem Inv.unlocked (h : Inv s) (hcur : s.cur c = ⟨t, g⟩) (hquiet : act.Quiet)
    (hg : g.plock t = none) (hnext : next.Open t g)
    (hsolo : ∀ f, next = .goto f → f.solo → g.solo ∧ ∃ enable, act = .sie enable)
    (hret : next = .ret → g = .irq → act = .sie true)
    (hsie : act = .sie true → (s.core c).noff = 0) (hp : perform s c act = some s₁)
    (hpanic : s₁.panic = none) (hs' : s₁.next c next = some s') : Inv s' := by
  have hlock := perform_quiet_lock hp hpanic hquiet
  have hcalm := perform_calm hp hpanic hquiet.calm
  have hstill := perform_still hp hpanic hquiet.calm.switches
  obtain ⟨f, frames, rfl, ho⟩ := h.opened hcur hnext hstill hs'
  have hm := hstill.jump hcur f frames
  refine h.inner hcur (.of_calm h hcur hcalm hstill ho.turn (Frame.loads_of_plock_none ho.plock) ?_
    ho.creates) (hcalm.own hstill hcur ?_ ?_) (h.spin.perform hp hpanic hsie).jump
    (h.plocks.same hm ?_ ?_ fun hs => ?_)
  · rw [Frame.proc_of_plock_none ho.plock, Frame.proc_of_plock_none hg]
  · rw [Frame.runs_of_plock_none ho.turn.fits ho.plock, Frame.runs_of_plock_none (h.fits hcur) hg]
  · rw [ho.plock, hg]
  · exact hlock
  · rw [hcur]
    exact ho.plock.trans hg.symm
  · -- only `intr_on` and `intr_off` lead to a place of `scheduler` here
    have hnoff : (s.core c).noff = 0 ∧ ∃ enable, act = .sie enable := by
      rcases ho.solo hs with hgoto | ⟨hr, hirq⟩
      · obtain ⟨hsolo', henable⟩ := hsolo f hgoto hs
        exact ⟨h.solo_zero hcur hsolo' hg, henable⟩
      · have := hret hr hirq
        exact ⟨hsie this, _, this⟩
    obtain ⟨hzero, enable, rfl⟩ := hnoff
    cases hp
    rw [jump_core_noff, updCore_core_self]
    exact hzero.trans (if_pos ho.plock).symm

theorem next_goto (hstill : Still s s₁ c) (hcur : s.cur c = ⟨t, g⟩)
    (hs' : s₁.next c (.goto f) = some s') : s' = s₁.jump c f (s.stack t) := by
  have hsp : (s₁.core c).cur = ⟨t, g⟩ := hstill.cur.trans hcur
  rw [← Option.some.inj hs', hsp, hstill.stack]

theorem Inv.locked (h : Inv s) (hcur : s.cur c = ⟨t, g⟩) (hquiet : act.Quiet)
    (hg : g.plock t = some q) (hlike : Like t g f)
    (hsolo : f.solo → act = .nop ∧ (g.solo ∨ (s.core c).noff = 1)) (hsie : act ≠ .sie true)
    (hp : perform s c act = some s₁) (hpanic : s₁.panic = none)
    (hs' : s₁.next c (.goto f) = some s') : Inv s' := by
  have hlock := perform_quiet_lock hp hpanic hquiet
  have hcalm := perform_calm hp hpanic hquiet.calm
  have hstill := perform_still hp hpanic hquiet.calm.switches
  obtain rfl := next_goto hstill hcur hs'
  have hm := hstill.jump hcur f (s.stack t)
  refine h.inner hcur (.of_calm h hcur hcalm hstill (h.turn hcur hlike.fits hlike.level) hlike.loads
    hlike.proc (.goto hlike.creates)) (hcalm.own hstill hcur hlike.runs hlike.plock)
    (h.spin.perform hp hpanic fun he => absurd he hsie).jump
    (h.plocks.same hm hlock (by rw [hcur]; exact hlike.plock) fun hs => ?_)
  obtain ⟨rfl, hnoff⟩ := hsolo hs
  cases hp
  have hone : (s.core c).noff = 1 := by
    rcases hnoff with hgs | hone
    · exact h.solo_one hcur hgs hg
    · exact hone
  rw [jump_core_noff]
  exact hone.trans (if_neg (by simp [Context.plock, hlike.plock, hg])).symm

theorem Inv.acquire (h : Inv s) (hcur : s.cur c = ⟨t, g⟩) (hg : g.plock t = none)
    (hf : f.plock t = some q) (hfits : f.Fits t) (hruns : f.runs t = t.runs)
    (hproc : f.proc t = g.proc t) (hcreates : f.creates = g.creates) (hloads : f.loads = false)
    (hlevel : g.Level f) (hsolo : f.solo → g.solo)
    (hp : perform s c (.acquire (.proc q)) = some s₁) (hpanic : s₁.panic = none)
    (hs' : s₁.next c (.goto f) = some s') : Inv s' := by
  have hcalm := perform_calm hp hpanic trivial
  have hstill := perform_still hp hpanic rfl
  have hspin := h.spin.perform hp hpanic nofun
  obtain rfl := next_goto hstill hcur hs'
  obtain ⟨hfree, rfl⟩ := acquire_eq hp hpanic
  have hm := hstill.jump hcur f (s.stack t)
  have hruns' : f.runs t = (s.cur c).runs := by
    rw [hcur, hruns, Context.runs_mk, Frame.runs_of_plock_none (h.fits hcur) hg]
  refine h.inner hcur (.of_calm h hcur hcalm hstill (h.turn hcur hfits hlevel) hloads hproc
    (.goto hcreates)) ?_ hspin.jump (h.plocks.move hm (fun r c' => ?_) fun hs => ?_)
  · rw [hm.own_runs hcalm.state hruns', Context.plock_mk, hf]
    refine .acquire (by simp [State.own, hcur, hg]) fun c' hc' => ?_
    have := (h.plocks.lock c' q).mpr hc'
    rw [hfree] at this
    cases this
  · show update s.lock (.proc q) (some c) (.proc r) = some c' ↔ _
    rw [Context.plock_mk, hf]
    by_cases er : r = q
    · rw [er, update_self, hfree]
      by_cases e : c' = c
      · simp [e]
      · simp [e, Ne.symm e]
    · rw [update_of_ne (by simpa using er)]
      by_cases e : c' = c
      · rw [if_pos e, e, h.plocks.lock c r, hcur, Context.plock_mk, hg]
        simp [Ne.symm er]
      · rw [if_neg e]
  · rw [jump_core_noff, Context.plock_mk, hf, updCore_core_self]
    have hzero : (s.core c).noff = 0 := h.solo_zero hcur (hsolo hs) hg
    simp [Core.pushOff, hzero]

theorem Inv.release (h : Inv s) (hcur : s.cur c = ⟨t, g⟩) (hg : g.plock t = some q)
    (hruns : g.runs t = t.runs) (hproc : g.proc t = t.runs.map Prod.fst) (hnext : next.Open t g)
    (hsolo : ∀ f, next = .goto f → f.solo → g.solo)
    (hp : perform s c (.release (.proc q)) = some s₁) (hpanic : s₁.panic = none)
    (hs' : s₁.next c next = some s') : Inv s' := by
  have hcalm := perform_calm hp hpanic trivial
  have hstill := perform_still hp hpanic rfl
  have hspin := h.spin.perform hp hpanic nofun
  obtain ⟨f, frames, rfl, ho⟩ := h.opened hcur hnext hstill hs'
  have hm := hstill.jump hcur f frames
  have hruns' : f.runs t = (s.cur c).runs := by
    rw [hcur, Context.runs_mk, hruns, Frame.runs_of_plock_none ho.turn.fits ho.plock]
  refine h.inner hcur (.of_calm h hcur hcalm hstill ho.turn (Frame.loads_of_plock_none ho.plock) ?_
    ho.creates) ?_ hspin.jump (h.plocks.move hm (fun r c' => ?_) fun hs => ?_)
  · rw [Frame.proc_of_plock_none ho.plock, hproc]
  · rw [hm.own_runs hcalm.state hruns', Context.plock_mk, ho.plock]
    refine .release fun r hr => ?_
    simp only [State.own, hcur, Context.runs_mk, hruns] at hr
    cases t <;> cases hr
  all_goals
    cases hp
    obtain ⟨hlk, -, heq⟩ := release_eq hpanic
    rw [heq]
  · show update s.lock (.proc q) none (.proc r) = some c' ↔ _
    rw [Context.plock_mk, ho.plock]
    by_cases er : r = q
    · rw [er, update_self, hlk]
      by_cases e : c' = c
      · simp [e]
      · simp [e, Ne.symm e]
    · rw [update_of_ne (by simpa using er)]
      by_cases e : c' = c
      · rw [if_pos e, e, h.plocks.lock c r, hcur, Context.plock_mk, hg]
        simp [Ne.symm er]
      · rw [if_neg e]
  · rw [jump_core_noff, Context.plock_mk, ho.plock, updCore_core_self]
    have hone : (s.core c).noff = 1 := by
      rcases ho.solo hs with hgoto | ⟨-, rfl⟩
      · exact h.solo_one hcur (hsolo f hgoto hs) hg
      · cases hg
    simp [Core.popOff, hone]

/-! Steps that change the state of a process. -/

section

omit [DecidableEq κ]

theorem Write.apply_context (w : Write) (r : Proc κ) : (w.apply r).context = r.context := by
  cases w <;> rfl

theorem upd_state {w : Write} (r : Slot) : ((s.upd q w.apply).proc r).state =
    update s.own.state q (w.apply (s.proc q)).state r := by
  by_cases e : r = q
  · rw [e, upd_proc_self, update_self]
  · rw [upd_proc_ne _ e, update_of_ne e]
    rfl

theorem Still.upd {r : Proc κ → Proc κ} : Still s (s.upd q r) c := ⟨rfl, rfl, fun _ _ => rfl⟩

end

theorem Inner.of_write {w : Write} (h : Inv s) (hcur : s.cur c = ⟨t, g⟩)
    (hturn : Turn t f (s.stack t)) (hloads : f.loads = false) (hproc : f.proc t = g.proc t)
    (hcreates : KeepsCreates g (s.stack t) f (s.stack t))
    (hlive : Live (w.apply (s.proc q)).state → Live (s.proc q).state ∨ Fresh s q)
    (hused : (s.proc q).state = .used → (w.apply (s.proc q)).state = .used ∨
      g.creates = some q ∧ ∀ r ∈ f :: s.stack t, r.creates ≠ some q) :
    Inner s ((s.upd q w.apply).jump c f (s.stack t)) c t g f (s.stack t) where
  move := Still.upd.jump hcur f _
  turn := hturn
  loads := hloads
  proc := by
    rw [jump_core_proc]
    exact (h.place.proc c).trans (by rw [hcur, hproc])
  context := jump_core_context
  saved r := by
    show ((s.upd q w.apply).proc r).context = _
    by_cases e : r = q
    · rw [e, upd_proc_self, w.apply_context]
    · rw [upd_proc_ne _ e]
  live r hr := by
    replace hr : Live ((s.upd q w.apply).proc r).state := hr
    by_cases e : r = q
    · subst e
      rw [upd_proc_self] at hr
      exact hlive hr
    · rw [upd_proc_ne _ e] at hr
      exact .inl hr
  creates np hnp := .inl (hcreates np hnp)
  used np hnp := by
    show ((s.upd q w.apply).proc np).state = _ ∨ _
    by_cases e : np = q
    · subst e
      rw [upd_proc_self]
      exact hused hnp
    · rw [upd_proc_ne _ e]
      exact .inl hnp

theorem Inv.write {w : Write} (h : Inv s) (hcur : s.cur c = ⟨t, g⟩) (hg : g.plock t = some p)
    (hf : f.plock t = some p) (hfits : f.Fits t) (hlevel : g.Level f) (hloads : f.loads = false)
    (hproc : f.proc t = g.proc t) (hcreates : KeepsCreates g (s.stack t) f (s.stack t))
    (hsolo : f.solo = true → g.solo = true)
    (hlive : Live (w.apply (s.proc q)).state → Live (s.proc q).state ∨ Fresh s q)
    (hused : (s.proc q).state = .used → (w.apply (s.proc q)).state = .used ∨
      g.creates = some q ∧ ∀ r ∈ f :: s.stack t, r.creates ≠ some q)
    (hown : s.own.Step c { s.own with
      runs := update s.own.runs c (f.runs t)
      state := update s.own.state q (w.apply (s.proc q)).state })
    (hs' : (s.upd q w.apply).next c (.goto f) = some s') : Inv s' := by
  obtain rfl := next_goto Still.upd hcur hs'
  have hm := (Still.upd (s := s) (c := c) (r := w.apply) (q := q)).jump hcur f (s.stack t)
  have hplock : (⟨t, f⟩ : Context κ).plock = (s.cur c).plock := by
    rw [hcur, Context.plock_mk, hf, Context.plock_mk, hg]
  refine h.inner hcur (.of_write h hcur (h.turn hcur hfits hlevel) hloads hproc hcreates hlive
    hused) ?_ (Spin.jump ⟨h.spin.held, h.spin.sie⟩)
    (h.plocks.same hm (fun _ => rfl) hplock fun hs => ?_)
  · rw [hm.own_plock upd_state hplock]
    exact hown
  · rw [jump_core_noff]
    exact (h.solo_one hcur (hsolo hs) hg).trans (if_neg (by rw [Context.plock_mk, hf]; nofun)).symm

end Xv6.Sched
