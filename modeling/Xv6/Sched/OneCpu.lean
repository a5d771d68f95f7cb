import Xv6.Sched.Switch

/-! A process runs on at most one CPU. -/

namespace Xv6.Sched

open Function
open Wait (Slot ProcState Chan initproc)

variable {κ : Type} [DecidableEq κ] {s s' s₁ : State κ} {c : κ} {t : Thread κ} {g : Frame}
  {act : Act} {next : Next}

theorem Inv.kind (h : Inv s) (hcur : s.cur c = ⟨t, g⟩) (hkind : Kind s c t g act next)
    (hp : perform s c act = some s₁) (hpanic : s₁.panic = none)
    (hs' : s₁.next c next = some s') : Inv s' := by
  cases hkind with
  | unlocked hquiet hg hnext hsolo hret hsie =>
    exact h.unlocked hcur hquiet hg hnext hsolo hret hsie hp hpanic hs'
  | locked hquiet hg hlike hsolo hsie =>
    exact h.locked hcur hquiet hg hlike hsolo hsie hp hpanic hs'
  | acquire hg hf hfits hruns hproc hcreates hloads hlevel hsolo =>
    exact h.acquire hcur hg hf hfits hruns hproc hcreates hloads hlevel hsolo hp hpanic hs'
  | release hg hruns hproc hnext hsolo =>
    exact h.release hcur hg hruns hproc hnext hsolo hp hpanic hs'
  | run hg hstate =>
    subst hg
    cases hp
    exact h.run hcur hstate hs'
  | @setProc i hg =>
    subst hg
    cases hp
    obtain ⟨rfl, -⟩ := h.sched_thread hcur rfl
    refine h.setProc (f := .save i) hcur rfl rfl rfl rfl rfl rfl ?_ hs'
    have hruns : update s.own.runs c (some (i, true)) = s.own.runs := by
      simp only [State.own, update_eq_self_iff, hcur]
      rfl
    show s.own.Step c { s.own with runs := update s.own.runs c (some (i, true)) }
    rw [hruns]
    exact .stay
  | save hg =>
    subst hg
    exact h.save hcur hp hs'
  | load hg =>
    subst hg
    cases Option.some.inj hs'
    exact h.load hcur hp
  | @back i hg =>
    subst hg
    cases hp
    obtain ⟨rfl, -⟩ := h.sched_thread hcur rfl
    refine h.setProc (f := .rel i) hcur rfl rfl rfl rfl rfl rfl (.drop (q := i) ?_) hs'
    simp only [State.own, hcur]
    rfl
  | leave ht hg hleaving hw hf hfits hleaves hcreates hloads hlevel hsolo =>
    subst ht
    cases hp
    exact h.leave hcur hg hleaving hw hf hfits hleaves hcreates hloads hlevel hsolo hs'
  | swtchSave hg =>
    subst hg
    exact h.swtchSave hcur hp hs'
  | swtchLoad hg =>
    subst hg
    cases Option.some.inj hs'
    exact h.swtchLoad hcur hp
  | wake hg hw hlike hsolo =>
    cases hp
    exact h.wake hcur hg hw hlike hsolo hs'
  | free hg hruns hstate hlike hsolo =>
    cases hp
    exact h.free hcur hg hruns hstate hlike hsolo hs'
  | allocFail hg hstate hlike hsolo =>
    cases hp
    exact h.allocFail hcur hstate hlike hsolo hs'
  | alloc hg hstate =>
    subst hg
    cases hp
    exact h.alloc hcur hstate hs'
  | start hg =>
    subst hg
    cases hp
    exact h.start hcur hs'
  | panic =>
    cases hp
    cases hpanic

theorem Inv.intr (h : Inv s) (hsie : (s.core c).sie = true) :
    Inv ((s.jump c .irq ((s.cur c).pc :: s.stack (s.cur c).sp)).updCore c fun core =>
      { core with sie := false }) := by
  generalize hcur : s.cur c = x
  obtain ⟨t, g⟩ := x
  have hg : g.plock t = none := by
    have := h.plock_of_sie hsie
    rwa [hcur] at this
  have hwf := h.place.wf c
  rw [hcur] at hwf
  rw [jump_intr]
  have hstill : Still s (s.updCore c fun core => { core with sie := false }) c :=
    .of_updCore rfl rfl rfl
  have hcalm : Calm s (s.updCore c fun core => { core with sie := false }) c :=
    .updCore rfl rfl rfl rfl
  have hspin : Spin (s.updCore c fun core => { core with sie := false }) :=
    h.spin.updCore (fun _ => rfl) nofun
  have hm := hstill.jump hcur .irq (g :: s.stack t)
  have hirq : Frame.irq.Fits t ∧ Frame.irq.runs t = t.runs ∧ Frame.irq.plock t = none := by
    cases t with
    | sched c₀ => exact ⟨.inr rfl, rfl, rfl⟩
    | proc p => exact ⟨⟨rfl, nofun⟩, rfl, rfl⟩
  obtain ⟨hfits, hruns, hplock⟩ := hirq
  refine h.inner hcur (.of_calm h hcur hcalm hstill ⟨hfits, hwf.irq, fun r hr => ?_⟩ rfl ?_
    fun np ⟨r, hr, hnp⟩ => ?_) (hcalm.own hstill hcur ?_ (hplock.trans hg.symm))
    hspin.jump (h.plocks.same hm (fun _ => rfl) (by rw [hcur]; exact hplock.trans hg.symm) nofun)
  · rcases List.mem_cons.mp hr with rfl | hr
    · exact ⟨h.fits hcur, hg⟩
    · exact h.place.stack t r hr
  · rw [Frame.proc_of_plock_none hg, Frame.proc_of_plock_none hplock]
  · rcases List.mem_cons.mp hr with rfl | hr
    · cases hnp
    · exact ⟨r, hr, hnp⟩
  · rw [hruns, Frame.runs_of_plock_none (h.fits hcur) hg]

theorem Inv.step {e : Event κ} (h : Inv s) (hs : step s e = some s') : Inv s' := by
  cases e with
  | run c choice =>
    obtain ⟨act, next, hcode, hcase⟩ := step_run hs
    rcases hcase with ⟨msg, rfl⟩ | ⟨s₁, hp, hpanic, hnext⟩
    · exact h.panic _
    · refine h.kind rfl (code_kind rfl (h.place.fits c) (h.place.proc c) ?_ hcode) hp hpanic hnext
      exact fun hsolo hg => h.solo_zero rfl hsolo hg
  | intr c =>
    simp only [Sched.step] at hs
    split at hs
    · cases hs
      exact h.intr (by simp_all)
    · cases hs

omit [DecidableEq κ] in
theorem boot_inv : Inv (boot : State κ) := by
  have hstate : ∀ q, ((boot : State κ).proc q).state ≠ .running := by
    intro q
    by_cases hq : q = initproc <;> simp [boot, hq]
  refine ⟨⟨nofun, nofun, nofun, nofun, fun q hq => absurd hq (hstate q)⟩,
    ⟨fun _ => .inl rfl, fun _ => rfl, fun c c' hc => (Thread.sched.inj hc).symm, nofun,
      fun _ => rfl⟩, ⟨fun _ => ⟨[], Nat.le_refl _, nofun⟩, fun _ _ => rfl⟩,
    ⟨fun _ _ => ⟨nofun, nofun⟩, fun _ _ => rfl⟩, ⟨fun c p hp => ?_, nofun,
      fun _ _ _ => ⟨rfl, rfl, .inl rfl⟩⟩, ⟨fun t f np ho hf => ?_, fun t t' f f' np ho _ hf => ?_⟩⟩
  · rcases hp with hp | hp <;> cases hp
  all_goals
    rcases ho with ho | ⟨c, ho⟩
    · cases ho
    · cases ho
      cases hf

theorem Inv.of_reachable (h : Reachable (· = (boot : State κ)) Sched.step s) : Inv s :=
  h.invariant (fun _ hs => hs ▸ boot_inv) fun _ _ _ hinv hs => hinv.step hs

section

omit [DecidableEq κ]

variable {p : Slot}

theorem Inv.runs_of_proc (h : Inv s) (hc : (s.core c).proc = some p) :
    ∃ b, s.own.runs c = some (p, b) := by
  rw [h.place.proc c] at hc
  exact Frame.runs_of_proc hc

theorem Inv.runs_of_free (h : Inv s) (hfree : s.lock (.proc p) = none) {b : Bool}
    (hruns : s.own.runs c = some (p, b)) :
    (s.core c).proc = some p ∧ (s.proc p).state = .running := by
  have hplock : (s.cur c).plock ≠ some p := fun hp => by
    rw [(h.plocks.lock c p).mpr hp] at hfree
    cases hfree
  cases b with
  | false => exact absurd (h.own.off c p hruns).2 hplock
  | true =>
    refine ⟨?_, h.own.running c p hruns⟩
    rw [h.place.proc c]
    cases hsp : (s.cur c).sp with
    | proc p' =>
      simp only [State.own, Context.runs, hsp, Frame.runs, Option.some.injEq,
        Prod.mk.injEq] at hruns
      rw [hruns.1]
      rfl
    | sched c' =>
      simp only [State.own, Context.runs, hsp] at hruns
      rw [Context.plock, hsp] at hplock
      exact absurd (Frame.plock_of_runs_sched hruns) hplock

theorem Inv.running_iff (h : Inv s) (hfree : s.lock (.proc p) = none) :
    (s.proc p).state = .running ↔ ∃ c, (s.core c).proc = some p := by
  constructor
  · intro hr
    obtain ⟨c, hc⟩ := h.own.cpu p hr
    exact ⟨c, (h.runs_of_free hfree hc).1⟩
  · rintro ⟨c, hc⟩
    obtain ⟨b, hb⟩ := h.runs_of_proc hc
    exact (h.runs_of_free hfree hb).2

theorem Inv.proc_unique {c' : κ} (h : Inv s) (hc : (s.core c).proc = some p)
    (hc' : (s.core c').proc = some p) : c = c' := by
  obtain ⟨b, hb⟩ := h.runs_of_proc hc
  obtain ⟨b', hb'⟩ := h.runs_of_proc hc'
  exact h.own.unique c c' p b b' hb hb'

theorem Inv.cur_of_load (h : Inv s) (hc : (s.cur c).pc = .load p) :
    s.cur c = ⟨.sched c, .load p⟩ := by
  generalize hcur : s.cur c = x at hc ⊢
  obtain ⟨t, g⟩ := x
  obtain rfl : g = .load p := hc
  obtain ⟨rfl, -⟩ := h.sched_thread hcur rfl
  rfl

end

/-- At most one CPU has `c->proc = p`; while `p->lock` is free, `p` is `RUNNING` exactly when one
has; and when a CPU loads the registers in `p->context`, no CPU is in the thread of `p` any more,
and they are those that the last one saved in `sched`, or the first ones of the process. -/
theorem runs_on_one_cpu (h : Reachable (· = (boot : State κ)) step s) (p : Slot) :
    (∀ c c', (s.core c).proc = some p → (s.core c').proc = some p → c = c') ∧
    (s.lock (.proc p) = none →
      ((s.proc p).state = .running ↔ ∃! c, (s.core c).proc = some p)) ∧
    ∀ c, (s.core c).cur.pc = .load p → (∀ c', (s.core c').cur.sp ≠ .proc p) ∧
      (s.proc p).context.sp = .proc p ∧ ((s.proc p).context.pc = .forkret ∨
        ∃ k intena, (s.proc p).context.pc = .swtchBack p k intena) := by
  have hinv := Inv.of_reachable h
  refine ⟨fun c c' hc hc' => hinv.proc_unique hc hc', fun hfree => ?_, fun c hc => ?_⟩
  · rw [hinv.running_iff hfree]
    constructor
    · rintro ⟨c, hc⟩
      exact ⟨c, hc, fun c' hc' => hinv.proc_unique hc' hc⟩
    · rintro ⟨c, hc, -⟩
      exact ⟨c, hc⟩
  · have hcur := hinv.cur_of_load hc
    obtain ⟨hsp, -, hpc⟩ := hinv.resumes_of_load hcur
    exact ⟨hinv.rests_of_load hcur, hsp, hpc⟩

/-- The first CPU takes `init` and comes out of `forkret`. -/
def firstRun : List (Event (Fin 2)) := List.replicate 7 (.run 0 .iret)

theorem runs_on_one_cpu_init : ∃ s, Reachable (· = (boot : State (Fin 2))) step s ∧
    s.lock (.proc initproc) = none ∧ (s.proc initproc).state = .running ∧
    ∃! c, (s.core c).proc = some initproc := by
  have hrun : (runEvents step (boot : State (Fin 2)) firstRun).any (fun s =>
      decide (s.lock (.proc initproc) = none ∧ (s.proc initproc).state = .running)) = true := by
    decide +kernel
  obtain ⟨s, hreach, hfree, hstate⟩ : ∃ s, Reachable (· = (boot : State (Fin 2))) step s ∧ _ :=
    Reachable.exists_run rfl hrun
  exact ⟨s, hreach, hfree, hstate, ((runs_on_one_cpu hreach initproc).2.1 hfree).mp hstate⟩

end Xv6.Sched
