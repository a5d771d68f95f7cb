import Xv6.Sched.Frames

/-! Every step of the code is of one of the kinds. -/

namespace Xv6.Sched

open Function
open Wait (Slot ProcState Chan initproc)

section

variable {κ : Type} {s : State κ} {c : κ} {t : Thread κ} {g f : Frame} {act : Act} {p q : Slot}

theorem Frame.Fits.any (hs : f.self = none := by rfl) (hf : f.isSched = false := by rfl) :
    f.Fits (.proc p : Thread κ) := ⟨hf, fun q hq => by rw [hs] at hq; cases hq⟩

theorem Frame.Fits.self (hs : f.self = some p := by rfl) (hf : f.isSched = false := by rfl) :
    f.Fits (.proc p : Thread κ) := ⟨hf, fun _ hq => Option.some.inj (hq.symm.trans hs)⟩

theorem Kind.quiet (hfits : f.Fits t) (hsolo : f.solo = true → act = .nop ∧ g.solo = true)
    (hquiet : act.Quiet := by trivial) (hg : g.plock t = some q := by rfl)
    (hf : f.plock t = some q := by rfl) (hruns : f.runs t = g.runs t := by rfl)
    (hproc : f.proc t = g.proc t := by rfl) (hcreates : f.creates = g.creates := by rfl)
    (hloads : f.loads = false := by rfl) (hlevel : f.depth = g.depth := by rfl)
    (hsie : act ≠ .sie true := by simp) : Kind s c t g act (.goto f) :=
  .locked hquiet hg ⟨hfits, hf.trans hg.symm, hruns, hproc, hcreates, hloads, .inl hlevel⟩
    (fun h => ⟨(hsolo h).1, .inl (hsolo h).2⟩) hsie

theorem Kind.go (hfits : f.Fits t) (hquiet : act.Quiet := by trivial)
    (hg : g.plock t = none := by rfl) (hf : f.plock t = none := by rfl)
    (hcreates : f.creates = g.creates := by rfl) (hlevel : f.depth = g.depth := by rfl)
    (hsolo : f.solo = false := by rfl) (hsie : act ≠ .sie true := by simp) :
    Kind s c t g act (.goto f) :=
  .unlocked hquiet hg ⟨hfits, hf, hcreates, .inl hlevel⟩
    (fun f' h hf' => by cases h; rw [hsolo] at hf'; cases hf') nofun fun h => absurd h hsie

theorem Kind.call {r : Frame} (hr : r.Fits t) (hf : f.Fits t)
    (hlevel : f.depth.over r = true ∨ f.level = 1 ∧ r = .body) (hquiet : act.Quiet := by trivial)
    (hg : g.plock t = none := by rfl) (hrp : r.plock t = none := by rfl)
    (hrc : r.creates = none := by rfl) (hrl : r.depth = g.depth := by rfl)
    (hfp : f.plock t = none := by rfl) (hfc : f.creates = none := by rfl)
    (hgc : g.creates = none := by rfl) (hsie : act ≠ .sie true := by simp) :
    Kind s c t g act (.call r f) :=
  .unlocked hquiet hg ⟨⟨hr, hrp, hrc, .inl hrl⟩, hf, hfp, hfc, hgc, hlevel⟩ nofun nofun
    fun h => absurd h hsie

theorem Kind.unlock (hfits : f.Fits (.proc p : Thread κ))
    (hg : g.plock (.proc p : Thread κ) = some q := by rfl) (hleaving : g.leaving = false := by rfl)
    (hf : f.plock (.proc p : Thread κ) = none := by rfl)
    (hcreates : f.creates = g.creates := by rfl) (hlevel : f.depth = g.depth := by rfl)
    (hsolo : f.solo = false := by rfl) : Kind s c (.proc p) g (.release (.proc q)) (.goto f) :=
  .release hg (by rw [Frame.runs, hleaving]; rfl) rfl ⟨hfits, hf, hcreates, .inl hlevel⟩
    fun f' h hf' => by cases h; rw [hsolo] at hf'; cases hf'

theorem Kind.unlockRet (hlevel : 0 < g.level)
    (hg : g.plock (.proc p : Thread κ) = some q := by rfl) (hleaving : g.leaving = false := by rfl)
    (hcreates : g.creates = none := by rfl) : Kind s c (.proc p) g (.release (.proc q)) .ret :=
  .release hg (by rw [Frame.runs, hleaving]; rfl) rfl ⟨hcreates, hlevel⟩ nofun

theorem Kind.lock (hfits : f.Fits (.proc p : Thread κ))
    (hg : g.plock (.proc p : Thread κ) = none := by rfl) (hleaving : f.leaving = false := by rfl)
    (hf : f.plock (.proc p : Thread κ) = some q := by rfl)
    (hcreates : f.creates = g.creates := by rfl) (hloads : f.loads = false := by rfl)
    (hlevel : f.depth = g.depth := by rfl) (hsolo : f.solo = false := by rfl) :
    Kind s c (.proc p) g (.acquire (.proc q)) (.goto f) :=
  .acquire hg hf hfits (by rw [Frame.runs, hleaving]; rfl) rfl hcreates hloads (.inl hlevel)
    fun h => by rw [hsolo] at h; cases h

end

variable {κ : Type} [DecidableEq κ] {s : State κ} {c : κ} {t : Thread κ} {g : Frame}
  {choice : Choice} {act : Act} {next : Next}

theorem code_kind_sched {c' : κ} (hx : (s.core c).cur = ⟨.sched c', g⟩) (hg : g.isSched = true)
    (hsolo : g.plock (.sched c' : Thread κ) = none → (s.core c).noff = 0)
    (h : code s c choice = some (act, next)) : Kind s c (.sched c') g act next := by
  have hfits : ∀ f : Frame, f.isSched = true → f.Fits (.sched c' : Thread κ) := fun f hf => .inl hf
  unfold code at h
  rw [hx] at h
  cases g with
  | top =>
    cases h
    exact .unlocked trivial rfl ⟨hfits _ rfl, rfl, rfl, .inl rfl⟩ (fun _ _ _ => ⟨rfl, _, rfl⟩) nofun
      (by simp)
  | loop i =>
    dsimp only at h
    split_ifs at h <;> cases h
    · exact .acquire rfl rfl (hfits _ rfl) rfl rfl rfl rfl (.inl rfl) fun _ => rfl
    · exact .unlocked trivial rfl ⟨hfits _ rfl, rfl, rfl, .inl rfl⟩ (fun _ _ _ => ⟨rfl, _, rfl⟩)
        nofun fun _ => hsolo rfl
  | test i =>
    dsimp only at h
    split_ifs at h with hrun <;> cases h
    · exact .run rfl hrun
    · exact .quiet (hfits _ rfl) (fun _ => ⟨rfl, rfl⟩)
  | setProc i =>
    cases h
    exact .setProc rfl
  | save i =>
    cases h
    exact .save rfl
  | load i =>
    cases h
    exact .load rfl
  | back i =>
    cases h
    exact .back rfl
  | rel i =>
    cases h
    exact .release rfl rfl rfl ⟨hfits _ rfl, rfl, rfl, .inl rfl⟩ fun _ _ _ => rfl
  | _ => cases hg

theorem code_kind_irq (hx : (s.core c).cur = ⟨t, g⟩) (hg : g.isIrq = true)
    (hproc : ∀ c', t = .sched c' → (s.core c).proc = none)
    (h : code s c choice = some (act, next)) : Kind s c t g act next := by
  have hfits : ∀ f : Frame, f.isIrq = true → f.Fits t := by
    intro f hf
    cases t with
    | sched _ => exact .inr hf
    | proc p => cases f <;> simp_all [Frame.isIrq, Frame.Fits, Frame.isSched, Frame.self]
  have hruns : ∀ f : Frame, f.isIrq = true → f.runs t = t.runs := by
    intro f hf
    cases t <;> cases f <;> first | rfl | cases hf
  have hprocOf : ∀ f : Frame, f.isIrq = true → f.proc t = t.runs.map Prod.fst := by
    intro f hf
    cases t <;> cases f <;> first | rfl | cases hf
  unfold code at h
  rw [hx] at h
  cases g with
  | irq =>
    cases choice with
    | acquire n | release n =>
      cases h
      exact .go (hfits _ rfl)
    | wakeup addr =>
      cases h
      exact .call (hfits _ rfl) (hfits _ rfl) (.inl rfl)
    | yield =>
      simp only [irqCode] at h
      split at h
      · rename_i hsome
        cases h
        cases t with
        | sched c' => rw [hproc c' rfl] at hsome; cases hsome
        | proc p =>
          exact .call (hfits _ rfl) .any (.inl rfl)
      · cases h
    | iret =>
      simp only [irqCode] at h
      split at h
      · rename_i hnoff
        cases h
        exact .unlocked trivial rfl ⟨rfl, Nat.succ_pos _⟩ (by simp) (fun _ _ => rfl) fun _ => hnoff
      · cases h
    | _ => cases h
  | wakeup chan i =>
    dsimp only at h
    split_ifs at h <;> cases h
    · exact .go (hfits _ rfl)
    · exact .acquire rfl rfl (hfits _ rfl) (hruns _ rfl)
        ((hprocOf _ rfl).trans (hprocOf _ rfl).symm) rfl rfl (.inl rfl) (by rintro ⟨⟩)
    · exact .unlocked trivial rfl ⟨rfl, Nat.two_pos⟩ (by simp) (by simp) (by simp)
  | wakeTest chan i =>
    dsimp only at h
    split_ifs at h with hs <;> cases h
    · exact .wake rfl (.inl ⟨hs.1, rfl⟩) ⟨hfits _ rfl, rfl, (hruns _ rfl).trans (hruns _ rfl).symm,
        (hprocOf _ rfl).trans (hprocOf _ rfl).symm, rfl, rfl, .inl rfl⟩ rfl
    · exact .quiet (hfits _ rfl) (by rintro ⟨⟩) trivial rfl rfl
        ((hruns _ rfl).trans (hruns _ rfl).symm) ((hprocOf _ rfl).trans (hprocOf _ rfl).symm)
  | wakeRel chan i =>
    cases h
    exact .release rfl (hruns _ rfl) (hprocOf _ rfl) ⟨hfits _ rfl, rfl, rfl, .inl rfl⟩
      fun _ h hf => by cases h; cases hf
  | _ => cases hg

theorem code_kind_body {p : Slot} (hx : (s.core c).cur = ⟨.proc p, .body⟩)
    (hproc : (s.core c).proc = some p) (h : code s c choice = some (act, next)) :
    Kind s c (.proc p) .body act next := by
  unfold code at h
  rw [hx] at h
  cases choice with
  | acquire n | release n =>
    cases h
    exact .go .any
  | intr enable =>
    simp only [bodyCode] at h
    split at h
    · rename_i hnoff
      cases h
      exact .unlocked trivial rfl ⟨.any, rfl, rfl, .inl rfl⟩
        (fun _ h hf => by cases h; cases hf) nofun fun _ => hnoff
    · cases h
  | yield | sleep addr n | wakeup addr =>
    cases h
    exact .call .any .any (.inl rfl)
  | kill pid =>
    cases h
    exact .call .any .any (.inr ⟨rfl, rfl⟩)
  | fork =>
    simp only [bodyCode, hproc, Option.map_some] at h
    cases h
    exact .call .any .any (.inr ⟨rfl, rfl⟩)
  | exit status =>
    simp only [bodyCode, hproc, Option.map_some] at h
    split at h
    · cases h
      exact .panic
    · cases h
      exact .call .any .self (.inr ⟨rfl, rfl⟩)
  | wait addr =>
    simp only [bodyCode, hproc, Option.map_some] at h
    cases h
    exact .call .any .self (.inr ⟨rfl, rfl⟩)
  | iret => cases h
  | mem ok => cases h

/-- `sched` panics unless `p->lock` is the only lock that is held. -/
theorem schedCheck_cases (s : State κ) (c : κ) (p : Slot) :
    schedCheck s c p = .nop ∧ (s.core c).noff = 1 ∨ ∃ msg, schedCheck s c p = .panic msg := by
  unfold schedCheck
  by_cases hlock : s.lock (.proc p) ≠ some c
  · exact .inr ⟨_, if_pos hlock⟩
  by_cases hnoff : (s.core c).noff ≠ 1
  · exact .inr ⟨_, by rw [if_neg hlock, if_pos hnoff]⟩
  rw [if_neg hlock, if_neg hnoff]
  by_cases hstate : (s.proc p).state = .running
  · exact .inr ⟨_, if_pos hstate⟩
  rw [if_neg hstate]
  by_cases hsie : (s.core c).sie = true
  · exact .inr ⟨_, if_pos hsie⟩
  · exact .inl ⟨if_neg hsie, not_not.mp hnoff⟩

theorem code_kind_sleep {p : Slot} (hx : (s.core c).cur = ⟨.proc p, g⟩)
    (hproc : (s.core c).proc = some p) (hfits : g.Fits (.proc p : Thread κ)) (hlevel : g.level = 2)
    (hirq : g.isIrq = false) (h : code s c choice = some (act, next)) :
    Kind s c (.proc p) g act next := by
  obtain ⟨hsched, hself⟩ := hfits
  unfold code at h
  rw [hx] at h
  cases g with
  | yield | sleep chan lk =>
    simp only [hproc, Option.map_some] at h
    cases h
    exact .lock .self
  | yieldSet p' =>
    obtain rfl := hself _ rfl
    cases h
    exact .leave rfl rfl rfl (.inl rfl) rfl .self rfl rfl rfl (.inl rfl) rfl
  | sched p' k =>
    obtain rfl := hself _ rfl
    cases h
    rcases schedCheck_cases s c p' with ⟨hnop, hnoff⟩ | ⟨msg, hpanic⟩
    · rw [hnop]
      exact .locked trivial rfl ⟨.self, rfl, rfl, rfl, rfl, rfl, .inl rfl⟩
        (fun _ => ⟨rfl, .inr hnoff⟩) (by simp)
    · rw [hpanic]
      exact .panic
  | swtchSave p' k ie =>
    obtain rfl := hself _ rfl
    cases h
    exact .swtchSave rfl
  | swtchLoad p' k =>
    obtain rfl := hself _ rfl
    cases h
    exact .swtchLoad rfl
  | swtchBack p' k ie =>
    obtain rfl := hself _ rfl
    cases h
    cases k with
    | yield | sleep chan lk | exit =>
      exact .quiet .self (nofun)
  | yieldRel p' =>
    obtain rfl := hself _ rfl
    cases h
    exact .unlockRet Nat.two_pos
  | sleepRel p' chan lk | sleepTidy p' lk =>
    obtain rfl := hself _ rfl
    cases h
    exact .quiet .self (nofun)
  | sleepSet p' chan lk =>
    obtain rfl := hself _ rfl
    cases h
    exact .leave rfl rfl rfl (.inr (.inl ⟨_, rfl⟩)) rfl .self rfl rfl rfl (.inl rfl)
      rfl
  | sleepUnlock p' lk =>
    obtain rfl := hself _ rfl
    cases h
    exact .unlock .any
  | sleepRelock lk =>
    cases h
    exact .unlocked trivial rfl ⟨rfl, Nat.two_pos⟩ nofun nofun (by simp)
  | dead p' =>
    cases h
    exact .panic
  | irq | wakeup _ _ | wakeTest _ _ | wakeRel _ _ => cases hirq
  | top | loop _ | test _ | setProc _ | save _ | load _ | back _ | rel _ => cases hsched
  | _ => cases hlevel

theorem code_kind_call {p : Slot} (hx : (s.core c).cur = ⟨.proc p, g⟩)
    (hfits : g.Fits (.proc p : Thread κ)) (hlevel : g.level = 1)
    (h : code s c choice = some (act, next)) : Kind s c (.proc p) g act next := by
  obtain ⟨hsched, hself⟩ := hfits
  have hns : ∀ f : Frame, f.solo = false → f.solo = true → act = .nop ∧ g.solo = true :=
    fun f h h' => by rw [h] at h'; cases h'
  unfold code at h
  rw [hx] at h
  cases g with
  -- `kkill`
  | kill pid i =>
    dsimp only at h
    split_ifs at h <;> cases h
    · exact .lock .any
    · exact .unlocked trivial rfl ⟨rfl, Nat.one_pos⟩ nofun nofun (by simp)
  | killTest pid i =>
    dsimp only at h
    split_ifs at h <;> cases h
    · exact .wake rfl (.inr rfl) ⟨.any, rfl, rfl, rfl, rfl, rfl, .inl rfl⟩ rfl
    · exact .quiet .any (hns _ rfl)
  | killRel pid i found =>
    cases h
    cases found with
    | true => exact .unlockRet Nat.one_pos
    | false => exact .unlock .any
  -- `kfork`
  | fork p' i =>
    dsimp only at h
    split_ifs at h <;> cases h
    · exact .lock .any
    · exact .unlocked trivial rfl ⟨rfl, Nat.one_pos⟩ nofun nofun (by simp)
  | forkTest p' i =>
    dsimp only at h
    split_ifs at h with hu
    · split at h <;> cases h
      · exact .alloc rfl hu
      · exact .allocFail rfl hu ⟨.any, rfl, rfl, rfl, rfl, rfl, .inl rfl⟩ rfl
    · cases h
      exact .quiet .any (hns _ rfl)
  | forkNext p' i | forkRel p' np =>
    cases h
    exact .unlock .any
  | forkFail i =>
    cases h
    exact .unlockRet Nat.one_pos
  | forkWait p' np | forkParent p' np | forkWaitRel np =>
    cases h
    exact .go .any
  | forkLock np =>
    cases h
    exact .lock .any
  | forkRun np =>
    cases h
    exact .start rfl
  | forkDone np =>
    cases h
    exact .unlockRet Nat.one_pos
  -- `kexit`
  | exit p' status =>
    obtain rfl := hself _ rfl
    cases h
    exact .go .self
  | reparent p' status i =>
    obtain rfl := hself _ rfl
    dsimp only at h
    split_ifs at h <;> cases h
    · exact .call .self .any (.inl rfl)
    · exact .go .self
    · exact .go .self
  | exitWake p' status =>
    obtain rfl := hself _ rfl
    cases h
    exact .call .self .any (.inl rfl)
  | exitLock p' status =>
    obtain rfl := hself _ rfl
    cases h
    exact .lock .self
  | exitZombie p' status =>
    obtain rfl := hself _ rfl
    cases h
    exact .leave rfl rfl rfl (.inr (.inr ⟨_, rfl⟩)) rfl .self rfl rfl rfl (.inl rfl)
      rfl
  | exitRel p' =>
    obtain rfl := hself _ rfl
    cases h
    exact .locked trivial rfl ⟨.self, rfl, rfl, rfl, rfl, rfl, .inr ⟨rfl, rfl⟩⟩
      (nofun) (by simp)
  -- `kwait`
  | wait p' addr =>
    obtain rfl := hself _ rfl
    cases h
    exact .go .self
  | waitScan p' addr i havekids =>
    obtain rfl := hself _ rfl
    dsimp only at h
    split_ifs at h <;> cases h
    · exact .go .self
    · exact .go .self
    · exact .go .self
    · exact .go .any
  | waitChild p' addr i | waitKilled p' addr =>
    obtain rfl := hself _ rfl
    cases h
    exact .lock .self
  | waitTest p' addr i =>
    obtain rfl := hself _ rfl
    dsimp only at h
    split at h
    case isTrue hz =>
      split at h
      · cases h
        exact .free rfl rfl hz ⟨.any, rfl, rfl, rfl, rfl, rfl, .inl rfl⟩ rfl
      · split at h <;> cases h
        exact .quiet .any (hns _ rfl)
      · cases h
    case isFalse =>
      cases h
      exact .quiet .self (hns _ rfl)
  | waitNext p' addr i =>
    obtain rfl := hself _ rfl
    cases h
    exact .unlock .self
  | waitRel i =>
    cases h
    exact .unlock .any
  | waitDone =>
    cases h
    exact .unlocked trivial rfl ⟨rfl, Nat.one_pos⟩ nofun nofun (by simp)
  | waitKilledTest p' addr =>
    obtain rfl := hself _ rfl
    cases h
    exact .quiet .self (hns _ rfl)
  | waitKilledRel p' addr killed =>
    obtain rfl := hself _ rfl
    cases h
    cases killed with
    | true => exact .unlock .any
    | false =>
      exact .release rfl rfl rfl ⟨⟨.self, rfl, rfl, .inl rfl⟩,
        .any, rfl, rfl, rfl, .inl rfl⟩ nofun
  | _ => cases hlevel

theorem code_kind (hx : (s.core c).cur = ⟨t, g⟩) (hfits : g.Fits t)
    (hproc : (s.core c).proc = g.proc t)
    (hsolo : g.solo = true → g.plock t = none → (s.core c).noff = 0)
    (h : code s c choice = some (act, next)) : Kind s c t g act next := by
  cases t with
  | sched c' =>
    rcases hfits with hg | hg
    · exact code_kind_sched hx hg (hsolo (by simp [Frame.solo, hg])) h
    · refine code_kind_irq hx hg (fun _ _ => hproc.trans ?_) h
      cases g <;> first | rfl | cases hg
  | proc p =>
    by_cases hirq : g.isIrq = true
    · exact code_kind_irq hx hirq (nofun) h
    have hirq' : g.isIrq = false := by simpa using hirq
    have hlevel : g.level = 0 ∨ g.level = 1 ∨ g.level = 2 := by
      cases g <;> first
        | exact .inl rfl | exact .inr (.inl rfl) | exact .inr (.inr rfl) | cases hirq'
    rcases hlevel with h0 | h1 | h2
    · cases g with
      | body => exact code_kind_body hx hproc h
      | forkret =>
        have hp : (s.core c).proc = some p := hproc
        unfold code at h
        rw [hx] at h
        simp only [hp, Option.map_some] at h
        cases h
        exact .unlock .any
      | _ => first | cases h0; done | cases hfits.1
    · exact code_kind_call hx hfits h1 h
    · exact code_kind_sleep hx hproc hfits h2 hirq' h

end Xv6.Sched
