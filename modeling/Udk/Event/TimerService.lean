import Udk.Event.TimerSpec

/-! # The timer services -/

namespace Udk.Timer

/-- The sums that a step computes do not wrap, and a periodic timer has a period. -/
def InTime (s : State) : Action → Prop
  | .run =>
    match s.control with
    | .setTimer _ _ delay => s.mEfiSystemTime + delay < 2 ^ 64
    | _ => True
  | .setTimer _ type delay => type = .timerPeriodic → delay ≠ 0
  | .checkTimers => ∀ e ∈ s.mEfiTimerList, triggerTimeOf s e ≤ s.mEfiSystemTime →
    Fits s.mEfiSystemTime (triggerTimeOf s e) (periodOf s e)
  | _ => True

/-- A call that is under way goes on, or a tick comes. -/
def Action.GoesOn : Action → Prop
  | .run | .timerTick _ => True
  | _ => False

/-- The steps of the call. -/
def Action.steps : Action → Nat
  | .run => 1
  | _ => 0

def Reachable (ok : State → Action → Prop) (s : State) : Prop := ∃ es, Run step ok initialState es s

section
variable {s s' s₁ s₂ : State} {event : EventId} {systemTime : Nat}

theorem Inv.initialState : Inv initialState where
  sorted := .nil
  nodup := .nil
  timer := nofun
  checkEvent := ⟨_, rfl, rfl⟩
  system := rfl
  armed _ := iff_of_false (fun h => h.elim nofun id) nofun
  periodic := nofun
  onTime := nofun
  control := trivial
  early := trivial

theorem Inv.run (h : Inv s) (hok : InTime s .run) (hs : run s = some s') : Inv s' := by
  unfold Timer.run at hs
  cases hc : s.control with
  | idle => rw [hc] at hs; cases hs
  | setTimer event type delay =>
    rw [hc] at hs
    obtain rfl := Option.some.inj hs
    unfold InTime at hok
    simp only [hc] at hok
    exact h.run_setTimer hc hok
  | insertTimer event delay =>
    rw [hc] at hs
    obtain rfl := Option.some.inj hs
    exact h.run_insertTimer hc
  | checkDelay delay =>
    rw [hc] at hs
    obtain rfl := Option.some.inj hs
    split
    · exact (h.run_checkDelay hc).signalCheck
    · exact h.run_checkDelay hc
  | closeEvent event =>
    rw [hc] at hs
    obtain rfl := Option.some.inj hs
    exact h.run_closeEvent hc
  | checkTimers systemTime =>
    rw [hc] at hs
    obtain rfl := Option.some.inj hs
    unfold checkLoop
    split
    · exact h.checkDone hc
    · rename_i event rest hl
      split
      · exact h.checkDone hc
      · exact h.expired hc hl (by omega)
  | setPeriodic systemTime event =>
    rw [hc] at hs
    obtain rfl := Option.some.inj hs
    exact h.setPeriodic hc

theorem Inv.step {a : Action} (h : Inv s) (hok : InTime s a) (hs : step s a = some s') : Inv s' := by
  cases a with
  | timerTick duration =>
    obtain rfl := Option.some.inj hs
    exact h.timerTick _
  | run => exact h.run hok hs
  | setTimer event type delay =>
    unfold Timer.step at hs
    simp only at hs
    split at hs
    · rename_i hidle
      obtain rfl := Option.some.inj hs
      exact h.setTimer hidle fun hp hd => hok hp (UInt64.toNat_inj.mp hd)
    · cases hs
  | checkTimers =>
    unfold Timer.step at hs
    simp only at hs
    split at hs
    · rename_i hidle
      obtain rfl := Option.some.inj hs
      exact h.checkTimers hidle hok
    · cases hs
  | closeEvent event =>
    unfold Timer.step at hs
    simp only at hs
    split at hs
    · rename_i hc
      obtain rfl := Option.some.inj hs
      exact h.closeEvent hc.1 hc.2
    · cases hs
  | createEvent event isTimer =>
    unfold Timer.step at hs
    simp only at hs
    split at hs
    · rename_i hc
      obtain rfl := Option.some.inj hs
      exact h.createEvent hc.1 hc.2 isTimer
    · cases hs

theorem Reachable.inv (h : Reachable InTime s) : Inv s := by
  obtain ⟨es, hrun⟩ := h
  exact hrun.invariant Inv .initialState fun _ _ _ hs hok hstep => hs.step hok hstep

/-! ## A call of `CoreCheckTimers` -/

/-- How often the loop may still signal the event. -/
def signalsLeft (systemTime : Nat) (s : State) (event : EventId) : Nat :=
  if systemTime < triggerTimeOf s event then 0
  else if periodOf s event = 0 ∨ triggerTimeOf s event = systemTime then 1 else 2

def signals (systemTime : Nat) (s : State) (l : List EventId) : Nat := (l.map (signalsLeft systemTime s)).sum

/-- How often the event that was just signaled will be signaled again. -/
def signalsAgain (systemTime : Nat) (s : State) (event : EventId) : Nat :=
  if periodOf s event ≠ 0 ∧ triggerTimeOf s event + periodOf s event ≤ systemTime then 1 else 0

/-- The steps that `CoreCheckTimers` still takes, at most. -/
def stepsLeft (s : State) : Nat :=
  match s.control with
  | .checkTimers systemTime => 2 * signals systemTime s s.mEfiTimerList + 1
  | .setPeriodic systemTime event => 2 * (signals systemTime s s.mEfiTimerList + signalsAgain systemTime s event) + 2
  | _ => 0

theorem signals_congr {l : List EventId} (h : ∀ e ∈ l, s'.events e = s.events e) :
    signals systemTime s' l = signals systemTime s l := by
  unfold signals
  congr 1
  refine List.map_congr_left fun e he => ?_
  unfold signalsLeft
  rw [triggerTimeOf_congr (h e he), periodOf_congr (h e he)]

theorem signals_insertSorted (key : EventId → Nat) (l : List EventId) :
    signals systemTime s (insertSorted key event l) = signalsLeft systemTime s event + signals systemTime s l := by
  induction l with
  | nil => rfl
  | cons x rest ih =>
    rw [insertSorted]
    split
    · rfl
    · unfold signals at ih ⊢
      rw [List.map_cons, List.sum_cons, ih, List.map_cons, List.sum_cons]
      omega

theorem signals_le (l : List EventId) : signals systemTime s l ≤ 2 * l.length := by
  induction l with
  | nil => exact Nat.le_refl _
  | cons x rest ih =>
    have : signalsLeft systemTime s x ≤ 2 := by
      unfold signalsLeft
      split
      · omega
      · split <;> omega
    unfold signals at ih ⊢
    rw [List.map_cons, List.sum_cons, List.length_cons]
    omega

/-- `CoreCheckTimers` is under way or done, and every event that was due is signaled or still in the list. -/
structure Progress (systemTime : Nat) (due : List EventId) (start : List Entry) (s : State) : Prop where
  inv : Inv s
  control : s.control = .idle ∨ s.control = .checkTimers systemTime ∨ ∃ e, s.control = .setPeriodic systemTime e
  due : ∃ newer, s.log = newer ++ start ∧ ∀ e ∈ due, (∃ time, .signaled e time ∈ newer) ∨
    s.control ≠ .idle ∧ e ∈ s.mEfiTimerList ∧ triggerTimeOf s e ≤ systemTime

theorem timerTick_spec (duration : Nat) (s : State) :
    ∃ log, (log = s.log ∨ ∃ t, log = .signaled mEfiCheckTimerEvent t :: s.log) ∧
      coreTimerTick duration s =
        { s with mEfiSystemTime := uint64 (s.mEfiSystemTime + duration), elapsed := s.elapsed + duration, log } := by
  unfold coreTimerTick
  simp only
  split
  · exact ⟨_, .inl rfl, rfl⟩
  · split
    · exact ⟨_, .inr ⟨_, rfl⟩, rfl⟩
    · exact ⟨_, .inl rfl, rfl⟩

variable {due : List EventId} {start : List Entry}

theorem Progress.timerTick (h : Progress systemTime due start s) (duration : Nat) :
    Progress systemTime due start (coreTimerTick duration s) ∧ stepsLeft (coreTimerTick duration s) = stepsLeft s := by
  have hinv := h.inv.timerTick duration
  obtain ⟨log, hlog, heq⟩ := timerTick_spec duration s
  rw [heq] at hinv ⊢
  obtain ⟨newer, hnewer, hdue⟩ := h.due
  refine ⟨⟨hinv, h.control, ?_⟩, ?_⟩
  · rcases hlog with rfl | ⟨t, rfl⟩
    · exact ⟨newer, hnewer, hdue⟩
    · refine ⟨.signaled mEfiCheckTimerEvent t :: newer, by rw [hnewer]; rfl, fun e he => ?_⟩
      exact (hdue e he).imp_left fun ⟨time, hm⟩ => ⟨time, List.mem_cons_of_mem _ hm⟩
  · unfold stepsLeft
    rfl

/-- The end of the loop: the rest of the list triggers later. -/
theorem Progress.done (h : Progress systemTime due start s) (hc : s.control = .checkTimers systemTime)
    (hl : ∀ e ∈ s.mEfiTimerList, systemTime < triggerTimeOf s e) :
    Progress systemTime due start { s with control := .idle } := by
  obtain ⟨newer, hnewer, hdue⟩ := h.due
  refine ⟨h.inv.checkDone hc, .inl rfl, newer, hnewer, fun e he => .inl ?_⟩
  rcases hdue e he with hs | ⟨-, hm, hle⟩
  · exact hs
  · have := hl e hm
    omega

theorem Progress.checkLoop (h : Progress systemTime due start s) (hc : s.control = .checkTimers systemTime) :
    Progress systemTime due start (checkLoop systemTime s) ∧ 1 + stepsLeft (checkLoop systemTime s) ≤ stepsLeft s := by
  have hleft : stepsLeft s = 2 * signals systemTime s s.mEfiTimerList + 1 := by
    unfold stepsLeft
    rw [hc]
  unfold Timer.checkLoop
  split
  · rename_i hl
    refine ⟨h.done hc fun e he => absurd (hl ▸ he) (List.not_mem_nil), ?_⟩
    rw [hleft]
    exact Nat.le_add_left ..
  · rename_i event rest hl
    split
    · rename_i hlt
      refine ⟨h.done hc fun e he => ?_, ?_⟩
      · have hsorted := h.inv.sorted
        rw [hl] at he
        rw [hl, List.pairwise_cons] at hsorted
        rcases List.mem_cons.mp he with rfl | he
        · exact hlt
        · exact Nat.lt_of_lt_of_le hlt (hsorted.1 e he)
      · rw [hleft]
        exact Nat.le_add_left ..
    · rename_i hge
      obtain ⟨newer, hnewer, hdue⟩ := h.due
      refine ⟨⟨h.inv.expired hc hl (by omega), .inr (.inr ⟨event, rfl⟩), ?_⟩, ?_⟩
      · refine ⟨.signaled event s.elapsed :: newer, by rw [← List.cons_append.symm, hnewer]; rfl, fun e he => ?_⟩
        rcases hdue e he with ⟨time, hm⟩ | ⟨-, hm, hle⟩
        · exact .inl ⟨time, List.mem_cons_of_mem _ hm⟩
        · rw [hl] at hm
          rcases List.mem_cons.mp hm with rfl | hm
          · exact .inl ⟨s.elapsed, List.mem_cons_self⟩
          · exact .inr ⟨nofun, hm, hle⟩
      · have hinv := h.inv.control
        rw [hc] at hinv
        have hfit := hinv.fits event (by rw [hl]; exact List.mem_cons_self) (by omega)
        have hcons : signals systemTime s s.mEfiTimerList =
            signalsLeft systemTime s event + signals systemTime s rest := by
          rw [hl]
          rfl
        have hagain : signalsAgain systemTime s event + 1 ≤ signalsLeft systemTime s event := by
          unfold signalsAgain signalsLeft
          rw [if_neg hge]
          unfold Fits at hfit
          split
          · rename_i hp
            have hlate : ¬ (periodOf s event = 0 ∨ triggerTimeOf s event = systemTime) := by
              have := hfit hp.1
              omega
            have htwo : (if periodOf s event = 0 ∨ triggerTimeOf s event = systemTime then 1 else 2) = 2 := if_neg hlate
            omega
          · split <;> omega
        rw [hleft, hcons]
        show 1 + (2 * (signals systemTime s rest + signalsAgain systemTime s event) + 2) ≤ _
        omega

theorem setPeriodic_spec (s : State) (event : EventId) (systemTime : Nat)
    (hw : periodOf s event ≠ 0 → triggerTimeOf s event + periodOf s event < 2 ^ 64) :
    (periodOf s event = 0 ∧ setPeriodic systemTime event s = { s with control := .checkTimers systemTime }) ∨
      periodOf s event ≠ 0 ∧ ∃ triggerTime log,
        triggerTime = max systemTime (triggerTimeOf s event + periodOf s event) ∧
        (log = s.log ∨ log = .signaled mEfiCheckTimerEvent s.elapsed :: s.log) ∧
        setPeriodic systemTime event s = { coreInsertEventTimer event (setEvent event
          (fun ev => { ev with triggerTime }) { s with control := .checkTimers systemTime }) with log } := by
  have hperiod : periodOf { s with control := .checkTimers systemTime } event = periodOf s event := rfl
  have htrigger : triggerTimeOf { s with control := .checkTimers systemTime } event = triggerTimeOf s event := rfl
  unfold Timer.setPeriodic
  simp only [hperiod, htrigger]
  by_cases hp : periodOf s event = 0
  · exact .inl ⟨hp, if_neg fun hne => hne hp⟩
  · rw [if_pos hp, show uint64 (triggerTimeOf s event + periodOf s event) = triggerTimeOf s event + periodOf s event from
      Nat.mod_eq_of_lt (hw hp)]
    refine .inr ⟨hp, ?_⟩
    split
    · rename_i hle
      exact ⟨systemTime, _, (Nat.max_eq_left hle).symm, .inr rfl, rfl⟩
    · rename_i hgt
      exact ⟨_, _, (Nat.max_eq_right (by omega)).symm, .inl rfl, rfl⟩

theorem Progress.setPeriodic (h : Progress systemTime due start s) (hc : s.control = .setPeriodic systemTime event) :
    Progress systemTime due start (setPeriodic systemTime event s) ∧
      1 + stepsLeft (setPeriodic systemTime event s) ≤ stepsLeft s := by
  have hinv := h.inv.setPeriodic hc
  have hcontrol := h.inv.control
  rw [hc] at hcontrol
  obtain ⟨-, htaken, hfit, -⟩ := hcontrol
  obtain ⟨ev, hev, -⟩ := htaken.timer
  obtain ⟨newer, hnewer, hdue⟩ := h.due
  have hleft : stepsLeft s =
      2 * (signals systemTime s s.mEfiTimerList + signalsAgain systemTime s event) + 2 := by
    unfold stepsLeft
    rw [hc]
  rcases setPeriodic_spec s event systemTime fun hp => (hfit hp).1 with ⟨hp, heq⟩ | ⟨hp, t, log, ht, hlog, heq⟩
  · rw [heq] at hinv ⊢
    refine ⟨⟨hinv, .inr (.inl rfl), newer, hnewer, fun e he => (hdue e he).imp_right fun hm => ⟨nofun, hm.2⟩⟩, ?_⟩
    rw [hleft]
    show 1 + (2 * signals systemTime s s.mEfiTimerList + 1) ≤ _
    omega
  · rw [heq] at hinv ⊢
    have hother : ∀ e ∈ s.mEfiTimerList, e ≠ event := fun e hm hx => htaken.fresh (hx ▸ hm)
    have hevents : ∀ e ∈ s.mEfiTimerList,
        (setEvent event (fun ev => { ev with triggerTime := t }) s).events e = s.events e :=
      fun e hm => setEvent_other (hother e hm)
    refine ⟨⟨hinv, .inr (.inl rfl), ?_⟩, ?_⟩
    · obtain ⟨newer', hnewer', hsub⟩ : ∃ newer', log = newer' ++ start ∧ ∀ x ∈ newer, x ∈ newer' := by
        rcases hlog with rfl | rfl
        · exact ⟨newer, hnewer, fun _ hx => hx⟩
        · exact ⟨_ :: newer, by rw [hnewer]; rfl, fun _ hx => List.mem_cons_of_mem _ hx⟩
      refine ⟨newer', hnewer', fun e he => ?_⟩
      rcases hdue e he with ⟨time, hm⟩ | ⟨-, hm, hle⟩
      · exact .inl ⟨time, hsub _ hm⟩
      · refine .inr ⟨nofun, mem_insertSorted.mpr (.inr hm), ?_⟩
        rw [← triggerTimeOf_congr (hevents e hm)] at hle
        exact hle
    · -- the event is signaled again only if its period has passed, too
      have hself : (setEvent event (fun ev => { ev with triggerTime := t }) s).events event =
          some { ev with triggerTime := t } := setEvent_self hev
      have htrigger : triggerTimeOf (setEvent event (fun ev => { ev with triggerTime := t }) s) event = t := by
        unfold triggerTimeOf
        rw [hself]
        rfl
      have hagain : signalsLeft systemTime (setEvent event (fun ev => { ev with triggerTime := t }) s) event ≤
          signalsAgain systemTime s event := by
        unfold signalsLeft signalsAgain
        rw [htrigger]
        by_cases hle : triggerTimeOf s event + periodOf s event ≤ systemTime
        · have hmax : t = systemTime := by omega
          refine Nat.le_of_eq ?_
          rw [if_neg (by omega), if_pos (.inr hmax), if_pos ⟨hp, hle⟩]
        · have hlt : systemTime < t := by omega
          rw [if_pos hlt]
          exact Nat.zero_le _
      rw [hleft]
      show 1 + (2 * signals systemTime (setEvent event (fun ev => { ev with triggerTime := t }) s)
        (insertSorted _ event s.mEfiTimerList) + 1) ≤ _
      rw [signals_insertSorted, signals_congr hevents]
      omega

theorem Progress.step {a : Action} (h : Progress systemTime due start s) (ha : a.GoesOn) (hs : step s a = some s') :
    Progress systemTime due start s' ∧ a.steps + stepsLeft s' ≤ stepsLeft s := by
  cases a with
  | timerTick duration =>
    obtain rfl := Option.some.inj hs
    obtain ⟨h1, h2⟩ := h.timerTick duration.toNat
    refine ⟨h1, ?_⟩
    show 0 + _ ≤ _
    omega
  | run =>
    unfold Timer.step Timer.run at hs
    rcases h.control with hc | hc | ⟨event, hc⟩
    · rw [hc] at hs
      cases hs
    · rw [hc] at hs
      obtain rfl := Option.some.inj hs
      exact h.checkLoop hc
    · rw [hc] at hs
      obtain rfl := Option.some.inj hs
      exact h.setPeriodic hc
  | _ => exact ha.elim

/-- What a call of `CoreCheckTimers` does, with the ticks that come meanwhile. -/
structure Checks (s s₂ : State) (es : List Action) : Prop where
  /-- The number of its steps is bounded. -/
  steps_le : (es.map Action.steps).sum ≤ 4 * s.mEfiTimerList.length + 1
  /-- It goes on until it returns. -/
  goesOn : s₂.control ≠ .idle → ∃ s₃, step s₂ .run = some s₃
  /-- When it returns, it has signaled every event that was due. -/
  signaled : s₂.control = .idle → ∃ newer, s₂.log = newer ++ s.log ∧
    ∀ e ∈ s.mEfiTimerList, triggerTimeOf s e ≤ s.mEfiSystemTime → ∃ time, .signaled e time ∈ newer

theorem checks_of_inv {es : List Action} (h : Inv s) (hidle : s.control = .idle) (hok : InTime s .checkTimers)
    (hs : step s .checkTimers = some s₁) (hrun : Run step (fun _ a => a.GoesOn) s₁ es s₂) : Checks s s₂ es := by
  have h1 : Inv s₁ := h.step hok hs
  obtain rfl : { s with control := .checkTimers s.mEfiSystemTime } = s₁ := by
    unfold Timer.step at hs
    simp only at hs
    rw [if_pos hidle] at hs
    exact Option.some.inj hs
  let due := s.mEfiTimerList.filter fun e => triggerTimeOf s e ≤ s.mEfiSystemTime
  have hstart : Progress s.mEfiSystemTime due s.log { s with control := .checkTimers s.mEfiSystemTime } := by
    refine ⟨h1, .inr (.inl rfl), [], rfl, fun e he => .inr ⟨nofun, (List.mem_filter.mp he).1, ?_⟩⟩
    show triggerTimeOf s e ≤ s.mEfiSystemTime
    simpa using (List.mem_filter.mp he).2
  obtain ⟨h2, hsteps⟩ := hrun.potential Action.steps stepsLeft hstart
    fun _ _ _ hp ha hst => hp.step ha hst
  refine ⟨?_, fun hne => ?_, fun hd => ?_⟩
  · have hle : stepsLeft { s with control := .checkTimers s.mEfiSystemTime } ≤ 4 * s.mEfiTimerList.length + 1 := by
      have : signals s.mEfiSystemTime s s.mEfiTimerList ≤ _ := signals_le s.mEfiTimerList
      show 2 * signals s.mEfiSystemTime s s.mEfiTimerList + 1 ≤ _
      omega
    omega
  · unfold Timer.step Timer.run
    rcases h2.control with hc | hc | ⟨e, hc⟩
    · exact absurd hc hne
    · exact ⟨_, by rw [hc]⟩
    · exact ⟨_, by rw [hc]⟩
  · obtain ⟨newer, hnewer, hdue⟩ := h2.due
    refine ⟨newer, hnewer, fun e he hle => ?_⟩
    have hmem : e ∈ due := List.mem_filter.mpr ⟨he, by simpa using hle⟩
    exact (hdue e hmem).resolve_right fun hx => hx.1 hd

/-! ## Every run -/

/-- A periodic timer stays armed until it is set again or closed. -/
theorem arming_periodic {newer older : List Entry} {time delay : Nat}
    (hn : ∀ x ∈ newer, x ≠ .stopped event ∧ ∀ t d p, x ≠ .armed event t d p) :
    arming event (newer ++ .armed event time delay true :: older) = some ⟨time, delay, true⟩ := by
  induction newer with
  | nil => exact if_pos rfl
  | cons x newer ih =>
    have ih := ih fun y hy => hn y (List.mem_cons_of_mem _ hy)
    obtain ⟨h1, h2⟩ := hn x List.mem_cons_self
    rw [List.cons_append]
    cases x with
    | armed e t d p =>
      rw [arming, if_neg fun he => h2 t d p (by rw [he])]
      exact ih
    | signaled e t =>
      rw [arming, ih]
      split <;> rfl
    | stopped e =>
      rw [arming, if_neg fun he => h1 (by rw [he])]
      exact ih

/-- The timer services are correct in a state. -/
structure Timers (s : State) : Prop where
  /-- The system time is the time that has passed, mod 2^64. -/
  system : s.mEfiSystemTime = s.elapsed % 2 ^ 64
  sorted : s.mEfiTimerList.Pairwise fun a b => triggerTimeOf s a ≤ triggerTimeOf s b
  nodup : s.mEfiTimerList.Nodup
  listed : s.control = .idle → ∀ e, e ∈ s.mEfiTimerList ↔ (arming e s.log).isSome = true
  /-- An event that was signaled was armed, and its delay was over. -/
  onTime : ∀ newer e time older, s.log = newer ++ .signaled e time :: older → e ≠ mEfiCheckTimerEvent →
    ∃ a, arming e older = some a ∧ a.time + a.delay ≤ time
  checks : s.control = .idle → InTime s .checkTimers → ∀ s₁ es s₂, step s .checkTimers = some s₁ →
    Run step (fun _ a => a.GoesOn) s₁ es s₂ → Checks s s₂ es
  periodic : s.control = .idle → ∀ newer e time delay older, s.log = newer ++ .armed e time delay true :: older →
    (∀ x ∈ newer, x ≠ .stopped e ∧ ∀ t d p, x ≠ .armed e t d p) → e ∈ s.mEfiTimerList

end

/-! ## Runs -/

instance (s : State) (a : Action) : Decidable (InTime s a) := by
  unfold InTime
  cases a with
  | run => cases s.control <;> infer_instance
  | setTimer event type delay => infer_instance
  | checkTimers =>
    unfold Fits
    infer_instance
  | _ => infer_instance

def runActions (actions : List Action) : State := (actions.foldlM step initialState).getD initialState

/-- A run in which the condition is checked before each step. -/
def runInTime (actions : List Action) : Option State :=
  actions.foldlM (fun s a => if InTime s a then step s a else none) initialState

theorem reachable_runInTime {actions : List Action} (h : (runInTime actions).isSome = true) :
    Reachable InTime (runActions actions) := by
  obtain ⟨s, hs⟩ := Option.isSome_iff_exists.mp h
  obtain ⟨h1, h2⟩ := Run.of_guarded hs
  refine ⟨actions, ?_⟩
  unfold runActions
  rw [h1]
  exact h2

theorem reachable_runActions {actions : List Action} (h : (actions.foldlM step initialState).isSome = true) :
    Reachable (fun _ _ => True) (runActions actions) := by
  obtain ⟨s, hs⟩ := Option.isSome_iff_exists.mp h
  refine ⟨actions, .of_foldlM (fun _ _ _ => trivial) ?_⟩
  unfold runActions
  rw [hs]
  rfl

/-- A periodic timer that is late is signaled twice. -/
def sampleActions : List Action :=
  [.createEvent 1 true, .timerTick 5, .setTimer 1 .timerPeriodic 10, .run, .run, .run, .timerTick 25, .checkTimers, .run,
    .run, .run, .run, .run]

example : (runActions sampleActions).mEfiTimerList = [1] := by decide +kernel

/-- After one tick a timer is set to the longest delay. -/
def longActions : List Action :=
  [.createEvent 1 true, .timerTick 1, .setTimer 1 .timerRelative 0xFFFFFFFFFFFFFFFF, .run, .run, .run, .checkTimers, .run,
    .run, .run]

/-- A periodic timer without a period. -/
def periodicActions : List Action :=
  [.createEvent 1 true, .setTimer 1 .timerPeriodic 0, .run, .run, .run, .checkTimers, .run, .run, .run]

end Udk.Timer
