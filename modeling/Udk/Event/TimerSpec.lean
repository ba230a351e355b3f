import Udk.Event.Timer

/-! # Timers are signaled in time -/

namespace Udk.Timer

/-! ## The sorted list -/

section
variable {key key' : EventId → Nat} {event : EventId} {l : List EventId}

theorem mem_insertSorted {e : EventId} : e ∈ insertSorted key event l ↔ e = event ∨ e ∈ l := by
  induction l with
  | nil => simp [insertSorted]
  | cons x rest ih =>
    rw [insertSorted]
    split
    · simp
    · rw [List.mem_cons, ih, List.mem_cons]
      tauto

theorem nodup_insertSorted (hn : l.Nodup) (he : event ∉ l) : (insertSorted key event l).Nodup := by
  induction l with
  | nil => simp [insertSorted]
  | cons x rest ih =>
    rw [List.nodup_cons] at hn
    rw [List.mem_cons, not_or] at he
    rw [insertSorted]
    split
    · rw [List.nodup_cons, List.nodup_cons, List.mem_cons, not_or]
      exact ⟨he, hn⟩
    · rw [List.nodup_cons, mem_insertSorted, not_or]
      exact ⟨⟨fun h => he.1 h.symm, hn.1⟩, ih hn.2 he.2⟩

theorem sorted_insertSorted (h : l.Pairwise fun a b => key a ≤ key b) :
    (insertSorted key event l).Pairwise fun a b => key a ≤ key b := by
  induction l with
  | nil => simp [insertSorted]
  | cons x rest ih =>
    rw [List.pairwise_cons] at h
    rw [insertSorted]
    split
    · rename_i hlt
      refine List.pairwise_cons.mpr ⟨fun y hy => ?_, List.pairwise_cons.mpr h⟩
      rcases List.mem_cons.mp hy with rfl | hy
      · exact Nat.le_of_lt hlt
      · exact Nat.le_trans (Nat.le_of_lt hlt) (h.1 y hy)
    · rename_i hle
      refine List.pairwise_cons.mpr ⟨fun y hy => ?_, ih h.2⟩
      rcases mem_insertSorted.mp hy with rfl | hy
      · exact Nat.le_of_not_lt hle
      · exact h.1 y hy

/-- Other keys of other events do not matter. -/
theorem sorted_congr (h : l.Pairwise fun a b => key a ≤ key b) (hk : ∀ e ∈ l, key' e = key e) :
    l.Pairwise fun a b => key' a ≤ key' b := by
  refine h.imp_of_mem fun ha hb hab => ?_
  rw [hk _ ha, hk _ hb]
  exact hab

end

/-! ## What the log says -/

structure Arming where
  time : Nat
  delay : Nat
  periodic : Bool

/-- How the event was armed, if it still is: a timer that is not periodic is armed until it is signaled. -/
def arming (event : EventId) : List Entry → Option Arming
  | [] => none
  | .armed e time delay periodic :: log => if e = event then some ⟨time, delay, periodic⟩ else arming event log
  | .signaled e _ :: log =>
    if e = event then (arming event log).filter fun a => a.periodic else arming event log
  | .stopped e :: log => if e = event then none else arming event log

/-- No event was signaled before its delay was over. -/
def NeverEarly : List Entry → Prop
  | [] => True
  | .signaled e time :: log =>
    (e ≠ mEfiCheckTimerEvent → ∃ a, arming e log = some a ∧ a.time + a.delay ≤ time) ∧ NeverEarly log
  | _ :: log => NeverEarly log

theorem NeverEarly.entry {newer older : List Entry} {event : EventId} {time : Nat}
    (h : NeverEarly (newer ++ .signaled event time :: older)) (he : event ≠ mEfiCheckTimerEvent) :
    ∃ a, arming event older = some a ∧ a.time + a.delay ≤ time := by
  induction newer with
  | nil => exact h.1 he
  | cons x newer ih => cases x <;> first | exact ih h | exact ih h.2

/-! ## The invariant -/

/-- A periodic timer that has expired can be set again. -/
def Fits (systemTime triggerTime period : Nat) : Prop :=
  period ≠ 0 → triggerTime + period < 2 ^ 64 ∧ (systemTime < triggerTime + period ∨ systemTime + period < 2 ^ 64)

/-- What holds while `CoreCheckTimers` is under way. -/
structure Checking (systemTime : Nat) (s : State) : Prop where
  read : ∃ time ≤ s.elapsed, systemTime = time % 2 ^ 64 ∧ ∀ e a, arming e s.log = some a → a.time ≤ time
  fits : ∀ e ∈ s.mEfiTimerList, triggerTimeOf s e ≤ systemTime → Fits systemTime (triggerTimeOf s e) (periodOf s e)

/-- The event that a call has taken from the list. -/
structure Taken (event : EventId) (s : State) : Prop where
  fresh : event ∉ s.mEfiTimerList
  timer : ∃ ev, s.events event = some ev ∧ ev.isTimer = true

/-- What holds while a call is under way. -/
def Control.Inv (s : State) : Control → Prop
  | .idle | .checkDelay _ => True
  | .setTimer event type _ => Taken event s ∧ (periodOf s event ≠ 0 ↔ type = .timerPeriodic)
  | .insertTimer event _ => Taken event s
  | .closeEvent event => event ∉ s.mEfiTimerList ∧ event ≠ mEfiCheckTimerEvent
  | .checkTimers systemTime => Checking systemTime s
  | .setPeriodic systemTime event =>
    Checking systemTime s ∧ Taken event s ∧ Fits systemTime (triggerTimeOf s event) (periodOf s event) ∧
      ∀ a, arming event s.log = some a → a.time + a.delay ≤ s.elapsed

/-- The event that will be put into the list. -/
def Control.holds (s : State) (event : EventId) : Control → Prop
  | .insertTimer e _ => e = event
  | .setPeriodic _ e => e = event ∧ periodOf s event ≠ 0
  | _ => False

/-- The delay of an armed event is over, or its trigger time says when it will be. -/
def OnTime (s : State) (event : EventId) (a : Arming) : Prop :=
  a.time ≤ s.elapsed ∧ (a.time + a.delay ≤ s.elapsed ∨ triggerTimeOf s event = a.time % 2 ^ 64 + a.delay)

structure Inv (s : State) : Prop where
  sorted : s.mEfiTimerList.Pairwise fun a b => triggerTimeOf s a ≤ triggerTimeOf s b
  nodup : s.mEfiTimerList.Nodup
  timer : ∀ e ∈ s.mEfiTimerList, ∃ ev, s.events e = some ev ∧ ev.isTimer = true
  checkEvent : ∃ ev, s.events mEfiCheckTimerEvent = some ev ∧ ev.isTimer = false
  system : s.mEfiSystemTime = s.elapsed % 2 ^ 64
  armed : ∀ e, (e ∈ s.mEfiTimerList ∨ s.control.holds s e) ↔ (arming e s.log).isSome = true
  periodic : ∀ e a, arming e s.log = some a → (a.periodic = true ↔ periodOf s e ≠ 0)
  onTime : ∀ e a, arming e s.log = some a → OnTime s e a
  control : s.control.Inv s
  early : NeverEarly s.log

section
variable {s s' : State} {event : EventId}

theorem triggerTimeOf_congr (h : s'.events event = s.events event) : triggerTimeOf s' event = triggerTimeOf s event := by
  unfold triggerTimeOf
  rw [h]

theorem periodOf_congr (h : s'.events event = s.events event) : periodOf s' event = periodOf s event := by
  unfold periodOf
  rw [h]

theorem setEvent_other {f : IEvent → IEvent} {e : EventId} (h : e ≠ event) : (setEvent event f s).events e = s.events e :=
  if_neg h

theorem setEvent_self {f : IEvent → IEvent} {ev : IEvent} (h : s.events event = some ev) :
    (setEvent event f s).events event = some (f ev) := by
  show (if event = event then (s.events event).map f else s.events event) = _
  rw [if_pos rfl, h]
  rfl

theorem Inv.ne_check (h : Inv s) {ev : IEvent} (he : s.events event = some ev) (ht : ev.isTimer = true) :
    event ≠ mEfiCheckTimerEvent := by
  rintro rfl
  obtain ⟨ev', he', ht'⟩ := h.checkEvent
  rw [he] at he'
  rw [Option.some.inj he', ht'] at ht
  cases ht

theorem Control.Inv.taken (h : s.control.Inv s) (hc : s.control.holds s event) : Taken event s := by
  cases hk : s.control with
  | insertTimer e d =>
    rw [hk] at h hc
    obtain rfl : e = event := hc
    exact h
  | setPeriodic t e =>
    rw [hk] at h hc
    obtain ⟨rfl, -⟩ : e = event ∧ _ := hc
    exact h.2.1
  | _ => rw [hk] at hc; exact hc.elim

/-- Only timers are armed. -/
theorem Inv.timer_of_armed (h : Inv s) (ha : (arming event s.log).isSome = true) :
    ∃ ev, s.events event = some ev ∧ ev.isTimer = true := by
  rcases (h.armed event).mpr ha with hl | hc
  · exact h.timer event hl
  · exact (h.control.taken hc).timer

theorem Inv.arming_check (h : Inv s) : arming mEfiCheckTimerEvent s.log = none := by
  by_contra hne
  obtain ⟨ev, he, ht⟩ := h.timer_of_armed (Option.isSome_iff_ne_none.mpr hne)
  exact h.ne_check he ht rfl

/-- A signal of `mEfiCheckTimerEvent` disarms nothing. -/
theorem Inv.arming_signalCheck (h : Inv s) (time : Nat) :
    arming event (.signaled mEfiCheckTimerEvent time :: s.log) = arming event s.log := by
  rw [arming]
  split
  · rename_i he
    rw [← he, h.arming_check]
    rfl
  · rfl

theorem Control.Inv.congr {c : Control} (h : c.Inv s) (hl : s'.mEfiTimerList = s.mEfiTimerList)
    (hev : s'.events = s.events) (hlog : ∀ e, arming e s'.log = arming e s.log) (htime : s.elapsed ≤ s'.elapsed) :
    c.Inv s' := by
  have htrigger : ∀ e, triggerTimeOf s' e = triggerTimeOf s e := fun e => triggerTimeOf_congr (congrFun hev e)
  have hperiod : ∀ e, periodOf s' e = periodOf s e := fun e => periodOf_congr (congrFun hev e)
  have htaken : ∀ e, Taken e s → Taken e s' := fun e ht => ⟨hl ▸ ht.fresh, hev ▸ ht.timer⟩
  have hchecking : ∀ t, Checking t s → Checking t s' := by
    rintro t ⟨⟨x, hx, hxt, hle⟩, hfits⟩
    refine ⟨⟨x, Nat.le_trans hx htime, hxt, fun e a ha => hle e a (hlog e ▸ ha)⟩, fun e he => ?_⟩
    rw [htrigger, hperiod]
    exact hfits e (hl ▸ he)
  cases c with
  | idle | checkDelay => trivial
  | setTimer e type d => exact ⟨htaken e h.1, hperiod e ▸ h.2⟩
  | insertTimer e d => exact htaken e h
  | closeEvent e => exact ⟨hl ▸ h.1, h.2⟩
  | checkTimers t => exact hchecking t h
  | setPeriodic t e =>
    obtain ⟨h1, h2, h3, h4⟩ := h
    refine ⟨hchecking t h1, htaken e h2, ?_, fun a ha => Nat.le_trans (h4 a (hlog e ▸ ha)) htime⟩
    rw [htrigger, hperiod]
    exact h3

/-! ## Steps that leave the events -/

/-- Time goes by, and the log may say that `mEfiCheckTimerEvent` was signaled. -/
theorem Inv.later {time : Nat} {log : List Entry} (h : Inv s) (ht : s.elapsed ≤ time)
    (hlog : log = s.log ∨ ∃ t, log = .signaled mEfiCheckTimerEvent t :: s.log) :
    Inv { s with mEfiSystemTime := time % 2 ^ 64, elapsed := time, log } := by
  have harm : ∀ e, arming e log = arming e s.log := by
    intro e
    rcases hlog with rfl | ⟨t, rfl⟩
    · rfl
    · exact h.arming_signalCheck t
  refine ⟨h.sorted, h.nodup, h.timer, h.checkEvent, rfl, fun e => ?_, fun e a ha => ?_, fun e a ha => ?_, ?_, ?_⟩
  · show _ ↔ (arming e log).isSome = true
    rw [harm e]
    exact h.armed e
  · rw [harm e] at ha
    exact h.periodic e a ha
  · rw [harm e] at ha
    obtain ⟨h1, h2⟩ := h.onTime e a ha
    exact ⟨Nat.le_trans h1 ht, h2.imp_left fun h3 => Nat.le_trans h3 ht⟩
  · exact h.control.congr rfl rfl harm ht
  · rcases hlog with rfl | ⟨t, rfl⟩
    · exact h.early
    · exact ⟨fun hne => absurd rfl hne, h.early⟩

theorem Inv.timerTick (h : Inv s) (duration : Nat) : Inv (coreTimerTick duration s) := by
  have hsys : uint64 (s.mEfiSystemTime + duration) = (s.elapsed + duration) % 2 ^ 64 := by
    unfold uint64
    rw [h.system]
    omega
  unfold coreTimerTick
  simp only [hsys]
  split
  · exact h.later (Nat.le_add_right ..) (.inl rfl)
  · split
    · exact h.later (Nat.le_add_right ..) (.inr ⟨_, rfl⟩)
    · exact h.later (Nat.le_add_right ..) (.inl rfl)

/-- The call goes on to a point where the same events are in hand. -/
theorem Inv.setControl (h : Inv s) (c : Control) (hc : c.Inv { s with control := c })
    (hh : ∀ e, c.holds s e ↔ s.control.holds s e) : Inv { s with control := c } :=
  ⟨h.sorted, h.nodup, h.timer, h.checkEvent, h.system, fun e => (or_congr_right (hh e)).trans (h.armed e), h.periodic,
    h.onTime, hc, h.early⟩

/-! ## Steps that change one event -/

/-- A step that changes nothing but one event, if that is as it should be. -/
theorem Inv.change (h : Inv s) (hne : event ≠ mEfiCheckTimerEvent)
    (hev : ∀ e, e ≠ event → s'.events e = s.events e) (hlog : ∀ e, e ≠ event → arming e s'.log = arming e s.log)
    (htime : s'.elapsed = s.elapsed) (hsys : s'.mEfiSystemTime = s.mEfiSystemTime)
    (hlist : ∀ e, e ≠ event → (e ∈ s'.mEfiTimerList ↔ e ∈ s.mEfiTimerList))
    (hholds : ∀ e, e ≠ event → (s'.control.holds s' e ↔ s.control.holds s e))
    (hsorted : s'.mEfiTimerList.Pairwise fun a b => triggerTimeOf s' a ≤ triggerTimeOf s' b)
    (hnodup : s'.mEfiTimerList.Nodup)
    (htimer : event ∈ s'.mEfiTimerList → ∃ ev, s'.events event = some ev ∧ ev.isTimer = true)
    (harmed : (event ∈ s'.mEfiTimerList ∨ s'.control.holds s' event) ↔ (arming event s'.log).isSome = true)
    (hself : ∀ a, arming event s'.log = some a → (a.periodic = true ↔ periodOf s' event ≠ 0) ∧ OnTime s' event a)
    (hcontrol : s'.control.Inv s') (hearly : NeverEarly s'.log) : Inv s' := by
  refine ⟨hsorted, hnodup, fun e he => ?_, ?_, ?_, fun e => ?_, fun e a ha => ?_, fun e a ha => ?_, hcontrol, hearly⟩
  · by_cases hc : e = event
    · subst hc
      exact htimer he
    · rw [hev e hc]
      exact h.timer e ((hlist e hc).mp he)
  · rw [hev _ hne.symm]
    exact h.checkEvent
  · rw [hsys, htime]
    exact h.system
  · by_cases hc : e = event
    · subst hc
      exact harmed
    · rw [hlog e hc, hlist e hc, hholds e hc]
      exact h.armed e
  · by_cases hc : e = event
    · subst hc
      exact (hself a ha).1
    · rw [hlog e hc] at ha
      rw [periodOf_congr (hev e hc)]
      exact h.periodic e a ha
  · by_cases hc : e = event
    · subst hc
      exact (hself a ha).2
    · rw [hlog e hc] at ha
      obtain ⟨h1, h2⟩ := h.onTime e a ha
      unfold OnTime
      rw [htime, triggerTimeOf_congr (hev e hc)]
      exact ⟨h1, h2⟩

/-! ## The steps -/

theorem Inv.signalCheck (h : Inv s) : Inv (coreSignalEvent mEfiCheckTimerEvent s) := by
  have := h.later (Nat.le_refl s.elapsed) (.inr ⟨s.elapsed, rfl⟩)
  rw [← h.system] at this
  exact this

/-- The event is out of the list, and neither armed nor periodic. -/
theorem Inv.stopTimer (h : Inv s) (hidle : s.control = .idle) {ev : IEvent} (he : s.events event = some ev)
    (ht : ev.isTimer = true) : Inv (stopTimer event s) ∧ Taken event (stopTimer event s) ∧
      periodOf (stopTimer event s) event = 0 ∧ arming event (stopTimer event s).log = none := by
  have hself : (Timer.stopTimer event s).events event = some { ev with triggerTime := 0, period := 0 } :=
    setEvent_self he
  have hfresh : event ∉ (Timer.stopTimer event s).mEfiTimerList := fun hm => by
    simpa using (List.mem_filter.mp hm).2
  have harm : arming event (Timer.stopTimer event s).log = none := if_pos rfl
  refine ⟨h.change (h.ne_check he ht) (fun e hne => setEvent_other hne) (fun e hne => if_neg hne.symm) rfl rfl
    (fun e hne => ?_) (fun e hne => ?_) ?_ (h.nodup.filter _) (fun hm => absurd hm hfresh) ?_ (fun a ha => ?_) ?_
    h.early, ⟨hfresh, _, hself, ht⟩, ?_, harm⟩
  · show e ∈ s.mEfiTimerList.filter (· ≠ event) ↔ _
    rw [List.mem_filter]
    simp [hne]
  · show s.control.holds _ e ↔ s.control.holds s e
    rw [hidle]
    exact Iff.rfl
  · refine sorted_congr (h.sorted.sublist List.filter_sublist) fun e hm => triggerTimeOf_congr (setEvent_other ?_)
    simpa using (List.mem_filter.mp hm).2
  · rw [harm]
    refine ⟨fun hm => ?_, nofun⟩
    rcases hm with hm | hm
    · exact absurd hm hfresh
    · rw [show (Timer.stopTimer event s).control = .idle from hidle] at hm
      exact hm.elim
  · rw [harm] at ha
    cases ha
  · rw [show (Timer.stopTimer event s).control = .idle from hidle]
    trivial
  · unfold periodOf
    rw [hself]
    rfl

/-- An event that is neither in the list nor armed is prepared for `CoreSetTimer`. -/
theorem Inv.prepare (h : Inv s) (hidle : s.control = .idle) (htaken : Taken event s) (harm : arming event s.log = none)
    {f : IEvent → IEvent} {c : Control} (hc : c.Inv { setEvent event f s with control := c }) (hh : ∀ s e, ¬ c.holds s e) :
    Inv { setEvent event f s with control := c } := by
  obtain ⟨ev, he, ht⟩ := htaken.timer
  have hfresh := htaken.fresh
  refine h.change (h.ne_check he ht) (fun e hne => setEvent_other hne) (fun e _ => rfl) rfl rfl (fun e _ => Iff.rfl)
    (fun e _ => ?_) ?_ h.nodup (fun hm => absurd hm hfresh) ?_ (fun a ha => ?_) hc h.early
  · rw [hidle]
    exact iff_of_false (hh _ e) id
  · refine sorted_congr h.sorted fun e hm => triggerTimeOf_congr (setEvent_other fun heq => hfresh (heq ▸ hm))
  · show _ ↔ (arming event s.log).isSome = true
    rw [harm]
    exact iff_of_false (fun hm => hm.elim hfresh (hh _ event)) nofun
  · have ha : arming event s.log = some a := ha
    rw [harm] at ha
    cases ha

theorem Inv.setTimer (h : Inv s) (hidle : s.control = .idle) {type : EfiTimerDelay} {delay : Nat}
    (hd : type = .timerPeriodic → delay ≠ 0) : Inv (coreSetTimer event type delay s).2 := by
  unfold coreSetTimer
  split
  · exact h
  · rename_i ev he
    split
    · exact h
    · rename_i hvalid
      have ht : ev.isTimer = true := by
        by_contra hne
        exact hvalid (.inr (Bool.eq_false_iff.mpr hne))
      obtain ⟨h1, htaken, hperiod, harm⟩ := h.stopTimer hidle he ht
      obtain ⟨ev', he', ht'⟩ := htaken.timer
      cases type with
      | timerPeriodic =>
        refine h1.prepare (f := fun ev => { ev with period := delay }) (c := .setTimer event .timerPeriodic delay) hidle
          htaken harm ⟨⟨htaken.fresh, _, setEvent_self he', ht'⟩, ?_⟩ fun _ _ => id
        show periodOf (setEvent event _ _) event ≠ 0 ↔ _
        unfold periodOf
        rw [setEvent_self he']
        exact iff_of_true (hd rfl) rfl
      | timerRelative =>
        refine h1.setControl _ ⟨⟨htaken.fresh, htaken.timer⟩, ?_⟩ fun e => ?_
        · show periodOf (Timer.stopTimer event s) event ≠ 0 ↔ _
          rw [hperiod]
          exact iff_of_false (fun hne => hne rfl) nofun
        · rw [show (Timer.stopTimer event s).control = .idle from hidle]
          exact Iff.rfl
      | timerCancel => exact h1
      | other => exact h1

theorem Inv.closeEvent (h : Inv s) (hidle : s.control = .idle) (hne : event ≠ mEfiCheckTimerEvent) :
    Inv (coreCloseEvent event s).2 := by
  have hh : ∀ s' : State, s'.control = .idle → ∀ e, (Control.closeEvent event).holds s' e ↔ s'.control.holds s' e :=
    fun s' hs e => by rw [hs]; exact Iff.rfl
  unfold coreCloseEvent
  split
  · exact h
  · rename_i ev he
    cases ht : ev.isTimer with
    | true =>
      obtain ⟨h1, htaken, -⟩ := h.stopTimer hidle he ht
      have hset : (coreSetTimer event .timerCancel 0 s).2 = Timer.stopTimer event s := by
        unfold coreSetTimer
        rw [he]
        simp [ht]
      simp only [if_true, hset]
      exact h1.setControl _ ⟨htaken.fresh, hne⟩ (hh _ hidle)
    | false =>
      have hfresh : event ∉ s.mEfiTimerList := fun hm => by
        obtain ⟨ev', he', ht'⟩ := h.timer event hm
        rw [he] at he'
        rw [Option.some.inj he', ht'] at ht
        cases ht
      simp only [Bool.false_eq_true, if_false]
      exact h.setControl _ ⟨hfresh, hne⟩ (hh _ hidle)

theorem Inv.createEvent (h : Inv s) (hidle : s.control = .idle) (he : s.events event = none) (isTimer : Bool) :
    Inv { s with events := fun e => if e = event then some ⟨isTimer, 0, 0⟩ else s.events e } := by
  have hfresh : event ∉ s.mEfiTimerList := fun hm => by
    obtain ⟨ev, hev, -⟩ := h.timer event hm
    rw [he] at hev
    cases hev
  have hne : event ≠ mEfiCheckTimerEvent := by
    rintro rfl
    obtain ⟨ev, hev, -⟩ := h.checkEvent
    rw [he] at hev
    cases hev
  have harm : arming event s.log = none := by
    by_contra hc
    obtain ⟨ev, hev, -⟩ := h.timer_of_armed (Option.isSome_iff_ne_none.mpr hc)
    rw [he] at hev
    cases hev
  refine h.change hne (fun e hx => if_neg hx) (fun _ _ => rfl) rfl rfl (fun _ _ => Iff.rfl) (fun e _ => ?_) ?_ h.nodup
    (fun hm => absurd hm hfresh) ?_ (fun a ha => ?_) ?_ h.early
  · show s.control.holds _ e ↔ s.control.holds s e
    rw [hidle]
    exact Iff.rfl
  · exact sorted_congr h.sorted fun e hm => triggerTimeOf_congr (if_neg fun hx : e = event => hfresh (hx ▸ hm))
  · show _ ↔ (arming event s.log).isSome = true
    rw [harm]
    refine iff_of_false (fun hm => hm.elim hfresh fun hc => ?_) nofun
    rw [show State.control _ = .idle from hidle] at hc
    exact hc
  · have ha : arming event s.log = some a := ha
    rw [harm] at ha
    cases ha
  · show s.control.Inv _
    rw [hidle]
    trivial

/-! ### The steps of `CoreSetTimer` and `CoreCloseEvent` -/

theorem Inv.run_setTimer {type : EfiTimerDelay} {delay : Nat} (h : Inv s) (hc : s.control = .setTimer event type delay)
    (hw : s.mEfiSystemTime + delay < 2 ^ 64) :
    Inv { setEvent event (fun ev => { ev with triggerTime := uint64 (s.mEfiSystemTime + delay) }) s with
      control := .insertTimer event delay
      log := .armed event s.elapsed delay (type == .timerPeriodic) :: s.log } := by
  have hinv := h.control
  rw [hc] at hinv
  obtain ⟨⟨hfresh, ev, he, ht⟩, hperiod⟩ := hinv
  have hself := setEvent_self (f := fun ev => { ev with triggerTime := uint64 (s.mEfiSystemTime + delay) }) he
  refine h.change (h.ne_check he ht) (fun e hne => setEvent_other hne) (fun e hne => if_neg hne.symm) rfl rfl
    (fun _ _ => Iff.rfl) (fun e hne => ?_) ?_ h.nodup (fun hm => absurd hm hfresh) ?_ (fun a ha => ?_)
    ⟨hfresh, _, hself, ht⟩ h.early
  · rw [hc]
    exact iff_of_false hne.symm id
  · exact sorted_congr h.sorted fun e hm => triggerTimeOf_congr (setEvent_other fun hx => hfresh (hx ▸ hm))
  · refine iff_of_true (.inr rfl) ?_
    rw [arming, if_pos rfl]
    rfl
  · rw [arming, if_pos rfl] at ha
    obtain rfl := Option.some.inj ha
    refine ⟨?_, Nat.le_refl _, .inr ?_⟩
    · show (type == .timerPeriodic) = true ↔ periodOf (setEvent event _ s) event ≠ 0
      rw [beq_iff_eq, ← hperiod]
      unfold periodOf
      rw [hself, he]
      rfl
    · show triggerTimeOf (setEvent event _ s) event = s.elapsed % 2 ^ 64 + delay
      unfold triggerTimeOf
      rw [hself, ← h.system]
      exact Nat.mod_eq_of_lt hw

/-- The event that was in hand is in the list again. -/
theorem Inv.insert {c : Control} (h : Inv s) (htaken : Taken event s) (harm : (arming event s.log).isSome = true)
    (hown : ∀ e, e ≠ event → ¬ s.control.holds s e) (hh : ∀ s e, ¬ c.holds s e)
    (hc : c.Inv { coreInsertEventTimer event s with control := c }) :
    Inv { coreInsertEventTimer event s with control := c } := by
  obtain ⟨ev, he, ht⟩ := htaken.timer
  refine h.change (h.ne_check he ht) (fun _ _ => rfl) (fun _ _ => rfl) rfl rfl (fun e hne => ?_)
    (fun e hne => iff_of_false (hh _ e) (hown e hne)) (sorted_insertSorted h.sorted)
    (nodup_insertSorted h.nodup htaken.fresh) (fun _ => ⟨ev, he, ht⟩) ?_
    (fun a ha => ⟨h.periodic event a ha, h.onTime event a ha⟩) hc h.early
  · exact mem_insertSorted.trans (or_iff_right hne)
  · exact iff_of_true (.inl (mem_insertSorted.mpr (.inl rfl))) harm

theorem Inv.run_insertTimer {delay : Nat} (h : Inv s) (hc : s.control = .insertTimer event delay) :
    Inv { coreInsertEventTimer event s with control := .checkDelay delay } := by
  have htaken := h.control
  have harm := h.armed event
  rw [hc] at htaken harm
  refine h.insert htaken (harm.mp (.inr rfl)) (fun e hne he => ?_) (fun _ _ => id) trivial
  rw [hc] at he
  exact hne he.symm

theorem Inv.run_checkDelay {delay : Nat} (h : Inv s) (hc : s.control = .checkDelay delay) :
    Inv { s with control := .idle } :=
  h.setControl _ trivial fun e => by rw [hc]; exact Iff.rfl

theorem Inv.run_closeEvent (h : Inv s) (hc : s.control = .closeEvent event) :
    Inv { s with control := .idle, events := fun e => if e = event then none else s.events e } := by
  have hinv := h.control
  have harm := h.armed event
  rw [hc] at hinv harm
  obtain ⟨hfresh, hne⟩ := hinv
  have hnone : arming event s.log = none := by
    by_contra hx
    exact (harm.mpr (Option.isSome_iff_ne_none.mpr hx)).elim hfresh id
  refine h.change hne (fun e hx => if_neg hx) (fun _ _ => rfl) rfl rfl (fun _ _ => Iff.rfl) (fun e _ => ?_) ?_ h.nodup
    (fun hm => absurd hm hfresh) ?_ (fun a ha => ?_) trivial h.early
  · rw [hc]
    exact Iff.rfl
  · exact sorted_congr h.sorted fun e hm => triggerTimeOf_congr (if_neg fun hx : e = event => hfresh (hx ▸ hm))
  · show _ ↔ (arming event s.log).isSome = true
    rw [hnone]
    exact iff_of_false (fun hm => hm.elim hfresh id) nofun
  · have ha : arming event s.log = some a := ha
    rw [hnone] at ha
    cases ha

/-! ### The steps of `CoreCheckTimers` -/

theorem Inv.checkTimers (h : Inv s) (hidle : s.control = .idle)
    (hfits : ∀ e ∈ s.mEfiTimerList, triggerTimeOf s e ≤ s.mEfiSystemTime →
      Fits s.mEfiSystemTime (triggerTimeOf s e) (periodOf s e)) :
    Inv { s with control := .checkTimers s.mEfiSystemTime } :=
  h.setControl _ ⟨⟨s.elapsed, Nat.le_refl _, h.system, fun e a ha => (h.onTime e a ha).1⟩, hfits⟩
    fun e => by rw [hidle]; exact Iff.rfl

/-- The loop is over when the first timer has not expired. -/
theorem Inv.checkDone {systemTime : Nat} (h : Inv s) (hc : s.control = .checkTimers systemTime) :
    Inv { s with control := .idle } :=
  h.setControl _ trivial fun e => by rw [hc]; exact Iff.rfl

theorem Inv.expired {systemTime : Nat} {rest : List EventId} (h : Inv s) (hc : s.control = .checkTimers systemTime)
    (hl : s.mEfiTimerList = event :: rest) (ht : triggerTimeOf s event ≤ systemTime) :
    Inv (coreSignalEvent event { s with mEfiTimerList := rest, control := .setPeriodic systemTime event }) := by
  have hinv := h.control
  rw [hc] at hinv
  obtain ⟨⟨x, hx, hxt, hle⟩, hfits⟩ : Checking systemTime s := hinv
  have hmem : event ∈ s.mEfiTimerList := by rw [hl]; exact List.mem_cons_self
  obtain ⟨ev, he, htimer⟩ := h.timer event hmem
  have hnodup := h.nodup
  have hsorted := h.sorted
  rw [hl, List.nodup_cons] at hnodup
  rw [hl, List.pairwise_cons] at hsorted
  obtain ⟨a, ha⟩ := Option.isSome_iff_exists.mp ((h.armed event).mp (.inl hmem))
  -- the delay is over
  have hover : a.time + a.delay ≤ s.elapsed := by
    have := hle event a ha
    rcases (h.onTime event a ha).2 with h1 | h1
    · exact h1
    · omega
  have hother : ∀ e, e ≠ event → arming e (.signaled event s.elapsed :: s.log) = arming e s.log :=
    fun e hne => if_neg hne.symm
  have hself : arming event (.signaled event s.elapsed :: s.log) = if a.periodic then some a else none := by
    rw [arming, if_pos rfl, ha]
    rfl
  have hstill : ∀ b, arming event (.signaled event s.elapsed :: s.log) = some b → b = a := by
    intro b hb
    rw [hself] at hb
    split at hb
    · exact (Option.some.inj hb).symm
    · cases hb
  have hperiod := h.periodic event a ha
  refine h.change (h.ne_check he htimer) (fun _ _ => rfl) hother rfl rfl (fun e hne => ?_) (fun e hne => ?_) hsorted.2
    hnodup.2 (fun _ => ⟨ev, he, htimer⟩) ?_ (fun b hb => ?_) ?_ ⟨fun _ => ⟨a, ha, hover⟩, h.early⟩
  · show e ∈ rest ↔ e ∈ s.mEfiTimerList
    rw [hl, List.mem_cons]
    exact (or_iff_right hne).symm
  · rw [hc]
    exact iff_of_false (fun hx => hne hx.1.symm) id
  · show event ∈ rest ∨ event = event ∧ periodOf s event ≠ 0 ↔
      (arming event (.signaled event s.elapsed :: s.log)).isSome = true
    rw [hself, ← hperiod]
    split <;> simp [*]
  · obtain rfl := hstill b hb
    exact ⟨hperiod, h.onTime event b ha⟩
  · refine ⟨⟨⟨x, hx, hxt, fun e b hb => ?_⟩, fun e hm => ?_⟩, ⟨hnodup.1, ev, he, htimer⟩, hfits event hmem ht, ?_⟩
    · by_cases hne : e = event
      · subst hne
        rw [hstill b hb]
        exact hle e a ha
      · exact hle e b ((hother e hne).symm.trans hb)
    · exact hfits e (by rw [hl]; exact List.mem_cons_of_mem _ hm)
    · intro b hb
      rw [hstill b hb]
      exact hover

/-- A periodic timer is put back into the list. -/
theorem Inv.rearm {systemTime triggerTime : Nat} (h : Inv s) (hc : s.control = .setPeriodic systemTime event)
    (hp : periodOf s event ≠ 0) (hfit : triggerTime ≤ systemTime → Fits systemTime triggerTime (periodOf s event)) :
    Inv (coreInsertEventTimer event
      (setEvent event (fun ev => { ev with triggerTime }) { s with control := .checkTimers systemTime })) := by
  have hinv := h.control
  have harm := h.armed event
  rw [hc] at hinv harm
  obtain ⟨⟨hread, hfits⟩, htaken, -, hover⟩ := hinv
  obtain ⟨ev, he, ht⟩ := htaken.timer
  have harmed : (arming event s.log).isSome = true := harm.mp (.inr ⟨rfl, hp⟩)
  let f : IEvent → IEvent := fun ev => { ev with triggerTime }
  have hself : (setEvent event f s).events event = some { ev with triggerTime } := setEvent_self he
  have htrigger : triggerTimeOf (setEvent event f s) event = triggerTime := by
    unfold triggerTimeOf
    rw [hself]
    rfl
  have hperiod : periodOf (setEvent event f s) event = periodOf s event := by
    unfold periodOf
    rw [hself, he]
    rfl
  have hother : ∀ e ∈ s.mEfiTimerList, e ≠ event := fun e hm hx => htaken.fresh (hx ▸ hm)
  have hsorted : s.mEfiTimerList.Pairwise fun a b =>
      triggerTimeOf (setEvent event f s) a ≤ triggerTimeOf (setEvent event f s) b :=
    sorted_congr h.sorted fun e hm => triggerTimeOf_congr (setEvent_other (hother e hm))
  refine h.change (h.ne_check he ht) (fun e hne => setEvent_other hne) (fun _ _ => rfl) rfl rfl
    (fun e hne => mem_insertSorted.trans (or_iff_right hne)) (fun e hne => ?_) (sorted_insertSorted hsorted)
    (nodup_insertSorted h.nodup htaken.fresh) (fun _ => ⟨_, hself, ht⟩) ?_ (fun a ha => ?_) ⟨hread, fun e hm hle => ?_⟩
    h.early
  · rw [hc]
    exact iff_of_false id fun hx => hne hx.1.symm
  · exact iff_of_true (.inl (mem_insertSorted.mpr (.inl rfl))) harmed
  · refine ⟨?_, (h.onTime event a ha).1, .inl (hover a ha)⟩
    show a.periodic = true ↔ periodOf (setEvent event f s) event ≠ 0
    rw [hperiod]
    exact h.periodic event a ha
  · show Fits systemTime (triggerTimeOf (setEvent event f s) e) (periodOf (setEvent event f s) e)
    have hle : triggerTimeOf (setEvent event f s) e ≤ systemTime := hle
    rcases mem_insertSorted.mp hm with rfl | hm
    · rw [htrigger] at hle ⊢
      rw [hperiod]
      exact hfit hle
    · have hev := setEvent_other (f := f) (s := s) (hother e hm)
      rw [triggerTimeOf_congr hev] at hle ⊢
      rw [periodOf_congr hev]
      exact hfits e hm hle

theorem Inv.setPeriodic {systemTime : Nat} (h : Inv s) (hc : s.control = .setPeriodic systemTime event) :
    Inv (setPeriodic systemTime event s) := by
  have hinv := h.control
  rw [hc] at hinv
  obtain ⟨-, -, hfit, -⟩ := hinv
  have hperiod : periodOf { s with control := .checkTimers systemTime } event = periodOf s event := rfl
  have htrigger : triggerTimeOf { s with control := .checkTimers systemTime } event = triggerTimeOf s event := rfl
  unfold Timer.setPeriodic
  simp only [hperiod, htrigger]
  by_cases hp : periodOf s event ≠ 0
  · rw [if_pos hp]
    obtain ⟨hw, hnext⟩ := hfit hp
    rw [show uint64 (triggerTimeOf s event + periodOf s event) = triggerTimeOf s event + periodOf s event from
      Nat.mod_eq_of_lt hw]
    split
    · refine (h.rearm hc hp fun _ hp => ?_).signalCheck
      omega
    · exact h.rearm hc hp fun hle => by omega
  · rw [if_neg hp]
    refine h.setControl _ ?_ fun e => ?_
    · have hinv := h.control
      rw [hc] at hinv
      exact ⟨hinv.1.read, hinv.1.fits⟩
    · rw [hc]
      exact iff_of_false id fun hx => hp (hx.1 ▸ hx.2)

end

end Udk.Timer
