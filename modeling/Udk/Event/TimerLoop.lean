import Mathlib.Data.List.TakeWhile
import Udk.Event.TimerService

/-! # The loop of CoreCheckTimers ends

The signals that the loop still has to give are a list, and each round takes one of them. A timer that is set to now
and wraps again is given back, so the list does not get shorter.
-/

namespace Udk.Timer

/-- The timers ahead of the first one that is not expired. -/
def dueTimers (systemTime : Nat) (s : State) : List EventId :=
  s.mEfiTimerList.takeWhile fun e => triggerTimeOf s e ≤ systemTime

/-- The timer is set to now, and will be signaled again. -/
def ResetToNow (systemTime : Nat) (s : State) (e : EventId) : Prop :=
  periodOf s e ≠ 0 ∧ uint64 (triggerTimeOf s e + periodOf s e) ≤ systemTime

instance (systemTime : Nat) (s : State) (e : EventId) : Decidable (ResetToNow systemTime s e) :=
  inferInstanceAs (Decidable (_ ∧ _))

def again (systemTime : Nat) (s : State) (e : EventId) : List EventId := if ResetToNow systemTime s e then [e] else []

def signalsOf (systemTime : Nat) (s : State) (l : List EventId) : List EventId :=
  l.flatMap fun e => e :: again systemTime s e

/-- The signals that the call still has to give. -/
def remaining (s : State) : List EventId :=
  match s.control with
  | .checkTimers systemTime => signalsOf systemTime s (dueTimers systemTime s)
  | .setPeriodic systemTime e => again systemTime s e ++ signalsOf systemTime s (dueTimers systemTime s)
  | _ => []

/-- The events that were signaled, but for the one whose notification is `CoreCheckTimers` itself. -/
def signaledOf : List Entry → List EventId
  | [] => []
  | .signaled e _ :: log => if e = mEfiCheckTimerEvent then signaledOf log else e :: signaledOf log
  | _ :: log => signaledOf log

/-- The timer can be set to now, and its next trigger time is after now. -/
def MovesOn (systemTime : Nat) (s : State) (e : EventId) : Prop :=
  ResetToNow systemTime s e → systemTime + periodOf s e < 2 ^ 64

/-- A list of timers: an event is linked once, and the event of `CoreCheckTimers` is no timer. -/
structure TimerList (s : State) : Prop where
  nodup : s.mEfiTimerList.Nodup
  noCheck : mEfiCheckTimerEvent ∉ s.mEfiTimerList
  period : ∀ e, periodOf s e < 2 ^ 64

section
variable {s s' : State} {systemTime : Nat} {event : EventId}

/-! ## The list -/

theorem takeWhile_insert_now {key : EventId → Nat} {l : List EventId} (h : key event = systemTime) :
    (insertSorted key event l).takeWhile (fun e => decide (key e ≤ systemTime)) =
      l.takeWhile (fun e => decide (key e ≤ systemTime)) ++ [event] := by
  induction l with
  | nil => simp [insertSorted, h]
  | cons x rest ih =>
    rw [insertSorted]
    split
    · rename_i hlt
      rw [List.takeWhile_cons_of_pos (by simp [h]), List.takeWhile_cons_of_neg (by simp; omega)]
      rfl
    · rename_i hle
      rw [List.takeWhile_cons_of_pos (by simp; omega), ih, List.takeWhile_cons_of_pos (by simp; omega)]
      rfl

theorem takeWhile_insert_later {key : EventId → Nat} {l : List EventId} (h : systemTime < key event) :
    (insertSorted key event l).takeWhile (fun e => decide (key e ≤ systemTime)) =
      l.takeWhile (fun e => decide (key e ≤ systemTime)) := by
  induction l with
  | nil => simp [insertSorted, h]
  | cons x rest ih =>
    rw [insertSorted]
    split
    · rw [List.takeWhile_cons_of_neg (by simp; omega), List.takeWhile_cons_of_neg (by simp; omega)]
    · by_cases hx : key x ≤ systemTime
      · rw [List.takeWhile_cons_of_pos (by simp; omega), ih, List.takeWhile_cons_of_pos (by simp; omega)]
      · rw [List.takeWhile_cons_of_neg (by simp; omega), List.takeWhile_cons_of_neg (by simp; omega)]

theorem mem_dueTimers {e : EventId} (h : e ∈ dueTimers systemTime s) :
    e ∈ s.mEfiTimerList ∧ triggerTimeOf s e ≤ systemTime :=
  ⟨(List.takeWhile_sublist _).subset h, by simpa using List.mem_takeWhile_imp h⟩

theorem takeWhile_congr {key key' : EventId → Nat} {l : List EventId} (h : ∀ e ∈ l, key' e = key e) :
    l.takeWhile (fun e => decide (key' e ≤ systemTime)) = l.takeWhile (fun e => decide (key e ≤ systemTime)) := by
  induction l with
  | nil => rfl
  | cons x rest ih =>
    obtain ⟨hx, hrest⟩ := List.forall_mem_cons.mp h
    rw [List.takeWhile_cons, List.takeWhile_cons, hx, ih hrest]

theorem resetToNow_congr {e : EventId} (h : s'.events e = s.events e) :
    ResetToNow systemTime s' e ↔ ResetToNow systemTime s e := by
  unfold ResetToNow
  rw [triggerTimeOf_congr h, periodOf_congr h]

theorem signalsOf_congr {l : List EventId} (h : ∀ e ∈ l, s'.events e = s.events e) :
    signalsOf systemTime s' l = signalsOf systemTime s l := by
  unfold signalsOf
  rw [List.flatMap_def, List.flatMap_def, List.map_congr_left]
  intro e he
  unfold again
  simp only [resetToNow_congr (h e he)]

theorem signalsOf_append (l l' : List EventId) :
    signalsOf systemTime s (l ++ l') = signalsOf systemTime s l ++ signalsOf systemTime s l' := List.flatMap_append

theorem signalsOf_cons (e : EventId) (l : List EventId) :
    signalsOf systemTime s (e :: l) = e :: (again systemTime s e ++ signalsOf systemTime s l) := rfl

/-! ## The rounds -/

theorem checkLoop_cases (systemTime : Nat) (s : State) :
    dueTimers systemTime s = [] ∧ checkLoop systemTime s = { s with control := .idle } ∨
      ∃ event rest, s.mEfiTimerList = event :: rest ∧ triggerTimeOf s event ≤ systemTime ∧
        dueTimers systemTime s = event :: dueTimers systemTime { s with mEfiTimerList := rest } ∧
        checkLoop systemTime s =
          coreSignalEvent event { s with mEfiTimerList := rest, control := .setPeriodic systemTime event } := by
  unfold checkLoop
  split
  · rename_i hl
    refine .inl ⟨?_, rfl⟩
    rw [dueTimers, hl, List.takeWhile_nil]
  · rename_i event rest hl
    split
    · rename_i hlt
      refine .inl ⟨?_, rfl⟩
      rw [dueTimers, hl, List.takeWhile_cons_of_neg (by simp; omega)]
    · rename_i hle
      refine .inr ⟨event, rest, hl, Nat.le_of_not_lt hle, ?_, rfl⟩
      rw [dueTimers, hl, List.takeWhile_cons_of_pos (by simp; omega)]
      rfl

/-- A timer is not set again, is set to now, or is set to a later time. -/
theorem setPeriodic_cases (systemTime : Nat) (event : EventId) (s : State) :
    periodOf s event = 0 ∧ setPeriodic systemTime event s = { s with control := .checkTimers systemTime } ∨
      ∃ ev triggerTime log, s.events event = some ev ∧ periodOf s event ≠ 0 ∧
        setPeriodic systemTime event s = { coreInsertEventTimer event (setEvent event
          (fun ev => { ev with triggerTime }) { s with control := .checkTimers systemTime }) with log } ∧
        (ResetToNow systemTime s event ∧ triggerTime = systemTime ∧ log = .signaled mEfiCheckTimerEvent s.elapsed :: s.log ∨
          ¬ResetToNow systemTime s event ∧ systemTime < triggerTime ∧ log = s.log) := by
  have hperiod : periodOf { s with control := .checkTimers systemTime } event = periodOf s event := rfl
  have htrigger : triggerTimeOf { s with control := .checkTimers systemTime } event = triggerTimeOf s event := rfl
  unfold setPeriodic
  simp only [hperiod, htrigger]
  by_cases hp : periodOf s event = 0
  · exact .inl ⟨hp, if_neg fun hne => hne hp⟩
  · obtain ⟨ev, hev⟩ : ∃ ev, s.events event = some ev := by
      refine Option.ne_none_iff_exists'.mp fun hnone => hp ?_
      unfold periodOf
      rw [hnone]
      rfl
    rw [if_pos hp]
    split
    · rename_i hle
      exact .inr ⟨ev, systemTime, _, hev, hp, rfl, .inl ⟨⟨hp, hle⟩, rfl, rfl⟩⟩
    · rename_i hgt
      exact .inr ⟨ev, _, _, hev, hp, rfl, .inr ⟨fun h => hgt h.2, by omega, rfl⟩⟩

/-- What is due after a timer is set again. -/
theorem dueTimers_rearmed {ev : IEvent} (systemTime triggerTime : Nat) (log : List Entry) (control : Control)
    (hev : s.events event = some ev) (hfresh : event ∉ s.mEfiTimerList) :
    let s' := { coreInsertEventTimer event (setEvent event (fun ev => { ev with triggerTime }) { s with control }) with log }
    (triggerTimeOf s' event = triggerTime ∧ periodOf s' event = periodOf s event) ∧
      (∀ e ≠ event, s'.events e = s.events e) ∧
      (triggerTime = systemTime → dueTimers systemTime s' = dueTimers systemTime s ++ [event]) ∧
      (systemTime < triggerTime → dueTimers systemTime s' = dueTimers systemTime s) := by
  intro s'
  have hself : s'.events event = some { ev with triggerTime } := setEvent_self hev
  have hother : ∀ e ≠ event, s'.events e = s.events e := fun e he => setEvent_other he
  have htrigger : triggerTimeOf s' event = triggerTime := by
    unfold triggerTimeOf
    rw [hself]
    rfl
  have hdue : s.mEfiTimerList.takeWhile (fun e => decide (triggerTimeOf s' e ≤ systemTime)) = dueTimers systemTime s :=
    takeWhile_congr fun e he => triggerTimeOf_congr (hother e fun heq => hfresh (heq ▸ he))
  refine ⟨⟨htrigger, ?_⟩, hother, fun h => ?_, fun h => ?_⟩
  · unfold periodOf
    rw [hself, hev]
    rfl
  · rw [← hdue]
    exact takeWhile_insert_now (htrigger.trans h)
  · rw [← hdue]
    exact takeWhile_insert_later (htrigger ▸ h)

/-! ## The loop ends -/

/-- `CoreCheckTimers` is under way or done, and no timer that it may set to now stays there. -/
structure Calling (systemTime : Nat) (s : State) : Prop where
  nodup : s.mEfiTimerList.Nodup
  noCheck : mEfiCheckTimerEvent ∉ s.mEfiTimerList
  moves : ∀ e ∈ dueTimers systemTime s, MovesOn systemTime s e
  control : s.control = .idle ∨ s.control = .checkTimers systemTime ∨ ∃ e, s.control = .setPeriodic systemTime e ∧
    e ∉ s.mEfiTimerList ∧ e ≠ mEfiCheckTimerEvent ∧ MovesOn systemTime s e

/-- The steps that are left, at most. -/
def roundsLeft (s : State) : Nat :=
  match s.control with
  | .checkTimers _ => 2 * (remaining s).length + 1
  | .setPeriodic _ _ => 2 * (remaining s).length + 2
  | _ => 0

theorem Calling.timerTick (h : Calling systemTime s) (duration : Nat) :
    Calling systemTime (coreTimerTick duration s) ∧ remaining (coreTimerTick duration s) = remaining s ∧
      roundsLeft (coreTimerTick duration s) = roundsLeft s ∧
      signaledOf (coreTimerTick duration s).log = signaledOf s.log := by
  obtain ⟨log, hlog, heq⟩ := timerTick_spec duration s
  rw [heq]
  refine ⟨⟨h.nodup, h.noCheck, h.moves, h.control⟩, rfl, rfl, ?_⟩
  rcases hlog with rfl | ⟨t, rfl⟩
  · rfl
  · exact if_pos rfl

theorem Calling.checkLoop (h : Calling systemTime s) (hc : s.control = .checkTimers systemTime) :
    Calling systemTime (checkLoop systemTime s) ∧ 1 + roundsLeft (checkLoop systemTime s) ≤ roundsLeft s ∧
      (signaledOf (checkLoop systemTime s).log ++ remaining (checkLoop systemTime s)).Perm
        (signaledOf s.log ++ remaining s) := by
  have hremaining : remaining s = signalsOf systemTime s (dueTimers systemTime s) := by
    unfold remaining
    rw [hc]
  have hrounds : roundsLeft s = 2 * (remaining s).length + 1 := by
    unfold roundsLeft
    rw [hc]
  rcases checkLoop_cases systemTime s with ⟨hdue, heq⟩ | ⟨event, rest, hl, hle, hdue, heq⟩
  · rw [heq, hrounds, hremaining, hdue]
    exact ⟨⟨h.nodup, h.noCheck, h.moves, .inl rfl⟩, Nat.le_add_left _ _, List.Perm.refl _⟩
  · have hnodup := h.nodup
    have hnoCheck := h.noCheck
    have hmoves := h.moves
    rw [hl, List.nodup_cons] at hnodup
    rw [hl, List.mem_cons, not_or] at hnoCheck
    rw [hdue] at hmoves
    have hlater : remaining (Timer.checkLoop systemTime s) = again systemTime s event ++
        signalsOf systemTime s (dueTimers systemTime { s with mEfiTimerList := rest }) := by
      rw [heq]
      rfl
    have hhead : remaining s = event :: remaining (Timer.checkLoop systemTime s) := by
      rw [hremaining, hdue, hlater, signalsOf_cons]
    refine ⟨?_, ?_, ?_⟩
    · rw [heq]
      exact ⟨hnodup.2, hnoCheck.2, fun e he => hmoves e (List.mem_cons_of_mem _ he),
        .inr (.inr ⟨event, rfl, hnodup.1, Ne.symm hnoCheck.1, hmoves event List.mem_cons_self⟩)⟩
    · have hnext : roundsLeft (Timer.checkLoop systemTime s) =
          2 * (remaining (Timer.checkLoop systemTime s)).length + 2 := by
        unfold roundsLeft
        rw [heq]
        rfl
      rw [hnext, hrounds, hhead, List.length_cons]
      omega
    · have hlog : signaledOf (Timer.checkLoop systemTime s).log = event :: signaledOf s.log := by
        rw [heq]
        exact if_neg (Ne.symm hnoCheck.1)
      rw [hlog, hhead]
      exact List.perm_middle.symm

theorem Calling.setPeriodic (h : Calling systemTime s) (hc : s.control = .setPeriodic systemTime event) :
    Calling systemTime (setPeriodic systemTime event s) ∧ 1 + roundsLeft (setPeriodic systemTime event s) ≤ roundsLeft s ∧
      (signaledOf (setPeriodic systemTime event s).log ++ remaining (setPeriodic systemTime event s)).Perm
        (signaledOf s.log ++ remaining s) := by
  obtain ⟨hfresh, hcheck, hmoves⟩ : event ∉ s.mEfiTimerList ∧ event ≠ mEfiCheckTimerEvent ∧ MovesOn systemTime s event := by
    rcases h.control with hx | hx | ⟨e, hx, hrest⟩
    · rw [hc] at hx
      cases hx
    · rw [hc] at hx
      cases hx
    · rw [hc] at hx
      cases hx
      exact hrest
  have hremaining : remaining s = again systemTime s event ++ signalsOf systemTime s (dueTimers systemTime s) := by
    unfold remaining
    rw [hc]
  have hrounds : roundsLeft s = 2 * (remaining s).length + 2 := by
    unfold roundsLeft
    rw [hc]
  rcases setPeriodic_cases systemTime event s with ⟨hp, heq⟩ | ⟨ev, t, log, hev, hp, heq, hcase⟩
  · have hnone : again systemTime s event = [] := if_neg fun hr => hr.1 hp
    have hlater : remaining (Timer.setPeriodic systemTime event s) = remaining s := by
      rw [heq, hremaining, hnone]
      rfl
    refine ⟨?_, ?_, ?_⟩
    · rw [heq]
      exact ⟨h.nodup, h.noCheck, h.moves, .inr (.inl rfl)⟩
    · have hnext : roundsLeft (Timer.setPeriodic systemTime event s) =
          2 * (remaining (Timer.setPeriodic systemTime event s)).length + 1 := by
        unfold roundsLeft
        rw [heq]
      rw [hnext, hrounds, hlater]
      omega
    · rw [hlater, heq]
  · obtain ⟨⟨htrigger, hperiod⟩, hother, hnow, hlate⟩ :=
      dueTimers_rearmed systemTime t log (.checkTimers systemTime) hev hfresh
    obtain ⟨key, hlist⟩ : ∃ key, (Timer.setPeriodic systemTime event s).mEfiTimerList =
        insertSorted key event s.mEfiTimerList := ⟨_, by rw [heq]; rfl⟩
    have hcontrol : (Timer.setPeriodic systemTime event s).control = .checkTimers systemTime := by
      rw [heq]
      rfl
    rw [← heq] at htrigger hperiod hother hnow hlate
    have hne : ∀ e ∈ dueTimers systemTime s, e ≠ event := fun e he heq => hfresh (heq ▸ (mem_dueTimers he).1)
    have hsignals : signalsOf systemTime (Timer.setPeriodic systemTime event s) (dueTimers systemTime s) =
        signalsOf systemTime s (dueTimers systemTime s) := signalsOf_congr fun e he => hother e (hne e he)
    have hmovesOld : ∀ e ∈ dueTimers systemTime s, MovesOn systemTime (Timer.setPeriodic systemTime event s) e := by
      intro e he hreset
      rw [periodOf_congr (hother e (hne e he))]
      exact h.moves e he ((resetToNow_congr (hother e (hne e he))).mp hreset)
    have hcalling : (∀ e ∈ dueTimers systemTime (Timer.setPeriodic systemTime event s),
        MovesOn systemTime (Timer.setPeriodic systemTime event s) e) →
        Calling systemTime (Timer.setPeriodic systemTime event s) := by
      refine fun hm => ⟨?_, ?_, hm, .inr (.inl hcontrol)⟩
      · rw [hlist]
        exact nodup_insertSorted h.nodup hfresh
      · rw [hlist, mem_insertSorted, not_or]
        exact ⟨Ne.symm hcheck, h.noCheck⟩
    have hlater : remaining (Timer.setPeriodic systemTime event s) = signalsOf systemTime
        (Timer.setPeriodic systemTime event s) (dueTimers systemTime (Timer.setPeriodic systemTime event s)) := by
      unfold remaining
      rw [hcontrol]
    have hnext : roundsLeft (Timer.setPeriodic systemTime event s) =
        2 * (remaining (Timer.setPeriodic systemTime event s)).length + 1 := by
      unfold roundsLeft
      rw [hcontrol]
    have hlog : (Timer.setPeriodic systemTime event s).log = log := by
      rw [heq]
    rcases hcase with ⟨hreset, rfl, rfl⟩ | ⟨hreset, hlt, rfl⟩
    · -- it was set to now, and moves on the next time
      have hmoved := hmoves hreset
      have hnone : ¬ResetToNow t (Timer.setPeriodic t event s) event := by
        rintro ⟨-, hle⟩
        rw [htrigger, hperiod, uint64, Nat.mod_eq_of_lt hmoved] at hle
        omega
      have hperm : (remaining (Timer.setPeriodic t event s)).Perm (remaining s) := by
        have hlast : signalsOf t (Timer.setPeriodic t event s) [event] = [event] := by
          rw [signalsOf_cons, again, if_neg hnone]
          rfl
        have hfirst : again t s event = [event] := if_pos hreset
        rw [hlater, hnow rfl, hremaining, signalsOf_append, hsignals, hlast, hfirst]
        exact List.perm_append_comm
      refine ⟨hcalling fun e he => ?_, ?_, ?_⟩
      · rw [hnow rfl] at he
        rcases List.mem_append.mp he with he | he
        · exact hmovesOld e he
        · exact fun hr => absurd (List.mem_singleton.mp he ▸ hr) hnone
      · rw [hnext, hrounds, hperm.length_eq]
        omega
      · rw [hlog]
        exact hperm.append_left _
    · have hnone : again systemTime s event = [] := if_neg hreset
      have hsame : remaining (Timer.setPeriodic systemTime event s) = remaining s := by
        rw [hlater, hlate hlt, hsignals, hremaining, hnone, List.nil_append]
      refine ⟨hcalling fun e he => hmovesOld e (hlate hlt ▸ he), ?_, ?_⟩
      · rw [hnext, hrounds, hsame]
        omega
      · rw [hlog, hsame]

theorem Calling.step {a : Action} (h : Calling systemTime s) (ha : a.GoesOn) (hs : step s a = some s') :
    Calling systemTime s' ∧ a.steps + roundsLeft s' ≤ roundsLeft s ∧
      (signaledOf s'.log ++ remaining s').Perm (signaledOf s.log ++ remaining s) := by
  cases a with
  | timerTick duration =>
    obtain rfl := Option.some.inj hs
    obtain ⟨h1, h2, h3, h4⟩ := h.timerTick duration.toNat
    rw [h2, h3, h4]
    exact ⟨h1, Nat.le_of_eq (Nat.zero_add _), List.Perm.refl _⟩
  | run =>
    unfold Timer.step Timer.run at hs
    rcases h.control with hc | hc | ⟨event, hc, -⟩
    · rw [hc] at hs
      cases hs
    · rw [hc] at hs
      obtain rfl := Option.some.inj hs
      exact h.checkLoop hc
    · rw [hc] at hs
      obtain rfl := Option.some.inj hs
      exact h.setPeriodic hc
  | _ => exact ha.elim

theorem Calling.goesOn (h : Calling systemTime s) (hne : s.control ≠ .idle) : ∃ s', Timer.step s .run = some s' := by
  unfold Timer.step Timer.run
  rcases h.control with hc | hc | ⟨e, hc, -⟩
  · exact absurd hc hne
  · exact ⟨_, by rw [hc]⟩
  · exact ⟨_, by rw [hc]⟩

/-! ## The loop does not end -/

/-- A timer that is due, and stays so whenever it is set again. -/
structure Stuck (systemTime : Nat) (event : EventId) (s : State) : Prop where
  nodup : s.mEfiTimerList.Nodup
  reset : ResetToNow systemTime s event
  wraps : 2 ^ 64 ≤ systemTime + periodOf s event
  period : periodOf s event < 2 ^ 64
  now : systemTime < 2 ^ 64
  control : s.control = .checkTimers systemTime ∧ event ∈ dueTimers systemTime s ∨
    ∃ e, s.control = .setPeriodic systemTime e ∧ e ∉ s.mEfiTimerList ∧ (event = e ∨ event ∈ dueTimers systemTime s)

theorem Stuck.step {a : Action} (h : Stuck systemTime event s) (ha : a.GoesOn) (hs : step s a = some s') :
    Stuck systemTime event s' := by
  cases a with
  | timerTick duration =>
    obtain rfl := Option.some.inj hs
    obtain ⟨log, -, heq⟩ := timerTick_spec duration.toNat s
    rw [heq]
    exact ⟨h.nodup, h.reset, h.wraps, h.period, h.now, h.control⟩
  | run =>
    unfold Timer.step Timer.run at hs
    rcases h.control with ⟨hc, hdue⟩ | ⟨e, hc, hfresh, hmem⟩
    · rw [hc] at hs
      obtain rfl := Option.some.inj hs
      rcases checkLoop_cases systemTime s with ⟨hnil, -⟩ | ⟨e, rest, hl, -, hcons, heq⟩
      · rw [hnil] at hdue
        cases hdue
      · have hnodup := h.nodup
        rw [hl, List.nodup_cons] at hnodup
        rw [heq]
        refine ⟨hnodup.2, h.reset, h.wraps, h.period, h.now, .inr ⟨e, rfl, hnodup.1, ?_⟩⟩
        rw [hcons] at hdue
        exact List.mem_cons.mp hdue
    · rw [hc] at hs
      obtain rfl := Option.some.inj hs
      rcases setPeriodic_cases systemTime e s with ⟨hp, heq⟩ | ⟨ev, t, log, hev, -, heq, hcase⟩
      · rw [heq]
        refine ⟨h.nodup, h.reset, h.wraps, h.period, h.now, .inl ⟨rfl, ?_⟩⟩
        exact hmem.resolve_left fun hx => h.reset.1 (hx ▸ hp)
      · obtain ⟨⟨htrigger, hperiod⟩, hother, hnow, hlate⟩ :=
          dueTimers_rearmed systemTime t log (.checkTimers systemTime) hev hfresh
        obtain ⟨key, hlist⟩ : ∃ key, (setPeriodic systemTime e s).mEfiTimerList = insertSorted key e s.mEfiTimerList :=
          ⟨_, by rw [heq]; rfl⟩
        have hcontrol : (setPeriodic systemTime e s).control = .checkTimers systemTime := by
          rw [heq]
          rfl
        have hnodup := hlist ▸ nodup_insertSorted (l := s.mEfiTimerList) h.nodup hfresh
        rw [← heq] at htrigger hperiod hother hnow hlate
        have hwraps := h.wraps
        have hbound := h.period
        have htime := h.now
        by_cases hx : event = e
        · subst hx
          rcases hcase with ⟨-, rfl, -⟩ | ⟨hno, -, -⟩
          · refine ⟨hnodup, ⟨by rw [hperiod]; exact h.reset.1, ?_⟩, by rwa [hperiod], by rwa [hperiod], htime,
              .inl ⟨hcontrol, by rw [hnow rfl]; exact List.mem_append_right _ List.mem_cons_self⟩⟩
            rw [htrigger, hperiod, uint64]
            omega
          · exact absurd h.reset hno
        · have hsame := hother event hx
          have hperiod' := periodOf_congr hsame
          refine ⟨hnodup, (resetToNow_congr hsame).mpr h.reset, by rwa [hperiod'], by rwa [hperiod'], htime,
            .inl ⟨hcontrol, ?_⟩⟩
          have hdue := hmem.resolve_left hx
          rcases hcase with ⟨-, rfl, -⟩ | ⟨-, hlt, -⟩
          · rw [hnow rfl]
            exact List.mem_append_left _ hdue
          · rwa [hlate hlt]
  | _ => exact ha.elim

/-- It can take any number of steps. -/
theorem Stuck.steps (h : Stuck systemTime event s) (n : Nat) :
    ∃ es s', Run Timer.step (fun _ a => a.GoesOn) s es s' ∧ (es.map Action.steps).sum = n ∧ Stuck systemTime event s' := by
  induction n with
  | zero => exact ⟨[], s, .nil, rfl, h⟩
  | succ n ih =>
    obtain ⟨es, s₁, hrun, hsum, hstuck⟩ := ih
    obtain ⟨s₂, hs₂⟩ : ∃ s₂, Timer.step s₁ .run = some s₂ := by
      unfold Timer.step Timer.run
      rcases hstuck.control with ⟨hc, -⟩ | ⟨e, hc, -⟩
      · exact ⟨_, by rw [hc]⟩
      · exact ⟨_, by rw [hc]⟩
    have hgo : Action.run.GoesOn := trivial
    refine ⟨es ++ [.run], s₂, .snoc hrun hgo hs₂, ?_, hstuck.step hgo hs₂⟩
    rw [List.map_append, List.sum_append, hsum]
    rfl

/-! ## A call -/

/-- The call leaves its loop after a bounded number of steps, and signals each event at most twice. -/
def Leaves (s : State) : Prop :=
  ∃ n, ∀ es s', Run Timer.step (fun _ a => a.GoesOn) s es s' →
    (es.map Action.steps).sum ≤ n ∧ (s'.control ≠ .idle → ∃ s'', Timer.step s' .run = some s'') ∧
      ∀ e, (signaledOf s'.log).count e ≤ (signaledOf s.log).count e + 2

theorem Stuck.not_leaves (h : Stuck systemTime event s) : ¬Leaves s := by
  rintro ⟨n, hn⟩
  obtain ⟨es, s', hrun, hsum, -⟩ := h.steps (n + 1)
  have := (hn es s' hrun).1
  omega

theorem count_signalsOf (e : EventId) {l : List EventId} (h : l.Nodup) : (signalsOf systemTime s l).count e ≤ 2 := by
  induction l with
  | nil => exact Nat.zero_le _
  | cons x l ih =>
    obtain ⟨hx, hl⟩ := List.nodup_cons.mp h
    have hagain : (again systemTime s x).count e ≤ if x = e then 1 else 0 := by
      unfold again
      split
      · rw [List.count_singleton]
        simp
      · exact Nat.zero_le _
    rw [signalsOf_cons, List.count_cons, List.count_append]
    by_cases he : x = e
    · subst he
      have hnone : (signalsOf systemTime s l).count x = 0 := by
        refine List.count_eq_zero.mpr fun hin => ?_
        obtain ⟨y, hy, hin⟩ := List.mem_flatMap.mp hin
        rcases List.mem_cons.mp hin with rfl | hin
        · exact hx hy
        · unfold again at hin
          split at hin
          · exact hx (List.mem_singleton.mp hin ▸ hy)
          · cases hin
      rw [if_pos rfl] at hagain
      simp only [beq_self_eq_true, if_true]
      omega
    · rw [if_neg he] at hagain
      have := ih hl
      simp only [beq_iff_eq, he, if_false]
      omega

/-- The call leaves its loop unless a timer that it sets to now stays there. -/
theorem leaves_iff (h : TimerList s) (hc : s.control = .checkTimers systemTime) (hnow : systemTime < 2 ^ 64) :
    Leaves s ↔ ∀ e ∈ dueTimers systemTime s, MovesOn systemTime s e := by
  constructor
  · intro hleaves e he hreset
    by_contra hwraps
    have hstuck : Stuck systemTime e s :=
      ⟨h.nodup, hreset, Nat.le_of_not_lt hwraps, h.period e, hnow, .inl ⟨hc, he⟩⟩
    exact hstuck.not_leaves hleaves
  · intro hmoves
    have hstart : Calling systemTime s := ⟨h.nodup, h.noCheck, hmoves, .inr (.inl hc)⟩
    refine ⟨roundsLeft s, fun es s' hrun => ?_⟩
    obtain ⟨⟨hcalling, hperm⟩, hsteps⟩ := @Run.potential _ _ Timer.step (fun _ a => a.GoesOn) s s' es
      (fun s' => Calling systemTime s' ∧ (signaledOf s'.log ++ remaining s').Perm (signaledOf s.log ++ remaining s))
      Action.steps roundsLeft hrun ⟨hstart, List.Perm.refl _⟩ fun _ _ _ hp ha hst =>
        have hstep := hp.1.step ha hst
        ⟨⟨hstep.1, hstep.2.2.trans hp.2⟩, hstep.2.1⟩
    refine ⟨by omega, hcalling.goesOn, fun e => ?_⟩
    have hcount := hperm.count_eq e
    have htwo : (remaining s).count e ≤ 2 := by
      unfold remaining
      rw [hc]
      exact count_signalsOf e (h.nodup.sublist (List.takeWhile_sublist _))
    rw [List.count_append, List.count_append] at hcount
    omega

end

/-! ## Samples -/

/-- Event 1 is a timer with this period. It was due at time 0, and it is time 1 now. -/
def sampleCall (period : Nat) : State :=
  { initialState with
    mEfiTimerList := [1]
    mEfiSystemTime := 1
    elapsed := 1
    events := fun e => if e = 0 then some ⟨false, 0, 0⟩ else if e = 1 then some ⟨true, 0, period⟩ else none
    control := .checkTimers 1 }

theorem periodOf_sampleCall (period : Nat) (e : EventId) : periodOf (sampleCall period) e = if e = 1 then period else 0 := by
  unfold periodOf sampleCall
  by_cases h0 : e = 0
  · simp [h0]
  · by_cases h1 : e = 1
    · simp [h1]
    · simp [h0, h1]

theorem leaves_iff_sample :
    Leaves (sampleCall 10) ↔ ∀ e ∈ dueTimers 1 (sampleCall 10), MovesOn 1 (sampleCall 10) e :=
  leaves_iff ⟨by decide, by decide, fun e => by rw [periodOf_sampleCall]; split <;> omega⟩ rfl (by omega)

/-- A period of 2^64 - 1 is set at time 2: each sum is the time before, so the timer is set to now, again and again. -/
theorem longest_period_stays :
    ∃ s, Reachable (fun _ _ => True) s ∧ s.control = .checkTimers 2 ∧ ¬Leaves s := by
  obtain ⟨s, hrun, hstuck⟩ : ∃ s, [.createEvent 1 true, .timerTick 2, .setTimer 1 .timerPeriodic 0xFFFFFFFFFFFFFFFF, .run,
      .run, .run, .checkTimers].foldlM step initialState = some s ∧ s.control = .checkTimers 2 ∧ Stuck 2 1 s := by
    refine ⟨_, rfl, rfl, ⟨by decide, by decide, by decide, by decide, by decide, .inl ⟨rfl, by decide⟩⟩⟩
  exact ⟨s, ⟨_, Run.of_foldlM (fun _ _ _ => trivial) hrun⟩, hstuck.1, hstuck.2.not_leaves⟩

end Udk.Timer
