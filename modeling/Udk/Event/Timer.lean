import Udk.Run

/-! # Timers

A call of a service goes on step by step, and a tick may come between any two steps: `CoreTimerTick` runs in
an interrupt handler at `TPL_HIGH_LEVEL`, and `mEfiTimerLock` is one level below.
-/

namespace Udk.Timer

abbrev EventId := Nat

/-- The result of an operation on `UINT64`. -/
def uint64 (n : Nat) : Nat := n % 2 ^ 64

/-- `EFI_TIMER_DELAY`, and any other value of the parameter. -/
inductive EfiTimerDelay
  | timerCancel
  | timerPeriodic
  | timerRelative
  | other
  deriving DecidableEq

inductive EfiStatus
  | success
  | invalidParameter
  deriving DecidableEq

/-- What the timer services read of an `IEVENT`. -/
structure IEvent where
  /-- `(Event->Type & EVT_TIMER) != 0`. -/
  isTimer : Bool
  triggerTime : Nat
  period : Nat
  deriving DecidableEq

/-- What is left to do of the call that is under way. -/
inductive Control
  | idle
  /-- `CoreSetTimer`, before it reads the system time. -/
  | setTimer (event : EventId) (type : EfiTimerDelay) (triggerTime : Nat)
  /-- `CoreSetTimer`, before `CoreInsertEventTimer`. -/
  | insertTimer (event : EventId) (triggerTime : Nat)
  /-- `CoreSetTimer`, before it looks whether the delay is 0. -/
  | checkDelay (triggerTime : Nat)
  /-- `CoreCloseEvent`, after `CoreSetTimer`. -/
  | closeEvent (event : EventId)
  /-- The loop of `CoreCheckTimers`. -/
  | checkTimers (systemTime : Nat)
  /-- `CoreCheckTimers`, after the event was signaled. -/
  | setPeriodic (systemTime : Nat) (event : EventId)
  deriving DecidableEq

/-- What happened. The time is the sum of all ticks. -/
inductive Entry
  | armed (event : EventId) (time delay : Nat) (periodic : Bool)
  | signaled (event : EventId) (time : Nat)
  | stopped (event : EventId)
  deriving DecidableEq

structure State where
  mEfiTimerList : List EventId
  mEfiSystemTime : Nat
  events : EventId → Option IEvent
  control : Control
  /-- The sum of all ticks. -/
  elapsed : Nat
  /-- The last entry first. -/
  log : List Entry

/-- The event that `CoreInitializeTimer` creates. -/
def mEfiCheckTimerEvent : EventId := 0

def initialState : State where
  mEfiTimerList := []
  mEfiSystemTime := 0
  events := fun e => if e = mEfiCheckTimerEvent then some ⟨false, 0, 0⟩ else none
  control := .idle
  elapsed := 0
  log := []

/-! ## The services -/

def triggerTimeOf (s : State) (event : EventId) : Nat := ((s.events event).map IEvent.triggerTime).getD 0

def periodOf (s : State) (event : EventId) : Nat := ((s.events event).map IEvent.period).getD 0

def setEvent (event : EventId) (f : IEvent → IEvent) (s : State) : State :=
  { s with events := fun e => if e = event then (s.events e).map f else s.events e }

def coreSignalEvent (event : EventId) (s : State) : State := { s with log := .signaled event s.elapsed :: s.log }

/-- Inserts the event before the first one that triggers later. -/
def insertSorted (key : EventId → Nat) (event : EventId) : List EventId → List EventId
  | [] => [event]
  | event2 :: rest => if key event < key event2 then event :: event2 :: rest else event2 :: insertSorted key event rest

def coreInsertEventTimer (event : EventId) (s : State) : State :=
  { s with mEfiTimerList := insertSorted (triggerTimeOf s) event s.mEfiTimerList }

def coreTimerTick (duration : Nat) (s : State) : State :=
  let s := { s with mEfiSystemTime := uint64 (s.mEfiSystemTime + duration), elapsed := s.elapsed + duration }
  match s.mEfiTimerList with
  | [] => s
  | event :: _ => if triggerTimeOf s event ≤ s.mEfiSystemTime then coreSignalEvent mEfiCheckTimerEvent s else s

/-- Takes the event from the list, and clears its times. -/
def stopTimer (event : EventId) (s : State) : State :=
  let s := setEvent event (fun ev => { ev with triggerTime := 0, period := 0 }) s
  { s with mEfiTimerList := s.mEfiTimerList.filter (· ≠ event), log := .stopped event :: s.log }

/-- `CoreSetTimer`, up to the time it reads the system time. -/
def coreSetTimer (event : EventId) (type : EfiTimerDelay) (triggerTime : Nat) (s : State) : EfiStatus × State :=
  match s.events event with
  | none => (.invalidParameter, s)
  | some ev =>
    if type = .other ∨ ev.isTimer = false then (.invalidParameter, s)
    else
      let s := stopTimer event s
      match type with
      | .timerPeriodic =>
        (.success, { setEvent event (fun ev => { ev with period := triggerTime }) s with
          control := .setTimer event type triggerTime })
      | .timerRelative => (.success, { s with control := .setTimer event type triggerTime })
      | _ => (.success, s)

/-- `CoreCloseEvent`, up to the end of its call of `CoreSetTimer`. -/
def coreCloseEvent (event : EventId) (s : State) : EfiStatus × State :=
  match s.events event with
  | none => (.invalidParameter, s)
  | some ev =>
    let s := if ev.isTimer then (coreSetTimer event .timerCancel 0 s).2 else s
    (.success, { s with control := .closeEvent event })

/-- One round of the loop of `CoreCheckTimers`, up to the signal, or its end. -/
def checkLoop (systemTime : Nat) (s : State) : State :=
  match s.mEfiTimerList with
  | [] => { s with control := .idle }
  | event :: rest =>
    if systemTime < triggerTimeOf s event then { s with control := .idle }
    else coreSignalEvent event { s with mEfiTimerList := rest, control := .setPeriodic systemTime event }

/-- The rest of the round: a periodic timer is set again. -/
def setPeriodic (systemTime : Nat) (event : EventId) (s : State) : State :=
  let s := { s with control := .checkTimers systemTime }
  if periodOf s event ≠ 0 then
    let triggerTime := uint64 (triggerTimeOf s event + periodOf s event)
    if triggerTime ≤ systemTime then
      coreInsertEventTimer event
        (coreSignalEvent mEfiCheckTimerEvent (setEvent event (fun ev => { ev with triggerTime := systemTime }) s))
    else coreInsertEventTimer event (setEvent event (fun ev => { ev with triggerTime }) s)
  else s

/-- The next step of the call that is under way. -/
def run (s : State) : Option State :=
  match s.control with
  | .idle => none
  | .setTimer event type delay =>
    let s' := setEvent event (fun ev => { ev with triggerTime := uint64 (s.mEfiSystemTime + delay) }) s
    some { s' with
      control := .insertTimer event delay
      log := .armed event s.elapsed delay (type == .timerPeriodic) :: s.log }
  | .insertTimer event delay => some { coreInsertEventTimer event s with control := .checkDelay delay }
  | .checkDelay delay =>
    let s := { s with control := .idle }
    some (if delay = 0 then coreSignalEvent mEfiCheckTimerEvent s else s)
  | .closeEvent event =>
    some { s with control := .idle, events := fun e => if e = event then none else s.events e }
  | .checkTimers systemTime => some (checkLoop systemTime s)
  | .setPeriodic systemTime event => some (setPeriodic systemTime event s)

/-! ## The system -/

inductive Action
  | setTimer (event : EventId) (type : EfiTimerDelay) (triggerTime : UInt64)
  | checkTimers
  | closeEvent (event : EventId)
  | createEvent (event : EventId) (isTimer : Bool)
  | timerTick (duration : UInt64)
  /-- The call that is under way goes on. -/
  | run

def step (s : State) : Action → Option State
  | .timerTick duration => some (coreTimerTick duration.toNat s)
  | .run => run s
  | .setTimer event type triggerTime =>
    if s.control = .idle then some (coreSetTimer event type triggerTime.toNat s).2 else none
  | .checkTimers =>
    if s.control = .idle then some { s with control := .checkTimers s.mEfiSystemTime } else none
  | .closeEvent event =>
    if s.control = .idle ∧ event ≠ mEfiCheckTimerEvent then some (coreCloseEvent event s).2 else none
  | .createEvent event isTimer =>
    if s.control = .idle ∧ s.events event = none then
      some { s with events := fun e => if e = event then some ⟨isTimer, 0, 0⟩ else s.events e }
    else none

end Udk.Timer
