import Udk.QueueLog
import Udk.Run

/-! # Events and task priority levels

The services take turns with the code that calls them and with the notify functions. What is under way is
a stack of frames, the innermost first. A critical section under `gEventQueueLock` is one step: it runs at
`TPL_HIGH_LEVEL`, where nothing interrupts it.
-/

namespace Udk.Event

def tplApplication : Nat := 4
def tplHighLevel : Nat := 31

/-- The address of an `IEVENT`. -/
abbrev EventId := Nat

/-- A GUID, by a number. The zero GUID is 0. -/
abbrev Guid := Nat

def gEfiEventExitBootServicesGuid : Guid := 1
def gEfiEventVirtualAddressChangeGuid : Guid := 2

def evtTimer : UInt32 := 0x80000000
def evtNotifyWait : UInt32 := 0x00000100
def evtNotifySignal : UInt32 := 0x00000200
def evtSignalExitBootServices : UInt32 := 0x00000201
def evtSignalVirtualAddressChange : UInt32 := 0x60000202

def mEventTable : List UInt32 :=
  [evtTimer ||| evtNotifySignal, evtTimer, evtNotifyWait, evtNotifySignal, evtSignalExitBootServices,
    evtSignalVirtualAddressChange, 0, evtTimer ||| evtNotifyWait]

/-- `IEVENT`. -/
structure IEvent where
  type : UInt32
  signalCount : Nat
  notifyTpl : Nat
  eventGroup : Guid
  exFlag : Bool
  deriving DecidableEq

/-- `(Event->Type & EVT_NOTIFY_SIGNAL) != 0`. -/
def IEvent.isSignal (ev : IEvent) : Bool := ev.type &&& evtNotifySignal != 0

/-- What is under way. -/
inductive Frame
  /-- The application, a notify function or an interrupt handler, with the TPL at which it started. -/
  | code (entryTpl : Nat)
  /-- The loop of `CoreRestoreTpl`. -/
  | restoreTpl (newTpl : Nat)
  /-- `CoreDispatchEventNotifies`, before it acquires the lock. -/
  | dispatchEventNotifies (priority : Nat)
  /-- `CoreDispatchEventNotifies`, before it calls the notify function. -/
  | notifyFunction (priority : Nat) (event : EventId)
  /-- `CoreSignalEvent`, before it calls `CoreNotifySignalList`. -/
  | notifySignalList (eventGroup : Guid)
  /-- `CoreSignalEvent`, before it acquires the lock for the last time. -/
  | signalEvent
  deriving DecidableEq

structure State where
  gEfiCurrentTpl : Nat
  gEventPending : BitVec 64
  gEventQueue : Nat → List EventId
  gEventSignalQueue : List EventId
  /-- The events that were created and not closed. -/
  events : EventId → Option IEvent
  stack : List Frame
  /-- What happened to the queues, the last entry first. -/
  log : List (QueueEvent EventId)
  /-- The notify functions that were called, the last one first. -/
  notified : List (EventId × Nat)

/-- The application runs, and there is no event. -/
def initialState : State where
  gEfiCurrentTpl := tplApplication
  gEventPending := 0
  gEventQueue := fun _ => []
  gEventSignalQueue := []
  events := fun _ => none
  stack := [.code 0]
  log := []
  notified := []

/-! ## Under the lock -/

def coreNotifyEvent (event : EventId) (s : State) : State :=
  match s.events event with
  | none => s
  | some ev =>
    { s with
      gEventQueue := fun tpl =>
        if tpl = ev.notifyTpl then (s.gEventQueue tpl).filter (· ≠ event) ++ [event]
        else (s.gEventQueue tpl).filter (· ≠ event)
      gEventPending := s.gEventPending ||| 1#64 <<< ev.notifyTpl
      log := .queued event ev.notifyTpl :: s.log }

def inGroup (s : State) (eventGroup : Guid) (event : EventId) : Bool :=
  (s.events event).any fun ev => ev.eventGroup == eventGroup

/-- The loop of `CoreNotifySignalList`. -/
def notifySignalList (eventGroup : Guid) (s : State) : State :=
  (s.gEventSignalQueue.filter (inGroup s eventGroup)).foldl (fun s event => coreNotifyEvent event s) s

def setSignalCount (event : EventId) (count : Nat) (s : State) : State :=
  { s with events := fun e => if e = event then (s.events e).map ({ · with signalCount := count }) else s.events e }

/-- Takes the event from wherever it is queued, and frees it. -/
def removeEvent (event : EventId) (s : State) : State :=
  { s with
    gEventQueue := fun tpl => (s.gEventQueue tpl).filter (· ≠ event)
    gEventSignalQueue := s.gEventSignalQueue.filter (· ≠ event)
    events := fun e => if e = event then none else s.events e
    log := .dropped event :: s.log }

/-- A critical section, and `CoreRestoreTpl` for the TPL at which the lock was acquired. -/
def locked (section_ : State → State) (rest : List Frame) (s : State) : State :=
  let ownerTpl := s.gEfiCurrentTpl
  let s := section_ { s with gEfiCurrentTpl := tplHighLevel }
  { s with stack := .restoreTpl ownerTpl :: rest }

/-! ## The services -/

/-- `CoreRaiseTpl`. A call that breaks one of its assertions is outside of the model. -/
def coreRaiseTpl (newTpl : Nat) (s : State) : Option State :=
  if s.gEfiCurrentTpl ≤ newTpl ∧ newTpl ≤ tplHighLevel then some { s with gEfiCurrentTpl := newTpl } else none

/-- The call of `CoreRestoreTpl`, up to its loop. -/
def coreRestoreTpl (newTpl : Nat) (s : State) : Option State :=
  if newTpl ≤ s.gEfiCurrentTpl ∧ newTpl ≤ tplHighLevel then some { s with stack := .restoreTpl newTpl :: s.stack }
  else none

/-- `(-2 << NewTpl) & gEventPending`. The shift is one of 32-bit numbers in C; no bit from 32 on is ever
pending. -/
def pendingAbove (newTpl : Nat) (pending : BitVec 64) : BitVec 64 := (-2#64) <<< newTpl &&& pending

def highBitBelow (x : BitVec 64) : Nat → Nat
  | 0 => 0
  | n + 1 => if x.getLsbD n then n else highBitBelow x n

def highBitSet64 (x : BitVec 64) : Nat := highBitBelow x 64

/-- One round of the loop of `CoreRestoreTpl`, or its end. -/
def restoreLoop (newTpl : Nat) (rest : List Frame) (s : State) : State :=
  if pendingAbove newTpl s.gEventPending ≠ 0 then
    { s with
      gEfiCurrentTpl := highBitSet64 s.gEventPending
      stack := .dispatchEventNotifies (highBitSet64 s.gEventPending) :: .restoreTpl newTpl :: rest }
  else { s with gEfiCurrentTpl := newTpl, stack := rest }

/-- Takes the first event of a queue. -/
def takeEvent (priority : Nat) (event : EventId) (queue : List EventId) (s : State) : State :=
  let s :=
    { s with
      gEventQueue := fun tpl => if tpl = priority then queue else s.gEventQueue tpl
      log := .taken event priority :: s.log }
  if (s.events event).any IEvent.isSignal then setSignalCount event 0 s else s

/-- One round of the loop of `CoreDispatchEventNotifies`, or its end. -/
def dispatchLoop (priority : Nat) (rest : List Frame) (s : State) : State :=
  match s.gEventQueue priority with
  | [] => locked (fun s => { s with gEventPending := s.gEventPending &&& ~~~(1#64 <<< priority) }) rest s
  | event :: queue => locked (takeEvent priority event queue) (.notifyFunction priority event :: rest) s

def coreSignalEvent (event : EventId) (s : State) : State :=
  match s.events event with
  | none => s
  | some ev =>
    if ev.signalCount ≠ 0 then locked id s.stack s
    else if ev.isSignal = false then locked (setSignalCount event 1) s.stack s
    else if ev.exFlag then locked (setSignalCount event 1) (.notifySignalList ev.eventGroup :: s.stack) s
    else locked (fun s => coreNotifyEvent event (setSignalCount event 1 s)) s.stack s

def coreCloseEvent (event : EventId) (s : State) : State :=
  match s.events event with
  | none => s
  | some _ => locked (removeEvent event) s.stack s

/-- The type and the group that `CoreCreateEventEx` goes on with, if it accepts them. -/
def convertType (type : UInt32) (eventGroup : Option Guid) : Option (UInt32 × Option Guid) :=
  if type ∈ mEventTable then
    match eventGroup with
    | some group =>
      if type = evtSignalExitBootServices ∨ type = evtSignalVirtualAddressChange then none
      else if group = gEfiEventExitBootServicesGuid then some (evtSignalExitBootServices, some group)
      else if group = gEfiEventVirtualAddressChangeGuid then some (evtSignalVirtualAddressChange, some group)
      else some (type, some group)
    | none =>
      if type = evtSignalExitBootServices then some (type, some gEfiEventExitBootServicesGuid)
      else if type = evtSignalVirtualAddressChange then some (type, some gEfiEventVirtualAddressChangeGuid)
      else some (type, none)
  else none

/-- The arguments of `CoreCreateEventEx`, and the memory that the pool has for the event. -/
structure CreateCall where
  type : UInt32
  notifyTpl : Nat
  hasNotifyFunction : Bool
  eventGroup : Option Guid
  memory : Option EventId

/-- The event that `CoreCreateEventEx` makes, if it accepts its arguments. -/
def newEvent (c : CreateCall) : Option IEvent :=
  match convertType c.type c.eventGroup with
  | none => none
  | some (type, eventGroup) =>
    if type &&& (evtNotifyWait ||| evtNotifySignal) ≠ 0 then
      if c.hasNotifyFunction = false ∨ c.notifyTpl ≤ tplApplication ∨ tplHighLevel ≤ c.notifyTpl then none
      else some ⟨type, 0, c.notifyTpl, eventGroup.getD 0, eventGroup.isSome⟩
    else some ⟨type, 0, 0, eventGroup.getD 0, eventGroup.isSome⟩

/-- The pool has no memory that is in use. -/
def coreCreateEventEx (c : CreateCall) (s : State) : Option State :=
  match newEvent c, c.memory with
  | some ev, some event =>
    if s.events event ≠ none then none
    else
      some (locked (fun s =>
        { s with
          events := fun e => if e = event then some ev else s.events e
          gEventSignalQueue := if ev.isSignal then event :: s.gEventSignalQueue else s.gEventSignalQueue })
        s.stack s)
  | _, _ => some s

/-! ## The system -/

inductive Call
  | raiseTpl (newTpl : Nat)
  | restoreTpl (newTpl : Nat)
  | signalEvent (event : EventId)
  | closeEvent (event : EventId)
  | createEventEx (c : CreateCall)
  /-- The DXE core signals a group. -/
  | notifySignalList (eventGroup : Guid)

def call (s : State) : Call → Option State
  | .raiseTpl newTpl => coreRaiseTpl newTpl s
  | .restoreTpl newTpl => coreRestoreTpl newTpl s
  | .signalEvent event => some (coreSignalEvent event s)
  | .closeEvent event => some (coreCloseEvent event s)
  | .createEventEx c => coreCreateEventEx c s
  | .notifySignalList eventGroup => some (locked (notifySignalList eventGroup) s.stack s)

inductive Action
  /-- The code that runs calls a service. -/
  | call (c : Call)
  /-- The code that runs returns. -/
  | ret
  /-- An interrupt arrives, not inside of `CoreRestoreTpl`. -/
  | interrupt
  /-- The service that runs goes on. -/
  | run

def step (s : State) : Action → Option State
  | .call c =>
    match s.stack with
    | .code _ :: _ => call s c
    | _ => none
  | .ret =>
    match s.stack with
    | .code _ :: frame :: rest => some { s with stack := frame :: rest }
    | _ => none
  | .interrupt =>
    match s.stack with
    | .restoreTpl _ :: _ => none
    | stack =>
      if s.gEfiCurrentTpl < tplHighLevel then some { s with stack := .code s.gEfiCurrentTpl :: stack } else none
  | .run =>
    match s.stack with
    | .restoreTpl newTpl :: rest => some (restoreLoop newTpl rest s)
    | .dispatchEventNotifies priority :: rest => some (dispatchLoop priority rest s)
    | .notifyFunction priority event :: rest =>
      some { s with
        stack := .code s.gEfiCurrentTpl :: .dispatchEventNotifies priority :: rest
        notified := (event, priority) :: s.notified }
    | .notifySignalList eventGroup :: rest => some (locked (notifySignalList eventGroup) (.signalEvent :: rest) s)
    | .signalEvent :: rest => some (locked id rest s)
    | _ => none

end Udk.Event
