import Udk.Cursor
import Udk.Run

/-! # The SMI handlers of the SMM core

A call of `SmiManage` that has called a handler waits below the code of that handler. What it does until it calls the
next handler, or returns, is one step.
-/

namespace Udk.Smi

abbrev Guid := Nat

inductive EfiStatus
  | success
  | invalidParameter
  | outOfResources
  | interruptPending
  | warnInterruptSourcePending
  | warnInterruptSourceQuiesced
  | other (code : Nat)
  deriving DecidableEq

/-- `SMI_HANDLER`. The numbers of the allocations stand for the addresses. -/
structure SmiHandler where
  allocation : Nat
  handler : Nat
  smiEntry : Option Nat
  deriving DecidableEq

/-- `SMI_ENTRY`. -/
structure SmiEntry where
  allocation : Nat
  handlerType : Guid
  smiHandlers : List SmiHandler
  deriving DecidableEq

/-- A handler was called, with the handlers on its list at that time. -/
structure Call where
  handler : SmiHandler
  registered : List SmiHandler
  deriving DecidableEq

/-- A call of `SmiManage`: `Head` is the list of an entry, or the root list. -/
structure Activation where
  head : Option Nat
  status : EfiStatus
  interruptQuiesced : Bool
  /-- The handlers on the list when the call began. -/
  start : List SmiHandler
  /-- The calls so far, the last one first. -/
  called : List Call
  deriving DecidableEq

/-- What waits below a handler, with `Link`. -/
structure Frame where
  activation : Activation
  link : SmiHandler
  deriving DecidableEq

/-- A call of `SmiManage` that has returned. -/
structure Returned where
  activation : Activation
  status : EfiStatus
  /-- A handler returned a status that stops the dispatch. -/
  stopped : Bool
  /-- The handlers on the list when it returned. -/
  registered : List SmiHandler
  deriving DecidableEq

structure State where
  mRootSmiHandlerList : List SmiHandler
  mSmiEntryList : List SmiEntry
  /-- The number of allocations so far. -/
  allocations : Nat
  stack : List Frame
  returned : List Returned
  /-- A dispatch has read a freed handler. -/
  touchedFreed : Bool

/-! ## Entries and their lists -/

/-- `SmmCoreFindSmiEntry` without `Create`. -/
def smmCoreFindSmiEntry (handlerType : Guid) (s : State) : Option SmiEntry :=
  s.mSmiEntryList.find? (·.handlerType = handlerType)

/-- The handlers behind a list head. A head that was freed has none. -/
def handlersOf (s : State) : Option Nat → List SmiHandler
  | none => s.mRootSmiHandlerList
  | some entry => ((s.mSmiEntryList.find? (·.allocation = entry)).map (·.smiHandlers)).getD []

/-! ## Registering -/

def insertRoot (handler : Nat) (s : State) : State :=
  { s with
    mRootSmiHandlerList := s.mRootSmiHandlerList ++ [⟨s.allocations, handler, none⟩]
    allocations := s.allocations + 1 }

def insertInto (entry : SmiEntry) (handler : Nat) (s : State) : State :=
  { s with
    mSmiEntryList := s.mSmiEntryList.map fun e =>
      if e.allocation = entry.allocation then
        { e with smiHandlers := e.smiHandlers ++ [⟨s.allocations, handler, some entry.allocation⟩] }
      else e
    allocations := s.allocations + 1 }

/-- The handler is allocated first, and the entry after it. -/
def insertNew (handlerType : Guid) (handler : Nat) (s : State) : State :=
  { s with
    mSmiEntryList := s.mSmiEntryList ++
      [⟨s.allocations + 1, handlerType, [⟨s.allocations, handler, some (s.allocations + 1)⟩]⟩]
    allocations := s.allocations + 2 }

/-- `SmiHandlerRegister`, with the outcomes of its two allocations. -/
def smiHandlerRegister (handler : Option Nat) (handlerType : Option Guid) (handlerPool entryPool : Bool) (s : State) :
    EfiStatus × State :=
  match handler with
  | none => (.invalidParameter, s)
  | some handler =>
    if handlerPool = false then (.outOfResources, s)
    else
      match handlerType with
      | none => (.success, insertRoot handler s)
      | some handlerType =>
        match smmCoreFindSmiEntry handlerType s with
        | some entry => (.success, insertInto entry handler s)
        | none =>
          if entryPool = false then (.outOfResources, { s with allocations := s.allocations + 1 })
          else (.success, insertNew handlerType handler s)

/-- The entry goes with its last handler. -/
def removeFromEntry (entry : Nat) (h : SmiHandler) (entries : List SmiEntry) : List SmiEntry :=
  (entries.map fun e => if e.allocation = entry then { e with smiHandlers := e.smiHandlers.filter (· ≠ h) } else e).filter
    fun e => ¬(e.allocation = entry ∧ e.smiHandlers = [])

/-- `SmiHandlerUnRegister`, for a handle that `SmiHandlerRegister` gave out, or `NULL`. -/
def smiHandlerUnRegister (dispatchHandle : Option SmiHandler) (s : State) : EfiStatus × State :=
  match dispatchHandle with
  | none => (.invalidParameter, s)
  | some h =>
    match h.smiEntry with
    | none => (.success, { s with mRootSmiHandlerList := s.mRootSmiHandlerList.filter (· ≠ h) })
    | some entry => (.success, { s with mSmiEntryList := removeFromEntry entry h s.mSmiEntryList })

/-! ## `SmiManage` -/

def returnManage (s : State) (a : Activation) (stopped : Bool) (status : EfiStatus) : State :=
  { s with returned := ⟨a, status, stopped, handlersOf s a.head⟩ :: s.returned }

def callHandler (s : State) (a : Activation) (link : SmiHandler) : State :=
  { s with stack := ⟨{ a with called := ⟨link, handlersOf s a.head⟩ :: a.called }, link⟩ :: s.stack }

/-- What is returned when the list is exhausted. -/
def Activation.lastStatus (a : Activation) : EfiStatus :=
  match a.head with
  | none => a.status
  | some _ => if a.interruptQuiesced then .warnInterruptSourceQuiesced else .interruptPending

/-- The loop from some handler of the list on. -/
def dispatchFrom (s : State) (a : Activation) : List SmiHandler → State
  | [] => returnManage s a false a.lastStatus
  | link :: _ => callHandler s a link

/-- What a status that stops the dispatch makes `SmiManage` return. -/
def stopStatus (head : Option Nat) (status : EfiStatus) : Option EfiStatus :=
  match head, status with
  | _, .interruptPending => some .interruptPending
  | none, .success => some .success
  | some _, .success => some .warnInterruptSourceQuiesced
  | _, _ => none

/-- The status of a handler is taken note of. -/
def Activation.note (a : Activation) (status : EfiStatus) : Activation :=
  { a with
    status
    interruptQuiesced := a.interruptQuiesced || (status = .warnInterruptSourceQuiesced) }

def smiManage (handlerType : Option Guid) (s : State) : State :=
  match handlerType with
  | none =>
    dispatchFrom s ⟨none, .warnInterruptSourcePending, false, s.mRootSmiHandlerList, []⟩ s.mRootSmiHandlerList
  | some handlerType =>
    match smmCoreFindSmiEntry handlerType s with
    | none => returnManage s ⟨none, .warnInterruptSourcePending, false, [], []⟩ true .warnInterruptSourcePending
    | some entry =>
      dispatchFrom s ⟨some entry.allocation, .warnInterruptSourcePending, false, entry.smiHandlers, []⟩ entry.smiHandlers

/-- The handler at `Link` has returned. -/
def handlerReturned (s : State) (f : Frame) (status : EfiStatus) : State :=
  let a := f.activation.note status
  match stopStatus a.head status with
  | some result => returnManage s a true result
  | none =>
    if f.link ∉ handlersOf s a.head then { s with touchedFreed := true }
    else dispatchFrom s a (Cursor.behind (some f.link) (handlersOf s a.head))

/-! ## The system -/

inductive Event
  | register (handler : Option Nat) (handlerType : Option Guid) (handlerPool entryPool : Bool)
  | unregister (dispatchHandle : Option SmiHandler)
  | manage (handlerType : Option Guid)
  /-- The handler that runs returns. -/
  | handlerReturns (status : EfiStatus)
  deriving DecidableEq

/-- A handle that is not `NULL` is one of a handler that is registered. -/
def Registered (s : State) (h : SmiHandler) : Prop := h ∈ handlersOf s h.smiEntry

instance (s : State) (h : SmiHandler) : Decidable (Registered s h) := inferInstanceAs (Decidable (_ ∈ _))

/-- The code on top of the stack, the SMM core or a handler, makes a call or returns. -/
def step (s : State) (e : Event) : Option State :=
  if s.touchedFreed then none
  else
    match e with
    | .register handler handlerType handlerPool entryPool =>
      some (smiHandlerRegister handler handlerType handlerPool entryPool s).2
    | .unregister dispatchHandle =>
      if ∀ h ∈ dispatchHandle, Registered s h then some (smiHandlerUnRegister dispatchHandle s).2 else none
    | .manage handlerType => some (smiManage handlerType s)
    | .handlerReturns status =>
      match s.stack with
      | [] => none
      | f :: stack => some (handlerReturned { s with stack } f status)

def init : State := ⟨[], [], 0, [], [], false⟩

end Udk.Smi
