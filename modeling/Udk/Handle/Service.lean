import Udk.Handle.Database

/-! # The services of the handle database

What is under way is a stack of frames, the innermost first. Code stands for whoever calls the services: an
application, a driver, a notify function. It may call any of them at any time. `CoreDisconnectController` and
`CoreConnectController` only read the database, call the services and call drivers, so they are code as well.
-/

namespace Udk.Handle

/-- A protocol and its interface. -/
abbrev Pair := Guid × Interface

/-- The protocols of a handle, and their interfaces. -/
def interfacesOf (db : Database) (h : EfiHandle) : List Pair :=
  (protocolsOf db h).filterMap fun p => (db.prots p).map fun q => (q.protocol, q.interface)

/-- Why `CoreDisconnectControllersUsingProtocolInterface` was called. -/
inductive Removal
  | uninstall (userHandle : EfiHandle) (protocol : Guid) (interface : Interface)
  | reinstall (userHandle : EfiHandle) (protocol : Guid) (oldInterface newInterface : Interface)
  deriving DecidableEq

/-- The arguments of a call for many interfaces, and the database when it started. -/
structure MultipleCall where
  handle : EfiHandle
  pairs : List Pair
  before : EfiHandle → List Pair

/-- What is under way. -/
inductive Frame
  /-- Code that was called, or the application. -/
  | code
  /-- Code that runs between two steps of a service, with the status the service has at that time. -/
  | interrupted (status : EfiStatus)
  /-- `CoreOpenProtocol`, in the loop that disconnects drivers. -/
  | openProtocol (call : OpenCall) (prot : ProtAddress)
  /-- `CoreInstallProtocolInterfaceNotify`, before it acquires the lock. -/
  | install (userHandle : EfiHandle) (protocol : Guid) (interface : Interface) (status : EfiStatus)
  /-- The first loop of `CoreDisconnectControllersUsingProtocolInterface`. -/
  | disconnect (prot : ProtAddress) (removal : Removal)
  /-- The end of `CoreDisconnectControllersUsingProtocolInterface`, when it failed. -/
  | reconnect
  /-- `CoreReinstallProtocolInterface`, before it notifies. -/
  | reinstall (protocol : Guid)
  /-- The loop of `CoreInstallMultipleProtocolInterfaces`. -/
  | installMultiple (call : MultipleCall) (index : Nat)
  | installRollback (call : MultipleCall) (remaining : List Pair) (status : EfiStatus)
  /-- The loop of `CoreUninstallMultipleProtocolInterfaces`. -/
  | uninstallMultiple (call : MultipleCall) (index : Nat)
  | uninstallRollback (call : MultipleCall) (remaining : List Pair) (status : EfiStatus)

namespace Frame

def isCode : Frame → Bool
  | .code => true
  | .interrupted _ => true
  | _ => false

/-- `CoreInstallMultipleProtocolInterfaces` runs at `TPL_NOTIFY`. -/
def atNotify : Frame → Bool
  | .installMultiple _ _ => true
  | .installRollback _ _ _ => true
  | _ => false

end Frame

/-- A call for many interfaces that is over, with the database when it returned. -/
inductive Returned
  | install (call : MultipleCall) (status : EfiStatus) (handle : EfiHandle) (after : EfiHandle → List Pair)
  | uninstall (call : MultipleCall) (status : EfiStatus) (after : EfiHandle → List Pair)

structure State where
  db : Database
  stack : List Frame
  /-- What the last call returned. -/
  status : EfiStatus
  /-- `*UserHandle`, for the last call of `CoreInstallProtocolInterface`. -/
  userHandle : EfiHandle
  /-- The calls for many interfaces, the last one first. -/
  returned : List Returned

def initialState (devicePathAt : Interface → DevicePath) : State where
  db :=
    { handles := fun _ => none
      prots := fun _ => none
      mProtocolDatabase := fun _ => none
      gHandleDatabaseKey := 0
      gDxeCoreImageHandle := 0
      devicePathAt
      signaled := [] }
  stack := [.code]
  status := .success
  userHandle := 0
  returned := []

/-! ## Opening -/

/-- One round of the loop in which `CoreOpenProtocol` disconnects drivers, or its end. There is no step when
the interface is not there any more. -/
def openLoop (pool : Pool) (c : OpenCall) (prot : ProtAddress) (rest : List Frame) (s : State) : Option State :=
  match s.db.prots prot with
  | none => none
  | some q =>
    if q.openList.any OpenProtocolData.byDriver then
      some { s with stack := .code :: .openProtocol c prot :: rest }
    else
      let (status, db) := newOpenEntry pool c prot s.db
      some { s with db, status, stack := rest }

def openProtocol (pool : Pool) (c : OpenCall) (s : State) : Option State :=
  match coreOpenProtocol pool c s.db with
  | .done status db => some { s with db, status }
  | .disconnect prot => openLoop pool c prot s.stack s

/-! ## Uninstalling and reinstalling -/

/-- What follows when nobody uses the interface any more. There is no step when the handle is gone. -/
def finishRemoval (removal : Removal) (rest : List Frame) (s : State) : Option State :=
  match removal with
  | .uninstall userHandle protocol interface =>
    if coreValidateHandle userHandle s.db = false then none
    else
      let (status, db) := removeProtocolInterface userHandle protocol interface s.db
      some { s with db, status, stack := rest }
  | .reinstall userHandle protocol oldInterface newInterface =>
    if coreValidateHandle userHandle s.db = false then none
    else
      let (status, db) := replaceProtocolInterface userHandle protocol oldInterface newInterface s.db
      if status.isError then some { s with db, status, stack := rest }
      else some { s with db, status, stack := .code :: .reinstall protocol :: rest }

/-- One round of the first loop of `CoreDisconnectControllersUsingProtocolInterface`, or all that follows. -/
def disconnectLoop (prot : ProtAddress) (removal : Removal) (rest : List Frame) (s : State) : Option State :=
  match s.db.prots prot with
  | none => none
  | some q =>
    if q.openList.any OpenProtocolData.byDriver then
      some { s with stack := .code :: .disconnect prot removal :: rest }
    else
      let db := removeQueries prot s.db
      if (db.prots prot).any fun q => q.openListCount != 0 then
        some { s with db, stack := .code :: .reconnect :: rest }
      else finishRemoval removal rest { s with db }

/-- `CoreUninstallProtocolInterface` and `CoreReinstallProtocolInterface`. -/
def startRemoval (userHandle : EfiHandle) (protocol : Guid) (interface : Interface) (removal : Removal) (s : State) :
    Option State :=
  if coreValidateHandle userHandle s.db = false then some { s with status := .invalidParameter }
  else
    match coreFindProtocolInterface userHandle protocol interface s.db with
    | none => some { s with status := .notFound }
    | some prot => disconnectLoop prot removal s.stack s

def coreUninstallProtocolInterface (userHandle : EfiHandle) (protocol : Guid) (interface : Interface) (s : State) :
    Option State :=
  startRemoval userHandle protocol interface (.uninstall userHandle protocol interface) s

def coreReinstallProtocolInterface (userHandle : EfiHandle) (protocol : Guid) (oldInterface newInterface : Interface)
    (s : State) : Option State :=
  startRemoval userHandle protocol oldInterface (.reinstall userHandle protocol oldInterface newInterface) s

/-! ## Installing -/

/-- `CoreInstallProtocolInterfaceNotify`, before it acquires the lock. -/
def coreInstallProtocolInterface (pool : Pool) (userHandle : EfiHandle) (protocol : Guid) (interface : Interface)
    (s : State) : State :=
  if userHandle ≠ 0 then
    let (status, db) := coreHandleProtocol pool userHandle protocol s.db
    if status.isError then { s with db, userHandle, stack := .install userHandle protocol interface status :: s.stack }
    else { s with db, userHandle, status := .invalidParameter }
  else { s with userHandle, stack := .install userHandle protocol interface .outOfResources :: s.stack }

def runInstallMultiple (pool : Pool) (call : MultipleCall) (index : Nat) (rest : List Frame) (s : State) : State :=
  if s.status.isError then
    { s with stack := .installRollback call (call.pairs.take (index - 1)) s.status :: rest }
  else
    match call.pairs[index]? with
    | none =>
      { s with
        status := .success
        stack := rest
        returned := .install call .success s.userHandle (interfacesOf s.db) :: s.returned }
    | some (protocol, interface) =>
      let s := { s with stack := .installMultiple call (index + 1) :: rest }
      if protocol = gEfiDevicePathProtocolGuid then
        let (isDuplicate, db) := hasDevicePath pool interface s.db
        if isDuplicate then { s with db, status := .alreadyStarted }
        else coreInstallProtocolInterface pool s.userHandle protocol interface { s with db }
      else coreInstallProtocolInterface pool s.userHandle protocol interface s

def runInstallRollback (call : MultipleCall) (remaining : List Pair) (status : EfiStatus) (rest : List Frame)
    (s : State) : Option State :=
  match remaining with
  | [] =>
    some { s with
      status
      userHandle := call.handle
      stack := rest
      returned := .install call status call.handle (interfacesOf s.db) :: s.returned }
  | (protocol, interface) :: remaining =>
    coreUninstallProtocolInterface s.userHandle protocol interface
      { s with stack := .installRollback call remaining status :: rest }

def runUninstallMultiple (call : MultipleCall) (index : Nat) (rest : List Frame) (s : State) : Option State :=
  if s.status.isError then
    some { s with stack := .uninstallRollback call (call.pairs.take (index - 1)) s.status :: rest }
  else
    match call.pairs[index]? with
    | none =>
      some { s with
        status := .success
        stack := rest
        returned := .uninstall call .success (interfacesOf s.db) :: s.returned }
    | some (protocol, interface) =>
      coreUninstallProtocolInterface call.handle protocol interface
        { s with stack := .uninstallMultiple call (index + 1) :: rest }

def runUninstallRollback (pool : Pool) (call : MultipleCall) (remaining : List Pair) (status : EfiStatus)
    (rest : List Frame) (s : State) : State :=
  match remaining with
  | [] =>
    { s with
      status
      stack := rest
      returned := .uninstall call status (interfacesOf s.db) :: s.returned }
  | (protocol, interface) :: remaining =>
    coreInstallProtocolInterface pool call.handle protocol interface
      { s with stack := .uninstallRollback call remaining status :: rest }

/-! ## The system -/

inductive Action
  | openProtocol (call : OpenCall)
  | closeProtocol (userHandle : EfiHandle) (protocol : Guid) (agentHandle controllerHandle : EfiHandle)
  | installProtocolInterface (userHandle : EfiHandle) (protocol : Guid) (interface : Interface)
  | uninstallProtocolInterface (userHandle : EfiHandle) (protocol : Guid) (interface : Interface)
  | reinstallProtocolInterface (userHandle : EfiHandle) (protocol : Guid) (oldInterface newInterface : Interface)
  | installMultipleProtocolInterfaces (handle : EfiHandle) (pairs : List Pair)
  | uninstallMultipleProtocolInterfaces (handle : EfiHandle) (pairs : List Pair)
  | locateDevicePath (protocol : Guid) (devicePath : Interface)
  | registerProtocolNotify (protocol : Guid) (event : EventId)
  /-- `CoreInitializeImageServices` sets `gDxeCoreImageHandle`. -/
  | initializeImageServices (handle : EfiHandle)
  /-- The code that is running returns to the service that called it. -/
  | return (status : EfiStatus)
  /-- Code starts between two steps of a service. -/
  | interrupt
  /-- The service that is under way goes on. -/
  | run

structure Event where
  pool : Pool
  action : Action

/-- What code does. -/
def codeStep (s : State) (pool : Pool) : Action → Option State
  | .openProtocol call => openProtocol pool call s
  | .closeProtocol userHandle protocol agentHandle controllerHandle =>
    let (status, db) := coreCloseProtocol userHandle protocol agentHandle controllerHandle s.db
    some { s with db, status }
  | .installProtocolInterface userHandle protocol interface =>
    some (coreInstallProtocolInterface pool userHandle protocol interface s)
  | .uninstallProtocolInterface userHandle protocol interface =>
    coreUninstallProtocolInterface userHandle protocol interface s
  | .reinstallProtocolInterface userHandle protocol oldInterface newInterface =>
    coreReinstallProtocolInterface userHandle protocol oldInterface newInterface s
  | .installMultipleProtocolInterfaces handle pairs =>
    some { s with
      status := .success
      userHandle := handle
      stack := .installMultiple ⟨handle, pairs, interfacesOf s.db⟩ 0 :: s.stack }
  | .uninstallMultipleProtocolInterfaces handle pairs =>
    some { s with
      status := .success
      stack := .uninstallMultiple ⟨handle, pairs, interfacesOf s.db⟩ 0 :: s.stack }
  | .locateDevicePath protocol devicePath =>
    some { s with db := (coreLocateDevicePath pool protocol devicePath s.db).2 }
  | .registerProtocolNotify protocol event =>
    let (status, db) := coreRegisterProtocolNotify pool protocol event s.db
    some { s with db, status }
  | .initializeImageServices handle => some { s with db := { s.db with gDxeCoreImageHandle := handle } }
  | .return status =>
    match s.stack with
    | .code :: frame :: rest => some { s with status, stack := frame :: rest }
    | .interrupted saved :: rest => some { s with status := saved, stack := rest }
    | _ => none
  | .interrupt => none
  | .run => none

/-- The next step of a service. -/
def runStep (s : State) (pool : Pool) (frame : Frame) (rest : List Frame) : Option State :=
  match frame with
  | .code => none
  | .interrupted _ => none
  | .openProtocol c prot =>
    if s.status.isError then some { s with status := .accessDenied, stack := rest }
    else openLoop pool c prot rest s
  | .install userHandle protocol interface status =>
    let (status, handle, db) := installProtocolInterface pool userHandle protocol interface status s.db
    some { s with db, status, userHandle := handle, stack := rest }
  | .disconnect prot removal =>
    if s.status.isError then some { s with stack := .code :: .reconnect :: rest }
    else disconnectLoop prot removal rest s
  | .reconnect => some { s with status := .accessDenied, stack := rest }
  | .reinstall protocol =>
    some { s with db := coreNotifyProtocolEntry protocol s.db, status := .success, stack := rest }
  | .installMultiple call index => some (runInstallMultiple pool call index rest s)
  | .installRollback call remaining status => runInstallRollback call remaining status rest s
  | .uninstallMultiple call index => runUninstallMultiple call index rest s
  | .uninstallRollback call remaining status => some (runUninstallRollback pool call remaining status rest s)

def step (s : State) (e : Event) : Option State :=
  if e.pool.fresh s.db = false then none
  else
    match s.stack with
    | [] => none
    | frame :: rest =>
      if frame.isCode then codeStep s e.pool e.action
      else
        match e.action with
        | .run => runStep s e.pool frame rest
        | .interrupt =>
          if s.stack.any Frame.atNotify then none
          else some { s with stack := .interrupted s.status :: s.stack }
        | _ => none

end Udk.Handle
