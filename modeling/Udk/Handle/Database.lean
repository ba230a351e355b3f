import Udk.Run

/-! # The handle database

The services work under `gProtocolDatabaseLock`. A function of this module is what one of them does while it
holds the lock. A null pointer for a GUID or for an output is refused at once, and is outside of the model.
-/

namespace Udk.Handle

/-- The address of an `IHANDLE`. `NULL` is 0. -/
abbrev EfiHandle := Nat

/-- The address of a `PROTOCOL_INTERFACE`. -/
abbrev ProtAddress := Nat

/-- A GUID, by a number. -/
abbrev Guid := Nat

/-- The address of an interface. -/
abbrev Interface := Nat

abbrev EventId := Nat

def gEfiDevicePathProtocolGuid : Guid := 1

def efiOpenProtocolByHandleProtocol : UInt32 := 0x01
def efiOpenProtocolGetProtocol : UInt32 := 0x02
def efiOpenProtocolTestProtocol : UInt32 := 0x04
def efiOpenProtocolByChildController : UInt32 := 0x08
def efiOpenProtocolByDriver : UInt32 := 0x10
def efiOpenProtocolExclusive : UInt32 := 0x20

/-- `EFI_STATUS`. A driver may return any warning and any error. -/
inductive EfiStatus
  | success
  | warning
  | invalidParameter
  | unsupported
  | notFound
  | outOfResources
  | accessDenied
  | alreadyStarted
  | deviceError
  deriving DecidableEq

/-- `EFI_ERROR`. -/
def EfiStatus.isError : EfiStatus → Bool
  | .success => false
  | .warning => false
  | _ => true

/-- `OPEN_PROTOCOL_DATA`. -/
structure OpenProtocolData where
  agentHandle : EfiHandle
  controllerHandle : EfiHandle
  attributes : UInt32
  openCount : UInt32
  deriving DecidableEq

namespace OpenProtocolData

def byDriver (d : OpenProtocolData) : Bool := d.attributes &&& efiOpenProtocolByDriver != 0

def exclusive (d : OpenProtocolData) : Bool := d.attributes &&& efiOpenProtocolExclusive != 0

/-- The entries that nobody has to be asked to close. -/
def isQuery (d : OpenProtocolData) : Bool :=
  d.attributes &&&
    (efiOpenProtocolByHandleProtocol ||| efiOpenProtocolGetProtocol ||| efiOpenProtocolTestProtocol) != 0

end OpenProtocolData

/-- `PROTOCOL_INTERFACE`. A `PROTOCOL_ENTRY` is given by its GUID. -/
structure ProtocolInterface where
  handle : EfiHandle
  protocol : Guid
  interface : Interface
  openList : List OpenProtocolData
  openListCount : Nat
  deriving DecidableEq

/-- `PROTOCOL_NOTIFY`. The position is the interface notified last, or the head of the list. -/
structure ProtocolNotify where
  event : EventId
  position : Option ProtAddress
  deriving DecidableEq

/-- `PROTOCOL_ENTRY`. -/
structure ProtocolEntry where
  protocols : List ProtAddress
  notify : List ProtocolNotify
  deriving DecidableEq

/-- `IHANDLE`. -/
structure IHandle where
  protocols : List ProtAddress
  key : UInt64
  deriving DecidableEq

/-- A node of a device path, but not the one that ends it. -/
structure DevicePathNode where
  type : UInt8
  subType : UInt8
  data : List UInt8

/-- A device path, by its nodes up to the one that ends it. -/
abbrev DevicePath := List DevicePathNode

structure Database where
  /-- What is allocated and has the signature of a handle. -/
  handles : EfiHandle → Option IHandle
  /-- What is allocated and has the signature of a protocol interface. -/
  prots : ProtAddress → Option ProtocolInterface
  mProtocolDatabase : Guid → Option ProtocolEntry
  gHandleDatabaseKey : UInt64
  gDxeCoreImageHandle : EfiHandle
  /-- The device path at an address. -/
  devicePathAt : Interface → DevicePath
  /-- The events that were signaled, the last one first. -/
  signaled : List EventId

/-- What the pool returns. `none` and `false` stand for `NULL`. -/
structure Pool where
  protEntry : Bool
  prot : Option ProtAddress
  handle : Option EfiHandle
  /-- The `OPEN_PROTOCOL_DATA` for the open list of an interface of this handle. -/
  openData : EfiHandle → Bool
  /-- The buffer of `CoreLocateHandleBuffer`. -/
  handleBuffer : Bool
  notify : Bool

/-- The pool returns memory that is not in use. -/
def Pool.fresh (pool : Pool) (db : Database) : Bool :=
  pool.prot.all (fun p => (db.prots p).isNone) && pool.handle.all fun h => h != 0 && (db.handles h).isNone

/-! ## Looking up -/

/-- `CoreValidateHandle`. -/
def coreValidateHandle (h : EfiHandle) (db : Database) : Bool := (db.handles h).isSome

/-- The list `Handle->Protocols`. -/
def protocolsOf (db : Database) (h : EfiHandle) : List ProtAddress := ((db.handles h).map IHandle.protocols).getD []

def coreFindProtocolInterface (handle : EfiHandle) (protocol : Guid) (interface : Interface) (db : Database) :
    Option ProtAddress :=
  match db.mProtocolDatabase protocol with
  | none => none
  | some _ =>
    (protocolsOf db handle).find? fun p =>
      (db.prots p).any fun q => q.interface == interface && q.protocol == protocol

def coreGetProtocolInterface (userHandle : EfiHandle) (protocol : Guid) (db : Database) : Option ProtAddress :=
  (protocolsOf db userHandle).find? fun p => (db.prots p).any fun q => q.protocol == protocol

def setProt (p : ProtAddress) (f : ProtocolInterface → ProtocolInterface) (db : Database) : Database :=
  { db with prots := fun a => if a = p then (db.prots a).map f else db.prots a }

def setEntry (protocol : Guid) (f : ProtocolEntry → ProtocolEntry) (db : Database) : Database :=
  { db with
    mProtocolDatabase := fun g =>
      if g = protocol then (db.mProtocolDatabase g).map f else db.mProtocolDatabase g }

/-- Shows that the handle has been created or modified. -/
def touchHandle (h : EfiHandle) (db : Database) : Database :=
  { db with
    gHandleDatabaseKey := db.gHandleDatabaseKey + 1
    handles := fun a =>
      if a = h then (db.handles a).map ({ · with key := db.gHandleDatabaseKey + 1 }) else db.handles a }

/-! ## Opening and closing -/

/-- The arguments of `CoreOpenProtocol`. -/
structure OpenCall where
  userHandle : EfiHandle
  protocol : Guid
  hasInterface : Bool
  imageHandle : EfiHandle
  controllerHandle : EfiHandle
  attributes : UInt32
  deriving DecidableEq

namespace OpenCall

/-- `ExactMatch`. -/
def exactMatch (c : OpenCall) (d : OpenProtocolData) : Bool :=
  d.agentHandle == c.imageHandle && d.attributes == c.attributes && d.controllerHandle == c.controllerHandle

def entry (c : OpenCall) : OpenProtocolData where
  agentHandle := c.imageHandle
  controllerHandle := c.controllerHandle
  attributes := c.attributes
  openCount := 1

end OpenCall

/-- What the loop over the open list finds. -/
inductive Scan
  | alreadyStarted
  | counted
  | conflicts (byDriver exclusive : Bool)
  deriving DecidableEq

def scan (c : OpenCall) : List OpenProtocolData → Bool → Bool → Scan
  | [], byDriver, exclusive => .conflicts byDriver exclusive
  | d :: rest, byDriver, exclusive =>
    if d.byDriver && c.exactMatch d then .alreadyStarted
    else if d.exclusive then scan c rest (byDriver || d.byDriver) true
    else if c.exactMatch d then .counted
    else scan c rest (byDriver || d.byDriver) exclusive

/-- `OpenData->OpenCount++` for the entry that matches. -/
def countOpen (c : OpenCall) : List OpenProtocolData → List OpenProtocolData
  | [] => []
  | d :: rest => if c.exactMatch d then { d with openCount := d.openCount + 1 } :: rest else d :: countOpen c rest

/-- The checks of `CoreOpenProtocol` before it acquires the lock. -/
def checkOpen (c : OpenCall) (db : Database) : EfiStatus :=
  if c.attributes ≠ efiOpenProtocolTestProtocol ∧ c.hasInterface = false then .invalidParameter
  else if coreValidateHandle c.userHandle db = false then .invalidParameter
  else if c.attributes = efiOpenProtocolByChildController then
    if coreValidateHandle c.imageHandle db = false then .invalidParameter
    else if coreValidateHandle c.controllerHandle db = false then .invalidParameter
    else if c.userHandle = c.controllerHandle then .invalidParameter
    else .success
  else if c.attributes = efiOpenProtocolByDriver ∨
      c.attributes = efiOpenProtocolByDriver ||| efiOpenProtocolExclusive then
    if coreValidateHandle c.imageHandle db = false then .invalidParameter
    else if coreValidateHandle c.controllerHandle db = false then .invalidParameter
    else .success
  else if c.attributes = efiOpenProtocolExclusive then
    if coreValidateHandle c.imageHandle db = false then .invalidParameter else .success
  else if c.attributes = efiOpenProtocolByHandleProtocol ∨ c.attributes = efiOpenProtocolGetProtocol ∨
      c.attributes = efiOpenProtocolTestProtocol then .success
  else .invalidParameter

def newOpenEntry (pool : Pool) (c : OpenCall) (prot : ProtAddress) (db : Database) : EfiStatus × Database :=
  if c.imageHandle = 0 then (.success, db)
  else if pool.openData c.userHandle then
    (.success, setProt prot (fun q =>
      { q with openList := q.openList ++ [c.entry], openListCount := q.openListCount + 1 }) db)
  else (.outOfResources, db)

/-- How `CoreOpenProtocol` goes on. -/
inductive Opened
  | done (status : EfiStatus) (db : Database)
  | disconnect (prot : ProtAddress)

/-- `CoreOpenProtocol`, up to the time it releases the lock. -/
def coreOpenProtocol (pool : Pool) (c : OpenCall) (db : Database) : Opened :=
  if checkOpen c db ≠ .success then .done (checkOpen c db) db
  else
    match coreGetProtocolInterface c.userHandle c.protocol db with
    | none => .done .unsupported db
    | some prot =>
      match scan c (((db.prots prot).map ProtocolInterface.openList).getD []) false false with
      | .alreadyStarted => .done .alreadyStarted db
      | .counted => .done .success (setProt prot (fun q => { q with openList := countOpen c q.openList }) db)
      | .conflicts byDriver exclusive =>
        if c.attributes = efiOpenProtocolByDriver ∧ (exclusive ∨ byDriver) then .done .accessDenied db
        else if c.attributes = efiOpenProtocolByDriver ||| efiOpenProtocolExclusive ∨
            c.attributes = efiOpenProtocolExclusive then
          if exclusive then .done .accessDenied db
          else if byDriver then .disconnect prot
          else .done (newOpenEntry pool c prot db).1 (newOpenEntry pool c prot db).2
        else .done (newOpenEntry pool c prot db).1 (newOpenEntry pool c prot db).2

def handleProtocolCall (userHandle : EfiHandle) (protocol : Guid) (db : Database) : OpenCall where
  userHandle
  protocol
  hasInterface := true
  imageHandle := db.gDxeCoreImageHandle
  controllerHandle := 0
  attributes := efiOpenProtocolByHandleProtocol

def coreHandleProtocol (pool : Pool) (userHandle : EfiHandle) (protocol : Guid) (db : Database) :
    EfiStatus × Database :=
  match coreOpenProtocol pool (handleProtocolCall userHandle protocol db) db with
  | .done status db => (status, db)
  -- No driver is disconnected for this attribute.
  | .disconnect _ => (.success, db)

def coreCloseProtocol (userHandle : EfiHandle) (protocol : Guid) (agentHandle controllerHandle : EfiHandle)
    (db : Database) : EfiStatus × Database :=
  if coreValidateHandle userHandle db = false ∨ coreValidateHandle agentHandle db = false ∨
      controllerHandle ≠ 0 ∧ coreValidateHandle controllerHandle db = false then (.invalidParameter, db)
  else
    match coreGetProtocolInterface userHandle protocol db with
    | none => (.notFound, db)
    | some prot =>
      let isClosed (d : OpenProtocolData) : Bool :=
        d.agentHandle == agentHandle && d.controllerHandle == controllerHandle
      let openList := ((db.prots prot).map ProtocolInterface.openList).getD []
      (if openList.any isClosed then .success else .notFound,
        setProt prot (fun q =>
          { q with
            openList := q.openList.filter (!isClosed ·)
            openListCount := q.openListCount - q.openList.countP isClosed }) db)

/-- The second loop of `CoreDisconnectControllersUsingProtocolInterface`. -/
def removeQueries (prot : ProtAddress) (db : Database) : Database :=
  setProt prot (fun q =>
    { q with
      openList := q.openList.filter (!·.isQuery)
      openListCount := q.openListCount - q.openList.countP OpenProtocolData.isQuery }) db

/-! ## Installing and removing -/

/-- `CoreNotifyProtocolEntry`. -/
def coreNotifyProtocolEntry (protocol : Guid) (db : Database) : Database :=
  let notify := ((db.mProtocolDatabase protocol).map ProtocolEntry.notify).getD []
  { db with signaled := (notify.map ProtocolNotify.event).reverse ++ db.signaled }

/-- `CoreFindProtocolEntry` with `Create`, when the pool has memory for the entry. -/
def createEntry (protocol : Guid) (db : Database) : Database :=
  { db with
    mProtocolDatabase := fun g =>
      if g = protocol then some ((db.mProtocolDatabase g).getD ⟨[], []⟩) else db.mProtocolDatabase g }

/-- `CoreInstallProtocolInterfaceNotify` makes a new handle. -/
def createHandle (h : EfiHandle) (db : Database) : Database :=
  { db with
    gHandleDatabaseKey := db.gHandleDatabaseKey + 1
    handles := fun a => if a = h then some ⟨[], db.gHandleDatabaseKey + 1⟩ else db.handles a }

/-- Adds the interface to the head of the list of the handle, and to the tail of the one of the protocol. -/
def addInterface (prot : ProtAddress) (q : ProtocolInterface) (db : Database) : Database :=
  let db :=
    { db with
      prots := fun a => if a = prot then some q else db.prots a
      handles := fun a =>
        if a = q.handle then (db.handles a).map fun ih => { ih with protocols := prot :: ih.protocols }
        else db.handles a }
  setEntry q.protocol (fun entry => { entry with protocols := entry.protocols ++ [prot] }) db

/-- `CoreInstallProtocolInterfaceNotify`, from the time it acquires the lock, with the status it has there.
The handle is the new value of `*UserHandle`. -/
def installProtocolInterface (pool : Pool) (userHandle : EfiHandle) (protocol : Guid) (interface : Interface)
    (status : EfiStatus) (db : Database) : EfiStatus × EfiHandle × Database :=
  if (db.mProtocolDatabase protocol).isNone && !pool.protEntry then
    (if userHandle = 0 then .outOfResources else status, userHandle, db)
  else
    let db := createEntry protocol db
    match pool.prot with
    | none => (.outOfResources, userHandle, db)
    | some prot =>
      match if userHandle = 0 then pool.handle.map fun h => (h, createHandle h db) else some (userHandle, db) with
      | none => (.outOfResources, userHandle, db)
      | some (handle, db) =>
        if coreValidateHandle handle db = false then (.invalidParameter, userHandle, db)
        else
          (.success, handle,
            coreNotifyProtocolEntry protocol (addInterface prot ⟨handle, protocol, interface, [], 0⟩ db))

/-- The element before `p` in a list, or the head of the list. -/
def backLink (p : ProtAddress) : List ProtAddress → Option ProtAddress
  | a :: b :: rest => if b = p then some a else backLink p (b :: rest)
  | _ => none

/-- The end of `CoreRemoveInterfaceFromProtocol`. -/
def removeFromEntry (prot : ProtAddress) (protocol : Guid) (db : Database) : Database :=
  setEntry protocol (fun entry =>
    { protocols := entry.protocols.filter (· ≠ prot)
      notify := entry.notify.map fun n =>
        if n.position = some prot then { n with position := backLink prot entry.protocols } else n }) db

/-- Removes the interface from the handle, and frees it. -/
def removeFromHandle (prot : ProtAddress) (h : EfiHandle) (db : Database) : Database :=
  { db with
    prots := fun a => if a = prot then none else db.prots a
    handles := fun a =>
      if a = h then (db.handles a).map fun ih => { ih with protocols := ih.protocols.filter (· ≠ prot) }
      else db.handles a }

/-- Frees the handle if no interface is left on it. -/
def freeIfEmpty (h : EfiHandle) (db : Database) : Database :=
  if protocolsOf db h = [] then { db with handles := fun a => if a = h then none else db.handles a } else db

/-- `CoreUninstallProtocolInterface`, after the drivers are disconnected. -/
def removeProtocolInterface (userHandle : EfiHandle) (protocol : Guid) (interface : Interface) (db : Database) :
    EfiStatus × Database :=
  match coreFindProtocolInterface userHandle protocol interface db with
  | none => (.notFound, freeIfEmpty userHandle db)
  | some prot =>
    (.success,
      freeIfEmpty userHandle
        (removeFromHandle prot userHandle (touchHandle userHandle (removeFromEntry prot protocol db))))

/-- `CoreReinstallProtocolInterface`, after the drivers are disconnected and until it connects them. -/
def replaceProtocolInterface (userHandle : EfiHandle) (protocol : Guid) (oldInterface newInterface : Interface)
    (db : Database) : EfiStatus × Database :=
  match coreFindProtocolInterface userHandle protocol oldInterface db with
  | none => (.notFound, db)
  | some prot =>
    let db := setProt prot ({ · with interface := newInterface }) (removeFromEntry prot protocol db)
    (.success,
      touchHandle userHandle
        (setEntry protocol (fun entry => { entry with protocols := entry.protocols ++ [prot] }) db))

def coreRegisterProtocolNotify (pool : Pool) (protocol : Guid) (event : EventId) (db : Database) :
    EfiStatus × Database :=
  if (db.mProtocolDatabase protocol).isNone && !pool.protEntry then (.outOfResources, db)
  else
    let db := createEntry protocol db
    if pool.notify then
      (.success, setEntry protocol (fun entry => { entry with notify := entry.notify ++ [⟨event, none⟩] }) db)
    else (.outOfResources, db)

/-! ## Device paths -/

namespace DevicePathNode

def bytes (node : DevicePathNode) : List UInt8 :=
  let length := 4 + node.data.length
  [node.type, node.subType, UInt8.ofNat length, UInt8.ofNat (length / 256)] ++ node.data

/-- `IsDevicePathEndInstance`. -/
def isEndInstance (node : DevicePathNode) : Bool := node.type == 0x7f && node.subType == 0x01

end DevicePathNode

def DevicePath.bytes (path : DevicePath) : List UInt8 := path.flatMap DevicePathNode.bytes

/-- The first instance of a device path. -/
def DevicePath.first (path : DevicePath) : DevicePath := path.takeWhile (!·.isEndInstance)

def endNode : List UInt8 := [0x7f, 0xff, 4, 0]

/-- `IsDevicePathEnd` for the node at these bytes. -/
def isDevicePathEnd (bytes : List UInt8) : Bool := bytes.getD 0 0 == 0x7f && bytes.getD 1 0 == 0xff

/-- `CoreLocateHandle` for `ByProtocol`. -/
def handlesByProtocol (protocol : Guid) (db : Database) : List EfiHandle :=
  let protocols := ((db.mProtocolDatabase protocol).map ProtocolEntry.protocols).getD []
  (protocols.filterMap fun p => (db.prots p).map ProtocolInterface.handle).eraseDups

/-- One round of the loop of `CoreLocateDevicePath`. -/
def locateRound (pool : Pool) (source : List UInt8) (best : Option (Nat × EfiHandle) × Database)
    (handle : EfiHandle) : Option (Nat × EfiHandle) × Database :=
  let (status, db) := coreHandleProtocol pool handle gEfiDevicePathProtocolGuid best.2
  if status.isError then (best.1, db)
  else
    let interface := ((coreGetProtocolInterface handle gEfiDevicePathProtocolGuid db).bind fun p =>
      (db.prots p).map ProtocolInterface.interface).getD 0
    let path := (db.devicePathAt interface).bytes
    if path.length ≤ source.length ∧ source.take path.length = path ∧
        best.1.all (fun b => decide (b.1 < path.length)) then (some (path.length, handle), db)
    else (best.1, db)

/-- `CoreLocateDevicePath`: the size of the best match, and its handle. -/
def coreLocateDevicePath (pool : Pool) (protocol : Guid) (devicePath : Interface) (db : Database) :
    Option (Nat × EfiHandle) × Database :=
  if devicePath = 0 ∨ handlesByProtocol protocol db = [] ∨ pool.handleBuffer = false then (none, db)
  else
    (handlesByProtocol protocol db).foldl (locateRound pool (db.devicePathAt devicePath).first.bytes) (none, db)

/-- The check of `CoreInstallMultipleProtocolInterfaces` for a device path that a handle has already. -/
def hasDevicePath (pool : Pool) (devicePath : Interface) (db : Database) : Bool × Database :=
  let (found, db') := coreLocateDevicePath pool gEfiDevicePathProtocolGuid devicePath db
  (found.any fun b => isDevicePathEnd (((db.devicePathAt devicePath).bytes ++ endNode).drop b.1), db')

end Udk.Handle
