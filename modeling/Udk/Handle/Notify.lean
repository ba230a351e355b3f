import Udk.Cursor
import Udk.QueueLog
import Udk.Handle.Database

/-! # Protocol notification

Each event is what one call does while it holds `gProtocolDatabaseLock`. A result `none` stands for an access to
freed memory.
-/

namespace Udk.Handle

/-- What `CoreRegisterProtocolNotify` returns: the protocol, and the place of the record in its list. -/
structure Registration where
  protocol : Guid
  index : Nat
  deriving DecidableEq

def sizeofHandle : Nat := 8

def protNotify (registration : Registration) (db : Database) : Option ProtocolNotify :=
  (db.mProtocolDatabase registration.protocol).bind fun entry => entry.notify[registration.index]?

/-- `ProtNotify->Position->ForwardLink`, when it is not the head of the list. -/
def forwardLink (registration : Registration) (db : Database) : Option ProtAddress :=
  (db.mProtocolDatabase registration.protocol).bind fun entry =>
    entry.notify[registration.index]?.bind fun notify => (Cursor.behind notify.position entry.protocols).head?

/-- `ProtNotify->Position = ProtNotify->Position->ForwardLink`. -/
def advancePosition (registration : Registration) (db : Database) : Database :=
  setEntry registration.protocol (fun entry =>
    { entry with
      notify := entry.notify.modify registration.index fun notify =>
        { notify with position := (Cursor.behind notify.position entry.protocols).head? } }) db

/-- There is one request with a search key. -/
def coreGetNextLocateByRegisterNotify (searchKey : Option Registration) (db : Database) : Option ProtAddress :=
  searchKey.bind (forwardLink · db)

/-- `CoreLocateProtocol` with a registration: its status and `*Interface`. -/
def coreLocateProtocol (registration : Registration) (db : Database) : Option (EfiStatus × Interface × Database) :=
  match coreGetNextLocateByRegisterNotify (some registration) db with
  | none => some (.notFound, 0, db)
  | some prot => (db.prots prot).map fun q => (.success, q.interface, advancePosition registration db)

/-- The status of `CoreLocateHandle`, with `*BufferSize` and what is in the buffer. -/
inductive LocatedHandles
  | notFound
  | bufferTooSmall (bufferSize : Nat)
  | success (bufferSize : Nat) (buffer : List EfiHandle)
  deriving DecidableEq

/-- `CoreLocateHandle` for `ByRegisterNotify`. -/
def coreLocateHandle (registration : Registration) (bufferSize : Nat) (db : Database) :
    Option (LocatedHandles × Database) :=
  -- the second request has no search key, and ends the loop
  match coreGetNextLocateByRegisterNotify (some registration) db with
  | none => some (.notFound, db)
  | some prot => (db.prots prot).map fun q =>
    if bufferSize < sizeofHandle then (.bufferTooSmall sizeofHandle, db)
    else (.success sizeofHandle [q.handle], advancePosition registration db)

/-! ## The system -/

structure NotifyState where
  db : Database
  /-- What was installed, reinstalled or uninstalled for the protocol of a registration, and what it returned. -/
  log : Registration → List (QueueEvent ProtAddress)

inductive NotifyEvent
  | install (pool : Pool) (userHandle : EfiHandle) (protocol : Guid) (interface : Interface) (status : EfiStatus)
  | uninstall (userHandle : EfiHandle) (protocol : Guid) (interface : Interface)
  | reinstall (userHandle : EfiHandle) (protocol : Guid) (oldInterface newInterface : Interface)
  | register (pool : Pool) (protocol : Guid) (event : EventId)
  | locateProtocol (registration : Registration)
  | locateHandle (registration : Registration) (bufferSize : Nat)

/-- What happens to an interface of the protocol. -/
def logFor (protocol : Guid) (e : Option (QueueEvent ProtAddress)) (log : Registration → List (QueueEvent ProtAddress)) :
    Registration → List (QueueEvent ProtAddress) :=
  fun r => if r.protocol = protocol then e.toList ++ log r else log r

def logTaken (registration : Registration) (prot : Option ProtAddress)
    (log : Registration → List (QueueEvent ProtAddress)) : Registration → List (QueueEvent ProtAddress) :=
  fun r => if r = registration then (prot.map fun p => .taken p 0).toList ++ log r else log r

namespace NotifyState

def init (devicePathAt : Interface → DevicePath) : NotifyState where
  db :=
    { handles := fun _ => none
      prots := fun _ => none
      mProtocolDatabase := fun _ => none
      gHandleDatabaseKey := 0
      gDxeCoreImageHandle := 0
      devicePathAt
      signaled := [] }
  log := fun _ => []

def step (s : NotifyState) : NotifyEvent → Option NotifyState
  | .install pool userHandle protocol interface status =>
    -- `CoreHandleProtocol` has failed before
    if pool.fresh s.db = false ∨ status.isError = false then none
    else
      let (status, _, db) := installProtocolInterface pool userHandle protocol interface status s.db
      let installed := if status.isError then none else pool.prot.map fun p => .queued p 0
      some { db, log := logFor protocol installed s.log }
  | .uninstall userHandle protocol interface =>
    if coreValidateHandle userHandle s.db = false then none
    else
      let removed := (coreFindProtocolInterface userHandle protocol interface s.db).map .dropped
      some
        { db := (removeProtocolInterface userHandle protocol interface s.db).2, log := logFor protocol removed s.log }
  | .reinstall userHandle protocol oldInterface newInterface =>
    if coreValidateHandle userHandle s.db = false then none
    else
      let replaced := (coreFindProtocolInterface userHandle protocol oldInterface s.db).map fun p => .queued p 0
      some
        { db := (replaceProtocolInterface userHandle protocol oldInterface newInterface s.db).2
          log := logFor protocol replaced s.log }
  | .register pool protocol event => some { s with db := (coreRegisterProtocolNotify pool protocol event s.db).2 }
  | .locateProtocol registration =>
    if (protNotify registration s.db).isNone then none
    else
      (coreLocateProtocol registration s.db).map fun (_, _, db) =>
        { db, log := logTaken registration (forwardLink registration s.db) s.log }
  | .locateHandle registration bufferSize =>
    if (protNotify registration s.db).isNone then none
    else
      (coreLocateHandle registration bufferSize s.db).map fun (_, db) =>
        { db
          log := logTaken registration
            (if bufferSize < sizeofHandle then none else forwardLink registration s.db) s.log }

end NotifyState

end Udk.Handle
