import Udk.Cursor
import Udk.Run

/-! # The callbacks of the PCD driver

A set that has called a callback waits below the code of that callback. What a set does until it calls the next
callback, or returns, is one step. A result `none` is an `ASSERT` that fails.
-/

namespace Udk.Pcd

abbrev Guid := Nat

/-- A `PCD_PROTOCOL_CALLBACK`. -/
abbrev Callback := Nat

def uint32 (n : Nat) : Nat := n % 2 ^ 32

inductive EfiStatus
  | success
  | invalidParameter
  | notFound
  /-- What `SetVariable` returned. -/
  | variable (status : Nat)
  deriving DecidableEq

/-- `DYNAMICEX_MAPPING`. -/
structure ExMapping where
  exTokenNumber : Nat
  localTokenNumber : Nat
  exGuidIndex : Nat
  deriving DecidableEq

inductive PcdType
  | vpd
  | string
  | hii
  | data
  deriving DecidableEq

/-- What the build has generated for one of the two databases, as far as tokens in token spaces go. -/
structure ExMap where
  guidTable : List Guid
  exMapTable : List ExMapping

/-- The databases as they were built, and the services that move the values. `SIZE_INFO` has 16 bits. -/
structure Build (δ : Type) where
  peiNexTokenNumber : Nat
  peiLocalTokenNumber : Nat
  dxeNexTokenNumber : Nat
  pcdTotalTokenNumber : Nat
  peiDatabaseEmpty : Bool
  peiExMap : ExMap
  dxeExMap : ExMap
  pcdType : Nat → PcdType
  /-- The size of a scalar, 0 for a pointer type. -/
  datumSize : Nat → Nat
  maxSize : Nat → Nat
  maxSize_lt : ∀ token, maxSize token < 2 ^ 16
  copyMem : (token data size : Nat) → δ → δ
  setHiiVariable : (token data size : Nat) → δ → EfiStatus × δ

/-- The part of the databases that is written. -/
structure Database (δ : Type) where
  /-- The current size of a pointer type. -/
  currentSize : Nat → Nat
  values : δ

/-- `CALLBACK_FN_ENTRY`, with the number of its allocation in place of its address. -/
structure CallbackFnEntry where
  allocation : Nat
  callbackFn : Callback
  deriving DecidableEq

variable {δ : Type}

/-! ## Tokens -/

/-- The loop over one `ExMapTable`, for the place of the GUID. -/
def ExMap.find (m : ExMap) (guid : Guid) (exTokenNumber : Nat) : Option Nat :=
  (m.guidTable.idxOf? guid).bind fun matchGuidIdx =>
    (m.exMapTable.find? fun e => e.exTokenNumber = exTokenNumber ∧ e.exGuidIndex = matchGuidIdx).map (·.localTokenNumber)

def getExPcdTokenNumber (b : Build δ) (guid : Guid) (exTokenNumber : Nat) : Option Nat :=
  ((if b.peiDatabaseEmpty then none else b.peiExMap.find guid exTokenNumber)).or (b.dxeExMap.find guid exTokenNumber)

/-- The token of a registration: its own number, or that of a token space. -/
def tokenOf (b : Build δ) (guid : Option Guid) (tokenNumber : Nat) : Option Nat :=
  match guid with
  | none => some tokenNumber
  | some guid => getExPcdTokenNumber b guid (uint32 tokenNumber)

/-- Token number 0 is reserved. -/
def Build.HasToken (b : Build δ) (token : Nat) : Prop := 0 < token ∧ token ≤ b.pcdTotalTokenNumber

instance (b : Build δ) (token : Nat) : Decidable (b.HasToken token) := inferInstanceAs (Decidable (_ ∧ _))

/-! ## Sizes and values -/

def dxePcdGetSize (b : Build δ) (token : Nat) (d : Database δ) : Nat :=
  if b.datumSize token = 0 then
    match b.pcdType token with
    | .vpd => b.maxSize token
    | _ => d.currentSize token
  else b.datumSize token

def maxAddress : Nat := 2 ^ 64 - 1

/-- Whether the size was set. -/
def setPtrTypeSize (b : Build δ) (token size : Nat) (d : Database δ) : Option (Bool × Database δ) :=
  if b.datumSize token ≠ 0 ∨ b.pcdType token = .vpd then none
  else if b.maxSize token < size ∨ size = maxAddress then some (false, d)
  else some (true, { d with currentSize := fun t => if t = token then size else d.currentSize t })

/-- How a set ends: the size was rejected, or the status. -/
inductive Outcome
  | sizeRejected
  | status (s : EfiStatus)
  deriving DecidableEq

/-- `SetHiiVariable`, and the default value when there is no variable. -/
def setHii (b : Build δ) (token data size : Nat) (d : Database δ) : EfiStatus × Database δ :=
  match b.setHiiVariable token data size d.values with
  | (.notFound, values) => (.success, { d with values := b.copyMem token data size values })
  | (status, values) => (status, { d with values })

/-- A set of the size first, and then of the value. -/
def setSized (b : Build δ) (token size : Nat) (d : Database δ)
    (setValue : Database δ → EfiStatus × Database δ) : Option (Outcome × Database δ) :=
  (setPtrTypeSize b token size d).map fun (fits, d) =>
    if fits then
      let (status, d) := setValue d
      (.status status, d)
    else (.sizeRejected, d)

/-- What `SetWorker` does while it holds `mPcdDatabaseLock`. -/
def setLocked (b : Build δ) (token data size : Nat) (ptrType : Bool) (d : Database δ) :
    Option (Outcome × Database δ) :=
  let copy (d : Database δ) := (EfiStatus.success, { d with values := b.copyMem token data size d.values })
  match b.pcdType token with
  | .vpd => none
  | .string => setSized b token size d copy
  | .hii =>
    if ptrType then setSized b token size d (setHii b token data size)
    else
      let (status, d) := setHii b token data size d
      some (.status status, d)
  | .data =>
    if ptrType then setSized b token size d copy
    else if size = 1 ∨ size = 2 ∨ size = 4 ∨ size = 8 then some (.status (copy d).1, (copy d).2)
    else none

/-! ## Sets -/

/-- A call of `SetWorker`, or of `ExSetWorker` with its token space and its token number there. -/
structure SetCall where
  ex : Option (Guid × Nat)
  tokenNumber : Nat
  data : Nat
  size : Nat
  ptrType : Bool
  deriving DecidableEq

/-- A callback was called, with these arguments. -/
structure Notification where
  entry : CallbackFnEntry
  guid : Option Guid
  tokenNumber : Nat
  data : Nat
  size : Nat
  deriving DecidableEq

/-- A set that has not returned: `ExSetWorker` before it calls `SetWorker`, or `SetWorker`. -/
inductive Phase
  | exSetWorker
  | setWorker
  deriving DecidableEq

structure Activation where
  set : SetCall
  /-- The callbacks that were registered when the set began. -/
  start : List CallbackFnEntry
  /-- The callbacks called so far, the last one first. -/
  called : List Notification

/-- What waits below a callback: a set in `InvokeCallbackOnSet`, with `ListNode`. -/
structure Frame where
  activation : Activation
  phase : Phase
  listNode : CallbackFnEntry

/-- A set that has returned. -/
structure Returned where
  activation : Activation
  outcome : Outcome
  /-- The callbacks that were registered when it returned. -/
  registered : List CallbackFnEntry

structure State (δ : Type) where
  database : Database δ
  mCallbackFnTable : Nat → List CallbackFnEntry
  /-- The number of allocations so far. -/
  allocations : Nat
  stack : List Frame
  returned : List Returned
  /-- The walk has read a freed entry. -/
  touchedFreed : Bool

/-- The arguments of a callback in each of the two walks. -/
def notification (set : SetCall) (phase : Phase) (entry : CallbackFnEntry) : Notification :=
  match phase, set.ex with
  | .exSetWorker, some (guid, exTokenNumber) => ⟨entry, some guid, uint32 exTokenNumber, set.data, set.size⟩
  | _, _ => ⟨entry, none, set.tokenNumber, set.data, set.size⟩

/-- The set has come to a callback of the list, and calls it. -/
def callNode (s : State δ) (a : Activation) (phase : Phase) (node : CallbackFnEntry) : State δ :=
  { s with stack := ⟨{ a with called := notification a.set phase node :: a.called }, phase, node⟩ :: s.stack }

def returnSet (s : State δ) (a : Activation) (outcome : Outcome) : State δ :=
  { s with returned := ⟨a, outcome, s.mCallbackFnTable a.set.tokenNumber⟩ :: s.returned }

/-- `SetWorker` after its callbacks. -/
def afterCallbacks (b : Build δ) (s : State δ) (a : Activation) : Option (State δ) :=
  (setLocked b a.set.tokenNumber a.set.data a.set.size a.set.ptrType s.database).map fun (outcome, database) =>
    returnSet { s with database } a outcome

/-- The loop in `InvokeCallbackOnSet` when `SetWorker` calls it. -/
def setWorkerWalk (b : Build δ) (s : State δ) (a : Activation) : List CallbackFnEntry → Option (State δ)
  | [] => afterCallbacks b s a
  | node :: _ => some (callNode s a .setWorker node)

/-- When `SetWorker` invokes the callbacks. -/
def invokes (b : Build δ) (token : Nat) : Bool :=
  token < b.peiNexTokenNumber + 1 ||
    (token ≥ b.peiLocalTokenNumber + 1 || token < b.peiLocalTokenNumber + b.dxeNexTokenNumber + 1)

def sizeAccepted (b : Build δ) (set : SetCall) (d : Database δ) : Bool :=
  if set.ptrType then set.size ≤ dxePcdGetSize b set.tokenNumber d else set.size = dxePcdGetSize b set.tokenNumber d

def setWorker (b : Build δ) (s : State δ) (a : Activation) : Option (State δ) :=
  if ¬b.HasToken a.set.tokenNumber then none
  else if sizeAccepted b a.set s.database = false then some (returnSet s a .sizeRejected)
  else if invokes b a.set.tokenNumber then setWorkerWalk b s a (s.mCallbackFnTable a.set.tokenNumber)
  else afterCallbacks b s a

/-- The loop in `InvokeCallbackOnSet` when `ExSetWorker` calls it. -/
def exSetWorkerWalk (b : Build δ) (s : State δ) (a : Activation) : List CallbackFnEntry → Option (State δ)
  | [] => setWorker b s a
  | node :: _ => some (callNode s a .exSetWorker node)

/-- `GetNextNode`, after the callback at `ListNode` has returned. -/
def getNextNode (b : Build δ) (s : State δ) (f : Frame) : Option (State δ) :=
  let l := s.mCallbackFnTable f.activation.set.tokenNumber
  if f.listNode ∉ l then some { s with touchedFreed := true }
  else
    match f.phase with
    | .exSetWorker => exSetWorkerWalk b s f.activation (Cursor.behind (some f.listNode) l)
    | .setWorker => setWorkerWalk b s f.activation (Cursor.behind (some f.listNode) l)

/-! ## The system -/

inductive Event
  | register (tokenNumber : Nat) (guid : Option Guid) (callbackFn : Callback)
  | unregister (tokenNumber : Nat) (guid : Option Guid) (callbackFn : Callback)
  | setWorker (tokenNumber data size : Nat) (ptrType : Bool)
  | exSetWorker (exTokenNumber : Nat) (guid : Guid) (data size : Nat) (ptrType : Bool)
  /-- The callback that runs returns. -/
  | callbackReturns
  deriving DecidableEq

def setList (token : Nat) (l : List CallbackFnEntry) (s : State δ) : State δ :=
  { s with mCallbackFnTable := fun t => if t = token then l else s.mCallbackFnTable t }

def dxeRegisterCallBackWorker (token : Nat) (callbackFn : Callback) (s : State δ) : State δ :=
  let l := s.mCallbackFnTable token
  if l.any (·.callbackFn = callbackFn) then s
  else { setList token (l ++ [⟨s.allocations, callbackFn⟩]) s with allocations := s.allocations + 1 }

def dxeUnRegisterCallBackWorker (token : Nat) (callbackFn : Callback) (s : State δ) : EfiStatus × State δ :=
  let l := s.mCallbackFnTable token
  match l.find? (·.callbackFn = callbackFn) with
  | none => (.invalidParameter, s)
  | some entry => (.success, setList token (l.filter (· ≠ entry)) s)

/-- The code on top of the stack, a driver or a callback, makes a call or returns. -/
def step (b : Build δ) (s : State δ) (e : Event) : Option (State δ) :=
  if s.touchedFreed then none
  else
    match e with
    | .register tokenNumber guid callbackFn =>
      (tokenOf b guid tokenNumber).bind fun token =>
        if b.HasToken token then some (dxeRegisterCallBackWorker token callbackFn s) else none
    | .unregister tokenNumber guid callbackFn =>
      (tokenOf b guid tokenNumber).bind fun token =>
        if b.HasToken token then some (dxeUnRegisterCallBackWorker token callbackFn s).2 else none
    | .setWorker tokenNumber data size ptrType =>
      setWorker b s ⟨⟨none, tokenNumber, data, size, ptrType⟩, s.mCallbackFnTable tokenNumber, []⟩
    | .exSetWorker exTokenNumber guid data size ptrType =>
      (getExPcdTokenNumber b guid (uint32 exTokenNumber)).bind fun token =>
        let l := s.mCallbackFnTable token
        exSetWorkerWalk b s ⟨⟨some (guid, exTokenNumber), token, data, size, ptrType⟩, l, []⟩ l
    | .callbackReturns =>
      match s.stack with
      | [] => none
      | f :: stack => getNextNode b { s with stack } f

/-- After `BuildPcdDxeDataBase`. -/
def init (database : Database δ) : State δ := ⟨database, fun _ => [], 0, [], [], false⟩

end Udk.Pcd
