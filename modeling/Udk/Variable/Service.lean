import Udk.Variable.Language

/-! # The runtime services of the driver -/

open Udk.Bytes

namespace Udk.Variable

/-! ## `RuntimeServiceSetVariable` -/

/-- The arguments of `SetVariable`; NULL is `none`. The data buffer has `DataSize` bytes. -/
structure SetCall where
  variableName : Option Name
  vendorGuid : Option Guid
  attributes : Nat
  dataSize : Nat
  data : Option (List UInt8)
  attributes_lt : attributes < 2 ^ 32
  data_length : ∀ bs, data = some bs → bs.length = dataSize

/-- A call with all its arguments. -/
def SetCall.of (variableName : Name) (vendorGuid : Guid) (attributes : Fin (2 ^ 32)) (data : List UInt8) : SetCall :=
  ⟨some variableName, some vendorGuid, attributes, data.length, some data, attributes.isLt, by rintro _ ⟨⟩; rfl⟩

/-- `L"HwErrRec"`. -/
def hwErrRec : List UInt16 := Name.ofChars ['H', 'w', 'E', 'r', 'r', 'R', 'e', 'c']

/-- The size limit of the class of the variable, and the naming rule of a hardware error record. -/
def sizeAndNameOk (P : Platform) (variableName : Name) (attributes dataSize : Nat) : Bool :=
  if isHardwareError attributes then
    !(P.pcdMaxHardwareErrorVariableSize < dataSize ||
        P.pcdMaxHardwareErrorVariableSize < sizeofVariableHeader + strSize variableName + dataSize) &&
      variableName.chars.take hwErrRec.length == hwErrRec
  else
    !(P.pcdMaxVariableSize < dataSize ||
      P.pcdMaxVariableSize < sizeofVariableHeader + strSize variableName + dataSize)

/-- The checks before the lock. They give the name, the GUID and the data of a call that passes. -/
def checkedParameters (P : Platform) (c : SetCall) : Option (Name × Guid × List UInt8) :=
  match c.variableName, c.vendorGuid with
  | some variableName, some vendorGuid =>
    if variableName.chars.isEmpty then none
    else if c.dataSize ≠ 0 ∧ c.data = none then none
    else if c.attributes &&& efiVariableAuthenticatedWriteAccess ≠ 0 then none
    else if c.attributes &&& (efiVariableRuntimeAccess ||| efiVariableBootserviceAccess) =
        efiVariableRuntimeAccess then none
    else if sizeAndNameOk P variableName c.attributes c.dataSize then
      some (variableName, vendorGuid, c.data.getD [])
    else none
  | _, _ => none

/-- A call that interrupts another one looks for the end of the store again. -/
def enterReentrant (P : Platform) (s : State) : State :=
  let s1 := { s with reentrantState := s.reentrantState + 1 }
  if 1 < s1.reentrantState then
    { s1 with
      nonVolatileLastVariableOffset :=
        walkEnd s.mem (getEndPointer s.mem P.nonVolatileVariableBase) maxAddress
          (getStartPointer P.nonVolatileVariableBase) - P.nonVolatileVariableBase }
  else s1

def leaveReentrant (s : State) : State := { s with reentrantState := s.reentrantState - 1 }

def runtimeServiceSetVariable (P : Platform) (env : Environment) (c : SetCall) (s : State) :
    EfiStatus × State :=
  match checkedParameters P c with
  | none => (.invalidParameter, s)
  | some (variableName, vendorGuid, data) =>
    let s1 := enterReentrant P s
    let v := (findVariable P variableName vendorGuid s1).2
    let s2 := autoUpdateLangVariable P env variableName data s1
    let (st, s3) := updateVariable P env variableName vendorGuid data c.attributes v s2
    (st, leaveReentrant s3)

/-! ## `RuntimeServiceGetVariable` -/

/-- The arguments of `GetVariable`; NULL is `none` or `false`. -/
structure GetCall where
  variableName : Option Name
  vendorGuid : Option Guid
  wantAttributes : Bool
  dataSize : Option Nat
  hasData : Bool

/-- A call with all its arguments. -/
def GetCall.of (variableName : Name) (vendorGuid : Guid) (dataSize : Nat) : GetCall :=
  ⟨some variableName, some vendorGuid, true, some dataSize, true⟩

/-- What follows the look-up in the cache. -/
def getVariableFromStore (P : Platform) (variableName : Name) (vendorGuid : Guid) (wantAttributes : Bool)
    (dataSize : Nat) (hasData : Bool) (s : State) : GetResult × State :=
  match findVariable P variableName vendorGuid s with
  | (.success, v) =>
    let varDataSize := dataSizeOfVariable s.mem v.currPtr
    if varDataSize ≤ dataSize then
      if !hasData then (.unchanged .invalidParameter dataSize, s)
      else
        let attributes := attributesOf s.mem v.currPtr
        let data := dataOf s.mem v.currPtr
        (⟨.success, varDataSize, data, if wantAttributes then some attributes else none⟩,
          updateVariableCache variableName vendorGuid attributes data s)
    else (.unchanged .bufferTooSmall varDataSize, s)
  | (st, _) => (.unchanged st dataSize, s)

def runtimeServiceGetVariable (P : Platform) (c : GetCall) (s : State) : GetResult × State :=
  match c.variableName, c.vendorGuid, c.dataSize with
  | some variableName, some vendorGuid, some dataSize =>
    let r := findVariableInCache variableName vendorGuid c.wantAttributes dataSize s
    if r.status = .bufferTooSmall ∨ r.status = .success then (r, s)
    else getVariableFromStore P variableName vendorGuid c.wantAttributes dataSize c.hasData s
  | _, _, dataSize => (.unchanged .invalidParameter (dataSize.getD 0), s)

/-! ## `RuntimeServiceGetNextVariableName` -/

/-- The loop over both stores that looks for the next visible `VAR_ADDED` record. The first argument
bounds the turns. -/
def nextAdded (P : Platform) (m : Memory) (atRuntime : Bool) : Nat → VariablePointerTrack → Option Nat
  | 0, _ => none
  | fuel + 1, v =>
    if v.endPtr ≤ v.currPtr ∨ v.currPtr = 0 then
      if v.isVolatile then
        let v1 : VariablePointerTrack :=
          { startPtr := getStartPointer P.nonVolatileVariableBase
            endPtr := getEndPointer m P.nonVolatileVariableBase
            currPtr := getStartPointer P.nonVolatileVariableBase
            isVolatile := false }
        if !isValidVariableHeader m v1.currPtr then nextAdded P m atRuntime fuel v1
        else if isAdded m v1.currPtr && isVisible m atRuntime v1.currPtr then some v1.currPtr
        else nextAdded P m atRuntime fuel { v1 with currPtr := getNextVariablePtr m v1.currPtr }
      else none
    else if isValidVariableHeader m v.currPtr && isAdded m v.currPtr && isVisible m atRuntime v.currPtr then
      some v.currPtr
    else nextAdded P m atRuntime fuel { v with currPtr := getNextVariablePtr m v.currPtr }

/-- The status, `*VariableNameSize`, and the bytes written to `VariableName` and `VendorGuid`. -/
structure NextResult where
  status : EfiStatus
  variableNameSize : Nat
  written : Option (List UInt8 × List UInt8)
  deriving DecidableEq, Repr

def runtimeServiceGetNextVariableName (P : Platform) (variableNameSize : Option Nat)
    (variableName : Option Name) (vendorGuid : Option Guid) (s : State) : NextResult :=
  match variableNameSize, variableName, vendorGuid with
  | some variableNameSize, some variableName, some vendorGuid =>
    match findVariable P variableName vendorGuid s with
    | (.success, v) =>
      let v1 := if variableName.chars.isEmpty then v
        else { v with currPtr := getNextVariablePtr s.mem v.currPtr }
      match nextAdded P s.mem s.atRuntime maxAddress v1 with
      | some p =>
        let varNameSize := nameSizeOfVariable s.mem p
        if varNameSize ≤ variableNameSize then
          ⟨.success, varNameSize, some (nameOf s.mem p, vendorGuidOf s.mem p)⟩
        else ⟨.bufferTooSmall, varNameSize, none⟩
      | none => ⟨.notFound, variableNameSize, none⟩
    | (st, _) => ⟨st, variableNameSize, none⟩
  | _, _, _ => ⟨.invalidParameter, variableNameSize.getD 0, none⟩

end Udk.Variable
