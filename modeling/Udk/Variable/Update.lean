import Udk.Variable.Reclaim
import Udk.Variable.Cache

/-! # `UpdateVariable` -/

open Udk.Bytes

namespace Udk.Variable

/-- `(Attributes & (EFI_VARIABLE_RUNTIME_ACCESS | EFI_VARIABLE_BOOTSERVICE_ACCESS)) != 0`. -/
def hasAccess (attributes : Nat) : Bool :=
  attributes &&& (efiVariableRuntimeAccess ||| efiVariableBootserviceAccess) != 0

def isNonVolatile (attributes : Nat) : Bool := attributes &&& efiVariableNonVolatile != 0

/-! ## State changes of the old record -/

/-- `State = CurrPtr->State & mask`, written back in place. -/
def updateState (P : Platform) (v : VariablePointerTrack) (mask : UInt8) (s : State) : EfiStatus × State :=
  updateVariableStore P v.isVolatile false (v.currPtr + 2) [stateOf s.mem v.currPtr &&& mask] s

/-! ## The new record in the scratch area -/

/-- The header of the new record, in the given state. -/
def newHeader (variableName : Name) (vendorGuid : Guid) (attributes : Nat) (data : List UInt8)
    (st : UInt8) : List UInt8 :=
  toLE 2 variableData ++ [st, 0] ++ toLE 4 attributes ++ toLE 4 (strSize variableName) ++
    toLE 4 data.length ++ vendorGuid.bytes

/-- `VarSize`, without the padding that aligns the next header. -/
def varSize (variableName : Name) (data : List UInt8) : Nat :=
  sizeofVariableHeader + strSize variableName + getPadSize (strSize variableName) + data.length +
    getPadSize data.length

/-- Name and data of the new record. -/
def newBody (variableName : Name) (data : List UInt8) : List UInt8 := variableName.bytes ++ data

/-- `SetMem` of the scratch area, then the new record in it. Its state stays 0xff. -/
def buildScratch (P : Platform) (variableName : Name) (vendorGuid : Guid) (attributes : Nat)
    (data : List UInt8) (s : State) : State :=
  let nextVariable := getEndPointer s.mem P.volatileVariableBase
  let record := newHeader variableName vendorGuid attributes data 0xff ++ newBody variableName data
  { s with mem := write (fill s.mem nextVariable P.scratchSize 0xff) nextVariable record }

/-! ## Room for the new record -/

/-- The new record does not fit into the part of the non-volatile store its class may use. -/
def overQuota (P : Platform) (attributes size : Nat) (s : State) : Bool :=
  if attributes &&& efiVariableHardwareErrorRecord != 0 then
    P.pcdHwErrStorageSize < size + s.hwErrVariableTotalSize
  else
    storeSizeOf s.mem P.nonVolatileVariableBase - sizeofVariableStoreHeader - P.pcdHwErrStorageSize <
      size + s.commonVariableTotalSize

def overVolatileSize (P : Platform) (size : Nat) (s : State) : Bool :=
  storeSizeOf s.mem P.volatileVariableBase < (size + s.volatileLastVariableOffset) % 2 ^ 32

/-- Makes room in the store for the new record. The Boolean is `Reclaimed`. -/
def makeRoom (P : Platform) (env : Environment) (isVolatile : Bool) (attributes size currPtr : Nat)
    (s : State) : EfiStatus × Bool × State :=
  let base := if isVolatile then P.volatileVariableBase else P.nonVolatileVariableBase
  let full := fun s => if isVolatile then overVolatileSize P size s else overQuota P attributes size s
  if !full s then (.success, false, s)
  else if !isVolatile && s.atRuntime then (.outOfResources, false, s)
  else
    let (st, s1) := reclaim env base isVolatile currPtr s
    if st.isError then (st, false, s1)
    else if full s1 then (.outOfResources, false, s1)
    else (.success, true, s1)

/-! ## Writing the new record -/

/-- The four steps for a non-volatile record: header, header valid, name and data, `VAR_ADDED`. -/
def writeNonVolatile (P : Platform) (variableName : Name) (vendorGuid : Guid) (attributes : Nat)
    (data : List UInt8) (s : State) : EfiStatus × State :=
  let header := newHeader variableName vendorGuid attributes data
  let last := s.nonVolatileLastVariableOffset
  let (st1, s1) := updateVariableStore P false true last (header 0xff) s
  if st1.isError then (st1, s1)
  else
    let (st2, s2) := updateVariableStore P false true last (header varHeaderValidOnly) s1
    if st2.isError then (st2, s2)
    else
      let (st3, s3) :=
        updateVariableStore P false true (last + sizeofVariableHeader) (newBody variableName data) s2
      if st3.isError then (st3, s3)
      else
        let (st4, s4) := updateVariableStore P false true last (header varAdded) s3
        if st4.isError then (st4, s4)
        else
          let size := headerAlign (varSize variableName data)
          (.success,
            { s4 with
              nonVolatileLastVariableOffset := last + size
              hwErrVariableTotalSize :=
                if attributes &&& efiVariableHardwareErrorRecord != 0 then s4.hwErrVariableTotalSize + size
                else s4.hwErrVariableTotalSize
              commonVariableTotalSize :=
                if attributes &&& efiVariableHardwareErrorRecord != 0 then s4.commonVariableTotalSize
                else s4.commonVariableTotalSize + size })

def writeVolatile (P : Platform) (variableName : Name) (vendorGuid : Guid) (attributes : Nat)
    (data : List UInt8) (s : State) : EfiStatus × State :=
  let (st, s1) := updateVariableStore P true true s.volatileLastVariableOffset
    (newHeader variableName vendorGuid attributes data varAdded ++ newBody variableName data) s
  if st.isError then (st, s1)
  else
    (.success, { s1 with volatileLastVariableOffset :=
      s1.volatileLastVariableOffset + headerAlign (varSize variableName data) })

/-- The function part of `UpdateVariable`: create a new record, then delete the old one. -/
def createVariable (P : Platform) (env : Environment) (variableName : Name) (vendorGuid : Guid)
    (data : List UInt8) (attributes : Nat) (v : VariablePointerTrack) (s : State) : EfiStatus × State :=
  let s1 := buildScratch P variableName vendorGuid attributes data s
  let isVolatile := !isNonVolatile attributes
  match makeRoom P env isVolatile attributes (varSize variableName data) v.currPtr s1 with
  | (st, reclaimed, s2) =>
    if st.isError then (st, s2)
    else
      let (st3, s3) :=
        if isVolatile then writeVolatile P variableName vendorGuid attributes data s2
        else writeNonVolatile P variableName vendorGuid attributes data s2
      if st3.isError then (st3, s3)
      else
        let (st4, s4) :=
          if !reclaimed && v.currPtr != 0 then updateState P v varDeleted s3 else (.success, s3)
        if st4.isError then (st4, s4)
        else (.success, updateVariableCache variableName vendorGuid attributes data s4)

/-- `DataSize` is the length of `data`. -/
def updateVariable (P : Platform) (env : Environment) (variableName : Name) (vendorGuid : Guid)
    (data : List UInt8) (attributes : Nat) (v : VariablePointerTrack) (s : State) : EfiStatus × State :=
  let isDelete := data.length = 0 || !hasAccess attributes
  if v.currPtr ≠ 0 then
    if s.atRuntime && v.isVolatile then (.writeProtected, s)
    else if s.atRuntime && !isNonVolatile (attributesOf s.mem v.currPtr) then (.invalidParameter, s)
    else if isDelete then
      let (st, s1) := updateState P v varDeleted s
      if st.isError then (st, s1)
      else (st, updateVariableCache variableName vendorGuid attributes data s1)
    else if dataSizeOfVariable s.mem v.currPtr = data.length ∧
        read s.mem (getVariableDataPtr s.mem v.currPtr) data.length = data then (.success, s)
    else if isAdded s.mem v.currPtr || isInDeletedTransition s.mem v.currPtr then
      let (st, s1) := updateState P v varInDeletedTransition s
      if st.isError then (st, s1)
      else createVariable P env variableName vendorGuid data attributes v s1
    else createVariable P env variableName vendorGuid data attributes v s
  else if isDelete then (.notFound, s)
  else if s.atRuntime && (attributes &&& efiVariableRuntimeAccess == 0 || !isNonVolatile attributes) then
    (.invalidParameter, s)
  else createVariable P env variableName vendorGuid data attributes v s

end Udk.Variable
