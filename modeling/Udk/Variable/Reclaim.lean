import Udk.Variable.Find

/-! # `Reclaim` and `FtwVariableSpace` -/

open Udk.Bytes

namespace Udk.Variable

/-- `ValidBuffer`, at address 0 of a memory that `SetMem` filled with 0xff. -/
def bufferMemory (buffer : List UInt8) : Memory := fun i => buffer.getD i 0xff

/-- The headers in `ValidBuffer`. -/
def bufferHeaders (buffer : List UInt8) : List Nat := allHeaders (bufferMemory buffer) 0

/-- `VariableSize`, from the header at `p` to the next one. -/
def variableSize (m : Memory) (p : Nat) : Nat := getNextVariablePtr m p - p

/-- Same GUID, same name size and same name. -/
def sameVariable (m : Memory) (p : Nat) (m' : Memory) (q : Nat) : Bool :=
  vendorGuidOf m p == vendorGuidOf m' q && nameSizeOfVariable m p == nameSizeOfVariable m' q &&
    nameOf m p == nameOf m' q

/-- What the passes of `Reclaim` build: the bytes before `CurrPtr` and the two totals. -/
structure ReclaimBuffer where
  bytes : List UInt8
  commonVariableTotalSize : Nat
  hwErrVariableTotalSize : Nat

def isHardwareError (attributes : Nat) : Bool :=
  attributes &&& efiVariableHardwareErrorRecord == efiVariableHardwareErrorRecord

/-- Copies a record of `size` bytes and adds it to its total. -/
def ReclaimBuffer.copy (b : ReclaimBuffer) (isVolatile : Bool) (attributes : Nat) (record : List UInt8) :
    ReclaimBuffer :=
  { bytes := b.bytes ++ record
    commonVariableTotalSize :=
      if !isVolatile && !isHardwareError attributes then b.commonVariableTotalSize + record.length
      else b.commonVariableTotalSize
    hwErrVariableTotalSize :=
      if !isVolatile && isHardwareError attributes then b.hwErrVariableTotalSize + record.length
      else b.hwErrVariableTotalSize }

def recordBytes (m : Memory) (p : Nat) : List UInt8 := read m p (variableSize m p)

/-- One turn of the first pass: a `VAR_ADDED` record is copied unless it is the updating variable
or has its name. -/
def reinstallAdded (m : Memory) (isVolatile : Bool) (updatingVariable : Nat) (b : ReclaimBuffer) (p : Nat) :
    ReclaimBuffer :=
  if !isAdded m p then b
  else if updatingVariable != 0 && (updatingVariable == p || sameVariable m p m updatingVariable) then b
  else b.copy isVolatile (attributesOf m p) (recordBytes m p)

def reinstallUpdating (m : Memory) (isVolatile : Bool) (updatingVariable : Nat) (b : ReclaimBuffer) :
    ReclaimBuffer :=
  if updatingVariable = 0 then b
  else b.copy isVolatile (attributesOf m updatingVariable) (recordBytes m updatingVariable)

/-- One turn of the last pass: a record in delete transition becomes `VAR_ADDED` if the buffer has
no record of that name. -/
def reinstallInDeleted (m : Memory) (isVolatile : Bool) (updatingVariable : Nat) (b : ReclaimBuffer)
    (p : Nat) : ReclaimBuffer :=
  if p != updatingVariable && isInDeletedTransition m p then
    if (bufferHeaders b.bytes).any fun q => sameVariable (bufferMemory b.bytes) q m p then b
    else b.copy isVolatile (attributesOf m p) ((recordBytes m p).set 2 varAdded)
  else b

/-- The store header, then the three passes. -/
def reclaimBuffer (m : Memory) (base : Nat) (isVolatile : Bool) (updatingVariable : Nat) : ReclaimBuffer :=
  let headers := allHeaders m base
  let b := headers.foldl (reinstallAdded m isVolatile updatingVariable)
    ⟨read m base sizeofVariableStoreHeader, 0, 0⟩
  headers.foldl (reinstallInDeleted m isVolatile updatingVariable)
    (reinstallUpdating m isVolatile updatingVariable b)

/-- The size that the first loop of `Reclaim` computes for `ValidBuffer`. -/
def maximumBufferSize (m : Memory) (base : Nat) : Nat :=
  sizeofVariableStoreHeader +
    (((allHeaders m base).filter fun p => isAdded m p || isInDeletedTransition m p).map
      (variableSize m)).sum + 1

/-- The FTW protocol writes the whole store: the buffer, then 0xff. -/
def ftwVariableSpace (env : Environment) (base : Nat) (buffer : List UInt8) (s : State) : EfiStatus × State :=
  let st := env.ftwWrite s.reclaims
  if st.isError then (st, s)
  else
    let size := storeSizeOf s.mem base
    let m := write s.mem base ((buffer ++ List.replicate (size - buffer.length) 0xff).take size)
    (.success, { s with mem := m, flashTrace := m :: s.flashTrace })

def setLastVariableOffset (isVolatile : Bool) (offset : Nat) (s : State) : State :=
  if isVolatile then { s with volatileLastVariableOffset := offset }
  else { s with nonVolatileLastVariableOffset := offset }

def countReclaim (s : State) : State := { s with reclaims := s.reclaims + 1 }

/-- `Reclaim`. `LastVariableOffset` is the offset of the store that is compacted. -/
def reclaim (env : Environment) (base : Nat) (isVolatile : Bool) (updatingVariable : Nat) (s : State) :
    EfiStatus × State :=
  let s0 := if isVolatile then s else { s with commonVariableTotalSize := 0, hwErrVariableTotalSize := 0 }
  if !env.allocatePool s.reclaims (maximumBufferSize s.mem base) then (.outOfResources, countReclaim s0)
  else
    let b := reclaimBuffer s.mem base isVolatile updatingVariable
    let s1 := if isVolatile then s0 else
      { s0 with
        commonVariableTotalSize := b.commonVariableTotalSize
        hwErrVariableTotalSize := b.hwErrVariableTotalSize }
    let (st, s2) :=
      if isVolatile then
        (EfiStatus.success,
          { s1 with mem := write (fill s.mem base (storeSizeOf s.mem base) 0xff) base b.bytes })
      else ftwVariableSpace env base b.bytes s1
    (st, countReclaim (setLastVariableOffset isVolatile (if st.isError then 0 else b.bytes.length) s2))

end Udk.Variable
