import Udk.Variable.Cache

/-! # The PEI variable driver (`Pei/Variable.c`)

Its header accessors are those of the DXE driver.
-/

open Udk.Bytes

namespace Udk.Variable.Pei

/-- `VARIABLE_INDEX_TABLE_VOLUME`. -/
def variableIndexTableVolume : Nat := 122

/-- `VARIABLE_INDEX_TABLE`. Its length is the length of `index`; NULL is 0. -/
structure VariableIndexTable where
  startPtr : Nat
  endPtr : Nat
  index : List Nat
  goneThrough : Bool
  deriving DecidableEq

/-- The table that `BuildGuidHob` makes at the first call. -/
def newIndexTable : VariableIndexTable := ⟨0, 0, [], false⟩

/-- The four 32-bit words of a GUID. -/
def guidWords (bs : List UInt8) : List Nat :=
  [fromLE (bs.take 4), fromLE ((bs.drop 4).take 4), fromLE ((bs.drop 8).take 4), fromLE ((bs.drop 12).take 4)]

def compareWithValidVariable (m : Memory) (p : Nat) (variableName : Name) (vendorGuid : Guid) : Bool :=
  variableName.chars.isEmpty ||
    (guidWords vendorGuid.bytes == guidWords (vendorGuidOf m p) &&
      variableName.bytes.take (nameSizeOfVariable m p) == nameOf m p)

/-! ## `FindVariable` -/

/-- The records that the table knows: where each one starts. -/
def indexedRecords (startPtr : Nat) : Nat → List Nat → List Nat
  | _, [] => []
  | offset, d :: ds => (startPtr + (offset + d)) :: indexedRecords startPtr (offset + d) ds

/-- What the walk keeps beside the pointer: the table, `LastVariable` and `StopRecord`. -/
structure Recorder where
  table : VariableIndexTable
  lastVariable : Nat
  stopRecord : Bool

/-- Records a `VAR_ADDED` variable in the table, as long as there is room and its distance from the
one before fits in 16 bits. -/
def Recorder.record (r : Recorder) (p : Nat) : Recorder :=
  if r.table.index.length < variableIndexTableVolume ∧ r.stopRecord = false then
    let offset := (p - r.lastVariable) % 2 ^ 32
    if 2 ^ 16 ≤ offset then { r with stopRecord := true, lastVariable := p }
    else { r with table := { r.table with index := r.table.index ++ [offset] }, lastVariable := p }
  else r

/-- The walk through the store. -/
def searchStore (m : Memory) (variableName : Name) (vendorGuid : Guid) :
    List Nat → Recorder → Option Nat × Recorder
  | [], r => (none, r)
  | p :: ps, r =>
    if isAdded m p then
      if compareWithValidVariable m p variableName vendorGuid then (some p, r.record p)
      else searchStore m variableName vendorGuid ps (r.record p)
    else searchStore m variableName vendorGuid ps r

/-- The walk from `p`, with the table it leaves. -/
def searchFrom (m : Memory) (variableName : Name) (vendorGuid : Guid) (p lastVariable : Nat)
    (table : VariableIndexTable) : EfiStatus × Option Nat × VariableIndexTable :=
  match searchStore m variableName vendorGuid (walk m table.endPtr maxAddress p) ⟨table, lastVariable, false⟩ with
  | (some q, r) => (.success, some q, r.table)
  | (none, r) =>
    (.notFound, none,
      if r.table.index.length < variableIndexTableVolume then { r.table with goneThrough := true } else r.table)

/-- `FindVariable`. The table is `none` before the first call. -/
def findVariable (base : Nat) (m : Memory) (variableName : Name) (vendorGuid : Guid)
    (hob : Option VariableIndexTable) : EfiStatus × Option Nat × VariableIndexTable :=
  let table := hob.getD newIndexTable
  let indexed := indexedRecords table.startPtr 0 table.index
  match indexed.find? fun p => compareWithValidVariable m p variableName vendorGuid with
  | some p => (.success, some p, table)
  | none =>
    if table.goneThrough then (.notFound, none, table)
    else
      match indexed.getLast? with
      | some maxIndex => searchFrom m variableName vendorGuid (getNextVariablePtr m maxIndex) maxIndex table
      | none =>
        if table.startPtr ≠ 0 ∨ table.endPtr ≠ 0 then
          searchFrom m variableName vendorGuid table.startPtr table.startPtr table
        else if getVariableStoreStatus m base ≠ .efiValid then (.unsupported, none, table)
        else if storeSizeOf m base = 0xffffffff then (.notFound, none, table)
        else
          searchFrom m variableName vendorGuid (getStartPointer base) (getStartPointer base)
            { table with startPtr := getStartPointer base, endPtr := getEndPointer m base }

/-! ## `PeiGetVariable` -/

def peiGetVariable (base : Nat) (m : Memory) (variableName : Option Name) (variableGuid : Option Guid)
    (wantAttributes : Bool) (dataSize : Option Nat) (hasData : Bool) (hob : Option VariableIndexTable) :
    GetResult × Option VariableIndexTable :=
  match variableName, variableGuid, dataSize with
  | some variableName, some variableGuid, some dataSize =>
    match findVariable base m variableName variableGuid hob with
    | (.success, some p, table) =>
      let varDataSize := dataSizeOfVariable m p
      if varDataSize ≤ dataSize then
        if !hasData then (.unchanged .invalidParameter dataSize, some table)
        else
          (⟨.success, varDataSize, dataOf m p, if wantAttributes then some (attributesOf m p) else none⟩,
            some table)
      else (.unchanged .bufferTooSmall varDataSize, some table)
    | (st, _, table) => (.unchanged st dataSize, some table)
  | _, _, dataSize => (.unchanged .invalidParameter (dataSize.getD 0), hob)

end Udk.Variable.Pei
