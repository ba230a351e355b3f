import Udk.Variable.State

/-! # The variable cache -/

namespace Udk.Variable

/-- One turn of the loop of `UpdateVariableCache`. -/
def updateCacheEntry (variableName : Name) (vendorGuid : Guid) (attributes : Nat) (data : List UInt8)
    (e : CacheEntry) : CacheEntry :=
  if vendorGuid = e.guid ∧ variableName = e.name then
    if data.length = 0 then { e with attributes := attributes, dataSize := 0 }
    else { e with attributes := attributes, dataSize := data.length, data := data }
  else e

/-- `DataSize` is the length of `data`. -/
def updateVariableCache (variableName : Name) (vendorGuid : Guid) (attributes : Nat) (data : List UInt8)
    (s : State) : State :=
  if s.atRuntime then s
  else { s with cache := s.cache.map (updateCacheEntry variableName vendorGuid attributes data) }

/-- What `GetVariable` gives back: the status, `*DataSize`, the bytes it writes to `Data` and
`*Attributes`. -/
structure GetResult where
  status : EfiStatus
  dataSize : Nat
  data : List UInt8
  attributes : Option Nat
  deriving DecidableEq, Repr

/-- A result that leaves every output as it was. -/
def GetResult.unchanged (status : EfiStatus) (dataSize : Nat) : GetResult := ⟨status, dataSize, [], none⟩

def findVariableInCache (variableName : Name) (vendorGuid : Guid) (wantAttributes : Bool) (dataSize : Nat)
    (s : State) : GetResult :=
  if s.atRuntime then .unchanged .notFound dataSize
  else
    match s.cache.find? fun e => vendorGuid = e.guid ∧ variableName = e.name with
    | none => .unchanged .notFound dataSize
    | some e =>
      if e.dataSize = 0 then .unchanged .notFound dataSize
      else if dataSize < e.dataSize then .unchanged .bufferTooSmall e.dataSize
      else ⟨.success, e.dataSize, e.data, if wantAttributes then some e.attributes else none⟩

end Udk.Variable
