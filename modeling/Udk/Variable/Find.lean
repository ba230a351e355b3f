import Udk.Variable.State

/-! # `FindVariable` -/

open Udk.Bytes

namespace Udk.Variable

/-- `VARIABLE_POINTER_TRACK`. -/
structure VariablePointerTrack where
  currPtr : Nat
  endPtr : Nat
  startPtr : Nat
  isVolatile : Bool
  deriving DecidableEq

/-- At runtime only variables with runtime access can be seen. -/
def isVisible (m : Memory) (atRuntime : Bool) (p : Nat) : Bool :=
  !atRuntime || attributesOf m p &&& efiVariableRuntimeAccess != 0

/-- `CompareGuid`, then `CompareMem` over the name size of the record. -/
def nameMatches (m : Memory) (variableName : Name) (vendorGuid : Guid) (p : Nat) : Bool :=
  vendorGuid.bytes == vendorGuidOf m p && variableName.bytes.take (nameSizeOfVariable m p) == nameOf m p

/-- The loop of `FindVariable` over the headers of one store. The last argument is
`InDeletedVariable`, and the result once the store ends without a `VAR_ADDED` match. -/
def findInStore (m : Memory) (atRuntime : Bool) (variableName : Name) (vendorGuid : Guid) :
    List Nat → Option Nat → Option Nat
  | [], inDeleted => inDeleted
  | p :: ps, inDeleted =>
    if (isAdded m p || isInDeletedTransition m p) && isVisible m atRuntime p &&
        (variableName.chars.isEmpty || nameMatches m variableName vendorGuid p) then
      if isInDeletedTransition m p then findInStore m atRuntime variableName vendorGuid ps (some p)
      else some p
    else findInStore m atRuntime variableName vendorGuid ps inDeleted

def pointerTrack (m : Memory) (base p : Nat) (isVolatile : Bool) : VariablePointerTrack :=
  ⟨p, getEndPointer m base, getStartPointer base, isVolatile⟩

def findVariable (P : Platform) (variableName : Name) (vendorGuid : Guid) (s : State) :
    EfiStatus × VariablePointerTrack :=
  match findInStore s.mem s.atRuntime variableName vendorGuid
      (storeHeaders s.mem P.volatileVariableBase) none with
  | some p => (.success, pointerTrack s.mem P.volatileVariableBase p true)
  | none =>
    match findInStore s.mem s.atRuntime variableName vendorGuid
        (storeHeaders s.mem P.nonVolatileVariableBase) none with
    | some p => (.success, pointerTrack s.mem P.nonVolatileVariableBase p false)
    | none => (.notFound, ⟨0, 0, 0, false⟩)

end Udk.Variable
