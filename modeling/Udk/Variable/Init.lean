import Udk.Variable.Service

/-! # `VariableCommonInitialize` and `ReclaimForOS` -/

open Udk.Bytes

namespace Udk.Variable

/-! ## `VariableCommonInitialize` -/

/-- The `VARIABLE_STORE_HEADER` of a formatted, healthy store. -/
def variableStoreHeader (size : Nat) : List UInt8 :=
  gEfiVariableGuid.bytes ++ toLE 4 size ++ [variableStoreFormatted, variableStoreHealthy, 0, 0] ++ [0, 0, 0, 0]

/-- `AllocateRuntimeZeroPool` of the globals, and the volatile store. `mem` is the memory at power-on. -/
def initialState (P : Platform) (reclaims : Nat) (mem : Memory) : State where
  mem := write (fill mem P.volatileVariableBase (P.pcdVariableStoreSize + P.scratchSize) 0xff)
    P.volatileVariableBase (variableStoreHeader P.pcdVariableStoreSize)
  atRuntime := false
  volatileLastVariableOffset := getStartPointer P.volatileVariableBase - P.volatileVariableBase
  nonVolatileLastVariableOffset := 0
  commonVariableTotalSize := 0
  hwErrVariableTotalSize := 0
  platformLangCodes := none
  langCodes := none
  reentrantState := 0
  cache := mVariableCache
  reclaims := reclaims
  flashTrace := []

/-- `(Attributes & (NON_VOLATILE | HARDWARE_ERROR_RECORD)) == (NON_VOLATILE | HARDWARE_ERROR_RECORD)`. -/
def isNonVolatileHardwareError (attributes : Nat) : Bool :=
  attributes &&& (efiVariableNonVolatile ||| efiVariableHardwareErrorRecord) ==
    efiVariableNonVolatile ||| efiVariableHardwareErrorRecord

/-- The size a header claims, whatever its state. -/
def claimedSize (m : Memory) (p : Nat) : Nat :=
  headerAlign (nameSizeField m p + dataSizeField m p + sizeofVariableHeader)

/-- One turn of the loop that parses the non-volatile store. -/
def countVariable (m : Memory) (s : State) (p : Nat) : State :=
  if isNonVolatileHardwareError (attributesOf m p) then
    { s with hwErrVariableTotalSize := s.hwErrVariableTotalSize + claimedSize m p }
  else { s with commonVariableTotalSize := s.commonVariableTotalSize + claimedSize m p }

/-- The sizes of the store, its last offset and the two totals. -/
def parseNonVolatile (P : Platform) (s : State) : State :=
  let s1 := (allHeaders s.mem P.nonVolatileVariableBase).foldl (countVariable s.mem) s
  { s1 with
    nonVolatileLastVariableOffset :=
      walkEnd s.mem maxAddress maxAddress (getStartPointer P.nonVolatileVariableBase) -
        P.nonVolatileVariableBase }

/-- Every byte after the last variable is 0xff. -/
def freeAreaErased (P : Platform) (s : State) : Bool :=
  let last := s.nonVolatileLastVariableOffset
  (read s.mem (P.nonVolatileVariableBase + last)
    (storeSizeOf s.mem P.nonVolatileVariableBase - last)).all (· == 0xff)

def variableCommonInitialize (P : Platform) (env : Environment) (reclaims : Nat) (mem : Memory) :
    EfiStatus × State :=
  let s := initialState P reclaims mem
  let base := P.nonVolatileVariableBase
  if getVariableStoreStatus s.mem base = .efiValid then
    let (st, s1) :=
      if storeSizeOf s.mem base = 0xffffffff then
        updateVariableStore P false false (base + 16) (toLE 4 P.nonVolatileStoreSize) s
      else (.success, s)
    if st.isError then (st, s1)
    else
      let s2 := parseNonVolatile P s1
      if freeAreaErased P s2 then (.success, s2) else reclaim env base false 0 s2
  else (.volumeCorrupted, s)

/-! ## `ReclaimForOS` -/

/-- `UINTN` subtraction. -/
def subtractUintn (a b : Nat) : Nat := (a + (maxAddress - b % maxAddress)) % maxAddress

/-- The free space is below a threshold. -/
def belowThreshold (P : Platform) (s : State) : Bool :=
  let commonVariableSpace := subtractUintn (subtractUintn (storeSizeOf s.mem P.nonVolatileVariableBase)
    sizeofVariableStoreHeader) P.pcdHwErrStorageSize
  subtractUintn commonVariableSpace s.commonVariableTotalSize < P.pcdMaxVariableSize ||
    (P.pcdHwErrStorageSize != 0 &&
      subtractUintn P.pcdHwErrStorageSize s.hwErrVariableTotalSize < P.pcdMaxHardwareErrorVariableSize)

def reclaimForOS (P : Platform) (env : Environment) (s : State) : State :=
  if belowThreshold P s then (reclaim env P.nonVolatileVariableBase false 0 s).2 else s

end Udk.Variable
