import Udk.Bytes
import Udk.Run

/-! # The HOB list and the heap of the PEI core

The HOB list grows up from the handoff information table and pages are taken from the top of the same region. The
table is read and written in memory, at the address that the core keeps.
-/

namespace Udk.Pei

open Bytes

inductive EfiStatus
  | success
  | invalidParameter
  | notAvailableYet
  | outOfResources
  deriving DecidableEq

/-- What `PEI_CORE_INSTANCE` has about memory, with the memory itself. -/
structure PeiCoreInstance where
  hobList : Nat
  peiMemoryInstalled : Bool
  switchStackSignal : Bool
  physicalMemoryBegin : Nat
  freePhysicalMemoryTop : Nat
  memory : Memory

/-! ## The HOBs in memory -/

def hobTypeHandoff : Nat := 1
def hobTypeMemoryAllocation : Nat := 2
def hobTypeMemoryPool : Nat := 7
def hobTypeEndOfHobList : Nat := 0xFFFF

def handoffTableVersion : Nat := 9

def hobType (m : Memory) (a : Nat) : Nat := readLE m a 2
def hobLength (m : Memory) (a : Nat) : Nat := readLE m (a + 2) 2

/-- `EFI_HOB_GENERIC_HEADER`. -/
def genericHeader (type length : Nat) : List UInt8 := toLE 2 type ++ toLE 2 length ++ toLE 4 0

def sizeOfGenericHeader : Nat := 8
def sizeOfHandoffTable : Nat := 56
def sizeOfMemoryAllocation : Nat := 48
def sizeOfMemoryPool : Nat := 8

def efiFreeMemoryTop (m : Memory) (phit : Nat) : Nat := readLE m (phit + 32) 8
def efiFreeMemoryBottom (m : Memory) (phit : Nat) : Nat := readLE m (phit + 40) 8
def efiEndOfHobList (m : Memory) (phit : Nat) : Nat := readLE m (phit + 48) 8

/-- `EFI_HOB_HANDOFF_INFO_TABLE`. -/
def handoffTable (bootMode top bottom freeTop freeBottom endOfHobList : Nat) : List UInt8 :=
  genericHeader hobTypeHandoff sizeOfHandoffTable ++ toLE 4 handoffTableVersion ++ toLE 4 bootMode ++ toLE 8 top ++
    toLE 8 bottom ++ toLE 8 freeTop ++ toLE 8 freeBottom ++ toLE 8 endOfHobList

def peiCoreBuildHobHandoffInfoTable (m : Memory) (bootMode memoryBegin memoryLength : Nat) : Memory :=
  let hobEnd := memoryBegin + sizeOfHandoffTable
  let top := (memoryBegin + memoryLength) % 2 ^ 64
  write (write m hobEnd (genericHeader hobTypeEndOfHobList sizeOfGenericHeader)) memoryBegin
    (handoffTable bootMode top memoryBegin top (hobEnd + sizeOfGenericHeader) hobEnd)

/-! ## The services -/

/-- A difference of two `UINT64`. -/
def uint64Sub (a b : Nat) : Nat := (a + (2 ^ 64 - b % 2 ^ 64)) % 2 ^ 64

/-- A length in a `UINT16`, rounded up to eight bytes. -/
def roundUp8 (length : Nat) : Nat := (length + 7) / 8 * 8 % 2 ^ 16

/-- The status, the address in `*Hob` and the core after the call. -/
def peiCreateHob (core : PeiCoreInstance) (type length : Nat) : EfiStatus × Nat × PeiCoreInstance :=
  let phit := core.hobList
  let freeMemory := uint64Sub (efiFreeMemoryTop core.memory phit) (efiFreeMemoryBottom core.memory phit)
  -- `*Hob` is the handoff information table when the call fails
  if freeMemory < roundUp8 length then (.outOfResources, phit, core)
  else
    let hob := efiEndOfHobList core.memory phit
    let hobEnd := (hob + roundUp8 length) % 2 ^ 64
    let m := write core.memory hob (genericHeader type (roundUp8 length))
    let m := write m (phit + 48) (toLE 8 hobEnd)
    let m := write m hobEnd (genericHeader hobTypeEndOfHobList sizeOfGenericHeader)
    let m := write m (phit + 40) (toLE 8 (hobEnd + sizeOfGenericHeader))
    (.success, hob, { core with memory := m })

/-- The status, the address in `*Buffer` and the core after the call. -/
def peiAllocatePool (core : PeiCoreInstance) (size : Nat) : EfiStatus × Nat × PeiCoreInstance :=
  if 0x10000 - sizeOfMemoryPool ≤ size then (.outOfResources, 0, core)
  else
    let (status, hob, core) := peiCreateHob core hobTypeMemoryPool ((sizeOfMemoryPool + size) % 2 ^ 16)
    (status, hob + sizeOfMemoryPool, core)

/-- The part of `EFI_HOB_MEMORY_ALLOCATION` behind its header. -/
def allocDescriptor (baseAddress length memoryType : Nat) : List UInt8 :=
  List.replicate 16 0 ++ toLE 8 baseAddress ++ toLE 8 length ++ toLE 4 memoryType ++ List.replicate 4 0

/-- The status of `PeiCreateHob` is only asserted, so its `*Hob` is used in any case. -/
def buildMemoryAllocationHob (core : PeiCoreInstance) (baseAddress length memoryType : Nat) : PeiCoreInstance :=
  let (_, hob, core) := peiCreateHob core hobTypeMemoryAllocation sizeOfMemoryAllocation
  { core with memory := write core.memory (hob + 8) (allocDescriptor baseAddress length memoryType) }

def efiPageSize : Nat := 0x1000

/-- `EFI_SIZE_TO_PAGES`. -/
def sizeToPages (size : Nat) : Nat := size / efiPageSize + if size % efiPageSize = 0 then 0 else 1

/-- `EfiLoaderCode` to `EfiRuntimeServicesData`, `EfiACPIReclaimMemory` and `EfiACPIMemoryNVS`. -/
def allocatable (memoryType : Nat) : Bool := memoryType ∈ [1, 2, 3, 4, 5, 6, 9, 10]

/-- `*FreeMemoryTop`, which is in the core before the memory is installed. -/
def freeMemoryTop (core : PeiCoreInstance) : Nat :=
  if core.peiMemoryInstalled then efiFreeMemoryTop core.memory core.hobList else core.freePhysicalMemoryTop

def freeMemoryBottom (core : PeiCoreInstance) : Nat :=
  if core.peiMemoryInstalled then efiFreeMemoryBottom core.memory core.hobList else core.physicalMemoryBegin

def setFreeMemoryTop (core : PeiCoreInstance) (top : Nat) : PeiCoreInstance :=
  if core.peiMemoryInstalled then { core with memory := write core.memory (core.hobList + 32) (toLE 8 top) }
  else { core with freePhysicalMemoryTop := top }

/-- The status, the address in `*Memory` and the core after the call. -/
def peiAllocatePages (core : PeiCoreInstance) (memoryType pages : Nat) : EfiStatus × Nat × PeiCoreInstance :=
  if ¬allocatable memoryType then (.invalidParameter, 0, core)
  else if ¬core.peiMemoryInstalled ∧ ¬core.switchStackSignal then (.notAvailableYet, 0, core)
  else
    -- the top stays aligned when the call fails
    let core := setFreeMemoryTop core (freeMemoryTop core - freeMemoryTop core % efiPageSize)
    let remainingPages := sizeToPages (uint64Sub (freeMemoryTop core) (freeMemoryBottom core))
    if remainingPages ≤ pages then (.outOfResources, 0, core)
    else
      let length := pages * efiPageSize % 2 ^ 64
      let core := setFreeMemoryTop core (uint64Sub (freeMemoryTop core) length)
      let base := freeMemoryTop core
      (.success, base, buildMemoryAllocationHob core base length memoryType)

end Udk.Pei
