import Udk.Gcd.Map
import Udk.Run

/-! # The services of the global coherency domain -/

namespace Udk.Gcd

/-- `EFI_GCD_ALLOCATE_TYPE`. -/
inductive GcdAllocateType
  | anySearchBottomUp | maxAddressSearchBottomUp | address | anySearchTopDown | maxAddressSearchTopDown
  | maxAllocateType
  deriving DecidableEq

def GcdAllocateType.isTopDown (t : GcdAllocateType) : Bool :=
  t == .anySearchTopDown || t == .maxAddressSearchTopDown

def GcdAllocateType.hasMaxAddress (t : GcdAllocateType) : Bool :=
  t == .maxAddressSearchBottomUp || t == .maxAddressSearchTopDown

/-- `Value & (~AlignmentMask)`. -/
def alignDown (value alignment : Nat) : Nat := value / 2 ^ alignment * 2 ^ alignment

/-- `(Value + AlignmentMask) & (~AlignmentMask)`. -/
def alignUp (value alignment : Nat) : Nat := alignDown (uint64 (value + (2 ^ alignment - 1))) alignment

/-! ## `CoreAllocateSpace` -/

def coreAllocateSpaceCheckEntry (operation : Operation) (gcdMemoryType : GcdMemoryType) (gcdIoType : GcdIoType)
    (e : Space) : EfiStatus :=
  if e.imageHandle ≠ none then .notFound
  else
    match operation with
    | .allocateMemory => if e.gcdMemoryType ≠ gcdMemoryType then .notFound else .success
    | .allocateIo => if e.gcdIoType ≠ gcdIoType then .notFound else .success
    | _ => .unsupported

/-- The links before the first one that fails the check, and the ones from there on. -/
def passing (check : Space → EfiStatus) (links : List Entry) : List Entry × List Entry :=
  (links.takeWhile (check ·.toSpace = .success), links.dropWhile (check ·.toSpace = .success))

/-- What the search does with an entry that passes the check. -/
inductive Candidate
  | skip
  | stop (baseAddress : Nat)
  | look (baseAddress : Nat)

def candidate (gcdAllocateType : GcdAllocateType) (alignment length maxAddress baseAddress : Nat)
    (entry : Entry) : Candidate :=
  if gcdAllocateType.isTopDown then
    if uint64 (entry.baseAddress + length) > maxAddress then .skip
    else if length > uint64 (entry.endAddress + 1) then .stop baseAddress
    else .look (alignDown (uint64 (min entry.endAddress maxAddress + 1 + (2 ^ 64 - length))) alignment)
  else
    let baseAddress := alignUp entry.baseAddress alignment
    if lastAddress baseAddress length > maxAddress then .stop baseAddress else .look baseAddress

/-- The search for a free range. The links that are left come nearest first, and the fuel bounds the number of
links that it looks at. -/
def allocateLoop (check : Space → EfiStatus) (gcdAllocateType : GcdAllocateType)
    (alignment length maxAddress : Nat) (map : List Entry) :
    Nat → Nat → List Entry → Option (Nat × Option Found)
  | 0, _, _ => none
  | _ + 1, baseAddress, [] => some (baseAddress, none)
  | fuel + 1, baseAddress, entry :: links =>
    if check entry.toSpace ≠ .success then
      allocateLoop check gcdAllocateType alignment length maxAddress map fuel baseAddress links
    else
      match candidate gcdAllocateType alignment length maxAddress baseAddress entry with
      | .skip => allocateLoop check gcdAllocateType alignment length maxAddress map fuel baseAddress links
      | .stop baseAddress => some (baseAddress, none)
      | .look baseAddress =>
        match coreSearchGcdMapEntry baseAddress length map with
        | none => some (baseAddress, none)
        | some found =>
          match passing check found.links with
          | (_, []) => some (baseAddress, some found)
          | (ok, subLink :: rest) =>
            -- the walk goes on from the link that fails
            allocateLoop check gcdAllocateType alignment length maxAddress map fuel baseAddress
              (if gcdAllocateType.isTopDown then (found.before ++ ok ++ [subLink]).reverse
              else subLink :: rest ++ found.after)

/-- Takes the links that were found. -/
def allocateFound (env : Environment) (request : Nat) (length baseAddress : Nat) (imageHandle deviceHandle : Handle)
    (map : List Entry) (found : Found) : Option (EfiStatus × Nat × List Entry) :=
  if env.allocateGcdMapEntry request = false then some (.outOfResources, baseAddress, map)
  else
    (convertFound (fun e => { e with imageHandle, deviceHandle }) baseAddress length found).map
      (.success, baseAddress, ·)

/-- The status, `*BaseAddress` and the map. -/
def coreAllocateSpace (env : Environment) (request : Nat) (operation : Operation)
    (gcdAllocateType : GcdAllocateType) (gcdMemoryType : GcdMemoryType) (gcdIoType : GcdIoType)
    (alignment length : Nat) (baseAddress : Option Nat) (imageHandle deviceHandle : Handle) (map : List Entry) :
    Option (EfiStatus × Nat × List Entry) :=
  match baseAddress with
  | none => some (.invalidParameter, 0, map)
  | some baseAddress =>
    if gcdAllocateType = .maxAllocateType ∨ gcdMemoryType = .maximum ∨ gcdIoType = .maximum ∨
        imageHandle = none then
      some (.invalidParameter, baseAddress, map)
    else if 64 ≤ alignment then some (.notFound, baseAddress, map)
    else if length = 0 then some (.invalidParameter, baseAddress, map)
    else
      let check := coreAllocateSpaceCheckEntry operation gcdMemoryType gcdIoType
      if gcdAllocateType = .address then
        if baseAddress % 2 ^ alignment ≠ 0 then some (.notFound, baseAddress, map)
        else
          match coreSearchGcdMapEntry baseAddress length map with
          | none => some (.notFound, baseAddress, map)
          | some found =>
            match firstError check found.links with
            | .success => allocateFound env request length baseAddress imageHandle deviceHandle map found
            | status => some (status, baseAddress, map)
      else
        let maxAddress :=
          if gcdAllocateType.hasMaxAddress then baseAddress else (map.getLast?.map Entry.endAddress).getD 0
        let links := if gcdAllocateType.isTopDown then map.reverse else map
        match allocateLoop check gcdAllocateType alignment length maxAddress map (map.length + 1) baseAddress links with
        | none => none
        | some (baseAddress, none) => some (.notFound, baseAddress, map)
        | some (baseAddress, some found) =>
          allocateFound env request length baseAddress imageHandle deviceHandle map found

/-! ## Memory space -/

section
variable (env : Environment) (request : Nat) (map : List Entry)

def coreInternalAddMemorySpace (gcdMemoryType : GcdMemoryType) (baseAddress length : Nat) (capabilities : UInt64) :
    Option (EfiStatus × List Entry) :=
  if gcdMemoryType = .nonExistent ∨ gcdMemoryType = .maximum then some (.invalidParameter, map)
  else coreConvertSpace env request .addMemory gcdMemoryType .nonExistent baseAddress length capabilities 0 map

def coreAllocateMemorySpace (gcdAllocateType : GcdAllocateType) (gcdMemoryType : GcdMemoryType)
    (alignment length : Nat) (baseAddress : Option Nat) (imageHandle deviceHandle : Handle) :
    Option (EfiStatus × Nat × List Entry) :=
  coreAllocateSpace env request .allocateMemory gcdAllocateType gcdMemoryType .nonExistent alignment length
    baseAddress imageHandle deviceHandle map

def coreFreeMemorySpace (baseAddress length : Nat) : Option (EfiStatus × List Entry) :=
  coreConvertSpace env request .freeMemory .nonExistent .nonExistent baseAddress length 0 0 map

def coreRemoveMemorySpace (baseAddress length : Nat) : Option (EfiStatus × List Entry) :=
  coreConvertSpace env request .removeMemory .nonExistent .nonExistent baseAddress length 0 0 map

def coreSetMemorySpaceAttributes (baseAddress length : Nat) (attributes : UInt64) :
    Option (EfiStatus × List Entry) :=
  coreConvertSpace env request .setAttributesMemory .nonExistent .nonExistent baseAddress length 0 attributes map

end

/-- `EFI_PAGE_SHIFT`. -/
def efiPageShift : Nat := 12

/-- Allocates the pages one by one, as many as are left. -/
def allocatePagesLoop (env : Environment) (gDxeCoreImageHandle : Handle) (gcdMemoryType : GcdMemoryType) :
    Nat → Nat → Nat → EfiStatus → List Entry → Option (EfiStatus × List Entry)
  | 0, _, _, status, map => some (status, map)
  | pages + 1, request, pageBaseAddress, _, map =>
    match coreAllocateMemorySpace env request map .address gcdMemoryType efiPageShift efiPageSize
        (some pageBaseAddress) gDxeCoreImageHandle none with
    | none => none
    | some (status, _, map) =>
      allocatePagesLoop env gDxeCoreImageHandle gcdMemoryType pages (request + 1)
        (uint64 (pageBaseAddress + efiPageSize)) status map

def coreAddMemorySpace (env : Environment) (gDxeCoreImageHandle : Handle) (map : List Entry)
    (gcdMemoryType : GcdMemoryType) (baseAddress length : Nat) (capabilities : UInt64) :
    Option (EfiStatus × List Entry) :=
  match coreInternalAddMemorySpace env 0 map gcdMemoryType baseAddress length capabilities with
  | none => none
  | some (status, map) =>
    if status = .success ∧ gcdMemoryType = .systemMemory then
      let pageBaseAddress := alignDown baseAddress efiPageShift
      let pageLength := alignDown (uint64 (baseAddress + length + (2 ^ 64 - pageBaseAddress))) efiPageShift
      match coreAllocateMemorySpace env 1 map .address gcdMemoryType efiPageShift pageLength
          (some pageBaseAddress) gDxeCoreImageHandle none with
      | none => none
      | some (.success, _, map) => some (.success, map)
      | some (status, _, map) =>
        allocatePagesLoop env gDxeCoreImageHandle gcdMemoryType (pageLength / efiPageSize) 2 pageBaseAddress
          status map
    else some (status, map)

/-- `EFI_GCD_MEMORY_SPACE_DESCRIPTOR`. -/
structure MemorySpaceDescriptor extends Space where
  baseAddress : Nat
  length : Nat
  deriving DecidableEq

def buildMemoryDescriptor (entry : Entry) : MemorySpaceDescriptor where
  toSpace := entry.toSpace
  baseAddress := entry.baseAddress
  length := uint64 (entry.endAddress + (2 ^ 64 - entry.baseAddress) + 1)

/-- The descriptor, or `none` for `EFI_NOT_FOUND`. -/
def coreGetMemorySpaceDescriptor (baseAddress : Nat) (map : List Entry) : Option MemorySpaceDescriptor :=
  (coreSearchGcdMapEntry baseAddress 1 map).bind fun found => found.links.head?.map buildMemoryDescriptor

/-! ## I/O space -/

section
variable (env : Environment) (request : Nat) (map : List Entry)

def coreAddIoSpace (gcdIoType : GcdIoType) (baseAddress length : Nat) : Option (EfiStatus × List Entry) :=
  if gcdIoType = .nonExistent ∨ gcdIoType = .maximum then some (.invalidParameter, map)
  else coreConvertSpace env request .addIo .nonExistent gcdIoType baseAddress length 0 0 map

def coreAllocateIoSpace (gcdAllocateType : GcdAllocateType) (gcdIoType : GcdIoType)
    (alignment length : Nat) (baseAddress : Option Nat) (imageHandle deviceHandle : Handle) :
    Option (EfiStatus × Nat × List Entry) :=
  coreAllocateSpace env request .allocateIo gcdAllocateType .nonExistent gcdIoType alignment length
    baseAddress imageHandle deviceHandle map

def coreFreeIoSpace (baseAddress length : Nat) : Option (EfiStatus × List Entry) :=
  coreConvertSpace env request .freeIo .nonExistent .nonExistent baseAddress length 0 0 map

def coreRemoveIoSpace (baseAddress length : Nat) : Option (EfiStatus × List Entry) :=
  coreConvertSpace env request .removeIo .nonExistent .nonExistent baseAddress length 0 0 map

end

/-! ## Promotion -/

/-- What `PromoteMemoryResource`, which the page allocator runs, does to an entry. -/
def promoteEntry (gDxeCoreImageHandle : Handle) (e : Entry) : Entry :=
  if e.gcdMemoryType = .reserved ∧ e.endAddress < 2 ^ 64 - 1 ∧
      e.capabilities &&& (efiMemoryPresent ||| efiMemoryInitialized ||| efiMemoryTested) =
        efiMemoryPresent ||| efiMemoryInitialized then
    { e with
      gcdMemoryType := .systemMemory
      capabilities := e.capabilities ||| efiMemoryTested
      imageHandle := gDxeCoreImageHandle
      deviceHandle := none }
  else e

/-! ## The maps as a system -/

/-- `mGcdMemorySpaceMap` and `mGcdIoSpaceMap`. -/
structure State where
  memorySpaceMap : List Entry
  ioSpaceMap : List Entry
  deriving DecidableEq

/-- The entry that `CoreInitializeGcdServices` makes for a space of so many address lines. -/
def initialEntry (sizeOfSpace : Nat) : Entry where
  capabilities := 0
  attributes := 0
  gcdMemoryType := .nonExistent
  gcdIoType := .nonExistent
  imageHandle := none
  deviceHandle := none
  baseAddress := 0
  endAddress := 2 ^ sizeOfSpace - 1

def initialState (sizeOfMemorySpace sizeOfIoSpace : Nat) : State :=
  ⟨[initialEntry sizeOfMemorySpace], [initialEntry sizeOfIoSpace]⟩

/-- A call of a service, with the arguments that its caller can choose. -/
inductive Call
  | addMemorySpace (gcdMemoryType : GcdMemoryType) (baseAddress length capabilities : UInt64)
  /-- For a resource descriptor HOB. -/
  | internalAddMemorySpace (gcdMemoryType : GcdMemoryType) (baseAddress length capabilities : UInt64)
  | allocateMemorySpace (gcdAllocateType : GcdAllocateType) (gcdMemoryType : GcdMemoryType) (alignment : Nat)
      (length : UInt64) (baseAddress : Option UInt64) (imageHandle deviceHandle : Handle)
  | freeMemorySpace (baseAddress length : UInt64)
  | removeMemorySpace (baseAddress length : UInt64)
  | setMemorySpaceAttributes (baseAddress length attributes : UInt64)
  | addIoSpace (gcdIoType : GcdIoType) (baseAddress length : UInt64)
  | allocateIoSpace (gcdAllocateType : GcdAllocateType) (gcdIoType : GcdIoType) (alignment : Nat)
      (length : UInt64) (baseAddress : Option UInt64) (imageHandle deviceHandle : Handle)
  | freeIoSpace (baseAddress length : UInt64)
  | removeIoSpace (baseAddress length : UInt64)
  | promoteMemoryResource

/-- The status of the call and the maps after it. -/
def call (gDxeCoreImageHandle : Handle) (env : Environment) (s : State) : Call → Option (EfiStatus × State)
  | .addMemorySpace t b l c =>
    (coreAddMemorySpace env gDxeCoreImageHandle s.memorySpaceMap t b.toNat l.toNat c).map memory
  | .internalAddMemorySpace t b l c =>
    (coreInternalAddMemorySpace env 0 s.memorySpaceMap t b.toNat l.toNat c).map memory
  | .allocateMemorySpace a t n l b i d =>
    (coreAllocateMemorySpace env 0 s.memorySpaceMap a t n l.toNat (b.map UInt64.toNat) i d).map fun r =>
      memory (r.1, r.2.2)
  | .freeMemorySpace b l => (coreFreeMemorySpace env 0 s.memorySpaceMap b.toNat l.toNat).map memory
  | .removeMemorySpace b l => (coreRemoveMemorySpace env 0 s.memorySpaceMap b.toNat l.toNat).map memory
  | .setMemorySpaceAttributes b l a =>
    (coreSetMemorySpaceAttributes env 0 s.memorySpaceMap b.toNat l.toNat a).map memory
  | .addIoSpace t b l => (coreAddIoSpace env 0 s.ioSpaceMap t b.toNat l.toNat).map io
  | .allocateIoSpace a t n l b i d =>
    (coreAllocateIoSpace env 0 s.ioSpaceMap a t n l.toNat (b.map UInt64.toNat) i d).map fun r => io (r.1, r.2.2)
  | .freeIoSpace b l => (coreFreeIoSpace env 0 s.ioSpaceMap b.toNat l.toNat).map io
  | .removeIoSpace b l => (coreRemoveIoSpace env 0 s.ioSpaceMap b.toNat l.toNat).map io
  | .promoteMemoryResource =>
    some (.success, { s with memorySpaceMap := s.memorySpaceMap.map (promoteEntry gDxeCoreImageHandle) })
where
  memory (r : EfiStatus × List Entry) : EfiStatus × State := (r.1, { s with memorySpaceMap := r.2 })
  io (r : EfiStatus × List Entry) : EfiStatus × State := (r.1, { s with ioSpaceMap := r.2 })

/-- An event is a call and what the environment answers in it. -/
def step (gDxeCoreImageHandle : Handle) (s : State) (e : Environment × Call) : Option State :=
  (call gDxeCoreImageHandle e.1 s e.2).map Prod.snd

end Udk.Gcd
