import Mathlib.Data.List.Basic
import Udk.Ranges
import Udk.Run

/-! # The pages of SMRAM

The node of a free range lies in its first page, so the address of a node is the base of its range.
-/

namespace Udk.Smm

inductive EfiStatus
  | success
  | invalidParameter
  | outOfResources
  | notFound
  deriving DecidableEq

inductive EfiAllocateType
  | allocateAnyPages
  | allocateMaxAddress
  | allocateAddress
  | maxAllocateType
  deriving DecidableEq

abbrev EfiMemoryType := Nat

def efiRuntimeServicesCode : EfiMemoryType := 5

def efiRuntimeServicesData : EfiMemoryType := 6

def efiPageSize : Nat := 4096

/-- `EFI_PAGE_MASK` picks what a page boundary does not have. -/
def offPage (address : Nat) : Nat := address % efiPageSize

def uintnAdd (a b : Nat) : Nat := (a + b) % 2 ^ 64

def uintnSub (a b : Nat) : Nat := (a + 2 ^ 64 - b) % 2 ^ 64

/-- `~` of a number of 64 bits. -/
def uintnNot (a : Nat) : Nat := 2 ^ 64 - 1 - a

def efiPagesToSize (pages : Nat) : Nat := pages * efiPageSize % 2 ^ 64

/-- `TRUNCATE_TO_PAGES`. -/
def truncateToPages (size : Nat) : Nat := size / efiPageSize

/-- `FREE_PAGE_LIST`, and its address. -/
structure FreePageList where
  base : Nat
  numberOfPages : Nat
  deriving DecidableEq

/-- The last one with `p`, and what is before and behind it. -/
def splitLast {α : Type} (p : α → Bool) : List α → Option (List α × α × List α)
  | [] => none
  | a :: l =>
    match splitLast p l with
    | some (before, x, behind) => some (a :: before, x, behind)
    | none => if p a then some ([], a, l) else none

/-! ## Allocation -/

/-- The address, and the nodes that are in the list in the place of `pages`. `none` when a node is inserted behind
itself. -/
def internalAllocPagesOnOneNode (pages : FreePageList) (numberOfPages maxAddress : Nat) :
    Option (Nat × List FreePageList) :=
  let top := truncateToPages (uintnSub (uintnAdd maxAddress 1) pages.base)
  let top := if pages.numberOfPages < top then pages.numberOfPages else top
  let bottom := uintnSub top numberOfPages
  if top < pages.numberOfPages ∧ efiPagesToSize top = 0 then none
  else
    let node := if top < pages.numberOfPages then
        [⟨uintnAdd pages.base (efiPagesToSize top), pages.numberOfPages - top⟩]
      else []
    let rest := if 0 < bottom then [{ pages with numberOfPages := bottom }] else []
    some (uintnAdd pages.base (efiPagesToSize bottom), rest ++ node)

/-- The test of a node in `InternalAllocMaxAddress`. -/
def FreePageList.fits (numberOfPages maxAddress : Nat) (pages : FreePageList) : Bool :=
  numberOfPages ≤ pages.numberOfPages &&
    uintnSub (uintnAdd pages.base (efiPagesToSize numberOfPages)) 1 ≤ maxAddress

def internalAllocMaxAddress (freePageList : List FreePageList) (numberOfPages maxAddress : Nat) :
    Option (Nat × List FreePageList) :=
  match splitLast (FreePageList.fits numberOfPages maxAddress) freePageList with
  | some (before, pages, behind) =>
    (internalAllocPagesOnOneNode pages numberOfPages maxAddress).map fun (address, nodes) =>
      (address, before ++ (nodes ++ behind))
  | none => some (uintnNot 0, freePageList)

/-- Where the range ends, in 64 bits. -/
def FreePageList.endAddress (pages : FreePageList) : Nat := uintnAdd pages.base (efiPagesToSize pages.numberOfPages)

def internalAllocAddress (freePageList : List FreePageList) (numberOfPages address : Nat) :
    Option (Nat × List FreePageList) :=
  if offPage address ≠ 0 then some (uintnNot address, freePageList)
  else
    let endAddress := uintnAdd address (efiPagesToSize numberOfPages)
    match splitLast (fun pages => pages.base ≤ address) freePageList with
    | some (before, pages, behind) =>
      if pages.endAddress < endAddress then some (uintnNot address, freePageList)
      else
        (internalAllocPagesOnOneNode pages numberOfPages endAddress).map fun (result, nodes) =>
          (result, before ++ (nodes ++ behind))
    | none => some (uintnNot address, freePageList)

/-- The status, `Memory`, and the list. -/
def smmAllocatePages (mSmmMemoryMap : List FreePageList) (type : EfiAllocateType) (memoryType : EfiMemoryType)
    (numberOfPages memory : Nat) : Option (EfiStatus × Nat × List FreePageList) :=
  if memoryType ≠ efiRuntimeServicesCode ∧ memoryType ≠ efiRuntimeServicesData then
    some (.invalidParameter, memory, mSmmMemoryMap)
  else if numberOfPages > truncateToPages (uintnNot 0) + 1 then some (.outOfResources, memory, mSmmMemoryMap)
  else
    match type with
    | .allocateAnyPages =>
      (internalAllocMaxAddress mSmmMemoryMap numberOfPages (uintnNot 0)).map fun (address, map) =>
        (if address = uintnNot 0 then .outOfResources else .success, address, map)
    | .allocateMaxAddress =>
      (internalAllocMaxAddress mSmmMemoryMap numberOfPages memory).map fun (address, map) =>
        (if address = uintnNot 0 then .outOfResources else .success, address, map)
    | .allocateAddress =>
      (internalAllocAddress mSmmMemoryMap numberOfPages memory).map fun (address, map) =>
        (if address ≠ memory then .notFound else .success, address, map)
    | .maxAllocateType => some (.invalidParameter, memory, mSmmMemoryMap)

/-! ## Freeing -/

/-- The nodes that there are then. The last one is returned. -/
def internalMergeNodes (first following : FreePageList) : List FreePageList :=
  if truncateToPages (uintnSub following.base first.base) = first.numberOfPages then
    [{ first with numberOfPages := uintnAdd first.numberOfPages following.numberOfPages }]
  else [first, following]

/-- The checks of `SmmFreePages`, with the nodes up to `memory` and those behind it. -/
def freeRefused (before behind : List FreePageList) (memory numberOfPages : Nat) : Bool :=
  behind.head?.any (fun pages => pages.base < uintnAdd memory (efiPagesToSize numberOfPages)) ||
    before.getLast?.any (fun pages => memory < pages.endAddress)

/-- A node is put behind the others, and merges with the last one. -/
def mergeLast (nodes : List FreePageList) (pages : FreePageList) : List FreePageList :=
  match nodes.getLast? with
  | some previous => nodes.dropLast ++ internalMergeNodes previous pages
  | none => [pages]

/-- The new node merges with the one before it, and then with the one behind it. -/
def insertPages (before behind : List FreePageList) (pages : FreePageList) : List FreePageList :=
  match behind with
  | following :: rest => mergeLast (mergeLast before pages) following ++ rest
  | [] => mergeLast before pages

/-- `none` when a node is inserted where there is one. -/
def smmFreePages (mSmmMemoryMap : List FreePageList) (memory numberOfPages : Nat) :
    Option (EfiStatus × List FreePageList) :=
  if offPage memory ≠ 0 then some (.invalidParameter, mSmmMemoryMap)
  else
    let before := mSmmMemoryMap.takeWhile fun pages => pages.base ≤ memory
    let behind := mSmmMemoryMap.dropWhile fun pages => pages.base ≤ memory
    if freeRefused before behind memory numberOfPages then some (.invalidParameter, mSmmMemoryMap)
    else if mSmmMemoryMap.any fun pages => pages.base = memory then none
    else some (.success, insertPages before behind ⟨memory, numberOfPages⟩)

/-- `EFI_ALLOCATED | EFI_NEEDS_TESTING | EFI_NEEDS_ECC_INITIALIZATION`. -/
def unusableAttributes : Nat := 0x10 ||| 0x20 ||| 0x40

def alignedMemBase (memBase : Nat) : Nat :=
  uintnAdd memBase (efiPageSize - 1) - offPage (uintnAdd memBase (efiPageSize - 1))

/-- The pages of a region, as they are freed. -/
def regionPages (memBase memLength : Nat) : Nat :=
  truncateToPages (uintnSub memLength (uintnSub (alignedMemBase memBase) memBase))

def smmAddMemoryRegion (mSmmMemoryMap : List FreePageList) (memBase memLength attributes : Nat) :
    Option (List FreePageList) :=
  if attributes &&& unusableAttributes ≠ 0 then some mSmmMemoryMap
  else (smmFreePages mSmmMemoryMap (alignedMemBase memBase) (regionPages memBase memLength)).map (·.2)

/-! ## Runs -/

structure Region where
  base : Nat
  length : Nat
  deriving DecidableEq

structure PageState where
  mSmmMemoryMap : List FreePageList
  /-- The regions that were added. -/
  regions : List Region
  deriving DecidableEq

inductive PageCall
  | addMemoryRegion (memBase memLength attributes : Nat)
  | allocatePages (type : EfiAllocateType) (memoryType : EfiMemoryType) (numberOfPages memory : Nat)
  | freePages (memory numberOfPages : Nat)
  deriving DecidableEq

/-- The status, the address of an allocation, and the state. -/
def PageState.call (s : PageState) : PageCall → Option (EfiStatus × Nat × PageState)
  | .addMemoryRegion memBase memLength attributes =>
    (smmAddMemoryRegion s.mSmmMemoryMap memBase memLength attributes).map fun map =>
      (.success, memBase,
        ⟨map, if attributes &&& unusableAttributes ≠ 0 then s.regions else ⟨memBase, memLength⟩ :: s.regions⟩)
  | .allocatePages type memoryType numberOfPages memory =>
    (smmAllocatePages s.mSmmMemoryMap type memoryType numberOfPages memory).map fun (status, address, map) =>
      (status, address, { s with mSmmMemoryMap := map })
  | .freePages memory numberOfPages =>
    (smmFreePages s.mSmmMemoryMap memory numberOfPages).map fun (status, map) =>
      (status, memory, { s with mSmmMemoryMap := map })

def PageState.step (s : PageState) (c : PageCall) : Option PageState := (s.call c).map (·.2.2)

end Udk.Smm
