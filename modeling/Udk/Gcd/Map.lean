import Mathlib.Algebra.GroupWithZero.Nat
import Mathlib.Data.List.Basic

/-! # The maps of the global coherency domain

A map is the list of its entries. What the C code reaches through a link is the part of the list in front
of the link and the part behind it.
-/

namespace Udk.Gcd

inductive EfiStatus
  | success | invalidParameter | unsupported | accessDenied | notFound | outOfResources | deviceError
  deriving DecidableEq

/-- `EFI_GCD_MEMORY_TYPE`. -/
inductive GcdMemoryType
  | nonExistent | reserved | systemMemory | memoryMappedIo | maximum
  deriving DecidableEq

/-- `EFI_GCD_IO_TYPE`. -/
inductive GcdIoType
  | nonExistent | reserved | io | maximum
  deriving DecidableEq

/-- `EFI_HANDLE`. `NULL` is `none`. -/
abbrev Handle := Option Nat

/-- What an entry says about its addresses. -/
structure Space where
  capabilities : UInt64
  attributes : UInt64
  gcdMemoryType : GcdMemoryType
  gcdIoType : GcdIoType
  imageHandle : Handle
  deviceHandle : Handle
  deriving DecidableEq

/-- `EFI_GCD_MAP_ENTRY`. -/
structure Entry extends Space where
  baseAddress : Nat
  endAddress : Nat
  deriving DecidableEq

/-- A number as a `UINT64`. -/
def uint64 (n : Nat) : Nat := n % 2 ^ 64

/-- `BaseAddress + Length - 1`. -/
def lastAddress (baseAddress length : Nat) : Nat := uint64 (baseAddress + length + (2 ^ 64 - 1))

def Entry.contains (e : Entry) (a : Nat) : Bool := e.baseAddress ≤ a && a ≤ e.endAddress

def efiMemoryUc : UInt64 := 0x0000000000000001
def efiMemoryWc : UInt64 := 0x0000000000000002
def efiMemoryWt : UInt64 := 0x0000000000000004
def efiMemoryWb : UInt64 := 0x0000000000000008
def efiMemoryWp : UInt64 := 0x0000000000001000
def efiMemoryPresent : UInt64 := 0x0100000000000000
def efiMemoryInitialized : UInt64 := 0x0200000000000000
def efiMemoryTested : UInt64 := 0x0400000000000000
def efiMemoryPortIo : UInt64 := 0x4000000000000000
def efiMemoryRuntime : UInt64 := 0x8000000000000000

def efiPageSize : Nat := 0x1000

/-! ## Searching -/

/-- The links from `StartLink` to `EndLink`, and what is in front of them and behind them. -/
structure Found where
  before : List Entry
  links : List Entry
  after : List Entry

/-- The links before `StartLink` and those from `StartLink` on, before the next entry is looked at. -/
def searchLoop (baseAddress length : Nat) (before links : List Entry) : List Entry → Option Found
  | [] => none
  | entry :: rest =>
    let (before, links) :=
      if entry.contains baseAddress then (before ++ links, [entry])
      else if links = [] then (before ++ [entry], [])
      else (before, links ++ [entry])
    if links ≠ [] ∧ entry.contains (lastAddress baseAddress length) then some ⟨before, links, rest⟩
    else searchLoop baseAddress length before links rest

def coreSearchGcdMapEntry (baseAddress length : Nat) (map : List Entry) : Option Found :=
  searchLoop baseAddress length [] [] map

/-! ## Splitting and merging -/

/-- The bottom pad, the entry and the top pad. -/
def coreInsertGcdMapEntry (baseAddress length : Nat) (entry : Entry) : Option Entry × Entry × Option Entry :=
  let (bottom, entry) :=
    if baseAddress > entry.baseAddress then
      (some { entry with endAddress := baseAddress - 1 }, { entry with baseAddress })
    else (none, entry)
  if lastAddress baseAddress length < entry.endAddress then
    (bottom, { entry with endAddress := lastAddress baseAddress length },
      some { entry with baseAddress := uint64 (baseAddress + length) })
  else (bottom, entry, none)

/-- A converted entry in front of the links that the loop comes to after it. There is one pad of each kind; a
map in which the loop needs a pad twice, or between two links, is outside of the model. -/
def consLink (convert : Space → Space) :
    Option Entry × Entry × Option Entry → Option Entry × List Entry × Option Entry →
      Option (Option Entry × List Entry × Option Entry)
  | (bottom, entry, top), (none, [], none) => some (bottom, [{ entry with toSpace := convert entry.toSpace }], top)
  | (bottom, entry, none), (none, links, top) =>
    some (bottom, { entry with toSpace := convert entry.toSpace } :: links, top)
  | _, _ => none

/-- The loop from `StartLink` to `EndLink`: the pad in front of the links, the links, the pad behind them. -/
def convertLoop (convert : Space → Space) (baseAddress length : Nat) :
    List Entry → Option (Option Entry × List Entry × Option Entry)
  | [] => some (none, [], none)
  | entry :: rest =>
    (convertLoop convert baseAddress length rest).bind
      (consLink convert (coreInsertGcdMapEntry baseAddress length entry))

/-- The entry after the merge with the nearest one on a side, and what is left on that side. -/
def coreMergeGcdMapEntry (forward : Bool) (entry : Entry) : List Entry → Entry × List Entry
  | [] => (entry, [])
  | adjacent :: rest =>
    if entry.toSpace ≠ adjacent.toSpace then (entry, adjacent :: rest)
    else if forward then ({ entry with endAddress := adjacent.endAddress }, rest)
    else ({ entry with baseAddress := adjacent.baseAddress }, rest)

/-- Merges each link with the one in front of it. The entries in front come nearest first. -/
def cleanupLoop (before : List Entry) : List Entry → List Entry
  | [] => before
  | link :: rest =>
    let (link, before) := coreMergeGcdMapEntry false link before
    cleanupLoop (link :: before) rest

def coreCleanupGcdMapEntry (before links after : List Entry) : List Entry :=
  match cleanupLoop before.reverse links with
  | [] => after
  | endLink :: before =>
    let (endLink, after) := coreMergeGcdMapEntry true endLink after
    before.reverse ++ endLink :: after

/-- Splits and converts the links that were found, and cleans up. -/
def convertFound (convert : Space → Space) (baseAddress length : Nat) (found : Found) : Option (List Entry) :=
  (convertLoop convert baseAddress length found.links).map fun (bottom, links, top) =>
    coreCleanupGcdMapEntry (found.before ++ bottom.toList) links (top.toList ++ found.after)

/-! ## `CoreConvertSpace` -/

inductive Operation
  | addMemory | allocateMemory | freeMemory | removeMemory | setAttributesMemory
  | addIo | allocateIo | freeIo | removeIo
  deriving DecidableEq

/-- What the services that the GCD services call answer in one call. -/
structure Environment where
  /-- The pool has two entries, by the number of requests before. -/
  allocateGcdMapEntry : Nat → Bool
  /-- `SetMemoryAttributes` of the CPU, if its protocol is there. -/
  cpuArch : Option (Nat → Nat → UInt64 → EfiStatus)

/-- The attribute, or `INVALID_CPU_ARCH_ATTRIBUTES`. -/
def converToCpuArchAttributes (attributes : UInt64) : Option UInt64 :=
  if attributes &&& efiMemoryUc = efiMemoryUc then some efiMemoryUc
  else if attributes &&& efiMemoryWc = efiMemoryWc then some efiMemoryWc
  else if attributes &&& efiMemoryWt = efiMemoryWt then some efiMemoryWt
  else if attributes &&& efiMemoryWb = efiMemoryWb then some efiMemoryWb
  else if attributes &&& efiMemoryWp = efiMemoryWp then some efiMemoryWp
  else none

/-- What an operation asks of an entry. -/
def checkEntry (operation : Operation) (baseAddress length : Nat) (attributes : UInt64) (e : Space) : EfiStatus :=
  match operation with
  | .addMemory =>
    if e.gcdMemoryType ≠ .nonExistent ∨ e.imageHandle ≠ none then .accessDenied else .success
  | .addIo =>
    if e.gcdIoType ≠ .nonExistent ∨ e.imageHandle ≠ none then .accessDenied else .success
  | .freeMemory | .freeIo =>
    if e.imageHandle = none then .notFound else .success
  | .removeMemory =>
    if e.gcdMemoryType = .nonExistent then .notFound
    else if e.imageHandle ≠ none then .accessDenied
    else .success
  | .removeIo =>
    if e.gcdIoType = .nonExistent then .notFound
    else if e.imageHandle ≠ none then .accessDenied
    else .success
  | .setAttributesMemory =>
    if attributes &&& efiMemoryRuntime ≠ 0 ∧ (baseAddress % efiPageSize ≠ 0 ∨ length % efiPageSize ≠ 0) then
      .invalidParameter
    else if e.capabilities &&& attributes ≠ attributes then .unsupported
    else .success
  | .allocateMemory | .allocateIo => .success

/-- The error of the first entry that has one. -/
def firstError (check : Space → EfiStatus) : List Entry → EfiStatus
  | [] => .success
  | entry :: rest => if check entry.toSpace = .success then firstError check rest else check entry.toSpace

/-- What an operation does to an entry. -/
def convertEntry (operation : Operation) (gcdMemoryType : GcdMemoryType) (gcdIoType : GcdIoType)
    (capabilities attributes : UInt64) (e : Space) : Space :=
  match operation with
  | .addMemory =>
    { e with
      gcdMemoryType
      capabilities :=
        if gcdMemoryType = .memoryMappedIo then capabilities ||| efiMemoryRuntime ||| efiMemoryPortIo
        else capabilities ||| efiMemoryRuntime }
  | .addIo => { e with gcdIoType }
  | .freeMemory | .freeIo => { e with imageHandle := none, deviceHandle := none }
  | .removeMemory => { e with gcdMemoryType := .nonExistent, capabilities := 0 }
  | .removeIo => { e with gcdIoType := .nonExistent }
  | .setAttributesMemory => { e with attributes }
  | .allocateMemory | .allocateIo => e

/-- The CPU sets its attributes. -/
def setCpuAttributes (env : Environment) (operation : Operation) (baseAddress length : Nat)
    (attributes : UInt64) : EfiStatus :=
  if operation ≠ .setAttributesMemory then .success
  else
    match converToCpuArchAttributes attributes, env.cpuArch with
    | none, _ => .success
    | some _, none => .accessDenied
    | some cpuArchAttributes, some setMemoryAttributes => setMemoryAttributes baseAddress length cpuArchAttributes

def coreConvertSpace (env : Environment) (request : Nat) (operation : Operation) (gcdMemoryType : GcdMemoryType)
    (gcdIoType : GcdIoType) (baseAddress length : Nat) (capabilities attributes : UInt64) (map : List Entry) :
    Option (EfiStatus × List Entry) :=
  if length = 0 then some (.invalidParameter, map)
  else
    match coreSearchGcdMapEntry baseAddress length map with
    | none => some (.unsupported, map)
    | some found =>
      match firstError (checkEntry operation baseAddress length attributes) found.links with
      | .success =>
        if env.allocateGcdMapEntry request = false then some (.outOfResources, map)
        else
          match setCpuAttributes env operation baseAddress length attributes with
          | .success =>
            (convertFound (convertEntry operation gcdMemoryType gcdIoType capabilities attributes) baseAddress length
              found).map (.success, ·)
          | status => some (status, map)
      | status => some (status, map)

end Udk.Gcd
