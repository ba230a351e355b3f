import Udk.Bytes

/-! # The variable store format (`Guid/VariableFormat.h`) and the header accessors of the driver -/

open Udk.Bytes

namespace Udk.Variable

inductive EfiStatus
  | success | invalidParameter | unsupported | bufferTooSmall | deviceError | writeProtected
  | outOfResources | volumeCorrupted | notFound | aborted
  deriving DecidableEq, Repr

/-- `EFI_ERROR (Status)`. -/
def EfiStatus.isError (st : EfiStatus) : Bool := st != .success

/-! ## Names and GUIDs -/

structure Guid where
  bytes : List UInt8
  length_eq : bytes.length = 16
  deriving DecidableEq

/-- A null-terminated CHAR16 string, without the terminator. -/
structure Name where
  chars : List UInt16
  nonzero : ∀ c ∈ chars, c ≠ 0
  deriving DecidableEq

def charBytes (c : UInt16) : List UInt8 := toLE 2 c.toNat

/-- The string as it lies in memory, with the terminator. -/
def Name.bytes (n : Name) : List UInt8 := n.chars.flatMap charBytes ++ [0, 0]

/-- `StrSize`. -/
def strSize (n : Name) : Nat := 2 * (n.chars.length + 1)

def Name.ofChars (l : List Char) : List UInt16 := l.map fun c => UInt16.ofNat c.toNat

theorem Name.ofChars_nonzero {l : List Char} (h : (ofChars l).all (· != 0) = true) : ∀ c ∈ ofChars l, c ≠ 0 :=
  fun c hc => by simpa using List.all_eq_true.mp h c hc

/-- The string that starts with the bytes `bs`, up to its first null character. -/
def charsOf : List UInt8 → List UInt16
  | a :: b :: rest =>
    let c := UInt16.ofNat (fromLE [a, b])
    if c = 0 then [] else c :: charsOf rest
  | _ => []

theorem charsOf_nonzero (bs : List UInt8) : ∀ c ∈ charsOf bs, c ≠ 0 := by
  induction bs using charsOf.induct with
  | case1 a b rest c h => simp [charsOf, c, h]
  | case2 a b rest c h ih =>
    intro x hx
    simp only [charsOf] at hx
    rw [if_neg h, List.mem_cons] at hx
    rcases hx with rfl | hx
    · exact h
    · exact ih x hx
  | case3 bs h =>
    rw [charsOf.eq_2 bs (fun a b rest => h a b rest)]
    simp

def Name.ofBytes (bs : List UInt8) : Name := ⟨charsOf bs, charsOf_nonzero bs⟩

/-- `gEfiVariableGuid`. -/
def gEfiVariableGuid : Guid :=
  ⟨[0x16, 0x36, 0xcf, 0xdd, 0x75, 0x32, 0x64, 0x41, 0x98, 0xb6, 0xfe, 0x85, 0x70, 0x7f, 0xfe, 0x7d], rfl⟩

/-- `gEfiGlobalVariableGuid`. -/
def gEfiGlobalVariableGuid : Guid :=
  ⟨[0x61, 0xdf, 0xe4, 0x8b, 0xca, 0x93, 0xd2, 0x11, 0xaa, 0x0d, 0x00, 0xe0, 0x98, 0x03, 0x2b, 0x8c], rfl⟩

/-! ## Constants -/

def variableData : Nat := 0x55AA
def varInDeletedTransition : UInt8 := 0xfe
def varDeleted : UInt8 := 0xfd
def varHeaderValidOnly : UInt8 := 0x7f
def varAdded : UInt8 := 0x3f

def variableStoreFormatted : UInt8 := 0x5a
def variableStoreHealthy : UInt8 := 0xfe

def efiVariableNonVolatile : Nat := 0x1
def efiVariableBootserviceAccess : Nat := 0x2
def efiVariableRuntimeAccess : Nat := 0x4
def efiVariableHardwareErrorRecord : Nat := 0x8
def efiVariableAuthenticatedWriteAccess : Nat := 0x10

/-- `sizeof (VARIABLE_HEADER)`. -/
def sizeofVariableHeader : Nat := 32

/-- `sizeof (VARIABLE_STORE_HEADER)`. -/
def sizeofVariableStoreHeader : Nat := 28

/-- `HEADER_ALIGN`, with `HEADER_ALIGNMENT` 4. -/
def headerAlign (n : Nat) : Nat := (n + 3) / 4 * 4

/-- `GET_PAD_SIZE`: `ALIGNMENT` is 1 on X64. -/
def getPadSize (_ : Nat) : Nat := 0

/-! ## Fields of a header in memory -/

section
variable (m : Memory) (p : Nat)

def startIdOf : Nat := readLE m p 2
def stateOf : UInt8 := m (p + 2)
def attributesOf : Nat := readLE m (p + 4) 4
def nameSizeField : Nat := readLE m (p + 8) 4
def dataSizeField : Nat := readLE m (p + 12) 4
def vendorGuidOf : List UInt8 := read m (p + 16) 16

def isValidVariableHeader : Bool := p != 0 && startIdOf m p == variableData

/-- The sizes count only when no field they depend on is still erased. -/
def sizesErased : Bool :=
  stateOf m p == 0xff || dataSizeField m p == 0xffffffff || nameSizeField m p == 0xffffffff ||
    attributesOf m p == 0xffffffff

def nameSizeOfVariable : Nat := if sizesErased m p then 0 else nameSizeField m p

def dataSizeOfVariable : Nat := if sizesErased m p then 0 else dataSizeField m p

def getVariableNamePtr : Nat := p + sizeofVariableHeader

def getVariableDataPtr : Nat :=
  getVariableNamePtr p + nameSizeOfVariable m p + getPadSize (nameSizeOfVariable m p)

/-- NULL is 0. -/
def getNextVariablePtr : Nat :=
  if isValidVariableHeader m p then
    headerAlign (getVariableDataPtr m p + dataSizeOfVariable m p + getPadSize (dataSizeOfVariable m p))
  else 0

/-- The bytes of the name that the header at `p` says it has. -/
def nameOf : List UInt8 := read m (getVariableNamePtr p) (nameSizeOfVariable m p)

def dataOf : List UInt8 := read m (getVariableDataPtr m p) (dataSizeOfVariable m p)

/-- `VAR_ADDED`, or `VAR_ADDED` in delete transition: the copies that a lookup takes. -/
def isAdded : Bool := stateOf m p == varAdded
def isInDeletedTransition : Bool := stateOf m p == (varInDeletedTransition &&& varAdded)

end

/-! ## Fields of a store header -/

section
variable (m : Memory) (base : Nat)

def storeSizeOf : Nat := readLE m (base + 16) 4

def getStartPointer : Nat := headerAlign (base + sizeofVariableStoreHeader)

def getEndPointer : Nat := headerAlign (base + storeSizeOf m base)

end

inductive VariableStoreStatus
  | efiRaw | efiValid | efiInvalid
  deriving DecidableEq, Repr

def getVariableStoreStatus (m : Memory) (base : Nat) : VariableStoreStatus :=
  if read m base 16 = gEfiVariableGuid.bytes ∧ m (base + 20) = variableStoreFormatted ∧
      m (base + 21) = variableStoreHealthy then .efiValid
  else if readLE m base 4 = 0xffffffff ∧ readLE m (base + 4) 4 = 0xffffffff ∧
      readLE m (base + 8) 4 = 0xffffffff ∧ readLE m (base + 12) 4 = 0xffffffff ∧
      storeSizeOf m base = 0xffffffff ∧ m (base + 20) = 0xff ∧ m (base + 21) = 0xff then .efiRaw
  else .efiInvalid

/-! ## Walking a store -/

/-- The size of the address space. No walk goes past it. -/
def maxAddress : Nat := 2 ^ 64

/-- The headers that `while (p < endPtr && IsValidVariableHeader (p))` visits, with
`p = GetNextVariablePtr (p)` at the end of each turn. -/
def walk (m : Memory) (endPtr : Nat) : Nat → Nat → List Nat
  | 0, _ => []
  | fuel + 1, p =>
    if p < endPtr ∧ isValidVariableHeader m p then p :: walk m endPtr fuel (getNextVariablePtr m p) else []

/-- Where that loop leaves `p`. -/
def walkEnd (m : Memory) (endPtr : Nat) : Nat → Nat → Nat
  | 0, p => p
  | fuel + 1, p =>
    if p < endPtr ∧ isValidVariableHeader m p then walkEnd m endPtr fuel (getNextVariablePtr m p) else p

/-- The walk that stops at the end pointer of the store. -/
def storeHeaders (m : Memory) (base : Nat) : List Nat :=
  walk m (getEndPointer m base) maxAddress (getStartPointer base)

/-- The walk of the loops that test only `IsValidVariableHeader`. -/
def allHeaders (m : Memory) (base : Nat) : List Nat :=
  walk m maxAddress maxAddress (getStartPointer base)

end Udk.Variable
