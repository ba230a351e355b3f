import Udk.Bytes

/-! # The relocation of PE/COFF images

Addresses are numbers; sums of 32 bit fields and the adjustments wrap as in the source. Loops take fuel for so many
passes, and `none` is a run that needs more, or an `ASSERT` that fails.
-/

namespace Udk.PeCoff

open Bytes

def uint32 (n : Nat) : Nat := n % 2 ^ 32
def uint64 (n : Nat) : Nat := n % 2 ^ 64

inductive ReturnStatus
  | success
  | loadError
  | unsupported
  deriving DecidableEq

inductive ImageError
  | success
  | invalidImageAddress
  | failedRelocation
  deriving DecidableEq

/-- `PE_COFF_LOADER_IMAGE_CONTEXT`. -/
structure ImageContext where
  imageAddress : Nat
  destinationAddress : Nat
  imageSize : Nat
  peCoffHeaderOffset : Nat
  entryPoint : Nat
  isTeImage : Bool
  relocationsStripped : Bool
  fixupData : Option Nat
  imageError : ImageError

/-! ## Headers -/

def imageDosSignature : Nat := 0x5A4D
def imageNtSignature : Nat := 0x00004550
def imageNtOptionalHdr32Magic : Nat := 0x10b
def imageNtOptionalHdr64Magic : Nat := 0x20b
def imageFileMachineIa64 : Nat := 0x0200
def imageDirectoryEntryBaseReloc : Nat := 5
def sizeofTeImageHeader : Nat := 40

/-- `PeCoffLoaderGetPeHeaderMagicValue`. -/
def magicValue (m : Memory) (hdr : Nat) : Nat :=
  if readLE m (hdr + 4) 2 = imageFileMachineIa64 ∧ readLE m (hdr + 24) 2 = imageNtOptionalHdr32Magic then
    imageNtOptionalHdr64Magic
  else readLE m (hdr + 24) 2

/-- Where the fields of an optional header are, from the NT header on. -/
structure Layout where
  imageBase : Nat
  imageBaseWidth : Nat
  numberOfRvaAndSizes : Nat
  baseRelocDirectory : Nat

def pe32Layout : Layout := ⟨52, 4, 116, 160⟩
def pe32PlusLayout : Layout := ⟨48, 8, 132, 176⟩

def layoutOf (m : Memory) (hdr : Nat) : Layout :=
  if magicValue m hdr = imageNtOptionalHdr32Magic then pe32Layout else pe32PlusLayout

/-! ## Fixups -/

def alignPointer (p n : Nat) : Nat := (p + (n - 1)) / n * n

structure Fixing where
  memory : Memory
  fixupData : Option Nat

/-- A value is stored, and logged when there is a log. -/
def applyFixup (width alignment fixup value : Nat) (st : Fixing) : Fixing :=
  let memory := write st.memory fixup (toLE width value)
  match st.fixupData with
  | none => ⟨memory, none⟩
  | some fixupData =>
    let fixupData := alignPointer fixupData alignment
    ⟨write memory fixupData (read memory fixup width), some (fixupData + width)⟩

/-- One record. `PeCoffLoaderRelocateImageEx` supports no other type. -/
def relocateRecord (adjust fixupBase reloc : Nat) (st : Fixing) : Option Fixing :=
  let fixup := fixupBase + reloc % 2 ^ 12
  match reloc / 2 ^ 12 with
  | 0 => some st
  | 1 => some (applyFixup 2 1 fixup (readLE st.memory fixup 2 + uint32 adjust / 2 ^ 16) st)
  | 2 => some (applyFixup 2 1 fixup (readLE st.memory fixup 2 + adjust) st)
  | 3 => some (applyFixup 4 4 fixup (readLE st.memory fixup 4 + adjust) st)
  | 10 => some (applyFixup 8 8 fixup (readLE st.memory fixup 8 + adjust) st)
  | _ => none

/-- The records of one block. -/
def relocateRecords (adjust fixupBase relocEnd : Nat) : Nat → Nat → Fixing → Option (Except Unit Fixing)
  | 0, _, _ => none
  | fuel + 1, reloc, st =>
    if reloc < relocEnd then
      match relocateRecord adjust fixupBase (readLE st.memory reloc 2) st with
      | none => some (.error ())
      | some st => relocateRecords adjust fixupBase relocEnd fuel (reloc + 2) st
    else some (.ok st)

/-- How the loop over the blocks ends. -/
inductive BlocksResult
  | relocated (st : Fixing)
  | failed (status : ReturnStatus) (error : ImageError) (st : Fixing)

/-- `FixupBase`, unless the address is outside of the image. -/
def fixupBaseOf (ctx : ImageContext) (strippedSize virtualAddress : Nat) : Option Nat :=
  if ctx.isTeImage then some (ctx.imageAddress + virtualAddress + sizeofTeImageHeader - strippedSize)
  else if virtualAddress ≥ ctx.imageSize then none
  else some (ctx.imageAddress + virtualAddress)

def relocateBlocks (ctx : ImageContext) (strippedSize adjust relocBaseEnd : Nat) :
    Nat → Nat → Fixing → Option BlocksResult
  | 0, _, _ => none
  | fuel + 1, relocBase, st =>
    if relocBase < relocBaseEnd then
      let relocEnd := relocBase + readLE st.memory (relocBase + 4) 4
      if relocEnd < ctx.imageAddress ∨ relocEnd > ctx.imageAddress + ctx.imageSize then
        some (.failed .loadError .failedRelocation st)
      else
        match fixupBaseOf ctx strippedSize (readLE st.memory relocBase 4) with
        | none => some (.failed .loadError .invalidImageAddress st)
        | some fixupBase =>
          match relocateRecords adjust fixupBase relocEnd fuel (relocBase + 8) st with
          | none => none
          | some (.error ()) => some (.failed .unsupported .failedRelocation st)
          | some (.ok st) => relocateBlocks ctx strippedSize adjust relocBaseEnd fuel relocEnd st
    else some (.relocated st)

/-! ## `PeCoffLoaderRelocateImage` -/

/-- `Adjust`, `RelocBase`, `RelocBaseEnd` and the memory with the new `ImageBase`. -/
structure Prepared where
  memory : Memory
  adjust : Nat
  strippedSize : Nat
  relocBase : Nat
  relocBaseEnd : Nat

/-- The new `ImageBase` is stored if it differs. -/
def storeImageBase (adjust address width value : Nat) (m : Memory) : Memory :=
  if adjust ≠ 0 then write m address (toLE width value) else m

/-- With an invalid directory the new `ImageBase` is stored all the same. -/
def preparePe (ctx : ImageContext) (baseAddress : Nat) (m : Memory) : Except Memory Prepared :=
  let hdr := ctx.imageAddress + ctx.peCoffHeaderOffset
  let layout := layoutOf m hdr
  let adjust := uint64 (baseAddress + 2 ^ 64 - readLE m (hdr + layout.imageBase) layout.imageBaseWidth)
  let m := storeImageBase adjust (hdr + layout.imageBase) layout.imageBaseWidth baseAddress m
  let virtualAddress := readLE m (hdr + layout.baseRelocDirectory) 4
  let size := readLE m (hdr + layout.baseRelocDirectory + 4) 4
  if readLE m (hdr + layout.numberOfRvaAndSizes) 4 > imageDirectoryEntryBaseReloc ∧ size > 0 then
    let last := uint32 (virtualAddress + size + 2 ^ 32 - 1)
    if virtualAddress ≥ ctx.imageSize ∨ last ≥ ctx.imageSize then .error m
    else .ok ⟨m, adjust, 0, ctx.imageAddress + virtualAddress, ctx.imageAddress + last⟩
  else .ok ⟨m, adjust, 0, 0, 0⟩

def prepareTe (ctx : ImageContext) (baseAddress : Nat) (m : Memory) : Prepared :=
  let hdr := ctx.imageAddress
  let strippedSize := readLE m (hdr + 6) 2
  let linked := uint64 (baseAddress + sizeofTeImageHeader + 2 ^ 64 - strippedSize)
  let adjust := uint64 (linked + 2 ^ 64 - readLE m (hdr + 16) 8)
  let m := storeImageBase adjust (hdr + 16) 8 linked m
  let size := readLE m (hdr + 28) 4
  if size > 0 then
    let relocBase := hdr + readLE m (hdr + 24) 4 + sizeofTeImageHeader - strippedSize
    ⟨m, adjust, strippedSize, relocBase, relocBase + size - 1⟩
  else ⟨m, adjust, strippedSize, 0, 0⟩

/-- The address that the image is relocated for. -/
def ImageContext.baseAddress (ctx : ImageContext) : Nat :=
  if ctx.destinationAddress ≠ 0 then ctx.destinationAddress else ctx.imageAddress

/-- The entry point in the image at its destination. -/
def ImageContext.moveEntryPoint (ctx : ImageContext) : ImageContext :=
  if ctx.destinationAddress ≠ 0 then
    { ctx with entryPoint := uint64 (ctx.entryPoint + 2 ^ 64 - ctx.imageAddress + ctx.destinationAddress) }
  else ctx

def relocatePrepared (fuel : Nat) (ctx : ImageContext) (p : Prepared) : Option (ReturnStatus × ImageContext × Memory) :=
  if p.adjust ≠ 0 then
    match relocateBlocks ctx p.strippedSize p.adjust p.relocBaseEnd fuel p.relocBase ⟨p.memory, ctx.fixupData⟩ with
    | none => none
    | some (.failed status imageError st) => some (status, { ctx with imageError }, st.memory)
    | some (.relocated st) => some (.success, ctx.moveEntryPoint, st.memory)
  else some (.success, ctx, p.memory)

/-- What follows once `BaseAddress` is known. -/
def relocateImageFor (fuel : Nat) (ctx : ImageContext) (baseAddress : Nat) (m : Memory) :
    Option (ReturnStatus × ImageContext × Memory) :=
  if ctx.isTeImage then relocatePrepared fuel ctx (prepareTe ctx baseAddress m)
  else
    match preparePe ctx baseAddress m with
    | .error m => some (.loadError, { ctx with imageError := .invalidImageAddress }, m)
    | .ok p => relocatePrepared fuel ctx p

def peCoffLoaderRelocateImage (fuel : Nat) (ctx : ImageContext) (m : Memory) :
    Option (ReturnStatus × ImageContext × Memory) :=
  let ctx := { ctx with imageError := .success }
  if ctx.relocationsStripped then some (.success, ctx, m) else relocateImageFor fuel ctx ctx.baseAddress m

/-- What `PeCoffLoaderLoadImage` sets `FixupDataSize` to, for an image that is no TE image. `UINTN` has 64 bits. -/
def fixupDataSize (m : Memory) (hdr : Nat) : Nat :=
  let layout := layoutOf m hdr
  if readLE m (hdr + layout.numberOfRvaAndSizes) 4 > imageDirectoryEntryBaseReloc then
    readLE m (hdr + layout.baseRelocDirectory + 4) 4 / 2 * 8
  else 0

/-! ## `PeCoffLoaderRelocateImageForRuntime` -/

structure Reapplying where
  memory : Memory
  fixupData : Nat

/-- A value that is still the one in the log is moved on. -/
def reapplyFixup (width alignment fixup delta : Nat) (st : Reapplying) : Reapplying :=
  let fixupData := alignPointer st.fixupData alignment
  let memory :=
    if readLE st.memory fixupData width = readLE st.memory fixup width then
      write st.memory fixup (toLE width (readLE st.memory fixup width + delta))
    else st.memory
  ⟨memory, fixupData + width⟩

/-- What one record leads to: type 4 is an `ASSERT`, and `PeHotRelocateImageEx` supports no other type. -/
inductive RecordResult
  | asserted
  | stopped
  | done (st : Reapplying)

def reapplyRecord (adjust fixupBase reloc : Nat) (st : Reapplying) : RecordResult :=
  let fixup := fixupBase + reloc % 2 ^ 12
  match reloc / 2 ^ 12 with
  | 0 => .done st
  | 1 => .done (reapplyFixup 2 1 fixup (uint32 adjust / 2 ^ 16) st)
  | 2 => .done (reapplyFixup 2 1 fixup adjust st)
  | 3 => .done (reapplyFixup 4 4 fixup adjust st)
  | 4 => .asserted
  | 10 => .done (reapplyFixup 8 8 fixup adjust st)
  | _ => .stopped

/-- The records of one block. An error stands for a return from the routine. -/
def reapplyRecords (adjust fixupBase relocEnd : Nat) : Nat → Nat → Reapplying → Option (Except Memory Reapplying)
  | 0, _, _ => none
  | fuel + 1, reloc, st =>
    if reloc < relocEnd then
      match reapplyRecord adjust fixupBase (readLE st.memory reloc 2) st with
      | .asserted => none
      | .stopped => some (.error st.memory)
      | .done st => reapplyRecords adjust fixupBase relocEnd fuel (reloc + 2) st
    else some (.ok st)

def reapplyBlocks (imageBase adjust relocBaseEnd : Nat) : Nat → Nat → Reapplying → Option Memory
  | 0, _, _ => none
  | fuel + 1, relocBase, st =>
    if relocBase < relocBaseEnd then
      let relocEnd := relocBase + readLE st.memory (relocBase + 4) 4
      match reapplyRecords adjust (imageBase + readLE st.memory relocBase 4) relocEnd fuel (relocBase + 8) st with
      | none => none
      | some (.error m) => some m
      | some (.ok st) => reapplyBlocks imageBase adjust relocBaseEnd fuel relocEnd st
    else some st.memory

/-- The offset of the NT header. -/
def ntHeaderOffset (m : Memory) (imageBase : Nat) : Nat :=
  if readLE m imageBase 2 = imageDosSignature then readLE m (imageBase + 60) 4 else 0

def peCoffLoaderRelocateImageForRuntime (fuel imageBase virtImageBase relocationData : Nat) (m : Memory) :
    Option Memory :=
  let adjust := uint64 (virtImageBase + 2 ^ 64 - imageBase)
  let hdr := imageBase + ntHeaderOffset m imageBase
  if readLE m hdr 4 ≠ imageNtSignature then some m
  else
    let layout := layoutOf m hdr
    if readLE m (hdr + layout.numberOfRvaAndSizes) 4 > imageDirectoryEntryBaseReloc then
      let relocBase := imageBase + readLE m (hdr + layout.baseRelocDirectory) 4
      let relocBaseEnd := relocBase + readLE m (hdr + layout.baseRelocDirectory + 4) 4
      if relocBase = 0 ∨ relocBaseEnd = 0 then none
      else reapplyBlocks imageBase adjust relocBaseEnd fuel relocBase ⟨m, relocationData⟩
    else none

end Udk.PeCoff
