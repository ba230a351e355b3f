import Udk.Variable.Format

/-! # The platform, the state of the driver and `UpdateVariableStore` -/

open Udk.Bytes

namespace Udk.Variable

/-- The PCDs and addresses that a platform fixes. The variable store lies in a firmware volume, and
both stores lie at 4-byte aligned addresses and have 4-byte aligned sizes. The scratch area lies behind
the volatile store. -/
structure Platform where
  pcdMaxVariableSize : Nat
  pcdMaxHardwareErrorVariableSize : Nat
  pcdHwErrStorageSize : Nat
  pcdVariableStoreSize : Nat
  volatileVariableBase : Nat
  nonVolatileVariableBase : Nat
  nonVolatileStoreSize : Nat
  fvBase : Nat
  fvLength : Nat
  /-- `NumBlocks` and `Length` of each entry, without the terminator. -/
  blockMap : List (Nat × Nat)
  /-- `EFI_FVB2_STICKY_WRITE`: a write can only clear bits. -/
  stickyWrite : Bool
  volatile_pos : 0 < volatileVariableBase
  volatile_aligned : volatileVariableBase % 4 = 0
  volatile_size : sizeofVariableStoreHeader ≤ pcdVariableStoreSize ∧ pcdVariableStoreSize % 4 = 0 ∧
    pcdVariableStoreSize + max pcdMaxVariableSize pcdMaxHardwareErrorVariableSize < 2 ^ 32
  nonVolatile_pos : 0 < nonVolatileVariableBase
  nonVolatile_aligned : nonVolatileVariableBase % 4 = 0
  nonVolatile_size : sizeofVariableStoreHeader + pcdHwErrStorageSize ≤ nonVolatileStoreSize ∧
    nonVolatileStoreSize % 4 = 0 ∧ pcdHwErrStorageSize % 4 = 0 ∧ nonVolatileStoreSize < 0xffffffff
  in_volume : fvBase ≤ nonVolatileVariableBase ∧
    nonVolatileVariableBase + nonVolatileStoreSize ≤ fvBase + fvLength
  volume_aligned : fvBase % 4 = 0 ∧ fvLength % 4 = 0
  blocks_cover : (blockMap.map fun e => e.1 * e.2).sum = fvLength
  disjoint : volatileVariableBase + pcdVariableStoreSize +
      max pcdMaxVariableSize pcdMaxHardwareErrorVariableSize ≤ fvBase ∨
    fvBase + fvLength ≤ volatileVariableBase
  addressable : fvBase + fvLength < maxAddress ∧ volatileVariableBase + pcdVariableStoreSize +
    max pcdMaxVariableSize pcdMaxHardwareErrorVariableSize < maxAddress

/-- `ScratchSize`. -/
def Platform.scratchSize (P : Platform) : Nat :=
  max P.pcdMaxVariableSize P.pcdMaxHardwareErrorVariableSize

/-- What the services that `Reclaim` calls answer, by the number of `Reclaim` calls before. The pool
also gets the size. -/
structure Environment where
  allocatePool : Nat → Nat → Bool
  ftwWrite : Nat → EfiStatus

/-- Every service succeeds. -/
def Environment.ideal : Environment := ⟨fun _ _ => true, fun _ => .success⟩

/-- `VARIABLE_CACHE_ENTRY`. -/
structure CacheEntry where
  guid : Guid
  name : Name
  attributes : Nat
  dataSize : Nat
  data : List UInt8

def langName : Name := ⟨Name.ofChars ['L', 'a', 'n', 'g'], Name.ofChars_nonzero (by decide)⟩
def platformLangName : Name :=
  ⟨Name.ofChars ['P', 'l', 'a', 't', 'f', 'o', 'r', 'm', 'L', 'a', 'n', 'g'], Name.ofChars_nonzero (by decide)⟩
def langCodesName : Name := ⟨Name.ofChars ['L', 'a', 'n', 'g', 'C', 'o', 'd', 'e', 's'], Name.ofChars_nonzero (by decide)⟩
def platformLangCodesName : Name :=
  ⟨Name.ofChars ['P', 'l', 'a', 't', 'f', 'o', 'r', 'm', 'L', 'a', 'n', 'g', 'C', 'o', 'd', 'e', 's'],
    Name.ofChars_nonzero (by decide)⟩

/-- `mVariableCache` as it is loaded. -/
def mVariableCache : List CacheEntry :=
  [⟨gEfiGlobalVariableGuid, langName, 0, 0, []⟩, ⟨gEfiGlobalVariableGuid, platformLangName, 0, 0, []⟩]

/-- The memory, `VARIABLE_MODULE_GLOBAL`, the cache and the phase. -/
structure State where
  mem : Memory
  /-- `EfiAtRuntime ()`. -/
  atRuntime : Bool
  volatileLastVariableOffset : Nat
  nonVolatileLastVariableOffset : Nat
  commonVariableTotalSize : Nat
  hwErrVariableTotalSize : Nat
  platformLangCodes : Option (List UInt8)
  langCodes : Option (List UInt8)
  reentrantState : Nat
  cache : List CacheEntry
  /-- The number of `Reclaim` calls so far. -/
  reclaims : Nat
  /-- The memory after each write to the flash, the last one first. -/
  flashTrace : List Memory

/-! ## Flash writes -/

/-- The length of each block of the volume. -/
def Platform.blockLengths (P : Platform) : List Nat := P.blockMap.flatMap fun e => List.replicate e.1 e.2

/-- `Fvb->Write` of a block that starts at `blockBase`. -/
def fvbWrite (P : Platform) (m : Memory) (blockBase offset : Nat) (bs : List UInt8) : Memory :=
  if P.stickyWrite then clearBits m (blockBase + offset) bs else write m (blockBase + offset) bs

/-- The loop of `UpdateVariableStore` over the blocks. The block at `linearOffset` is the next one. -/
def writeBlocks (P : Platform) : List Nat → Nat → Nat → List UInt8 → Memory → Memory
  | [], _, _, _, m => m
  | length :: rest, linearOffset, currWritePtr, bs, m =>
    if linearOffset ≤ currWritePtr ∧ currWritePtr < linearOffset + length then
      if currWritePtr + bs.length ≤ linearOffset + length then
        fvbWrite P m linearOffset (currWritePtr - linearOffset) bs
      else
        let size := linearOffset + length - currWritePtr
        writeBlocks P rest (linearOffset + length) (linearOffset + length) (bs.drop size)
          (fvbWrite P m linearOffset (currWritePtr - linearOffset) (bs.take size))
    else writeBlocks P rest (linearOffset + length) currWritePtr bs m

def updateVariableStore (P : Platform) (isVolatile setByIndex : Bool) (dataPtrIndex : Nat)
    (buffer : List UInt8) (s : State) : EfiStatus × State :=
  if isVolatile then
    let dataPtr := if setByIndex then dataPtrIndex + P.volatileVariableBase else dataPtrIndex
    if P.volatileVariableBase + storeSizeOf s.mem P.volatileVariableBase ≤ dataPtr + buffer.length then
      (.invalidParameter, s)
    else (.success, { s with mem := write s.mem dataPtr buffer })
  else
    let dataPtr := if setByIndex then dataPtrIndex + P.nonVolatileVariableBase else dataPtrIndex
    if P.fvBase + P.fvLength ≤ dataPtr + buffer.length then (.invalidParameter, s)
    else if dataPtr < P.fvBase then (.invalidParameter, s)
    else
      let m := writeBlocks P P.blockLengths P.fvBase dataPtr buffer s.mem
      (.success, { s with mem := m, flashTrace := m :: s.flashTrace })

end Udk.Variable
