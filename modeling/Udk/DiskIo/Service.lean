import Udk.Bytes

/-! # Disk I/O over a block device

`UINTN` and `UINT64` have 64 bits. The disk is the byte array of its blocks, one behind the other.
-/

namespace Udk.DiskIo

open Bytes

inductive EfiStatus
  | success
  | invalidParameter
  | badBufferSize
  | deviceError
  | writeProtected
  | outOfResources
  | noMedia
  | mediaChanged
  deriving DecidableEq

def uint32 (n : Nat) : Nat := n % 2 ^ 32
def uint64 (n : Nat) : Nat := n % 2 ^ 64

def dataBufferBlockNum : Nat := 64

/-- `EFI_BLOCK_IO_MEDIA`. -/
structure Media where
  mediaId : UInt32
  readOnly : Bool
  blockSize : Nat
  ioAlign : Nat
  lastBlock : Nat

/-- A block device may fail on its way: it has transferred some of the bytes. -/
structure Failure where
  status : EfiStatus
  failed : status ≠ .success
  transferred : Nat → Bool

/-- What lies outside of the driver: the media, `AllocatePool` and how each call of `BlockIo` ends. -/
structure World where
  media : Media
  allocatePool : Nat → Option Nat
  verdict : Nat → Option Failure

structure Request where
  mediaId : UInt32
  offset : Nat
  bufferSize : Nat
  buffer : Nat

structure State where
  memory : Memory
  disk : Memory
  /-- The number of calls of `BlockIo`. -/
  calls : Nat
  /-- The address and the length of each access to the memory. -/
  touched : List (Nat × Nat)
  /-- The pointers that `BlockIo` was given. -/
  passed : List Nat

/-! ## `BlockIo` -/

/-- `n` bytes of `source` come to `target`, or those of them that were transferred. -/
def transfer (transferred : Nat → Bool) (source : Memory) (a : Nat) (target : Memory) (b n : Nat) : Memory := fun i =>
  if b ≤ i ∧ i < b + n ∧ transferred (i - b) then source (a + (i - b)) else target i

/-- What `BlockIo` checks before it starts. -/
def checkBlocks (media : Media) (mediaId : UInt32) (lba bufferSize buffer : Nat) : EfiStatus :=
  if media.mediaId ≠ mediaId then .mediaChanged
  else if bufferSize % media.blockSize ≠ 0 then .badBufferSize
  else if media.lastBlock + 1 < lba + bufferSize / media.blockSize then .invalidParameter
  else if 1 < media.ioAlign ∧ buffer % media.ioAlign ≠ 0 then .invalidParameter
  else .success

/-- `BlockIo->ReadBlocks`. -/
def readBlocks (w : World) (mediaId : UInt32) (lba bufferSize buffer : Nat) (s : State) : EfiStatus × State :=
  let s := { s with calls := s.calls + 1, passed := buffer :: s.passed }
  let status := checkBlocks w.media mediaId lba bufferSize buffer
  if status ≠ .success then (status, s)
  else
    let s := { s with touched := (buffer, bufferSize) :: s.touched }
    match w.verdict s.calls with
    | none => (.success, { s with memory := write s.memory buffer (read s.disk (lba * w.media.blockSize) bufferSize) })
    | some failure =>
      (failure.status,
        { s with memory := transfer failure.transferred s.disk (lba * w.media.blockSize) s.memory buffer bufferSize })

/-- `BlockIo->WriteBlocks`. -/
def writeBlocks (w : World) (mediaId : UInt32) (lba bufferSize buffer : Nat) (s : State) : EfiStatus × State :=
  let s := { s with calls := s.calls + 1, passed := buffer :: s.passed }
  let status := checkBlocks w.media mediaId lba bufferSize buffer
  if status ≠ .success then (status, s)
  else
    let s := { s with touched := (buffer, bufferSize) :: s.touched }
    match w.verdict s.calls with
    | none => (.success, { s with disk := write s.disk (lba * w.media.blockSize) (read s.memory buffer bufferSize) })
    | some failure =>
      (failure.status,
        { s with disk := transfer failure.transferred s.memory buffer s.disk (lba * w.media.blockSize) bufferSize })

def copyMem (destination source length : Nat) (s : State) : State :=
  { s with
    memory := write s.memory destination (read s.memory source length)
    touched := (destination, length) :: (source, length) :: s.touched }

/-! ## The bounce buffer -/

/-- The product has 32 bits. -/
def dataBufferSize (media : Media) : Nat := uint32 (media.blockSize * dataBufferBlockNum)

/-- How much `AllocatePool` is asked for. -/
def poolSize (media : Media) : Nat :=
  if media.ioAlign > 1 then dataBufferSize media + media.ioAlign else dataBufferSize media

def dataOf (media : Media) (preData : Nat) : Nat :=
  if media.ioAlign > 1 then preData - (preData &&& (media.ioAlign - 1)) + media.ioAlign else preData

/-! ## The parts of a request

The two routines take a request apart in the same way and differ in what they do with each part.
-/

structure Parts where
  /-- A part of one block: `lba`, where the part starts in the block, `WorkingBuffer` and the length. -/
  partOf : Nat → Nat → Nat → Nat → State → EfiStatus × State
  /-- Whole blocks: `lba`, `WorkingBuffer` and the size. -/
  direct : Nat → Nat → Nat → State → EfiStatus × State
  /-- Whole blocks, through the bounce buffer. -/
  bounced : Nat → Nat → Nat → State → EfiStatus × State

def readParts (w : World) (mediaId : UInt32) (data : Nat) : Parts where
  partOf lba underRun workingBuffer length s :=
    match readBlocks w mediaId lba w.media.blockSize data s with
    | (.success, s) => (.success, copyMem workingBuffer (data + underRun) length s)
    | failed => failed
  direct lba workingBuffer size s := readBlocks w mediaId lba size workingBuffer s
  bounced lba workingBuffer size s :=
    match readBlocks w mediaId lba size data s with
    | (.success, s) => (.success, copyMem workingBuffer data size s)
    | failed => failed

def writeParts (w : World) (mediaId : UInt32) (data : Nat) : Parts where
  partOf lba underRun workingBuffer length s :=
    match readBlocks w mediaId lba w.media.blockSize data s with
    | (.success, s) =>
      writeBlocks w mediaId lba w.media.blockSize data (copyMem (data + underRun) workingBuffer length s)
    | failed => failed
  direct lba workingBuffer size s := writeBlocks w mediaId lba size workingBuffer s
  bounced lba workingBuffer size s := writeBlocks w mediaId lba size data (copyMem data workingBuffer size s)

/-- The loop over the whole blocks of a buffer that is not aligned, with fuel for so many passes. -/
def bouncedLoop (parts : Parts) (dataBufferSize : Nat) :
    Nat → Nat → Nat → Nat → State → Option (EfiStatus × State)
  | 0, _, _, _, _ => none
  | fuel + 1, lba, workingBuffer, workingBufferSize, s =>
    if workingBufferSize ≤ dataBufferSize then some (parts.bounced lba workingBuffer workingBufferSize s)
    else
      match parts.bounced lba workingBuffer dataBufferSize s with
      | (.success, s) =>
        bouncedLoop parts dataBufferSize fuel (uint64 (lba + dataBufferBlockNum)) (workingBuffer + dataBufferSize)
          (workingBufferSize - dataBufferSize) s
      | failed => some failed

/-- The whole blocks of the request. -/
def wholeBlocks (media : Media) (parts : Parts) (fuel lba workingBuffer workingBufferSize : Nat) (s : State) :
    Option (EfiStatus × State) :=
  if media.ioAlign ≤ 1 ∨ workingBuffer &&& (media.ioAlign - 1) = 0 then
    some (parts.direct lba workingBuffer workingBufferSize s)
  else bouncedLoop parts (dataBufferSize media) fuel lba workingBuffer workingBufferSize s

/-- What follows once the first block is complete. -/
def afterUnderRun (media : Media) (parts : Parts) (fuel lba workingBuffer workingBufferSize : Nat) (s : State) :
    Option (EfiStatus × State) :=
  let overRun := workingBufferSize % media.blockSize
  let overRunLba := uint64 (lba + workingBufferSize / media.blockSize)
  let size := workingBufferSize - overRun
  let whole :=
    if media.blockSize ≤ workingBufferSize then wholeBlocks media parts fuel lba workingBuffer size s
    else some (.success, s)
  match whole with
  | some (.success, s) =>
    if overRun = 0 then some (.success, s)
    else some (parts.partOf overRunLba 0 (workingBuffer + size) overRun s)
  | other => other

/-- `UnderRun`, the whole blocks and `OverRun`. `TransactionComplete` is only set where nothing is left to do. -/
def takeApart (media : Media) (parts : Parts) (fuel : Nat) (r : Request) (s : State) : Option (EfiStatus × State) :=
  let lba := r.offset / media.blockSize
  let underRun := r.offset % media.blockSize
  if underRun = 0 then afterUnderRun media parts fuel lba r.buffer r.bufferSize s
  else
    let length := min (media.blockSize - underRun) r.bufferSize
    match parts.partOf lba underRun r.buffer length s with
    | (.success, s) =>
      if r.bufferSize - length = 0 then some (.success, s)
      else afterUnderRun media parts fuel (uint64 (lba + 1)) (r.buffer + length) (r.bufferSize - length) s
    | failed => some failed

def diskIoReadDisk (w : World) (fuel : Nat) (r : Request) (s : State) : Option (EfiStatus × State) :=
  if w.media.mediaId ≠ r.mediaId then some (.mediaChanged, s)
  else
    match w.allocatePool (poolSize w.media) with
    | none => some (.outOfResources, s)
    | some preData => takeApart w.media (readParts w r.mediaId (dataOf w.media preData)) fuel r s

def diskIoWriteDisk (w : World) (fuel : Nat) (r : Request) (s : State) : Option (EfiStatus × State) :=
  if w.media.readOnly then some (.writeProtected, s)
  else if w.media.mediaId ≠ r.mediaId then some (.mediaChanged, s)
  else
    match w.allocatePool (poolSize w.media) with
    | none => some (.outOfResources, s)
    | some preData => takeApart w.media (writeParts w r.mediaId (dataOf w.media preData)) fuel r s

end Udk.DiskIo
