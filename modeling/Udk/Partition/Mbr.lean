import Udk.Bytes
import Udk.Orbit
import Udk.Partition.Child

/-! # Master boot records

The first block of the parent is at offset 0 of `disk`. A handle whose last device path node is that of a hard drive is
taken for an extended partition.
-/

namespace Udk.Partition

open Bytes Orbit
open DiskIo (EfiStatus)

/-! ## The record -/

/-- `MBR_PARTITION_RECORD`. -/
structure PartitionRecord where
  osIndicator : UInt8
  startingLba : UInt32
  sizeInLba : UInt32

def partitionRecord (mbr : Memory) (index : Nat) : PartitionRecord where
  osIndicator := mbr (446 + 16 * index + 4)
  startingLba := .ofNat (readLE mbr (446 + 16 * index + 8) 4)
  sizeInLba := .ofNat (readLE mbr (446 + 16 * index + 12) 4)

def mbrSignature : Nat := 0xaa55
def mbrSize : Nat := 512
def maxMbrPartitions : Nat := 4
def pmbrGptPartition : UInt8 := 0xee
def efiPartition : UInt8 := 0xef
def extendedDosPartition : UInt8 := 0x05
def extendedWindowsPartition : UInt8 := 0x0f

/-- Null MBR entries are not used. -/
def PartitionRecord.null (r : PartitionRecord) : Bool := r.osIndicator = 0x00 || r.sizeInLba = 0

def PartitionRecord.extended (r : PartitionRecord) : Bool :=
  r.osIndicator = extendedDosPartition || r.osIndicator = extendedWindowsPartition

/-- `EndingLBA`, in 32 bits. -/
def PartitionRecord.endingLba (r : PartitionRecord) : UInt32 := r.startingLba + r.sizeInLba - 1

/-! ## `PartitionValidMbr` -/

def overlaps (r₁ r₂ : PartitionRecord) : Bool :=
  r₂.endingLba ≥ r₁.startingLba && r₂.startingLba ≤ r₁.endingLba

/-- The loop over `Index1`, with `MbrValid`. -/
def validRecords (mbr : Memory) (lastLba : Nat) : List Nat → Bool → Bool
  | [], mbrValid => mbrValid
  | index1 :: rest, mbrValid =>
    let r := partitionRecord mbr index1
    if r.null then validRecords mbr lastLba rest mbrValid
    else if r.endingLba.toNat > lastLba then false
    else if rest.any fun index2 => !(partitionRecord mbr index2).null && overlaps r (partitionRecord mbr index2) then
      false
    else validRecords mbr lastLba rest true

def partitionValidMbr (mbr : Memory) (lastLba : Nat) : Bool :=
  if readLE mbr 510 2 ≠ mbrSignature then false else validRecords mbr lastLba (List.range maxMbrPartitions) false

/-! ## Installing children -/

structure MbrWorld where
  parent : Parent Unit
  allocatePool : Bool
  disk : Memory
  /-- Of a block at an offset. -/
  readDisk : Nat → EfiStatus
  /-- For the child with a partition number. -/
  services : UInt32 → Services

/-- The fields of `HARDDRIVE_DEVICE_PATH` that are set, and the rest that `PartitionInstallChildHandle` is given. -/
structure MbrChild where
  partitionNumber : UInt32
  partitionStart : UInt64
  partitionSize : UInt64
  signature : List UInt8
  startLba : UInt64
  endLba : UInt64
  installEspGuid : Bool

inductive MbrStatus
  | notFound
  | readDisk (status : EfiStatus)
  | success
  deriving DecidableEq

/-- `Found`, and the children whose handles there are. -/
structure MbrResult where
  found : MbrStatus
  children : List MbrChild

/-- No result is the `ASSERT` of a division by 0. -/
def installChild (w : MbrWorld) (c : MbrChild) (result : MbrResult) : Option MbrResult :=
  (partitionInstallChildHandle (w.services c.partitionNumber) w.parent c.startLba.toNat c.endLba.toNat mbrSize
      c.installEspGuid).map fun (status, child) =>
    ⟨if status = .success then .success else result.found,
      if child.isSome then result.children ++ [c] else result.children⟩

def primaryChild (mbr : Memory) (number : UInt32) (r : PartitionRecord) : MbrChild where
  partitionNumber := number
  partitionStart := r.startingLba.toUInt64
  partitionSize := r.sizeInLba.toUInt64
  signature := read mbr 440 4
  startLba := r.startingLba.toUInt64
  endLba := r.startingLba.toUInt64 + r.sizeInLba.toUInt64 - 1
  installEspGuid := r.osIndicator = efiPartition

/-- The loop over the entries of an MBR. -/
def installPrimary (w : MbrWorld) (mbr : Memory) : List Nat → UInt32 → MbrResult → Option MbrResult
  | [], _, result => some result
  | index :: rest, number, result =>
    let r := partitionRecord mbr index
    if r.null then installPrimary w mbr rest number result
    else if r.osIndicator = pmbrGptPartition then installPrimary w mbr rest number result
    else (installChild w (primaryChild mbr number r) result).bind (installPrimary w mbr rest (number + 1))

/-- What the loop needs of a device path node. -/
structure DevicePathNode where
  type : UInt8
  subType : UInt8
  partitionStart : UInt64
  partitionSize : UInt64

def mediaDevicePath : UInt8 := 0x04
def mediaHarddriveDp : UInt8 := 0x01

/-- `ParentHdDev`, if the last node is that of a hard drive. -/
def parentHdDev (devicePath : List DevicePathNode) : Option DevicePathNode :=
  devicePath.getLast?.filter fun node => node.type = mediaDevicePath && node.subType = mediaHarddriveDp

/-- What a round of the chain does with the boot record that it has read. -/
inductive Round
  | stop
  | chain (lba : UInt32)
  | child (c : MbrChild) (after : Option UInt32)

def logicalChild (hd : DevicePathNode) (lba number : UInt32) (r : PartitionRecord) : MbrChild :=
  let partitionStart := (r.startingLba + lba).toUInt64 + hd.partitionStart
  let partitionSize := r.sizeInLba.toUInt64
  { partitionNumber := number
    partitionStart
    partitionSize
    signature := [0, 0, 0, 0]
    startLba := partitionStart - hd.partitionStart
    endLba := partitionStart - hd.partitionStart + partitionSize - 1
    installEspGuid := r.osIndicator = efiPartition }

/-- A partition may not refer to itself by the address 0. -/
def followingLba (r : PartitionRecord) : Option UInt32 :=
  if r.extended = false then none else if r.startingLba = 0 then none else some r.startingLba

def extendedRound (hd : DevicePathNode) (mbr : Memory) (lba number : UInt32) : Round :=
  let r := partitionRecord mbr 0
  if r.sizeInLba = 0 then .stop
  else if r.extended then .chain r.startingLba
  else
    let c := logicalChild hd lba number r
    if c.partitionStart + c.partitionSize - 1 ≥ hd.partitionStart + hd.partitionSize ∨
        c.partitionStart ≤ hd.partitionStart then .stop
    else .child c (followingLba (partitionRecord mbr 1))

/-- The block at an address. -/
def blockOf (w : MbrWorld) (lba : UInt32) : Memory := fun i => w.disk (lba.toNat * w.parent.media.blockSize + i)

def readStatus (w : MbrWorld) (lba : UInt32) : EfiStatus := w.readDisk (lba.toNat * w.parent.media.blockSize)

/-- The loop along the chain, with fuel for so many rounds. -/
def extendedLoop (w : MbrWorld) (hd : DevicePathNode) : Nat → UInt32 → UInt32 → MbrResult → Option MbrResult
  | 0, _, _, _ => none
  | fuel + 1, lba, number, result =>
    if readStatus w lba ≠ .success then some { result with found := .readDisk (readStatus w lba) }
    else
      match extendedRound hd (blockOf w lba) lba number with
      | .stop => some result
      | .chain lba =>
        if lba.toUInt64 < hd.partitionSize then extendedLoop w hd fuel lba number result else some result
      | .child c after =>
        (installChild w c result).bind fun result =>
          match after with
          | none => some result
          | some lba =>
            if lba.toUInt64 < hd.partitionSize then extendedLoop w hd fuel lba (number + 1) result else some result

def partitionInstallMbrChildHandles (w : MbrWorld) (devicePath : List DevicePathNode) (fuel : Nat) :
    Option MbrResult :=
  if w.allocatePool = false then some ⟨.notFound, []⟩
  else if w.readDisk 0 ≠ .success then some ⟨.readDisk (w.readDisk 0), []⟩
  else if partitionValidMbr w.disk w.parent.media.lastBlock = false then some ⟨.notFound, []⟩
  else
    match parentHdDev devicePath with
    | none => installPrimary w w.disk (List.range maxMbrPartitions) 1 ⟨.notFound, []⟩
    | some hd => extendedLoop w hd fuel 0 1 ⟨.notFound, []⟩

end Udk.Partition
