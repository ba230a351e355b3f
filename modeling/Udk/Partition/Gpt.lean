import Udk.Partition.Child

/-! # GUID partition tables

Buffers are memories that start at 0. `UINTN` has 64 bits. The services that may fail do so by the number of the call.
-/

namespace Udk.Partition

open Bytes
open DiskIo (EfiStatus uint32 uint64)

/-! ## The header -/

/-- `EFI_PARTITION_TABLE_HEADER`, in the first bytes of a buffer. -/
abbrev Header := Memory

def sizeofPartitionTableHeader : Nat := 92

namespace Header

def signature (h : Header) : Nat := readLE h 0 8
def headerSize (h : Header) : Nat := readLE h 12 4
def crc32 (h : Header) : Nat := readLE h 16 4
def myLba (h : Header) : Nat := readLE h 24 8
def alternateLba (h : Header) : Nat := readLE h 32 8
def firstUsableLba (h : Header) : Nat := readLE h 40 8
def lastUsableLba (h : Header) : Nat := readLE h 48 8
def partitionEntryLba (h : Header) : Nat := readLE h 72 8
def numberOfPartitionEntries (h : Header) : Nat := readLE h 80 4
def sizeOfPartitionEntry (h : Header) : Nat := readLE h 84 4
def partitionEntryArrayCrc32 (h : Header) : Nat := readLE h 88 4

/-- The bytes of the entry array. The product has 32 bits. -/
def arraySize (h : Header) : Nat := uint32 (h.numberOfPartitionEntries * h.sizeOfPartitionEntry)

end Header

/-- `EFI PART`. -/
def efiPtabHeaderId : Nat := 0x5452415020494645

def primaryPartHeaderLba : Nat := 1

/-! ## Services -/

structure World where
  blockSize : Nat
  lastBlock : Nat
  /-- `CalculateCrc32` of a buffer that is not empty. -/
  crc32 : List UInt8 → UInt32
  allocatePool : Nat → Bool
  readDisk : Nat → EfiStatus
  /-- A write that fails has written some of the bytes. -/
  writeDisk : Nat → Option (Nat → Bool)
  /-- What a buffer of `AllocatePool` holds. -/
  garbage : Nat → Memory

structure GptState where
  disk : Memory
  calls : Nat
  /-- The disk after each write, the last one first. -/
  disks : List Memory
  /-- The call of each write, and its offset and length. -/
  writes : List (Nat × Nat × Nat)
  /-- The size of each buffer that was filled, and how many bytes it was filled with. -/
  filled : List (Nat × Nat)

def allocatePool (w : World) (s : GptState) : Bool × GptState :=
  (w.allocatePool s.calls, { s with calls := s.calls + 1 })

/-- `ReadDisk` into a buffer of `capacity` bytes. -/
def readDisk (w : World) (offset bufferSize capacity : Nat) (s : GptState) : Except EfiStatus (List UInt8) × GptState :=
  let status := w.readDisk s.calls
  (if status = .success then .ok (read s.disk offset bufferSize) else .error status,
    { s with calls := s.calls + 1, filled := (capacity, bufferSize) :: s.filled })

def writeDisk (w : World) (offset : Nat) (bytes : List UInt8) (s : GptState) : Bool × GptState :=
  let disk :=
    match w.writeDisk s.calls with
    | none => write s.disk offset bytes
    | some transferred => fun i => if transferred i then write s.disk offset bytes i else s.disk i
  ((w.writeDisk s.calls).isNone,
    { s with
      disk
      calls := s.calls + 1
      disks := disk :: s.disks
      writes := (s.calls, offset, bytes.length) :: s.writes })

/-- `CalculateCrc32` fails when there is nothing to read. -/
def calculateCrc32 (w : World) (bytes : List UInt8) : Option UInt32 :=
  if bytes = [] then none else some (w.crc32 bytes)

def zeroPool : Memory := fun _ => 0

/-- The offset of a block. -/
def blockOffset (w : World) (lba : Nat) : Nat := uint64 (lba * w.blockSize)

/-! ## Checking a table -/

/-- `PartitionCheckCrc`. -/
def partitionCheckCrc (w : World) (maxSize : Nat) (hdr : Header) : Bool :=
  let size := hdr.headerSize
  if size = 0 then false
  else if maxSize ≠ 0 ∧ size > maxSize then false
  else
    match calculateCrc32 w (read (write hdr 16 (toLE 4 0)) 0 size) with
    | none => false
    | some crc => hdr.crc32 = crc.toNat

/-- What `PartitionValidGptTable` asks of the block at `lba`. -/
def checkHeader (w : World) (lba : Nat) (partHdr : Header) : Bool :=
  !(partHdr.signature ≠ efiPtabHeaderId ∨ !partitionCheckCrc w w.blockSize partHdr ∨ partHdr.myLba ≠ lba)

/-- `CopyMem` of a header into a cleared buffer. -/
def copyHeader (hdr : Header) : Header := write zeroPool 0 (read hdr 0 sizeofPartitionTableHeader)

def arrayCrcMatches (w : World) (h : Header) (bytes : List UInt8) : Bool :=
  match calculateCrc32 w bytes with
  | none => false
  | some crc => h.partitionEntryArrayCrc32 = crc.toNat

def partitionCheckGptEntryArrayCRC (w : World) (partHeader : Header) (s : GptState) : Bool × GptState :=
  match allocatePool w s with
  | (false, s) => (false, s)
  | (true, s) =>
    match readDisk w (blockOffset w partHeader.partitionEntryLba) partHeader.arraySize partHeader.arraySize s with
    | (.error _, s) => (false, s)
    | (.ok bytes, s) => (arrayCrcMatches w partHeader bytes, s)

/-- Whether the table is valid, and `PartHeader`. -/
def partitionValidGptTable (w : World) (lba : Nat) (partHeader : Header) (s : GptState) : Bool × Header × GptState :=
  match allocatePool w s with
  | (false, s) => (false, partHeader, s)
  | (true, s) =>
    match readDisk w (blockOffset w lba) w.blockSize w.blockSize s with
    | (.error _, s) => (false, partHeader, s)
    | (.ok block, s) =>
      let partHdr := write zeroPool 0 block
      if checkHeader w lba partHdr = false then (false, partHeader, s)
      else
        let partHeader := copyHeader partHdr
        let (valid, s) := partitionCheckGptEntryArrayCRC w partHeader s
        (valid, partHeader, s)

/-! ## Restoring a table -/

/-- `PartitionSetCrc`. -/
def partitionSetCrc (w : World) (hdr : Header) : Header :=
  let hdr : Header := write hdr 16 (toLE 4 0)
  match calculateCrc32 w (read hdr 0 hdr.headerSize) with
  | none => write hdr 16 (read (w.garbage 0) 0 4)
  | some crc => write hdr 16 (toLE 4 crc.toNat)

/-- `PEntryLBA`. -/
def restoredEntryLba (h : Header) : Nat :=
  if h.myLba = primaryPartHeaderLba then uint64 (h.lastUsableLba + 1) else primaryPartHeaderLba + 1

/-- A copy of the header with `MyLBA`, `AlternateLBA` and `PartitionEntryLBA` of the alternate place. -/
def restoredFields (h : Header) : Header :=
  write (write (write (copyHeader h) 24 (toLE 8 h.alternateLba)) 32 (toLE 8 h.myLba)) 72 (toLE 8 (restoredEntryLba h))

/-- The header for the alternate place, in a block of zeros. -/
def restoredHeader (w : World) (h : Header) : Header := partitionSetCrc w (restoredFields h)

def partitionRestoreGptTable (w : World) (partHeader : Header) (s : GptState) : Bool × GptState :=
  match allocatePool w s with
  | (false, s) => (false, s)
  | (true, s) =>
    let partHdr := restoredHeader w partHeader
    match writeDisk w (blockOffset w partHdr.myLba) (read partHdr 0 w.blockSize) s with
    | (false, s) => (false, s)
    | (true, s) =>
      match allocatePool w s with
      | (false, s) => (false, s)
      | (true, s) =>
        match readDisk w (blockOffset w partHeader.partitionEntryLba) partHeader.arraySize partHeader.arraySize s with
        | (.error _, s) => (false, s)
        | (.ok entries, s) => writeDisk w (blockOffset w (restoredEntryLba partHeader)) entries s

/-! ## The entries -/

/-- What the driver reads of an `EFI_PARTITION_ENTRY`. -/
structure PartitionEntry where
  partitionTypeGuid : List UInt8
  uniquePartitionGuid : List UInt8
  startingLba : Nat
  endingLba : Nat
  attributes : Nat
  deriving DecidableEq

def sizeofPartitionEntry : Nat := 128

/-- The entry whose bytes start at `a`. -/
def entryAt (m : Memory) (a : Nat) : PartitionEntry where
  partitionTypeGuid := read m a 16
  uniquePartitionGuid := read m (a + 16) 16
  startingLba := readLE m (a + 32) 8
  endingLba := readLE m (a + 40) 8
  attributes := readLE m (a + 48) 8

def gEfiPartTypeUnusedGuid : List UInt8 := List.replicate 16 0

def gEfiPartTypeSystemPartGuid : List UInt8 :=
  [0x28, 0x73, 0x2A, 0xC1, 0x1F, 0xF8, 0xD2, 0x11, 0xBA, 0x4B, 0x00, 0xA0, 0xC9, 0x3E, 0xC9, 0x3B]

def PartitionEntry.used (e : PartitionEntry) : Bool := e.partitionTypeGuid ≠ gEfiPartTypeUnusedGuid

/-- The test for `OutOfRange`. -/
def outOfRange (h : Header) (e : PartitionEntry) : Bool :=
  e.startingLba > e.endingLba || e.startingLba < h.firstUsableLba || e.startingLba > h.lastUsableLba ||
    e.endingLba < h.firstUsableLba || e.endingLba > h.lastUsableLba

/-- `EFI_PARTITION_ENTRY_STATUS`. -/
structure EntryStatus where
  outOfRange : Bool
  overlap : Bool
  osSpecific : Bool
  deriving DecidableEq

def setStatus (i : Nat) (f : EntryStatus → EntryStatus) (status : Nat → EntryStatus) : Nat → EntryStatus :=
  fun j => if j = i then f (status j) else status j

def setOverlap (st : EntryStatus) : EntryStatus := { st with overlap := true }

/-- The regions of two entries overlap. -/
def regionsMeet (e₁ e₂ : PartitionEntry) : Bool := e₂.endingLba ≥ e₁.startingLba && e₂.startingLba ≤ e₁.endingLba

/-- The inner loop of `PartitionCheckGptEntry`, for one `Index2`. -/
def markOverlap (entry : Nat → PartitionEntry) (index1 : Nat) (status : Nat → EntryStatus) (index2 : Nat) :
    Nat → EntryStatus :=
  if (entry index2).used = false then status
  else if regionsMeet (entry index1) (entry index2) then
    setStatus index2 setOverlap (setStatus index1 setOverlap status)
  else status

/-- The outer loop, for one `Index1`. Bit 1 of the attributes stands for an operating system. -/
def checkEntry (h : Header) (entry : Nat → PartitionEntry) (status : Nat → EntryStatus) (index1 : Nat) :
    Nat → EntryStatus :=
  let e := entry index1
  if e.used = false then status
  else if outOfRange h e then setStatus index1 (fun st => { st with outOfRange := true }) status
  else
    let status :=
      (List.range' (index1 + 1) (h.numberOfPartitionEntries - (index1 + 1))).foldl (markOverlap entry index1) status
    if e.attributes.testBit 1 then setStatus index1 (fun st => { st with osSpecific := true }) status else status

def partitionCheckGptEntry (h : Header) (entry : Nat → PartitionEntry) : Nat → EntryStatus :=
  (List.range h.numberOfPartitionEntries).foldl (checkEntry h entry) fun _ => ⟨false, false, false⟩

/-! ## The children -/

/-- `HARDDRIVE_DEVICE_PATH` and the rest that `PartitionInstallChildHandle` is given. -/
structure GptChild where
  partitionNumber : Nat
  partitionStart : Nat
  partitionSize : Nat
  signature : List UInt8
  startLba : Nat
  endLba : Nat
  blockSize : Nat
  installEspGuid : Bool
  deriving DecidableEq

def childOf (w : World) (index : Nat) (e : PartitionEntry) : GptChild where
  partitionNumber := uint32 (uint32 index + 1)
  partitionStart := e.startingLba
  partitionSize := uint64 (e.endingLba + 2 ^ 64 - e.startingLba + 1)
  signature := e.uniquePartitionGuid
  startLba := e.startingLba
  endLba := e.endingLba
  blockSize := w.blockSize
  installEspGuid := e.partitionTypeGuid = gEfiPartTypeSystemPartGuid

/-- The loop that creates the child handles. -/
def installChildren (w : World) (h : Header) (entry : Nat → PartitionEntry) : List GptChild :=
  let status := partitionCheckGptEntry h entry
  ((List.range h.numberOfPartitionEntries).filter fun i =>
    !((entry i).used = false ∨ (status i).outOfRange ∨ (status i).overlap ∨ (status i).osSpecific)).map
      fun i => childOf w i (entry i)

/-- One of the four records of the MBR protects a GUID partition table. -/
def protectiveMbr (mbr : Memory) : Bool :=
  (List.range 4).any fun i =>
    mbr (446 + 16 * i) = 0x00 && mbr (446 + 16 * i + 4) = 0xEE && readLE mbr (446 + 16 * i + 8) 4 = 1

/-- The two tables are checked, and one is restored from the other. The result is `PrimaryHeader`, when a table was
found. -/
def partitionFindTable (w : World) (s : GptState) : Option Header × GptState :=
  match partitionValidGptTable w primaryPartHeaderLba zeroPool s with
  | (false, primary, s) =>
    match partitionValidGptTable w w.lastBlock zeroPool s with
    | (false, _, s) => (none, s)
    | (true, backup, s) =>
      let (_, s) := partitionRestoreGptTable w backup s
      let (_, primary, s) := partitionValidGptTable w backup.alternateLba primary s
      (some primary, s)
  | (true, primary, s) =>
    match partitionValidGptTable w primary.alternateLba zeroPool s with
    | (false, backup, s) =>
      let (_, s) := partitionRestoreGptTable w primary s
      let (_, _, s) := partitionValidGptTable w primary.alternateLba backup s
      (some primary, s)
    | (true, _, s) => (some primary, s)

inductive GptStatus
  | notFound
  | readDisk (status : EfiStatus)
  | success
  deriving DecidableEq

def partitionInstallGptChildHandles (w : World) (s : GptState) : GptStatus × List GptChild × GptState :=
  match allocatePool w s with
  | (false, s) => (.notFound, [], s)
  | (true, s) =>
    match readDisk w 0 w.blockSize w.blockSize s with
    | (.error status, s) => (.readDisk status, [], s)
    | (.ok mbr, s) =>
      if protectiveMbr (write zeroPool 0 mbr) = false then (.notFound, [], s)
      else
        match allocatePool w s with
        | (false, s) => (.notFound, [], s)
        | (true, s) =>
          match allocatePool w s with
          | (false, s) => (.notFound, [], s)
          | (true, s) =>
            match partitionFindTable w s with
            | (none, s) => (.notFound, [], s)
            | (some primary, s) =>
              match allocatePool w s with
              | (false, s) => (.notFound, [], s)
              | (true, s) =>
                let garbage := w.garbage s.calls
                let capacity := primary.numberOfPartitionEntries * sizeofPartitionEntry
                match readDisk w (blockOffset w primary.partitionEntryLba) primary.arraySize capacity s with
                | (.error status, s) => (.readDisk status, [], s)
                | (.ok entries, s) =>
                  match allocatePool w s with
                  | (false, s) => (.notFound, [], s)
                  | (true, s) =>
                    let partEntry := write garbage 0 entries
                    (.success, installChildren w primary fun i => entryAt partEntry (sizeofPartitionEntry * i), s)

end Udk.Partition
