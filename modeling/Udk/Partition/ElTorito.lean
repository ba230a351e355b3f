import Udk.Partition.Mbr

/-! # El Torito boot catalogs

`VolDescriptor` has one block of 2048 bytes. `Catalog` is an offset in it. A read that does not fit behind `Catalog` is a
fault.
-/

namespace Udk.Partition

open Bytes
open DiskIo (EfiStatus)

/-! ## Blocks -/

def cdBlockSize : Nat := 2048

structure CdWorld where
  parent : Parent Unit
  allocatePool : Bool
  disk : Memory
  /-- Of a block at an offset. -/
  readDisk : Nat → EfiStatus
  /-- For the children in the order in which they are installed. -/
  services : Nat → Services

def CdWorld.lastBlock (w : CdWorld) : UInt64 := .ofNat w.parent.media.lastBlock

def CdWorld.status (w : CdWorld) (lba : UInt32) : EfiStatus := w.readDisk (lba.toNat * cdBlockSize)

/-- What a buffer of one block holds when the block has been read into it. -/
def CdWorld.block (w : CdWorld) (lba : UInt32) : Memory := fun i => w.disk (lba.toNat * cdBlockSize + i)

/-- `ReadDisk` of a block to an offset in `VolDescriptor`. -/
def CdWorld.readBlock (w : CdWorld) (lba : UInt32) (offset : Nat) : Option (EfiStatus × Memory) :=
  if offset + cdBlockSize ≤ cdBlockSize then some (w.status lba, w.block lba) else none

/-! ## Volume descriptors -/

def cdvolTypeCoded : UInt8 := 0x1
def cdvolTypeEnd : UInt8 := 0xff

/-- `CD001`. -/
def cdvolId : List UInt8 := [0x43, 0x44, 0x30, 0x30, 0x31]

/-- `EL TORITO SPECIFICATION`. -/
def cdvolEltoritoId : List UInt8 :=
  [0x45, 0x4c, 0x20, 0x54, 0x4f, 0x52, 0x49, 0x54, 0x4f, 0x20, 0x53, 0x50, 0x45, 0x43, 0x49, 0x46, 0x49, 0x43, 0x41,
    0x54, 0x49, 0x4f, 0x4e]

/-- The block is no volume descriptor, or the last one. -/
def endOfDescriptors (b : Memory) : Bool := b 0 = cdvolTypeEnd || read b 1 5 ≠ cdvolId

def volSpaceSizeOf (b : Memory) (volSpaceSize : UInt32) : UInt32 :=
  if b 0 = cdvolTypeCoded then .ofNat (readLE b 80 4) else volSpaceSize

def isElTorito (b : Memory) : Bool := read b 7 23 = cdvolEltoritoId

/-- `EltCatalog`. -/
def catalogLba (b : Memory) : UInt32 := .ofNat (readLE b 71 4)

/-! ## Catalogs -/

def sizeofCatalog : Nat := 32
def eltoritoIdCatalog : UInt8 := 0x01
def eltoritoIdSectionBootable : UInt8 := 0x88

/-- The sum of the 16-bit words of the header. -/
def headerSum (b : Memory) (catalog : Nat) : Nat :=
  ((List.range (sizeofCatalog / 2)).map fun i => readLE b (catalog + 2 * i) 2).sum

def validHeader (b : Memory) (catalog : Nat) : Bool :=
  b catalog = eltoritoIdCatalog && readLE b (catalog + 30) 2 = 0xaa55 && headerSum b catalog % 2 ^ 16 = 0

/-- `ELTORITO_CATALOG.Boot`. -/
structure BootEntry where
  indicator : UInt8
  mediaType : UInt8
  sectorCount : UInt32
  lba : UInt32

def bootEntryAt (b : Memory) (catalog : Nat) : BootEntry where
  indicator := b catalog
  mediaType := b (catalog + 1) &&& 0x0f
  sectorCount := .ofNat (readLE b (catalog + 6) 2)
  lba := .ofNat (readLE b (catalog + 8) 4)

def BootEntry.bootable (e : BootEntry) : Bool := e.indicator = eltoritoIdSectionBootable && e.lba ≠ 0

/-- `SectorCount` and `SubBlockSize`. -/
def BootEntry.sectors (e : BootEntry) : UInt32 × UInt32 :=
  if e.mediaType = 0x00 then (e.sectorCount, 2048)
  else if e.mediaType = 0x04 then (e.sectorCount, 512)
  else if e.mediaType = 0x01 then (0x50 * 0x02 * 0x0f, 512)
  else if e.mediaType = 0x02 then (0x50 * 0x02 * 0x12, 512)
  else if e.mediaType = 0x03 then (0x50 * 0x02 * 0x24, 512)
  else (0, 2048)

/-- `CdDev.PartitionSize`. The differences have 32 bits. -/
def partitionSizeOf (lastBlock : UInt64) (volSpaceSize : UInt32) (e : BootEntry) : UInt64 :=
  if e.sectors.1 < 2 then
    if volSpaceSize.toUInt64 > lastBlock + 1 then (lastBlock - e.lba.toUInt64 + 1).toUInt32.toUInt64
    else (volSpaceSize - e.lba).toUInt64
  else (e.sectors.1.toUInt64 * e.sectors.2.toUInt64 + 2048 - 1) / 2048

/-- The fields of `CDROM_DEVICE_PATH` that are set, and the rest that `PartitionInstallChildHandle` is given. -/
structure CdChild where
  bootEntry : Nat
  partitionStart : UInt64
  partitionSize : UInt64
  startLba : UInt64
  endLba : UInt64
  blockSize : UInt32

def cdChild (lastBlock : UInt64) (volSpaceSize : UInt32) (bootEntry : Nat) (e : BootEntry) : CdChild :=
  let partitionSize := partitionSizeOf lastBlock volSpaceSize e
  { bootEntry
    partitionStart := e.lba.toUInt64
    partitionSize
    startLba := e.lba.toUInt64
    endLba := e.lba.toUInt64 + partitionSize - 1
    blockSize := e.sectors.2 }

/-- `Found`, the children whose handles there are, and how many there should be. -/
structure CdResult where
  found : MbrStatus
  children : List CdChild
  calls : Nat

def installCdChild (w : CdWorld) (c : CdChild) (result : CdResult) : Option CdResult :=
  (partitionInstallChildHandle (w.services result.calls) w.parent c.startLba.toNat c.endLba.toNat c.blockSize.toNat
      false).map fun (status, child) =>
    ⟨if status = .success then .success else result.found,
      if child.isSome then result.children ++ [c] else result.children, result.calls + 1⟩

/-- The loop over the entries, with `Catalog` in front of the next one and so many to go. -/
def catalogLoop (w : CdWorld) (b : Memory) (volSpaceSize : UInt32) :
    Nat → Nat → Nat → Nat → CdResult → Option (Nat × CdResult)
  | 0, catalog, _, _, result => some (catalog, result)
  | n + 1, catalog, index, bootEntry, result =>
    let catalog := catalog + sizeofCatalog
    let e := bootEntryAt b catalog
    if e.bootable = false then catalogLoop w b volSpaceSize n catalog (index + 1) bootEntry result
    else
      let bootEntry := if index = 1 then 0 else bootEntry
      (installCdChild w (cdChild w.lastBlock volSpaceSize bootEntry e) result).bind
        (catalogLoop w b volSpaceSize n catalog (index + 1) (bootEntry + 1))

def maxIndex : Nat := cdBlockSize / sizeofCatalog

/-! ## The scan -/

structure CdState where
  volDescriptorLba : UInt32
  volSpaceSize : UInt32
  catalog : Nat
  result : CdResult

/-- What comes of the catalog that a descriptor refers to. -/
def readCatalog (w : CdWorld) (lba : UInt32) (s : CdState) : Option CdState :=
  match w.readBlock lba s.catalog with
  | none => none
  | some (status, b) =>
    if status ≠ .success then some s
    else if validHeader b s.catalog = false then some s
    else
      (catalogLoop w b s.volSpaceSize (maxIndex - 1) s.catalog 1 1 s.result).map fun (catalog, result) =>
        { s with catalog, result }

/-- The loop over the volume descriptors, with fuel for so many. -/
def descriptorLoop (w : CdWorld) : Nat → CdState → Option CdResult
  | 0, _ => none
  | fuel + 1, s =>
    let lba := s.volDescriptorLba + 1
    if lba.toUInt64 > w.lastBlock then some s.result
    else
      match w.readBlock lba 0 with
      | none => none
      | some (status, b) =>
        if status ≠ .success then some { s.result with found := .readDisk status }
        else if endOfDescriptors b then some s.result
        else
          let s := { s with volDescriptorLba := lba, volSpaceSize := volSpaceSizeOf b s.volSpaceSize }
          if isElTorito b = false then descriptorLoop w fuel s
          else if (catalogLba b).toUInt64 > w.lastBlock then descriptorLoop w fuel s
          else (readCatalog w (catalogLba b) s).bind (descriptorLoop w fuel)

def partitionInstallElToritoChildHandles (w : CdWorld) (fuel : Nat) : Option CdResult :=
  if w.parent.media.blockSize ≠ cdBlockSize then some ⟨.notFound, [], 0⟩
  else if w.allocatePool = false then some ⟨.notFound, [], 0⟩
  else descriptorLoop w fuel ⟨15, 0, 0, ⟨.notFound, [], 0⟩⟩

end Udk.Partition
