import Mathlib.Order.Interval.Set.Basic
import Udk.DiskIo.Service

/-! # The children of a partitioned device

A child is a range of parent blocks with `BlockIo` of its own, over `DiskIo` of the parent. All sums and products have
64 bits.
-/

namespace Udk.Partition

open DiskIo (EfiStatus Request uint32 uint64)

/-- `EFI_BLOCK_IO_MEDIA`. -/
structure Media extends DiskIo.Media where
  logicalPartition : Bool

inductive Direction
  | read
  | write
  deriving DecidableEq

/-- The parent: its media and its `DiskIo`. -/
structure Parent (σ : Type) where
  media : Media
  readDisk : Request → σ → EfiStatus × σ
  writeDisk : Request → σ → EfiStatus × σ

/-- The parent device and the requests that its `DiskIo` was given, the last one first. -/
structure State (σ : Type) where
  device : σ
  requests : List (Direction × Request)

variable {σ : Type}

def Parent.diskIo (p : Parent σ) (d : Direction) (r : Request) (s : State σ) : EfiStatus × State σ :=
  let result :=
    match d with
    | .read => p.readDisk r s.device
    | .write => p.writeDisk r s.device
  (result.1, ⟨result.2, (d, r) :: s.requests⟩)

/-- `PARTITION_PRIVATE_DATA`. -/
structure PrivateData (σ : Type) where
  startOffset : Nat
  endOffset : Nat
  blockSize : Nat
  parent : Parent σ
  media : Media
  espGuid : Bool

/-! ## Installing a child -/

/-- How the services end that the installation calls. -/
structure Services where
  allocateZeroPool : Bool
  appendDevicePathNode : Bool
  installMultipleProtocolInterfaces : EfiStatus
  openProtocol : EfiStatus

/-- What the fields of the new child are set to. -/
def privateData (parent : Parent σ) (first last blockSize : Nat) (installEspGuid : Bool) : PrivateData σ where
  startOffset := uint64 (first * parent.media.blockSize)
  endOffset := uint64 (uint64 (last + 1) * parent.media.blockSize)
  blockSize := blockSize
  parent := parent
  media := { parent.media with
    logicalPartition := true
    lastBlock :=
      uint64 (uint64 (uint64 (last + 2 ^ 64 - first + 1) * parent.media.blockSize) / blockSize + 2 ^ 64 - 1)
    blockSize := blockSize }
  espGuid := installEspGuid

/-- The status and the child whose `BlockIo` is installed. `none` is the `ASSERT` of a division by 0. -/
def partitionInstallChildHandle (services : Services) (parent : Parent σ) (first last blockSize : Nat)
    (installEspGuid : Bool) : Option (EfiStatus × Option (PrivateData σ)) :=
  if services.allocateZeroPool = false then some (.outOfResources, none)
  else if blockSize = 0 then none
  else if services.appendDevicePathNode = false then some (.outOfResources, none)
  else if services.installMultipleProtocolInterfaces ≠ .success then
    some (services.installMultipleProtocolInterfaces, none)
  else some (services.openProtocol, some (privateData parent first last blockSize installEspGuid))

/-! ## Reading and writing -/

/-- The two routines differ in what they call last. -/
def partitionBlocks (d : Direction) (p : PrivateData σ) (mediaId : UInt32) (lba bufferSize buffer : Nat)
    (s : State σ) : EfiStatus × State σ :=
  if bufferSize % p.blockSize ≠ 0 then (.badBufferSize, s)
  else
    let offset := uint64 (uint64 (lba * p.blockSize) + p.startOffset)
    if uint64 (offset + bufferSize) > p.endOffset then (.invalidParameter, s)
    else p.parent.diskIo d ⟨mediaId, offset, bufferSize, buffer⟩ s

def partitionReadBlocks (p : PrivateData σ) (mediaId : UInt32) (lba bufferSize buffer : Nat) (s : State σ) :
    EfiStatus × State σ :=
  partitionBlocks .read p mediaId lba bufferSize buffer s

def partitionWriteBlocks (p : PrivateData σ) (mediaId : UInt32) (lba bufferSize buffer : Nat) (s : State σ) :
    EfiStatus × State σ :=
  partitionBlocks .write p mediaId lba bufferSize buffer s

/-! ## Isolation -/

/-- Where a child was put: its first and last parent block and the two block sizes. -/
structure Placement where
  first : Nat
  last : Nat
  parentBlockSize : Nat
  blockSize : Nat

namespace Placement

/-- The bytes of the partition, as numbers without a bound. -/
def bytes (g : Placement) : Set Nat := Set.Ico (g.first * g.parentBlockSize) ((g.last + 1) * g.parentBlockSize)

/-- Where a request starts. -/
def offset (g : Placement) (lba : Nat) : Nat := g.first * g.parentBlockSize + lba * g.blockSize

/-- The bytes of a request. -/
def requested (g : Placement) (lba bufferSize : Nat) : Set Nat := Set.Ico (g.offset lba) (g.offset lba + bufferSize)

end Placement

/-- The bytes that requests to the parent are about. -/
def touched (calls : List (Direction × Request)) : Set Nat :=
  {b | ∃ c ∈ calls, b ∈ Set.Ico c.2.offset (c.2.offset + c.2.bufferSize)}

/-- A request gets at its own bytes only, and only inside of the partition. One that is no number of blocks, or not
inside, is refused before the parent is asked for anything. -/
structure Isolated (g : Placement) (lba bufferSize : Nat) (s : State σ) (result : EfiStatus × State σ)
    (calls : List (Direction × Request)) : Prop where
  called : result.2.requests = calls ++ s.requests
  own : touched calls ⊆ g.requested lba bufferSize
  inside : touched calls ⊆ g.bytes
  success : result.1 = .success → touched calls = g.requested lba bufferSize
  unaligned : bufferSize % g.blockSize ≠ 0 → result.1 ≠ .success ∧ calls = []
  foreign : ¬g.requested lba bufferSize ⊆ g.bytes → result.1 ≠ .success ∧ calls = []

/-- The request is refused, or nothing of it wraps. -/
def Placement.Unwrapped (g : Placement) (lba bufferSize : Nat) : Prop :=
  bufferSize = 0 ∨ bufferSize % g.blockSize ≠ 0 ∨
    uint64 ((g.last + 1) * g.parentBlockSize) < uint64 (g.offset lba + bufferSize) ∨
    g.offset lba < 2 ^ 64 ∧ g.offset lba + bufferSize ≤ (g.last + 1) * g.parentBlockSize

instance (g : Placement) (lba bufferSize : Nat) : Decidable (g.Unwrapped lba bufferSize) :=
  inferInstanceAs (Decidable (_ ∨ _))

@[simp] theorem touched_nil : touched [] = ∅ := by simp [touched]

@[simp] theorem touched_singleton (d : Direction) (r : Request) :
    touched [(d, r)] = Set.Ico r.offset (r.offset + r.bufferSize) := by
  ext b
  simp [touched]

theorem uint64_offset (a b : Nat) : uint64 (uint64 a + uint64 b) = uint64 (b + a) := by
  unfold uint64
  rw [← Nat.add_mod, Nat.add_comm]

theorem uint64_end (last size : Nat) : uint64 (uint64 (last + 1) * size) = uint64 ((last + 1) * size) := by
  unfold uint64
  rw [Nat.mod_mul_mod]

variable {s : State σ} {child : PrivateData σ} {services : Services} {parent : Parent σ} {status : EfiStatus}
  {first last blockSize : Nat} {installEspGuid : Bool}

theorem installed_eq
    (h : partitionInstallChildHandle services parent first last blockSize installEspGuid = some (status, some child)) :
    child = privateData parent first last blockSize installEspGuid := by
  unfold partitionInstallChildHandle at h
  split at h
  · simp at h
  split at h
  · simp at h
  split at h
  · simp at h
  split at h
  · simp at h
  · simp only [Option.some.injEq, Prod.mk.injEq] at h
    exact h.2.symm

/-- Whether the handle of a child comes to be. -/
def Services.installs (services : Services) : Bool :=
  services.allocateZeroPool && services.appendDevicePathNode &&
    services.installMultipleProtocolInterfaces = .success

theorem partitionInstallChildHandle_installs (services : Services) (parent : Parent σ) (first last : Nat)
    {blockSize : Nat} (hb : blockSize ≠ 0) (installEspGuid : Bool) :
    ∃ status child, partitionInstallChildHandle services parent first last blockSize installEspGuid =
      some (status, child) ∧ child.isSome = services.installs := by
  rw [partitionInstallChildHandle]
  by_cases h1 : services.allocateZeroPool = false
  · exact ⟨_, _, if_pos h1, by simp [Services.installs, h1]⟩
  rw [if_neg h1, if_neg hb]
  by_cases h2 : services.appendDevicePathNode = false
  · exact ⟨_, _, if_pos h2, by simp [Services.installs, h2]⟩
  rw [if_neg h2]
  by_cases h3 : services.installMultipleProtocolInterfaces = .success
  · exact ⟨_, _, if_neg (not_not_intro h3), by simp [Services.installs, h1, h2, h3]⟩
  · exact ⟨_, _, if_pos h3, by simp [Services.installs, h3]⟩

/-- What the two routines do, with the sums as numbers of the partition. -/
theorem partitionBlocks_eq (d : Direction) (mediaId : UInt32) (lba bufferSize buffer : Nat) :
    partitionBlocks d (privateData parent first last blockSize installEspGuid) mediaId lba bufferSize buffer s =
      let g : Placement := ⟨first, last, parent.media.blockSize, blockSize⟩
      if bufferSize % blockSize ≠ 0 then (.badBufferSize, s)
      else if uint64 ((last + 1) * parent.media.blockSize) < uint64 (g.offset lba + bufferSize) then
        (.invalidParameter, s)
      else parent.diskIo d ⟨mediaId, uint64 (g.offset lba), bufferSize, buffer⟩ s := by
  have hsum (a : Nat) : uint64 (uint64 a + bufferSize) = uint64 (a + bufferSize) := by
    unfold uint64
    rw [Nat.mod_add_mod]
  simp only [partitionBlocks, privateData, uint64_offset, uint64_end, Placement.offset, gt_iff_lt, hsum]
  rfl

theorem Isolated.refused {g : Placement} {lba bufferSize : Nat} (h : status ≠ .success) :
    Isolated g lba bufferSize s (status, s) [] := by
  refine ⟨rfl, by simp, by simp, fun hs => absurd hs h, fun _ => ⟨h, rfl⟩, fun _ => ⟨h, rfl⟩⟩

/-- The one call of `DiskIo` is the only access. -/
theorem isolated_diskIo_iff (g : Placement) (d : Direction) (mediaId : UInt32) (lba : Nat) {bufferSize : Nat}
    (hb : ¬bufferSize % g.blockSize ≠ 0) (buffer : Nat) :
    (∃ calls, Isolated g lba bufferSize s
      (parent.diskIo d ⟨mediaId, uint64 (g.offset lba), bufferSize, buffer⟩ s) calls) ↔
    bufferSize = 0 ∨ g.offset lba < 2 ^ 64 ∧ g.offset lba + bufferSize ≤ (g.last + 1) * g.parentBlockSize := by
  constructor
  · rintro ⟨calls, h⟩
    have hcalled : [(d, ⟨mediaId, uint64 (g.offset lba), bufferSize, buffer⟩)] ++ s.requests = calls ++ s.requests :=
      h.called
    obtain rfl := List.append_cancel_right hcalled
    by_cases hz : bufferSize = 0
    · exact .inl hz
    have hown := h.own
    have hinside := h.inside
    simp only [touched_singleton, Placement.requested, Placement.bytes] at hown hinside
    have hstart := hown (Set.mem_Ico.mpr ⟨Nat.le_refl _, by omega⟩)
    have hle : g.offset lba ≤ uint64 (g.offset lba) := (Set.mem_Ico.mp hstart).1
    have hlt : uint64 (g.offset lba) < 2 ^ 64 := Nat.mod_lt _ (by decide)
    have heq : uint64 (g.offset lba) = g.offset lba := Nat.mod_eq_of_lt (by omega)
    rw [heq] at hinside
    have hlast := hinside (a := g.offset lba + bufferSize - 1) (Set.mem_Ico.mpr ⟨by omega, by omega⟩)
    have hend := (Set.mem_Ico.mp hlast).2
    exact .inr ⟨by omega, by omega⟩
  · rintro (rfl | ⟨hlt, hle⟩)
    · refine ⟨[(d, ⟨mediaId, uint64 (g.offset lba), 0, buffer⟩)], rfl, ?_, ?_, fun _ => ?_, fun h => absurd h hb,
        fun h => ?_⟩
      · simp
      · simp
      · simp [Placement.requested]
      · exact absurd (by simp [Placement.requested]) h
    · have heq : uint64 (g.offset lba) = g.offset lba := Nat.mod_eq_of_lt hlt
      have hin : g.requested lba bufferSize ⊆ g.bytes :=
        Set.Ico_subset_Ico (Nat.le_add_right _ _) hle
      have hown : touched [(d, ⟨mediaId, uint64 (g.offset lba), bufferSize, buffer⟩)] = g.requested lba bufferSize := by
        rw [touched_singleton, heq, Placement.requested]
      refine ⟨[(d, ⟨mediaId, uint64 (g.offset lba), bufferSize, buffer⟩)], rfl, ?_, ?_, fun _ => hown,
        fun h => absurd h hb, ?_⟩
      · exact hown.subset
      · exact hown.subset.trans hin
      · exact fun h => absurd hin h

theorem partitionBlocks_isolated_iff (d : Direction) (mediaId : UInt32) (lba bufferSize buffer : Nat) :
    (∃ calls, Isolated ⟨first, last, parent.media.blockSize, blockSize⟩ lba bufferSize s
      (partitionBlocks d (privateData parent first last blockSize installEspGuid) mediaId lba bufferSize buffer s)
        calls) ↔
    (⟨first, last, parent.media.blockSize, blockSize⟩ : Placement).Unwrapped lba bufferSize := by
  rw [partitionBlocks_eq]
  dsimp only [Placement.Unwrapped]
  by_cases hb : bufferSize % blockSize ≠ 0
  · rw [if_pos hb]
    exact ⟨fun _ => .inr (.inl hb), fun _ => ⟨[], .refused (by decide)⟩⟩
  rw [if_neg hb]
  split
  · rename_i hlt
    exact ⟨fun _ => .inr (.inr (.inl hlt)), fun _ => ⟨[], .refused (by decide)⟩⟩
  · rename_i hge
    rw [isolated_diskIo_iff ⟨first, last, parent.media.blockSize, blockSize⟩ d mediaId lba hb]
    constructor
    · rintro (hz | hin)
      · exact .inl hz
      · exact .inr (.inr (.inr hin))
    · rintro (hz | hz | hz | hin)
      · exact .inl hz
      · exact absurd hz hb
      · exact absurd hz hge
      · exact .inr hin

/-- A child keeps to its partition just for the requests of which no part wraps around. -/
theorem partition_isolated_iff
    (hinstall : partitionInstallChildHandle services parent first last blockSize installEspGuid =
      some (status, some child))
    (mediaId : UInt32) (lba bufferSize buffer : Nat) (s : State σ) :
    let g : Placement := ⟨first, last, parent.media.blockSize, blockSize⟩
    ((∃ calls, Isolated g lba bufferSize s (partitionReadBlocks child mediaId lba bufferSize buffer s) calls) ↔
      g.Unwrapped lba bufferSize) ∧
    ((∃ calls, Isolated g lba bufferSize s (partitionWriteBlocks child mediaId lba bufferSize buffer s) calls) ↔
      g.Unwrapped lba bufferSize) := by
  obtain rfl := installed_eq hinstall
  exact ⟨partitionBlocks_isolated_iff .read mediaId lba bufferSize buffer,
    partitionBlocks_isolated_iff .write mediaId lba bufferSize buffer⟩

/-! ## Runs -/

/-- 256 blocks of 512 bytes, and a device that always succeeds. -/
def sampleParent : Parent Unit where
  media := ⟨⟨3, false, 512, 0, 255⟩, false⟩
  readDisk _ _ := (.success, ())
  writeDisk _ _ := (.success, ())

def sampleServices : Services := ⟨true, true, .success, .success⟩

/-- The blocks 16 to 31 of the parent. -/
def sampleChild : PrivateData Unit := privateData sampleParent 16 31 512 false

theorem sampleChild_installed :
    partitionInstallChildHandle sampleServices sampleParent 16 31 512 false = some (.success, some sampleChild) := rfl

theorem partition_isolated_iff_sample :
    (∃ calls, Isolated ⟨16, 31, 512, 512⟩ 15 512 ⟨(), []⟩ (partitionWriteBlocks sampleChild 3 15 512 0 ⟨(), []⟩)
      calls) ∧
    (partitionWriteBlocks sampleChild 3 15 512 0 ⟨(), []⟩).1 = .success :=
  ⟨(partition_isolated_iff sampleChild_installed 3 15 512 0 ⟨(), []⟩).2.mpr (by decide), by decide⟩

/-- The product of this block number has 65 bits: block 0 of the parent is overwritten. -/
theorem wrapped_lba_reaches_the_parent :
    partitionInstallChildHandle sampleServices sampleParent 16 31 512 false = some (.success, some sampleChild) ∧
    (partitionWriteBlocks sampleChild 3 (2 ^ 55 - 16) 512 0 ⟨(), []⟩).1 = .success ∧
    (partitionWriteBlocks sampleChild 3 (2 ^ 55 - 16) 512 0 ⟨(), []⟩).2.requests.map
      (fun c => (c.1, c.2.offset, c.2.bufferSize)) = [(.write, 0, 512)] ∧
    ¬∃ calls, Isolated ⟨16, 31, 512, 512⟩ (2 ^ 55 - 16) 512 ⟨(), []⟩
      (partitionWriteBlocks sampleChild 3 (2 ^ 55 - 16) 512 0 ⟨(), []⟩) calls := by
  refine ⟨rfl, by decide +kernel, by decide +kernel, fun h => ?_⟩
  have hun := (@partitionBlocks_isolated_iff Unit ⟨(), []⟩ sampleParent 16 31 512 false .write 3 (2 ^ 55 - 16) 512 0).mp h
  revert hun
  decide +kernel

end Udk.Partition
