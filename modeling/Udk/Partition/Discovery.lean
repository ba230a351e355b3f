import Udk.Partition.Entries
import Udk.Partition.Restore

/-! # The children of a disk -/

namespace Udk.Partition

open Bytes
open DiskIo (EfiStatus uint32 uint64)

variable {w : World} {d : Memory} {h : Header} {s : GptState}

/-- There are buffers, and reads succeed. Writes may fail. -/
structure Reliable (w : World) : Prop where
  allocatePool : ∀ n, w.allocatePool n = true
  readDisk : ∀ n, w.readDisk n = .success

/-- No buffer was filled with more than it holds. -/
def InBuffers (s : GptState) : Prop := ∀ r ∈ s.filled, r.2 ≤ r.1

/-- Where the valid table is: the primary one goes before the backup. -/
def tableLba (w : World) (d : Memory) : Nat :=
  if ValidTable w d primaryPartHeaderLba then primaryPartHeaderLba else w.lastBlock

/-- The header of the valid table. -/
def tableHeader (w : World) (d : Memory) : Header := headerAt w d (tableLba w d)

/-- Entry `i` of the valid table. -/
def tableEntry (w : World) (d : Memory) (i : Nat) : PartitionEntry :=
  entryAt d (blockOffset w (tableHeader w d).partitionEntryLba + i * (tableHeader w d).sizeOfPartitionEntry)

/-- What is expected of the discovery. -/
structure Discovers (w : World) (d : Memory) (result : GptStatus × List GptChild × GptState) : Prop where
  status : result.1 = .success
  children : result.2.1 = exposedChildren w (tableHeader w d) (tableEntry w d)
  disjoint : result.2.1.Pairwise GptChild.Disjoint
  inBuffers : InBuffers result.2.2

/-! ## The services succeed -/

/-- The disk stays, after `n` calls. -/
structure Reads (n : Nat) (s s' : GptState) : Prop where
  disk : s'.disk = s.disk
  calls : s'.calls = s.calls + n
  inBuffers : InBuffers s → InBuffers s'

theorem Reads.trans {n₁ n₂ : Nat} {s₁ s₂ s₃ : GptState} (h₁ : Reads n₁ s₁ s₂) (h₂ : Reads n₂ s₂ s₃) :
    Reads (n₁ + n₂) s₁ s₃ :=
  ⟨h₂.disk.trans h₁.disk, by rw [h₂.calls, h₁.calls, Nat.add_assoc], fun h => h₂.inBuffers (h₁.inBuffers h)⟩

theorem allocatePool_eq (hw : Reliable w) (s : GptState) :
    ∃ s', allocatePool w s = (true, s') ∧ Reads 1 s s' ∧ s'.filled = s.filled :=
  ⟨{ s with calls := s.calls + 1 }, by rw [allocatePool, hw.allocatePool], ⟨rfl, rfl, id⟩, rfl⟩

theorem readDisk_eq (hw : Reliable w) (offset n capacity : Nat) (s : GptState) :
    ∃ s', readDisk w offset n capacity s = (.ok (read s.disk offset n), s') ∧ s'.disk = s.disk ∧
      s'.calls = s.calls + 1 ∧ s'.filled = (capacity, n) :: s.filled := by
  refine ⟨{ s with calls := s.calls + 1, filled := (capacity, n) :: s.filled }, ?_, rfl, rfl, rfl⟩
  simp only [readDisk, hw.readDisk, if_true]

theorem InBuffers.cons {s s' : GptState} {capacity n : Nat} (hfilled : s'.filled = (capacity, n) :: s.filled)
    (hle : n ≤ capacity) (h : InBuffers s) : InBuffers s' := by
  intro r hr
  rw [hfilled] at hr
  rcases List.mem_cons.mp hr with rfl | hr
  · exact hle
  · exact h r hr

/-- Into a buffer of the right size. -/
theorem readDisk_reads (hw : Reliable w) (offset n : Nat) (s : GptState) :
    ∃ s', readDisk w offset n n s = (.ok (read s.disk offset n), s') ∧ Reads 1 s s' := by
  obtain ⟨s', heq, hdisk, hcalls, hfilled⟩ := readDisk_eq hw offset n n s
  exact ⟨s', heq, hdisk, hcalls, fun h => h.cons hfilled (Nat.le_refl n)⟩

theorem partitionCheckGptEntryArrayCRC_eq (hw : Reliable w) (h : Header) (s : GptState) :
    ∃ s', partitionCheckGptEntryArrayCRC w h s =
      (arrayCrcMatches w h (read s.disk (blockOffset w h.partitionEntryLba) h.arraySize), s') ∧ Reads 2 s s' := by
  obtain ⟨s₁, halloc, hreads₁, -⟩ := allocatePool_eq hw s
  obtain ⟨s₂, hread, hreads₂⟩ := readDisk_reads hw (blockOffset w h.partitionEntryLba) h.arraySize s₁
  refine ⟨s₂, ?_, hreads₁.trans hreads₂⟩
  unfold partitionCheckGptEntryArrayCRC
  rw [halloc]
  dsimp only
  rw [hread, hreads₁.disk]

/-- The header that a check leaves: that of the block, if it passes. -/
def leftHeader (w : World) (d : Memory) (lba : Nat) (partHeader : Header) : Header :=
  if checkHeader w lba (blockAt w d lba) then headerAt w d lba else partHeader

/-- The calls of a check. -/
def checkCalls (w : World) (d : Memory) (lba : Nat) : Nat := if checkHeader w lba (blockAt w d lba) then 4 else 2

theorem partitionValidGptTable_eq (hw : Reliable w) (lba : Nat) (partHeader : Header) (s : GptState) :
    ∃ s', partitionValidGptTable w lba partHeader s =
      (decide (ValidTable w s.disk lba), leftHeader w s.disk lba partHeader, s') ∧
        Reads (checkCalls w s.disk lba) s s' := by
  obtain ⟨s₁, halloc, hreads₁, -⟩ := allocatePool_eq hw s
  obtain ⟨s₂, hread, hreads₂⟩ := readDisk_reads hw (blockOffset w lba) w.blockSize s₁
  have hreads := hreads₁.trans hreads₂
  unfold partitionValidGptTable leftHeader checkCalls
  rw [halloc]
  dsimp only
  rw [hread, hreads₁.disk]
  dsimp only
  rw [show write zeroPool 0 (read s.disk (blockOffset w lba) w.blockSize) = blockAt w s.disk lba from rfl,
    show copyHeader (blockAt w s.disk lba) = headerAt w s.disk lba from rfl]
  by_cases hc : checkHeader w lba (blockAt w s.disk lba) = true
  · obtain ⟨s₃, hcrc, hreads₃⟩ := partitionCheckGptEntryArrayCRC_eq hw (headerAt w s.disk lba) s₂
    rw [hreads.disk] at hcrc
    have hvalid : decide (ValidTable w s.disk lba) = arrayCrcMatches w (headerAt w s.disk lba) (arrayAt w s.disk lba) := by
      rw [Bool.eq_iff_iff, decide_eq_true_eq]
      exact ⟨fun hv => hv.2, fun hm => ⟨hc, hm⟩⟩
    rw [if_neg (by simp [hc]), hcrc, hvalid, arrayAt, if_pos hc, if_pos hc]
    dsimp only
    exact ⟨s₃, rfl, hreads.trans hreads₃⟩
  · rw [if_pos (by simpa using hc), decide_eq_false fun hv : ValidTable w s.disk lba => hc hv.1, if_neg hc, if_neg hc]
    exact ⟨s₂, rfl, hreads⟩

theorem partitionRestoreGptTable_eq (hsize : h.headerSize ≠ 0) (s : GptState) :
    ∃ restored s', partitionRestoreGptTable w h s = (restored, s') ∧ s'.disk = afterRestore w h s.calls s.disk ∧
      (InBuffers s → InBuffers s') := by
  obtain ⟨-, hdisk, -, -, hfilled⟩ := partitionRestoreGptTable_spec (w := w) hsize s
  generalize partitionRestoreGptTable w h s = result at *
  refine ⟨result.1, result.2, rfl, hdisk, fun hin x hx => ?_⟩
  rcases hfilled x hx with hx | heq
  · exact hin x hx
  · exact Nat.le_of_eq heq

/-! ## The table that is used -/

/-- The other table, that is checked first. -/
def otherLba (w : World) (d : Memory) : Nat :=
  if ValidTable w d primaryPartHeaderLba then (tableHeader w d).alternateLba else w.lastBlock

/-- The first call of a restore, when the discovery begins with call `calls`. -/
def restoreCalls (w : World) (d : Memory) (calls : Nat) : Nat :=
  calls + 4 + (checkCalls w d primaryPartHeaderLba + checkCalls w d (otherLba w d))

/-- The disk after what was written of a restore. -/
def recoveredDisk (w : World) (d : Memory) (calls : Nat) : Memory :=
  afterRestore w (tableHeader w d) (restoreCalls w d calls) d

/-- The header lists the entries of the valid table. -/
structure Lists (w : World) (d d' : Memory) (h : Header) : Prop where
  number : h.numberOfPartitionEntries = (tableHeader w d).numberOfPartitionEntries
  size : h.sizeOfPartitionEntry = (tableHeader w d).sizeOfPartitionEntry
  firstUsable : h.firstUsableLba = (tableHeader w d).firstUsableLba
  lastUsable : h.lastUsableLba = (tableHeader w d).lastUsableLba
  array : read d' (blockOffset w h.partitionEntryLba) h.arraySize = arrayAt w d (tableLba w d)

/-- Of a valid primary table the entry array is still there after what was written. A valid backup is listed by the block
at its `AlternateLBA` then, or by what the first check left if that block is no header. -/
structure Recovers (w : World) (d : Memory) (calls : Nat) : Prop where
  primary : ValidTable w d primaryPartHeaderLba → ValidTable w d (tableHeader w d).alternateLba ∨
    read (recoveredDisk w d calls) (blockOffset w (tableHeader w d).partitionEntryLba) (tableHeader w d).arraySize =
      arrayAt w d (tableLba w d)
  backup : ¬ValidTable w d primaryPartHeaderLba →
    Lists w d (recoveredDisk w d calls) (leftHeader w (recoveredDisk w d calls) (tableHeader w d).alternateLba
      (leftHeader w d primaryPartHeaderLba zeroPool))

theorem restoredHeader_usable (w : World) (hsize : h.headerSize ≠ 0) :
    Header.firstUsableLba (restoredHeader w h) = h.firstUsableLba ∧
    Header.lastUsableLba (restoredHeader w h) = h.lastUsableLba := by
  have hcopy (a k : Nat) (ha : 40 ≤ a) (hk : a + k ≤ 72) : readLE (restoredHeader w h) a k = readLE h a k :=
    (restoredHeader_field w hsize (.inr (by omega))).trans
      (restoredFields_field h (.inr ha) (.inl hk) (Nat.le_trans hk (by decide)))
  exact ⟨hcopy 40 8 (by decide) (by decide), hcopy 48 8 (by decide) (by decide)⟩

theorem tableHeader_valid (hv : ValidTable w d primaryPartHeaderLba ∨ ValidTable w d w.lastBlock) :
    ValidTable w d (tableLba w d) := by
  unfold tableLba
  split
  · assumption
  · exact hv.resolve_left ‹_›

/-- What is written apart from the valid table, and all of it if only the backup is valid. -/
theorem recovers_of_apart {calls : Nat} (hb : sizeofPartitionTableHeader ≤ w.blockSize)
    (hv : ValidTable w d primaryPartHeaderLba ∨ ValidTable w d w.lastBlock)
    (hapart : RestoresApart w (tableHeader w d) (restoreCalls w d calls))
    (hcomplete : ValidTable w d primaryPartHeaderLba ∨ Completes w (restoreCalls w d calls)) : Recovers w d calls := by
  have hvalid := tableHeader_valid hv
  have hkept : ∀ i, InTable w (tableHeader w d) i → recoveredDisk w d calls i = d i := by
    intro i hi
    unfold recoveredDisk
    exact afterRestore_table hapart hi
  refine ⟨fun _ => .inr (read_congr _ _ _ _ fun i h₁ h₂ => hkept i (.inr ⟨h₁, h₂⟩)), fun hp => ?_⟩
  have hall := hcomplete.resolve_left hp
  have hheader : ∀ i, (arrayRange w (tableHeader w d) (tableHeader w d).partitionEntryLba).Has i →
      headerWritten w (tableHeader w d) d i = d i := by
    intro i hi
    refine headerWritten_outside fun hwrite => hapart.header i ⟨hall.1.1, hwrite, ?_⟩ (.inr hi)
    exact transfers_of_complete hall.1.2.1 i
  obtain ⟨hrestored, hat, harray⟩ := restored_valid hvalid
    (show headerAt w d (tableLba w d) = tableHeader w d from rfl) hb (hapart.restored hall) hheader
  have hdisk : recoveredDisk w d calls =
      arrayWritten w (tableHeader w d) (headerWritten w (tableHeader w d) d) := afterRestore_complete hall
  rw [← hdisk] at hrestored hat harray
  have hleft : leftHeader w (recoveredDisk w d calls) (tableHeader w d).alternateLba
      (leftHeader w d primaryPartHeaderLba zeroPool) = restoredHeader w (tableHeader w d) := by
    unfold leftHeader
    rw [if_pos hrestored.1]
    exact hat
  obtain ⟨hnumber, hentry, -, -⟩ := restoredHeader_array w (h := tableHeader w d) hvalid.headerSize
  obtain ⟨hfirst, hlast⟩ := restoredHeader_usable w (h := tableHeader w d) hvalid.headerSize
  rw [hleft]
  refine ⟨hnumber, hentry, hfirst, hlast, ?_⟩
  rw [← harray, arrayAt, hat]

theorem partitionFindTable_eq (hw : Reliable w) {calls : Nat} (hcalls : s.calls = calls + 4)
    (hv : ValidTable w s.disk primaryPartHeaderLba ∨ ValidTable w s.disk w.lastBlock)
    (hrec : Recovers w s.disk calls) :
    ∃ h s', partitionFindTable w s = (some h, s') ∧ (InBuffers s → InBuffers s') ∧ Lists w s.disk s'.disk h := by
  have hvalid := tableHeader_valid hv
  obtain ⟨s₁, heq₁, hreads₁⟩ := partitionValidGptTable_eq hw primaryPartHeaderLba zeroPool s
  obtain ⟨s₂, heq₂, hreads₂⟩ := partitionValidGptTable_eq hw (otherLba w s.disk) zeroPool s₁
  rw [hreads₁.disk] at heq₂ hreads₂
  have hreads := hreads₁.trans hreads₂
  obtain ⟨restored, s₃, heq₃, hdisk₃, hin₃⟩ := partitionRestoreGptTable_eq hvalid.headerSize s₂
  have hrecovered : s₃.disk = recoveredDisk w s.disk calls := by
    rw [hdisk₃, hreads.disk, hreads.calls, hcalls]
    rfl
  unfold partitionFindTable
  rw [heq₁]
  by_cases hp : ValidTable w s.disk primaryPartHeaderLba
  · have htable : leftHeader w s.disk primaryPartHeaderLba zeroPool = tableHeader w s.disk := by
      rw [leftHeader, if_pos hp.1, tableHeader, tableLba, if_pos hp]
    have hother : otherLba w s.disk = (tableHeader w s.disk).alternateLba := if_pos hp
    rw [hother] at heq₂
    rw [decide_eq_true hp, htable]
    dsimp only
    rw [heq₂]
    by_cases ha : ValidTable w s.disk (tableHeader w s.disk).alternateLba
    · rw [decide_eq_true ha]
      refine ⟨tableHeader w s.disk, s₂, rfl, hreads.inBuffers, rfl, rfl, rfl, rfl, ?_⟩
      rw [hreads.disk]
      rfl
    · obtain ⟨s₄, heq₄, hreads₄⟩ := partitionValidGptTable_eq hw (tableHeader w s.disk).alternateLba
        (leftHeader w s.disk (tableHeader w s.disk).alternateLba zeroPool) s₃
      rw [decide_eq_false ha]
      dsimp only
      rw [show partitionRestoreGptTable w (tableHeader w s.disk) s₂ = (restored, s₃) from heq₃]
      dsimp only
      rw [heq₄]
      refine ⟨tableHeader w s.disk, s₄, rfl, fun hin => hreads₄.inBuffers (hin₃ (hreads.inBuffers hin)), rfl, rfl, rfl, rfl,
        ?_⟩
      rw [hreads₄.disk, hrecovered]
      exact (hrec.primary hp).resolve_left ha
  · have hbackup := hv.resolve_left hp
    have hother : otherLba w s.disk = w.lastBlock := if_neg hp
    have htable : leftHeader w s.disk w.lastBlock zeroPool = tableHeader w s.disk := by
      rw [leftHeader, if_pos hbackup.1, tableHeader, tableLba, if_neg hp]
    rw [hother] at heq₂
    obtain ⟨s₄, heq₄, hreads₄⟩ := partitionValidGptTable_eq hw (tableHeader w s.disk).alternateLba
      (leftHeader w s.disk primaryPartHeaderLba zeroPool) s₃
    rw [decide_eq_false hp]
    dsimp only
    rw [heq₂, decide_eq_true hbackup, htable]
    dsimp only
    rw [show partitionRestoreGptTable w (tableHeader w s.disk) s₂ = (restored, s₃) from heq₃]
    dsimp only
    rw [heq₄]
    dsimp only
    refine ⟨_, s₄, rfl, fun hin => hreads₄.inBuffers (hin₃ (hreads.inBuffers hin)), ?_⟩
    rw [hreads₄.disk, hrecovered]
    exact hrec.backup hp

/-! ## The entries in the buffer -/

theorem entryAt_congr {m m' : Memory} {a b : Nat} (hm : ∀ k < 56, m (a + k) = m' (b + k)) : entryAt m a = entryAt m' b := by
  have hread (o n : Nat) (hle : o + n ≤ 56) : read m (a + o) n = read m' (b + o) n :=
    read_eq_of_forall fun j hj => by
      rw [Nat.add_assoc, Nat.add_assoc]
      exact hm (o + j) (by omega)
  unfold entryAt readLE
  rw [hread 16 16 (by decide), hread 32 8 (by decide), hread 40 8 (by decide), hread 48 8 (by decide),
    show read m a 16 = read m' b 16 from hread 0 16 (by decide)]

/-- The bytes of entry `i` are also where the driver looks for them, that steps by the size of the structure. -/
def EntriesFound (w : World) (d : Memory) : Prop :=
  ∀ i < (tableHeader w d).numberOfPartitionEntries,
    sizeofPartitionEntry * i + 56 ≤ (tableHeader w d).arraySize ∧
    ∀ k < 56, d (blockOffset w (tableHeader w d).partitionEntryLba + (sizeofPartitionEntry * i + k)) =
      d (blockOffset w (tableHeader w d).partitionEntryLba + i * (tableHeader w d).sizeOfPartitionEntry + k)

theorem entryAt_buffer (garbage : Memory) (hfound : EntriesFound w d) {i : Nat}
    (hi : i < (tableHeader w d).numberOfPartitionEntries) :
    entryAt (write garbage 0 (arrayAt w d (tableLba w d))) (sizeofPartitionEntry * i) = tableEntry w d i := by
  obtain ⟨hin, hbytes⟩ := hfound i hi
  unfold tableEntry
  refine entryAt_congr fun k hk => ?_
  have hlen : (arrayAt w d (tableLba w d)).length = (tableHeader w d).arraySize := read_length ..
  have hat := at_getElem _ 0 _ (write_at garbage 0 (arrayAt w d (tableLba w d))) (sizeofPartitionEntry * i + k)
    (by rw [hlen]; omega)
  rw [Nat.zero_add] at hat
  rw [hat, ← hbytes k hk]
  unfold arrayAt
  rw [read_getElem]
  rfl

/-- So are those of entries of the size of the structure. -/
theorem entriesFound_of_size (hsize : (tableHeader w d).sizeOfPartitionEntry = sizeofPartitionEntry)
    (hlt : (tableHeader w d).numberOfPartitionEntries * sizeofPartitionEntry < 2 ^ 32) : EntriesFound w d := by
  intro i hi
  have harray : (tableHeader w d).arraySize = (tableHeader w d).numberOfPartitionEntries * sizeofPartitionEntry := by
    rw [Header.arraySize, hsize]
    exact Nat.mod_eq_of_lt hlt
  refine ⟨?_, fun k hk => ?_⟩
  · rw [harray]
    unfold sizeofPartitionEntry
    omega
  · rw [hsize, Nat.mul_comm i, Nat.add_assoc]

theorem eligible_congr {h' : Header} (hfirst : h'.firstUsableLba = h.firstUsableLba)
    (hlast : h'.lastUsableLba = h.lastUsableLba) (e : PartitionEntry) : Eligible h' e ↔ Eligible h e := by
  unfold Eligible InRange
  rw [hfirst, hlast]

theorem marked_congr {h' : Header} (hfirst : h'.firstUsableLba = h.firstUsableLba)
    (hlast : h'.lastUsableLba = h.lastUsableLba) {entry entry' : Nat → PartitionEntry} {n i : Nat} (hi : i < n)
    (hentry : ∀ j < n, entry' j = entry j) : Marked h' entry' n i ↔ Marked h entry n i := by
  unfold Marked InRange
  rw [hfirst, hlast, hentry i hi]
  refine exists_congr fun j => and_congr_right fun hj => ?_
  rw [hentry j hj]

theorem installChildren_congr {h' : Header} (hnumber : h'.numberOfPartitionEntries = h.numberOfPartitionEntries)
    (hfirst : h'.firstUsableLba = h.firstUsableLba) (hlast : h'.lastUsableLba = h.lastUsableLba)
    {entry entry' : Nat → PartitionEntry} (hentry : ∀ j < h.numberOfPartitionEntries, entry' j = entry j) :
    installChildren w h' entry' = installChildren w h entry := by
  rw [installChildren_eq, installChildren_eq, hnumber]
  have hfilter : ((List.range h.numberOfPartitionEntries).filter fun i =>
        Eligible h' (entry' i) ∧ ¬Marked h' entry' h.numberOfPartitionEntries i) =
      (List.range h.numberOfPartitionEntries).filter fun i =>
        Eligible h (entry i) ∧ ¬Marked h entry h.numberOfPartitionEntries i := by
    refine List.filter_congr fun i hi => decide_eq_decide.mpr ?_
    have hi := List.mem_range.mp hi
    rw [hentry i hi, eligible_congr hfirst hlast, marked_congr hfirst hlast hi hentry]
  rw [hfilter]
  refine List.map_congr_left fun i hi => ?_
  rw [hentry i (List.mem_range.mp (List.mem_filter.mp hi).1)]

/-! ## The discovery -/

theorem protectiveMbr_block (hb : 512 ≤ w.blockSize) :
    protectiveMbr (write zeroPool 0 (read d 0 w.blockSize)) = protectiveMbr d := by
  have hbyte (i : Nat) (hi : i < 512) : write zeroPool 0 (read d 0 w.blockSize) i = d i := by
    rw [write_zeroPool_read, if_pos (by omega), Nat.zero_add]
  unfold protectiveMbr
  rw [Bool.eq_iff_iff, List.any_eq_true, List.any_eq_true]
  refine exists_congr fun i => and_congr_right fun hi => ?_
  have hi := List.mem_range.mp hi
  rw [hbyte _ (by omega), hbyte _ (by omega), readLE_congr _ _ _ _ fun j _ hj => hbyte j (by omega)]

/-- The path of a disk with a valid table. -/
theorem partitionInstallGptChildHandles_eq (hw : Reliable w) (hb : 512 ≤ w.blockSize) (hmbr : protectiveMbr s.disk = true)
    (hv : ValidTable w s.disk primaryPartHeaderLba ∨ ValidTable w s.disk w.lastBlock) (hrec : Recovers w s.disk s.calls)
    (hin : InBuffers s) :
    ∃ h s₁ s' garbage, Lists w s.disk s₁.disk h ∧ InBuffers s₁ ∧
      s'.filled = (h.numberOfPartitionEntries * sizeofPartitionEntry, h.arraySize) :: s₁.filled ∧
      partitionInstallGptChildHandles w s = (.success, installChildren w h fun i =>
        entryAt (write garbage 0 (arrayAt w s.disk (tableLba w s.disk))) (sizeofPartitionEntry * i), s') := by
  obtain ⟨s₁, heq₁, hreads₁, -⟩ := allocatePool_eq hw s
  obtain ⟨s₂, heq₂, hreads₂⟩ := readDisk_reads hw 0 w.blockSize s₁
  obtain ⟨s₃, heq₃, hreads₃, -⟩ := allocatePool_eq hw s₂
  obtain ⟨s₄, heq₄, hreads₄, -⟩ := allocatePool_eq hw s₃
  have hreads := ((hreads₁.trans hreads₂).trans hreads₃).trans hreads₄
  rw [← hreads.disk] at hv hrec
  obtain ⟨h, s₅, heq₅, hin₅, hlists⟩ := partitionFindTable_eq hw hreads.calls hv hrec
  rw [hreads.disk] at hlists
  obtain ⟨s₆, heq₆, hreads₆, hfilled₆⟩ := allocatePool_eq hw s₅
  obtain ⟨s₇, heq₇, -, -, hfilled₇⟩ := readDisk_eq hw (blockOffset w h.partitionEntryLba) h.arraySize
    (h.numberOfPartitionEntries * sizeofPartitionEntry) s₆
  obtain ⟨s₈, heq₈, hreads₈, hfilled₈⟩ := allocatePool_eq hw s₇
  refine ⟨h, s₅, s₈, w.garbage s₆.calls, hlists, hin₅ (hreads.inBuffers hin), ?_, ?_⟩
  · rw [hfilled₈, hfilled₇, hfilled₆]
  unfold partitionInstallGptChildHandles
  rw [heq₁]
  dsimp only
  rw [heq₂, hreads₁.disk]
  dsimp only
  rw [protectiveMbr_block hb, if_neg (by simp [hmbr]), heq₃]
  dsimp only
  rw [heq₄]
  dsimp only
  rw [heq₅]
  dsimp only
  rw [heq₆]
  dsimp only
  rw [heq₇, hreads₆.disk, hlists.array]
  dsimp only
  rw [heq₈]

section
variable (calls : Nat) (hw : Reliable w) (hb : 512 ≤ w.blockSize) (hmbr : protectiveMbr d = true)
  (hv : ValidTable w d primaryPartHeaderLba ∨ ValidTable w d w.lastBlock) (hrec : Recovers w d calls)
include hw hb hmbr hv hrec

/-- The entry array is longer than as many structures. -/
theorem not_discovers_of_long
    (hlt : (tableHeader w d).numberOfPartitionEntries * sizeofPartitionEntry < (tableHeader w d).arraySize) :
    ¬Discovers w d (partitionInstallGptChildHandles w ⟨d, calls, [], [], []⟩) := by
  obtain ⟨h', s₁, s', garbage, hlists, -, hfilled, heq⟩ :=
    partitionInstallGptChildHandles_eq (s := ⟨d, calls, [], [], []⟩) hw hb hmbr hv hrec nofun
  rw [heq]
  intro hdiscovers
  have hmem : (h'.numberOfPartitionEntries * sizeofPartitionEntry, h'.arraySize) ∈ s'.filled := by
    rw [hfilled]
    exact List.mem_cons_self
  have hle : h'.arraySize ≤ h'.numberOfPartitionEntries * sizeofPartitionEntry := hdiscovers.inBuffers _ hmem
  rw [arraySize_eq hlists.number hlists.size, hlists.number] at hle
  exact Nat.not_le_of_lt hlt hle

/-- The children are right just when no entry that should be a child is marked. -/
theorem discovers_iff (hfound : EntriesFound w d)
    (hfit : (tableHeader w d).arraySize ≤ (tableHeader w d).numberOfPartitionEntries * sizeofPartitionEntry) :
    Discovers w d (partitionInstallGptChildHandles w ⟨d, calls, [], [], []⟩) ↔
      ∀ i < (tableHeader w d).numberOfPartitionEntries,
        Exposed (tableHeader w d) (tableEntry w d) (tableHeader w d).numberOfPartitionEntries i →
          ¬Marked (tableHeader w d) (tableEntry w d) (tableHeader w d).numberOfPartitionEntries i := by
  obtain ⟨h', s₁, s', garbage, hlists, hin₁, hfilled, heq⟩ :=
    partitionInstallGptChildHandles_eq (s := ⟨d, calls, [], [], []⟩) hw hb hmbr hv hrec nofun
  have hchildren : (installChildren w h' fun i =>
      entryAt (write garbage 0 (arrayAt w d (tableLba w d))) (sizeofPartitionEntry * i)) =
        installChildren w (tableHeader w d) (tableEntry w d) :=
    installChildren_congr hlists.number hlists.firstUsable hlists.lastUsable fun j hj => entryAt_buffer garbage hfound hj
  have hfit' : h'.arraySize ≤ h'.numberOfPartitionEntries * sizeofPartitionEntry := by
    rwa [arraySize_eq hlists.number hlists.size, hlists.number]
  rw [heq, hchildren, ← installChildren_iff w]
  constructor
  · intro hdiscovers
    have hright := hdiscovers.children
    dsimp only at hright
    exact hright
  · intro hright
    refine ⟨rfl, ?_, ?_, hin₁.cons hfilled hfit'⟩
    · dsimp only
      exact hright
    · dsimp only
      exact installChildren_disjoint w (tableHeader w d) (tableEntry w d)

end

/-- Blocks of 512 bytes. -/
def gptWorld : World := { sampleWorld with blockSize := 512 }

/-- A disk that is protected against writes. -/
def protectedWorld : World := { gptWorld with writeDisk := fun _ => some fun _ => false }

theorem gptWorld_reliable : Reliable gptWorld := ⟨fun _ => rfl, fun _ => rfl⟩

theorem protectedWorld_reliable : Reliable protectedWorld := ⟨fun _ => rfl, fun _ => rfl⟩

def gptEntry (first last attributes : Nat) : List UInt8 :=
  List.replicate 32 7 ++ toLE 8 first ++ toLE 8 last ++ toLE 8 attributes ++ List.replicate 72 0

/-- A header at block 1, for an array at block 2. -/
def gptTable (crc32 number size arrayCrc32 : Nat) : List UInt8 :=
  toLE 8 efiPtabHeaderId ++ toLE 4 0x00010000 ++ toLE 4 92 ++ toLE 4 crc32 ++ toLE 4 0 ++ toLE 8 1 ++
    toLE 8 7 ++ toLE 8 3 ++ toLE 8 4 ++ toLE 16 0 ++ toLE 8 2 ++ toLE 4 number ++ toLE 4 size ++ toLE 4 arrayCrc32

/-- The protective record of the MBR, the header and the array. -/
def gptDisk (table array : List UInt8) : Memory :=
  write (write (write zeroPool 446 ([0, 0, 0, 0, 0xEE, 0, 0, 0] ++ toLE 4 1)) 512 table) 1024 array

/-- One entry for each of the blocks 3 and 4. -/
def apartArray : List UInt8 := gptEntry 3 3 0 ++ gptEntry 4 4 0

/-- The second entry is of an operating system, and meets the first one. -/
def osArray : List UInt8 := gptEntry 3 3 0 ++ gptEntry 3 4 2

/-- An entry of 256 bytes. -/
def longArray : List UInt8 := gptEntry 3 3 0 ++ List.replicate 128 0

def apartDisk : Memory := gptDisk (gptTable 2697880251 2 128 1294373079) apartArray
def osDisk : Memory := gptDisk (gptTable 2271704247 2 128 99289968) osArray
def longDisk : Memory := gptDisk (gptTable 153103021 1 256 1984866222) longArray

/-- A valid primary table with the usable blocks 3 and 4, and 256 bytes of entries at block 2. -/
structure Sample (w : World) (d : Memory) (number size : Nat) : Prop where
  mbr : protectiveMbr d = true
  valid : ValidTable w d 1
  header : tableHeader w d = headerAt w d 1
  number_eq : (tableHeader w d).numberOfPartitionEntries = number
  size_eq : (tableHeader w d).sizeOfPartitionEntry = size
  firstUsable : (tableHeader w d).firstUsableLba = 3
  lastUsable : (tableHeader w d).lastUsableLba = 4
  recovers (calls : Nat) : Recovers w d calls
  entry (i : Nat) : tableEntry w d i = entryAt d (1024 + i * size)

theorem Sample.of_fields {number size : Nat} (hb : w.blockSize = 512) (hmbr : protectiveMbr d = true)
    (hvalid : ValidTable w d 1) (hnumber : (headerAt w d 1).numberOfPartitionEntries = number)
    (hsize : (headerAt w d 1).sizeOfPartitionEntry = size)
    (hfirst : (headerAt w d 1).firstUsableLba = 3) (hlast : (headerAt w d 1).lastUsableLba = 4)
    (halternate : (headerAt w d 1).alternateLba = 7) (hentries : (headerAt w d 1).partitionEntryLba = 2)
    (harray : uint32 (number * size) = 256) : Sample w d number size := by
  have hheader : tableHeader w d = headerAt w d 1 := by
    rw [tableHeader, tableLba, if_pos (show ValidTable w d primaryPartHeaderLba from hvalid)]
    rfl
  have hmy := hvalid.myLba
  have hbytes : (headerAt w d 1).arraySize = 256 := by
    rw [Header.arraySize, hnumber, hsize]
    exact harray
  have hentry : restoredEntryLba (headerAt w d 1) = 5 := by
    rw [restoredEntryLba, hmy, hlast]
    rfl
  have hoffset (lba : Nat) (hlba : lba < 8) : blockOffset w lba = lba * 512 := by
    rw [blockOffset, hb]
    exact Nat.mod_eq_of_lt (by omega)
  have hin : ∀ i, InTable w (headerAt w d 1) i → i < 1280 := by
    rintro i (hi | hi)
    all_goals
      have hlt := hi.2
      simp only [headerRange, arrayRange, hmy, hentries, hbytes, hb, hoffset 1 (by decide), hoffset 2 (by decide)] at hlt
      omega
  refine ⟨hmbr, hvalid, hheader, ?_, ?_, ?_, ?_, fun calls => ?_, ?_⟩
  · rw [hheader, hnumber]
  · rw [hheader, hsize]
  · rw [hheader, hfirst]
  · rw [hheader, hlast]
  · refine recovers_of_apart (by rw [hb]; decide) (.inl hvalid) ?_ (.inl hvalid)
    rw [hheader]
    refine ⟨fun i hi hmem => ?_, .inr fun i hi hmem => ?_, fun _ => .of_le ?_⟩
    · have hlow := hi.2.1.1
      simp only [headerRange, halternate, hoffset 7 (by decide)] at hlow
      have hlt := hin i hmem
      omega
    · have hlow := hi.2.1.1
      simp only [arrayRange, hentry, hoffset 5 (by decide)] at hlow
      have hlt := hin i hmem
      omega
    · simp only [headerRange, arrayRange, halternate, hentry, hbytes, hb, hoffset 5 (by decide), hoffset 7 (by decide)]
      decide
  · intro i
    rw [tableEntry, hheader, hentries, hsize, hoffset 2 (by decide)]

theorem apartDisk_sample : Sample protectedWorld apartDisk 2 128 :=
  .of_fields rfl (by decide +kernel) (by decide +kernel) (by decide +kernel) (by decide +kernel) (by decide +kernel)
    (by decide +kernel) (by decide +kernel) (by decide +kernel) (by decide +kernel)

theorem osDisk_sample : Sample gptWorld osDisk 2 128 :=
  .of_fields rfl (by decide +kernel) (by decide +kernel) (by decide +kernel) (by decide +kernel) (by decide +kernel)
    (by decide +kernel) (by decide +kernel) (by decide +kernel) (by decide +kernel)

theorem longDisk_sample : Sample gptWorld longDisk 1 256 :=
  .of_fields rfl (by decide +kernel) (by decide +kernel) (by decide +kernel) (by decide +kernel) (by decide +kernel)
    (by decide +kernel) (by decide +kernel) (by decide +kernel) (by decide +kernel)

end Udk.Partition
