import Udk.Partition.Gpt

/-! # A table is restored from the other one -/

namespace Udk.Partition

open Bytes
open DiskIo (EfiStatus uint32 uint64)

variable {w : World} {d d' : Memory} {h : Header} {s : GptState}

/-! ## Ranges of the disk -/

/-- An offset and a length. -/
abbrev DiskRange := Nat × Nat

def DiskRange.Has (r : DiskRange) (i : Nat) : Prop := r.1 ≤ i ∧ i < r.1 + r.2

def DiskRange.Apart (r r' : DiskRange) : Prop := ∀ i, DiskRange.Has r i → ¬DiskRange.Has r' i

def headerRange (w : World) (lba : Nat) : DiskRange := (blockOffset w lba, w.blockSize)

/-- As many bytes as the entry array of the header, from a block on. -/
def arrayRange (w : World) (h : Header) (lba : Nat) : DiskRange := (blockOffset w lba, h.arraySize)

/-- The blocks for partitions. -/
def usableRange (w : World) (h : Header) : DiskRange :=
  (h.firstUsableLba * w.blockSize, (h.lastUsableLba + 1 - h.firstUsableLba) * w.blockSize)

/-- The header and the entry array of a table. -/
def InTable (w : World) (h : Header) (i : Nat) : Prop :=
  (headerRange w h.myLba).Has i ∨ (arrayRange w h h.partitionEntryLba).Has i

/-! ## The writes that are made

`calls` is the number of the first call of the restore: a buffer, the header, a buffer, what the entries are read from, and
where they are written.
-/

/-- Byte `i` is transferred if it is in the range of the write of call `n`. -/
def transfers (w : World) (n i : Nat) : Bool := (w.writeDisk n).all (· i)

/-- Byte `i` is written with the header. -/
def HeaderWrites (w : World) (h : Header) (calls i : Nat) : Prop :=
  w.allocatePool calls = true ∧ (headerRange w h.alternateLba).Has i ∧ transfers w (calls + 1) i = true

/-- The services up to the write of the entries succeed. -/
def ReachesEntries (w : World) (calls : Nat) : Prop :=
  w.allocatePool calls = true ∧ (w.writeDisk (calls + 1)).isNone = true ∧ w.allocatePool (calls + 2) = true ∧
    w.readDisk (calls + 3) = .success

/-- Byte `i` is written with the entries. -/
def EntriesWrite (w : World) (h : Header) (calls i : Nat) : Prop :=
  ReachesEntries w calls ∧ (arrayRange w h (restoredEntryLba h)).Has i ∧ transfers w (calls + 4) i = true

def Completes (w : World) (calls : Nat) : Prop := ReachesEntries w calls ∧ (w.writeDisk (calls + 4)).isNone = true

/-- What is written is apart from the surviving table, and the entries from the header that was written. The entries may
also be written to where they are. -/
structure RestoresApart (w : World) (h : Header) (calls : Nat) : Prop where
  header : ∀ i, HeaderWrites w h calls i → ¬InTable w h i
  entries : blockOffset w (restoredEntryLba h) = blockOffset w h.partitionEntryLba ∨
    ∀ i, EntriesWrite w h calls i → ¬InTable w h i
  restored : Completes w calls → (arrayRange w h (restoredEntryLba h)).Apart (headerRange w h.alternateLba)

/-- What is written is apart from the usable blocks. -/
def RestoresOutside (w : World) (h : Header) (calls : Nat) : Prop :=
  ∀ i, HeaderWrites w h calls i ∨ EntriesWrite w h calls i → ¬(usableRange w h).Has i

instance DiskRange.instDecidableHas (r : DiskRange) (i : Nat) : Decidable (DiskRange.Has r i) :=
  inferInstanceAs (Decidable (r.1 ≤ i ∧ i < r.1 + r.2))

instance decidableHeaderWrites (w : World) (h : Header) (calls i : Nat) : Decidable (HeaderWrites w h calls i) :=
  inferInstanceAs (Decidable (_ ∧ _ ∧ _))

instance decidableReachesEntries (w : World) (calls : Nat) : Decidable (ReachesEntries w calls) :=
  inferInstanceAs (Decidable (_ ∧ _ ∧ _ ∧ _))

instance decidableEntriesWrite (w : World) (h : Header) (calls i : Nat) : Decidable (EntriesWrite w h calls i) :=
  inferInstanceAs (Decidable (_ ∧ _ ∧ _))

theorem transfers_of_complete {n : Nat} (h : (w.writeDisk n).isNone = true) (i : Nat) : transfers w n i = true := by
  unfold transfers
  rw [Option.isNone_iff_eq_none.mp h]
  rfl

theorem DiskRange.Apart.of_le {r r' : DiskRange} (h : r.1 + r.2 ≤ r'.1 ∨ r'.1 + r'.2 ≤ r.1) : DiskRange.Apart r r' := by
  rintro i ⟨h₁, h₂⟩ ⟨h₃, h₄⟩
  omega

/-! ## Valid tables -/

def blockAt (w : World) (d : Memory) (lba : Nat) : Header := write zeroPool 0 (read d (blockOffset w lba) w.blockSize)

def headerAt (w : World) (d : Memory) (lba : Nat) : Header := copyHeader (blockAt w d lba)

/-- The entry array of the table at `lba`. -/
def arrayAt (w : World) (d : Memory) (lba : Nat) : List UInt8 :=
  read d (blockOffset w (headerAt w d lba).partitionEntryLba) (headerAt w d lba).arraySize

/-- What `PartitionValidGptTable` checks. -/
def ValidTable (w : World) (d : Memory) (lba : Nat) : Prop :=
  checkHeader w lba (blockAt w d lba) = true ∧ arrayCrcMatches w (headerAt w d lba) (arrayAt w d lba) = true

instance (lba : Nat) : Decidable (ValidTable w d lba) := inferInstanceAs (Decidable (_ ∧ _))

/-- The two tables list the same entries. -/
structure SameEntries (w : World) (d : Memory) (lba lba' : Nat) : Prop where
  number : (headerAt w d lba').numberOfPartitionEntries = (headerAt w d lba).numberOfPartitionEntries
  size : (headerAt w d lba').sizeOfPartitionEntry = (headerAt w d lba).sizeOfPartitionEntry
  bytes : arrayAt w d lba' = arrayAt w d lba

/-- What is expected of a restore, with a loss of power after each write. -/
structure RestoreSafe (w : World) (h : Header) (d : Memory) (result : Bool × GptState) : Prop where
  survivor : ∀ d' ∈ result.2.disks, ∀ i, InTable w h i → d' i = d i
  usable : ∀ x ∈ result.2.writes, ∀ i, DiskRange.Has x.2 i → transfers w x.1 i = true → ¬(usableRange w h).Has i
  valid : ∀ d' ∈ d :: result.2.disks, ValidTable w d' h.myLba
  restored : result.1 = true →
    ValidTable w result.2.disk h.myLba ∧ ValidTable w result.2.disk h.alternateLba ∧
      SameEntries w result.2.disk h.myLba h.alternateLba

/-! ## The fields of a buffer -/

theorem write_zeroPool_read (m : Memory) (a n i : Nat) :
    write zeroPool 0 (read m a n) i = if i < n then m (a + i) else 0 := by
  unfold write zeroPool
  rw [read_length, Nat.sub_zero, Nat.zero_add]
  by_cases hi : i < n
  · have hlt : i < (read m a n).length := by rwa [read_length]
    rw [if_pos ⟨Nat.zero_le _, hi⟩, if_pos hi, List.getD_eq_getElem _ _ hlt, read_getElem]
  · rw [if_neg fun hor => hi hor.2, if_neg hi]

/-- A buffer that is 0 behind the header. -/
def Short (h : Header) : Prop := ∀ i, sizeofPartitionTableHeader ≤ i → h i = 0

theorem copyHeader_short (h : Header) : Short (copyHeader h) := by
  intro i hi
  rw [copyHeader, write_zeroPool_read, if_neg (by omega)]

theorem copyHeader_of_short (h : Short d) : copyHeader d = d := by
  funext i
  rw [copyHeader, write_zeroPool_read, Nat.zero_add]
  split
  · rfl
  · exact (h i (by omega)).symm

theorem Short.field (hs : Short h) (a k n : Nat) (ha : a + k ≤ sizeofPartitionTableHeader) :
    Short (write h a (toLE k n)) := by
  intro i hi
  rw [write_outside h a _ i (by rw [toLE_length]; omega)]
  exact hs i hi

theorem blockAt_apply (w : World) (d : Memory) (lba i : Nat) :
    blockAt w d lba i = if i < w.blockSize then d (blockOffset w lba + i) else 0 :=
  write_zeroPool_read d _ _ i

theorem copyHeader_field (h : Header) {a k : Nat} (ha : a + k ≤ sizeofPartitionTableHeader) :
    readLE (copyHeader h) a k = readLE h a k := by
  refine readLE_congr _ _ a k fun i _ hi => ?_
  rw [copyHeader, write_zeroPool_read, if_pos (by omega), Nat.zero_add]

theorem headerAt_field (w : World) (d : Memory) (lba a k : Nat) (ha : a + k ≤ sizeofPartitionTableHeader) :
    readLE (headerAt w d lba) a k = readLE (blockAt w d lba) a k :=
  copyHeader_field _ ha

/-! ## The checks -/

theorem checkHeader_iff (w : World) (lba : Nat) (h : Header) :
    checkHeader w lba h = true ↔
      h.signature = efiPtabHeaderId ∧ partitionCheckCrc w w.blockSize h = true ∧ h.myLba = lba := by
  simp [checkHeader]

theorem calculateCrc32_read (w : World) (m : Memory) (a n : Nat) (hn : n ≠ 0) :
    calculateCrc32 w (read m a n) = some (w.crc32 (read m a n)) := by
  unfold calculateCrc32
  rw [if_neg]
  intro hnil
  exact hn ((read_length m a n).symm.trans (congrArg List.length hnil))

theorem partitionCheckCrc_iff (w : World) (maxSize : Nat) (h : Header) :
    partitionCheckCrc w maxSize h = true ↔
      h.headerSize ≠ 0 ∧ (maxSize = 0 ∨ h.headerSize ≤ maxSize) ∧
        h.crc32 = (w.crc32 (read (write h 16 (toLE 4 0)) 0 h.headerSize)).toNat := by
  unfold partitionCheckCrc
  dsimp only
  by_cases hz : h.headerSize = 0
  · simp [hz]
  rw [if_neg hz, calculateCrc32_read w _ 0 _ hz]
  by_cases hm : maxSize ≠ 0 ∧ h.headerSize > maxSize
  · rw [if_pos hm]
    simp only [Bool.false_eq_true, false_iff]
    rintro ⟨-, hor, -⟩
    omega
  · rw [if_neg hm, decide_eq_true_eq]
    exact ⟨fun heq => ⟨hz, by omega, heq⟩, fun hall => hall.2.2⟩

theorem ValidTable.myLba {lba : Nat} (hv : ValidTable w d lba) : (headerAt w d lba).myLba = lba := by
  have hmy := ((checkHeader_iff w lba _).mp hv.1).2.2
  exact (headerAt_field w d lba 24 8 (by decide)).trans hmy

theorem ValidTable.headerSize {lba : Nat} (hv : ValidTable w d lba) : (headerAt w d lba).headerSize ≠ 0 := by
  have hcrc := ((checkHeader_iff w lba _).mp hv.1).2.1
  have hsize := ((partitionCheckCrc_iff w _ _).mp hcrc).1
  have hsame : (headerAt w d lba).headerSize = (blockAt w d lba).headerSize := headerAt_field w d lba 12 4 (by decide)
  rwa [hsame]

/-! ## A table depends on its own bytes -/

theorem blockAt_congr {lba : Nat} (hd : ∀ i, (headerRange w lba).Has i → d' i = d i) :
    blockAt w d' lba = blockAt w d lba := by
  funext i
  rw [blockAt_apply, blockAt_apply]
  split
  · exact hd _ ⟨Nat.le_add_right _ _, Nat.add_lt_add_left ‹_› _⟩
  · rfl

theorem headerAt_congr {lba : Nat} (hd : ∀ i, (headerRange w lba).Has i → d' i = d i) :
    headerAt w d' lba = headerAt w d lba := by
  rw [headerAt, headerAt, blockAt_congr hd]

/-- The rest of the disk may change. -/
theorem ValidTable.congr {lba : Nat} (hv : ValidTable w d lba)
    (hheader : ∀ i, (headerRange w lba).Has i → d' i = d i)
    (harray : ∀ i, (arrayRange w (headerAt w d lba) (headerAt w d lba).partitionEntryLba).Has i → d' i = d i) :
    ValidTable w d' lba ∧ arrayAt w d' lba = arrayAt w d lba := by
  have hh := headerAt_congr hheader
  have ha : arrayAt w d' lba = arrayAt w d lba := by
    unfold arrayAt
    rw [hh]
    exact read_congr _ _ _ _ fun i h1 h2 => harray i ⟨h1, h2⟩
  refine ⟨⟨?_, ?_⟩, ha⟩
  · rw [blockAt_congr hheader]
    exact hv.1
  · rw [hh, ha]
    exact hv.2

/-! ## The restored header -/

theorem partitionSetCrc_eq (w : World) (h : Header) (hsize : h.headerSize ≠ 0) :
    partitionSetCrc w h =
      write (write h 16 (toLE 4 0)) 16
        (toLE 4 (w.crc32 (read (write h 16 (toLE 4 0)) 0 h.headerSize)).toNat) := by
  have heq : Header.headerSize (write h 16 (toLE 4 0)) = h.headerSize :=
    readLE_write_other h 12 16 4 _ (.inr (by decide))
  unfold partitionSetCrc
  dsimp only
  rw [heq, calculateCrc32_read w _ 0 _ hsize]

/-- The fields outside of the sum stay. -/
theorem partitionSetCrc_field (w : World) (h : Header) (hsize : h.headerSize ≠ 0) {a k : Nat}
    (ha : a + k ≤ 16 ∨ 20 ≤ a) : readLE (partitionSetCrc w h) a k = readLE h a k := by
  rw [partitionSetCrc_eq w h hsize, readLE_write_other _ a 16 k _ (by rw [toLE_length]; omega),
    readLE_write_other _ a 16 k _ (by rw [toLE_length]; omega)]

/-- A sum that is set is the one that is checked. -/
theorem partitionSetCrc_checked (w : World) (h : Header) (maxSize : Nat) (hsize : h.headerSize ≠ 0)
    (hmax : maxSize = 0 ∨ h.headerSize ≤ maxSize) : partitionCheckCrc w maxSize (partitionSetCrc w h) = true := by
  have hsame : Header.headerSize (partitionSetCrc w h) = h.headerSize :=
    partitionSetCrc_field w h hsize (.inl (by decide))
  have hclear : write (partitionSetCrc w h) 16 (toLE 4 0) = write h 16 (toLE 4 0) := by
    funext i
    rw [partitionSetCrc_eq w h hsize]
    unfold write
    simp only [toLE_length]
    split <;> rfl
  rw [partitionCheckCrc_iff, hsame, hclear]
  refine ⟨hsize, hmax, ?_⟩
  rw [partitionSetCrc_eq w h hsize]
  exact readLE_write_same _ 16 4 _ (UInt32.toNat_lt _)

/-- The fields that are copied. -/
theorem restoredFields_field (h : Header) {a k : Nat} (ha : a + k ≤ 24 ∨ 40 ≤ a)
    (ha' : a + k ≤ 72 ∨ 80 ≤ a) (hk : a + k ≤ sizeofPartitionTableHeader) :
    readLE (restoredFields h) a k = readLE h a k := by
  unfold restoredFields
  rw [readLE_write_other _ a 72 k _ (by rw [toLE_length]; omega),
    readLE_write_other _ a 32 k _ (by rw [toLE_length]; omega),
    readLE_write_other _ a 24 k _ (by rw [toLE_length]; omega), copyHeader_field h hk]

theorem restoredEntryLba_lt (h : Header) : restoredEntryLba h < 256 ^ 8 := by
  unfold restoredEntryLba
  split
  · exact Nat.mod_lt _ (by decide)
  · decide

theorem restoredFields_myLba (h : Header) : Header.myLba (restoredFields h) = h.alternateLba := by
  have hlt : h.alternateLba < 256 ^ 8 := readLE_lt h 32 8
  unfold restoredFields Header.myLba
  rw [readLE_write_other _ 24 72 8 _ (.inr (by decide)), readLE_write_other _ 24 32 8 _ (.inr (by decide)),
    readLE_write_same _ 24 8 _ hlt]

theorem restoredFields_entryLba (h : Header) : Header.partitionEntryLba (restoredFields h) = restoredEntryLba h :=
  readLE_write_same _ 72 8 _ (restoredEntryLba_lt h)

theorem restoredFields_headerSize (h : Header) : Header.headerSize (restoredFields h) = h.headerSize :=
  restoredFields_field h (.inl (by decide)) (.inl (by decide)) (by decide)

/-- A field of the restored header outside of the sum. -/
theorem restoredHeader_field (w : World) (hsize : h.headerSize ≠ 0) {a k : Nat} (ha : a + k ≤ 16 ∨ 20 ≤ a) :
    readLE (restoredHeader w h) a k = readLE (restoredFields h) a k :=
  partitionSetCrc_field w _ (by rwa [restoredFields_headerSize]) ha

theorem restoredHeader_myLba (w : World) (hsize : h.headerSize ≠ 0) :
    Header.myLba (restoredHeader w h) = h.alternateLba :=
  (restoredHeader_field w hsize (.inr (by decide))).trans (restoredFields_myLba h)

theorem restoredHeader_short (w : World) (hsize : h.headerSize ≠ 0) : Short (restoredHeader w h) := by
  have hfields : Short (restoredFields h) :=
    (((copyHeader_short h).field 24 8 _ (by decide)).field 32 8 _ (by decide)).field 72 8 _ (by decide)
  unfold restoredHeader
  rw [partitionSetCrc_eq w _ (by rwa [restoredFields_headerSize])]
  exact (hfields.field 16 4 _ (by decide)).field 16 4 _ (by decide)

/-- The restored header passes the check at its place. -/
theorem restoredHeader_checked (hsize : h.headerSize ≠ 0) (hle : h.headerSize ≤ w.blockSize)
    (hsig : h.signature = efiPtabHeaderId) : checkHeader w h.alternateLba (restoredHeader w h) = true := by
  rw [checkHeader_iff]
  refine ⟨?_, ?_, restoredHeader_myLba w hsize⟩
  · rw [← hsig]
    exact (restoredHeader_field w hsize (.inl (by decide))).trans
      (restoredFields_field h (.inl (by decide)) (.inl (by decide)) (by decide))
  · refine partitionSetCrc_checked w _ _ ?_ ?_
    · rwa [restoredFields_headerSize]
    · rw [restoredFields_headerSize]
      exact .inr hle

/-! ## What is written -/

/-- The disk once the header has been written. -/
def headerWritten (w : World) (h : Header) (d : Memory) : Memory :=
  write d (blockOffset w h.alternateLba) (read (restoredHeader w h) 0 w.blockSize)

/-- The disk once the entries have been written as well. -/
def arrayWritten (w : World) (h : Header) (d : Memory) : Memory :=
  write d (blockOffset w (restoredEntryLba h)) (read d (blockOffset w h.partitionEntryLba) h.arraySize)

/-- The disk after what was written of the header. -/
def afterHeader (w : World) (h : Header) (calls : Nat) (d : Memory) : Memory := fun i =>
  if HeaderWrites w h calls i then headerWritten w h d i else d i

/-- The disk after what was written of the header and the entries. -/
def afterRestore (w : World) (h : Header) (calls : Nat) (d : Memory) : Memory := fun i =>
  if EntriesWrite w h calls i then arrayWritten w h (afterHeader w h calls d) i else afterHeader w h calls d i

theorem write_of_not_has (m : Memory) (bs : List UInt8) (r : DiskRange) (hl : bs.length = r.2) {i : Nat} (hi : ¬r.Has i) :
    write m r.1 bs i = m i := by
  refine write_outside m r.1 bs i ?_
  rw [hl]
  by_contra hor
  exact hi ⟨by omega, by omega⟩

/-- What a write leaves on the disk. -/
theorem writeDisk_disk (w : World) (r : DiskRange) (bytes : List UInt8) (hl : bytes.length = r.2) (s : GptState) :
    (writeDisk w r.1 bytes s).2.disk =
      fun i => if r.Has i ∧ transfers w s.calls i = true then write s.disk r.1 bytes i else s.disk i := by
  funext i
  have hout := @write_of_not_has s.disk bytes r hl i
  unfold writeDisk transfers
  cases w.writeDisk s.calls with
  | none =>
    by_cases hi : r.Has i
    · rw [if_pos ⟨hi, rfl⟩]
    · rw [if_neg fun hand => hi hand.1]
      exact hout hi
  | some transferred =>
    show (if transferred i = true then write s.disk r.1 bytes i else s.disk i) = _
    by_cases hi : r.Has i
    · simp only [hi, true_and, Option.all_some]
    · simp only [hi, false_and, hout hi, ite_self]

/-- The state after a write, with what it leaves on the disk. -/
theorem writeDisk_eq (w : World) (r : DiskRange) (bytes : List UInt8) (hl : bytes.length = r.2) (s : GptState)
    (d' : Memory) (hd : d' = fun i =>
      if r.Has i ∧ transfers w s.calls i = true then write s.disk r.1 bytes i else s.disk i) :
    writeDisk w r.1 bytes s =
      ((w.writeDisk s.calls).isNone, ⟨d', s.calls + 1, d' :: s.disks, (s.calls, r) :: s.writes, s.filled⟩) := by
  have hdisk := writeDisk_disk w r bytes hl s
  rw [← hd] at hdisk
  subst hdisk
  show ((w.writeDisk s.calls).isNone, _) = _
  rw [show (s.calls, r) = (s.calls, r.1, bytes.length) by rw [hl]]
  rfl

theorem afterHeader_eq (halloc : w.allocatePool s.calls = true) :
    afterHeader w h s.calls s.disk = fun i =>
      if (headerRange w h.alternateLba).Has i ∧ transfers w (s.calls + 1) i = true then headerWritten w h s.disk i
      else s.disk i := by
  unfold afterHeader HeaderWrites
  simp only [halloc, true_and]

theorem afterRestore_eq {d : Memory} {calls : Nat} (hreach : ReachesEntries w calls) :
    afterRestore w h calls d = fun i =>
      if (arrayRange w h (restoredEntryLba h)).Has i ∧ transfers w (calls + 4) i = true then
        arrayWritten w h (afterHeader w h calls d) i
      else afterHeader w h calls d i := by
  unfold afterRestore EntriesWrite
  simp only [hreach, true_and]

theorem afterRestore_stopped {d : Memory} {calls : Nat} (hstop : ¬ReachesEntries w calls) :
    afterRestore w h calls d = afterHeader w h calls d := by
  unfold afterRestore EntriesWrite
  simp only [hstop, false_and, if_false]

theorem afterHeader_stopped {d : Memory} {calls : Nat} (hstop : w.allocatePool calls = false) :
    afterHeader w h calls d = d := by
  unfold afterHeader HeaderWrites
  simp only [hstop, Bool.false_eq_true, false_and, if_false]

/-- The outcome of a restore, by what the services do. -/
structure Restored (w : World) (h : Header) (s : GptState) (result : Bool × GptState) : Prop where
  complete : result.1 = true ↔ Completes w s.calls
  disk : result.2.disk = afterRestore w h s.calls s.disk
  disks : result.2.disks =
    (if ReachesEntries w s.calls then [afterRestore w h s.calls s.disk] else []) ++
      (if w.allocatePool s.calls then [afterHeader w h s.calls s.disk] else []) ++ s.disks
  writes : result.2.writes =
    (if ReachesEntries w s.calls then [(s.calls + 4, arrayRange w h (restoredEntryLba h))] else []) ++
      (if w.allocatePool s.calls then [(s.calls + 1, headerRange w h.alternateLba)] else []) ++ s.writes
  filled : ∀ x ∈ result.2.filled, x ∈ s.filled ∨ x.2 = x.1

/-- A restore that stops before the entries. -/
theorem Restored.of_header {result : Bool × GptState} (hfirst : w.allocatePool s.calls = true)
    (hstop : ¬ReachesEntries w s.calls) (hfalse : result.1 = false)
    (hdisk : result.2.disk = afterHeader w h s.calls s.disk)
    (hdisks : result.2.disks = afterHeader w h s.calls s.disk :: s.disks)
    (hwrites : result.2.writes = (s.calls + 1, headerRange w h.alternateLba) :: s.writes)
    (hfilled : ∀ x ∈ result.2.filled, x ∈ s.filled ∨ x.2 = x.1) : Restored w h s result := by
  refine ⟨?_, ?_, ?_, ?_, hfilled⟩
  · simp [hfalse, Completes, hstop]
  · rw [hdisk, afterRestore_stopped hstop]
  · simp [hdisks, hstop, hfirst]
  · simp [hwrites, hstop, hfirst]

theorem partitionRestoreGptTable_spec (hsize : h.headerSize ≠ 0) (s : GptState) :
    Restored w h s (partitionRestoreGptTable w h s) := by
  unfold partitionRestoreGptTable
  simp only [allocatePool, restoredHeader_myLba w hsize]
  cases hfirst : w.allocatePool s.calls with
  | false =>
    have hstop : ¬ReachesEntries w s.calls := fun hreach => by
      rw [hreach.1] at hfirst
      cases hfirst
    refine ⟨?_, ?_, ?_, ?_, fun x hx => .inl hx⟩
    · simp [Completes, hstop]
    · rw [afterRestore_stopped hstop, afterHeader_stopped hfirst]
    · simp [hstop, hfirst]
    · simp [hstop, hfirst]
  | true =>
    have hheader : writeDisk w (blockOffset w h.alternateLba) (read (restoredHeader w h) 0 w.blockSize)
        { s with calls := s.calls + 1 } = ((w.writeDisk (s.calls + 1)).isNone,
          ⟨afterHeader w h s.calls s.disk, s.calls + 1 + 1, afterHeader w h s.calls s.disk :: s.disks,
            (s.calls + 1, headerRange w h.alternateLba) :: s.writes, s.filled⟩) :=
      writeDisk_eq w (headerRange w h.alternateLba) _ (read_length ..) { s with calls := s.calls + 1 } _
        (afterHeader_eq hfirst)
    dsimp only
    rw [hheader]
    cases hwritten : (w.writeDisk (s.calls + 1)).isNone with
    | false =>
      refine .of_header hfirst (fun hreach => ?_) rfl rfl rfl rfl fun x hx => .inl hx
      rw [hreach.2.1] at hwritten
      cases hwritten
    | true =>
      dsimp only
      cases hsecond : w.allocatePool (s.calls + 1 + 1) with
      | false =>
        refine .of_header hfirst (fun hreach => ?_) rfl rfl rfl rfl fun x hx => .inl hx
        rw [show w.allocatePool (s.calls + 1 + 1) = true from hreach.2.2.1] at hsecond
        cases hsecond
      | true =>
        dsimp only [readDisk]
        by_cases hread : w.readDisk (s.calls + 1 + 1 + 1) = .success
        swap
        · rw [if_neg hread]
          refine .of_header hfirst (fun hreach => hread hreach.2.2.2) rfl rfl rfl rfl fun x hx => ?_
          rcases List.mem_cons.mp hx with rfl | hx
          · exact .inr rfl
          · exact .inl hx
        have hreach : ReachesEntries w s.calls := ⟨hfirst, hwritten, hsecond, hread⟩
        rw [if_pos hread]
        dsimp only
        generalize hs : (⟨afterHeader w h s.calls s.disk, s.calls + 1 + 1 + 1 + 1, afterHeader w h s.calls s.disk :: s.disks,
          (s.calls + 1, headerRange w h.alternateLba) :: s.writes, (h.arraySize, h.arraySize) :: s.filled⟩ : GptState) = s₁
        have hentries := writeDisk_eq w (arrayRange w h (restoredEntryLba h))
          (read (afterHeader w h s.calls s.disk) (blockOffset w h.partitionEntryLba) h.arraySize) (read_length ..)
          s₁ (afterRestore w h s.calls s.disk) (by rw [← hs]; exact afterRestore_eq hreach)
        rw [show (blockOffset w (restoredEntryLba h)) = (arrayRange w h (restoredEntryLba h)).1 from rfl, hentries, ← hs]
        refine ⟨?_, rfl, ?_, ?_, fun x hx => ?_⟩
        · exact ⟨fun hcomplete => ⟨hreach, hcomplete⟩, fun hcomplete => hcomplete.2⟩
        · simp [hreach, hfirst]
        · simp [hreach, hfirst]
        · rcases List.mem_cons.mp hx with rfl | hx
          · exact .inr rfl
          · exact .inl hx

/-! ## The places are apart -/

theorem headerWritten_outside {i : Nat} (hi : ¬(headerRange w h.alternateLba).Has i) : headerWritten w h d i = d i :=
  write_of_not_has d _ (headerRange w h.alternateLba) (read_length ..) hi

theorem arrayWritten_outside {i : Nat} (hi : ¬(arrayRange w h (restoredEntryLba h)).Has i) : arrayWritten w h d i = d i :=
  write_of_not_has d _ (arrayRange w h (restoredEntryLba h)) (read_length ..) hi

/-- Entries that are written to where they are. -/
theorem arrayWritten_same (heq : blockOffset w (restoredEntryLba h) = blockOffset w h.partitionEntryLba) :
    arrayWritten w h d = d := by
  funext i
  unfold arrayWritten
  rw [heq]
  by_cases hi : (arrayRange w h h.partitionEntryLba).Has i
  · have hat := at_getElem _ _ _ (write_at d (blockOffset w h.partitionEntryLba)
      (read d (blockOffset w h.partitionEntryLba) h.arraySize)) (i - blockOffset w h.partitionEntryLba)
      (by rw [read_length]; have := hi.1; have := hi.2; simp only [arrayRange] at *; omega)
    rw [read_getElem] at hat
    have hsum : blockOffset w h.partitionEntryLba + (i - blockOffset w h.partitionEntryLba) = i :=
      Nat.add_sub_cancel' hi.1
    rwa [hsum] at hat
  · exact write_of_not_has d _ (arrayRange w h h.partitionEntryLba) (read_length ..) hi

section
variable {calls : Nat} (hapart : RestoresApart w h calls)
include hapart

theorem afterHeader_table {i : Nat} (hi : InTable w h i) : afterHeader w h calls d i = d i :=
  if_neg fun hwrite => hapart.header i hwrite hi

theorem afterRestore_table {i : Nat} (hi : InTable w h i) : afterRestore w h calls d i = d i := by
  refine Eq.trans ?_ (afterHeader_table hapart hi)
  unfold afterRestore
  split
  · rename_i hwrite
    rcases hapart.entries with heq | hdisjoint
    · rw [arrayWritten_same heq]
    · exact absurd hi (hdisjoint i hwrite)
  · rfl

end

/-- A restore that is complete has written all of both. -/
theorem afterRestore_complete {calls : Nat} (hcomplete : Completes w calls) :
    afterRestore w h calls d = arrayWritten w h (headerWritten w h d) := by
  obtain ⟨hreach, hentries⟩ := hcomplete
  have hheader : afterHeader w h calls d = headerWritten w h d := by
    funext i
    unfold afterHeader HeaderWrites
    simp only [hreach.1, transfers_of_complete hreach.2.1, and_true, true_and, ite_eq_left_iff]
    exact fun hi => (headerWritten_outside hi).symm
  rw [afterRestore_eq hreach, hheader]
  funext i
  simp only [transfers_of_complete hentries, and_true, ite_eq_left_iff]
  exact fun hi => (arrayWritten_outside hi).symm

/-! ## The restored table -/

theorem arraySize_eq {h' : Header} (hn : h'.numberOfPartitionEntries = h.numberOfPartitionEntries)
    (hs : h'.sizeOfPartitionEntry = h.sizeOfPartitionEntry) : h'.arraySize = h.arraySize := by
  rw [Header.arraySize, Header.arraySize, hn, hs]

theorem restoredHeader_array (w : World) (hsize : h.headerSize ≠ 0) :
    Header.numberOfPartitionEntries (restoredHeader w h) = h.numberOfPartitionEntries ∧
    Header.sizeOfPartitionEntry (restoredHeader w h) = h.sizeOfPartitionEntry ∧
    Header.partitionEntryArrayCrc32 (restoredHeader w h) = h.partitionEntryArrayCrc32 ∧
    Header.partitionEntryLba (restoredHeader w h) = restoredEntryLba h := by
  have hcopy (a k : Nat) (ha : 80 ≤ a) (hk : a + k ≤ sizeofPartitionTableHeader) :
      readLE (restoredHeader w h) a k = readLE h a k :=
    (restoredHeader_field w hsize (.inr (by omega))).trans (restoredFields_field h (.inr (by omega)) (.inr ha) hk)
  exact ⟨hcopy 80 4 (by decide) (by decide), hcopy 84 4 (by decide) (by decide), hcopy 88 4 (by decide) (by decide),
    (restoredHeader_field w hsize (.inr (by decide))).trans (restoredFields_entryLba h)⟩

/-- The block at the alternate place once both writes are complete. -/
theorem blockAt_restored (hb : sizeofPartitionTableHeader ≤ w.blockSize) (hsize : h.headerSize ≠ 0)
    (hrestored : (arrayRange w h (restoredEntryLba h)).Apart (headerRange w h.alternateLba)) :
    blockAt w (arrayWritten w h (headerWritten w h d)) h.alternateLba = restoredHeader w h := by
  funext i
  rw [blockAt_apply]
  split
  · rename_i hi
    have hmem : (headerRange w h.alternateLba).Has (blockOffset w h.alternateLba + i) :=
      ⟨Nat.le_add_right _ _, Nat.add_lt_add_left hi _⟩
    rw [arrayWritten_outside fun hentries => hrestored _ hentries hmem]
    have hat := at_getElem _ _ _ (write_at d (blockOffset w h.alternateLba) (read (restoredHeader w h) 0 w.blockSize)) i
      (by rwa [read_length])
    rw [read_getElem, Nat.zero_add] at hat
    exact hat
  · exact (restoredHeader_short w hsize i (by omega)).symm

theorem restored_valid {lba : Nat} (hv : ValidTable w d lba) (hh : headerAt w d lba = h)
    (hb : sizeofPartitionTableHeader ≤ w.blockSize)
    (hrestored : (arrayRange w h (restoredEntryLba h)).Apart (headerRange w h.alternateLba))
    (hkept : ∀ i, (arrayRange w h h.partitionEntryLba).Has i → headerWritten w h d i = d i) :
    ValidTable w (arrayWritten w h (headerWritten w h d)) h.alternateLba ∧
      headerAt w (arrayWritten w h (headerWritten w h d)) h.alternateLba = restoredHeader w h ∧
      arrayAt w (arrayWritten w h (headerWritten w h d)) h.alternateLba = arrayAt w d lba := by
  subst hh
  generalize hh : headerAt w d lba = h at hrestored hkept ⊢
  have hsize : h.headerSize ≠ 0 := hh ▸ hv.headerSize
  have hchecks := (checkHeader_iff w lba _).mp hv.1
  have hle : h.headerSize ≤ w.blockSize := by
    have hmax := ((partitionCheckCrc_iff w _ _).mp hchecks.2.1).2.1
    have hsame : h.headerSize = (blockAt w d lba).headerSize := hh ▸ headerAt_field w d lba 12 4 (by decide)
    have hpos : w.blockSize ≠ 0 := Nat.ne_of_gt (Nat.lt_of_lt_of_le (by decide) hb)
    rw [hsame]
    exact hmax.resolve_left hpos
  have hsig : h.signature = efiPtabHeaderId :=
    (hh ▸ headerAt_field w d lba 0 8 (by decide) : h.signature = (blockAt w d lba).signature).trans hchecks.1
  obtain ⟨hnumber, hentry, hcrc, hentryLba⟩ := restoredHeader_array w hsize
  have hblock := blockAt_restored (d := d) hb hsize hrestored
  have hheader : headerAt w (arrayWritten w h (headerWritten w h d)) h.alternateLba = restoredHeader w h := by
    rw [headerAt, hblock, copyHeader_of_short (restoredHeader_short w hsize)]
  have harray : arrayAt w (arrayWritten w h (headerWritten w h d)) h.alternateLba = arrayAt w d lba := by
    have hat : At (arrayWritten w h (headerWritten w h d)) (blockOffset w (restoredEntryLba h))
        (read (headerWritten w h d) (blockOffset w h.partitionEntryLba) h.arraySize) := write_at _ _ _
    unfold At at hat
    rw [read_length] at hat
    rw [arrayAt, hheader, hentryLba, arraySize_eq hnumber hentry, hat, arrayAt, hh]
    exact read_congr _ _ _ _ fun i h1 h2 => hkept i ⟨h1, h2⟩
  refine ⟨⟨?_, ?_⟩, hheader, harray⟩
  · rw [hblock]
    exact restoredHeader_checked hsize hle hsig
  · rw [hheader, harray]
    have hcrc' : arrayCrcMatches w h (arrayAt w d lba) = true := hh ▸ hv.2
    unfold arrayCrcMatches at hcrc' ⊢
    rw [hcrc]
    exact hcrc'

/-! ## Power may go at any time -/

section
variable {lba : Nat} {result : Bool × GptState} (hr : Restored w h s result)
include hr

/-- The disks of a restore that begins with no write. -/
theorem Restored.mem_disks (hdisks : s.disks = []) :
    (∀ d' ∈ result.2.disks, d' = afterHeader w h s.calls s.disk ∨ d' = afterRestore w h s.calls s.disk) ∧
      (w.allocatePool s.calls = true → afterHeader w h s.calls s.disk ∈ result.2.disks) ∧
      (ReachesEntries w s.calls → afterRestore w h s.calls s.disk ∈ result.2.disks) := by
  rw [hr.disks, hdisks, List.append_nil]
  refine ⟨fun d' hd' => ?_, fun hfirst => ?_, fun hreach => ?_⟩
  · rcases List.mem_append.mp hd' with hd' | hd'
    · split at hd'
      · exact .inr (List.mem_singleton.mp hd')
      · cases hd'
    · split at hd'
      · exact .inl (List.mem_singleton.mp hd')
      · cases hd'
  · simp [hfirst]
  · simp [hreach]

theorem Restored.usable_iff (hwrites : s.writes = []) :
    (∀ x ∈ result.2.writes, ∀ i, DiskRange.Has x.2 i → transfers w x.1 i = true → ¬(usableRange w h).Has i) ↔
      RestoresOutside w h s.calls := by
  rw [hr.writes, hwrites, List.append_nil]
  constructor
  · rintro hall i (⟨hfirst, hi, htransfers⟩ | ⟨hreach, hi, htransfers⟩)
    · exact hall _ (List.mem_append_right _ (by rw [if_pos hfirst]; exact List.mem_singleton_self _)) i hi htransfers
    · exact hall _ (List.mem_append_left _ (by rw [if_pos hreach]; exact List.mem_singleton_self _)) i hi htransfers
  · intro hout x hx i hi htransfers
    rcases List.mem_append.mp hx with hx | hx
    · split at hx
      · rename_i hreach
        obtain rfl := List.mem_singleton.mp hx
        exact hout i (.inr ⟨hreach, hi, htransfers⟩)
      · cases hx
    · split at hx
      · rename_i hfirst
        obtain rfl := List.mem_singleton.mp hx
        exact hout i (.inl ⟨hfirst, hi, htransfers⟩)
      · cases hx

theorem Restored.survivor (hdisks : s.disks = []) (hapart : RestoresApart w h s.calls) :
    ∀ d' ∈ result.2.disks, ∀ i, InTable w h i → d' i = s.disk i := by
  intro d' hd' i hi
  rcases (hr.mem_disks hdisks).1 d' hd' with rfl | rfl
  · exact afterHeader_table hapart hi
  · exact afterRestore_table hapart hi

end

/-- A table is valid as long as its own bytes stay. -/
theorem ValidTable.of_survivor {lba : Nat} (hv : ValidTable w d lba)
    (hsame : ∀ i, InTable w (headerAt w d lba) i → d' i = d i) :
    ValidTable w d' lba ∧ headerAt w d' lba = headerAt w d lba ∧ arrayAt w d' lba = arrayAt w d lba := by
  have hheader : ∀ i, (headerRange w lba).Has i → d' i = d i := by
    intro i hi
    refine hsame i (.inl ?_)
    rwa [hv.myLba]
  obtain ⟨hvalid, harray⟩ := hv.congr hheader fun i hi => hsame i (.inr hi)
  exact ⟨hvalid, headerAt_congr hheader, harray⟩

/-- Both tables are valid after a restore that is complete. -/
theorem restored_both {lba calls : Nat} (hb : sizeofPartitionTableHeader ≤ w.blockSize) (hv : ValidTable w d lba)
    (hapart : RestoresApart w (headerAt w d lba) calls) (hcomplete : Completes w calls) :
    ValidTable w (afterRestore w (headerAt w d lba) calls d) lba ∧
      ValidTable w (afterRestore w (headerAt w d lba) calls d) (headerAt w d lba).alternateLba ∧
      SameEntries w (afterRestore w (headerAt w d lba) calls d) lba (headerAt w d lba).alternateLba := by
  obtain ⟨hsurvivor, hheader, harray⟩ := hv.of_survivor fun i hi => afterRestore_table hapart hi
  have hkept : ∀ i, (arrayRange w (headerAt w d lba) (headerAt w d lba).partitionEntryLba).Has i →
      headerWritten w (headerAt w d lba) d i = d i := by
    intro i hi
    refine headerWritten_outside fun hwrite => hapart.header i ⟨hcomplete.1.1, hwrite, ?_⟩ (.inr hi)
    exact transfers_of_complete hcomplete.1.2.1 i
  obtain ⟨hvalid, hheader', harray'⟩ := restored_valid hv rfl hb (hapart.restored hcomplete) hkept
  obtain ⟨hnumber, hentry, -, -⟩ := restoredHeader_array w hv.headerSize
  rw [← afterRestore_complete hcomplete] at hvalid hheader' harray'
  refine ⟨hsurvivor, hvalid, ?_, ?_, ?_⟩
  · rw [hheader', hnumber, hheader]
  · rw [hheader', hentry, hheader]
  · rw [harray', harray]

/-- A restore is safe when what it really writes is apart from the surviving table, from the header that it has written and
from the usable blocks. One that is safe writes to no usable block, and to the surviving table only what is there. -/
theorem restore_safe (w : World) (d : Memory) (lba calls : Nat) (filled : List (Nat × Nat))
    (hb : sizeofPartitionTableHeader ≤ w.blockSize) (hv : ValidTable w d lba) :
    let h := headerAt w d lba
    let result := partitionRestoreGptTable w h ⟨d, calls, [], [], filled⟩
    (RestoresApart w h calls ∧ RestoresOutside w h calls → RestoreSafe w h d result) ∧
      (RestoreSafe w h d result → RestoresOutside w h calls ∧
        ∀ i, InTable w h i →
          (HeaderWrites w h calls i → headerWritten w h d i = d i) ∧
          (EntriesWrite w h calls i → arrayWritten w h (afterHeader w h calls d) i = d i)) := by
  have hr := @partitionRestoreGptTable_spec w (headerAt w d lba) hv.headerSize ⟨d, calls, [], [], filled⟩
  dsimp only
  generalize partitionRestoreGptTable w (headerAt w d lba) ⟨d, calls, [], [], filled⟩ = result at hr
  refine ⟨fun hwrites => ?_,
    fun hsafe => ⟨(hr.usable_iff rfl).mp hsafe.usable, fun i hi => ⟨fun hwrite => ?_, fun hwrite => ?_⟩⟩⟩
  · obtain ⟨hapart, hout⟩ := hwrites
    have hsurvivor := hr.survivor rfl hapart
    refine ⟨hsurvivor, (hr.usable_iff rfl).mpr hout, fun d' hd' => ?_, fun htrue => ?_⟩
    · rw [hv.myLba]
      rcases List.mem_cons.mp hd' with rfl | hd'
      · exact hv
      · exact (hv.of_survivor (hsurvivor d' hd')).1
    · rw [hr.disk, hv.myLba]
      exact restored_both hb hv hapart (hr.complete.mp htrue)
  · have hkept := hsafe.survivor _ ((hr.mem_disks rfl).2.1 hwrite.1) i hi
    rwa [afterHeader, if_pos hwrite] at hkept
  · have hkept := hsafe.survivor _ ((hr.mem_disks rfl).2.2 hwrite.1) i hi
    rwa [afterRestore, if_pos hwrite] at hkept

/-! ## Disks of eight blocks -/

/-- The polynomial of `CalculateCrc32`, the lowest bit first. -/
def crcBit (c : Nat) : Nat := c / 2 ^^^ 0xEDB88320 * (c % 2)

def crcByte (c : Nat) (b : UInt8) : Nat :=
  crcBit (crcBit (crcBit (crcBit (crcBit (crcBit (crcBit (crcBit (c ^^^ b.toNat))))))))

def sampleCrc32 (bytes : List UInt8) : UInt32 := UInt32.ofNat (bytes.foldl crcByte 0xFFFFFFFF ^^^ 0xFFFFFFFF)

example : sampleCrc32 [0x31, 0x32, 0x33, 0x34, 0x35, 0x36, 0x37, 0x38, 0x39] = 0xCBF43926 := by decide +kernel

def sampleWorld : World where
  blockSize := 128
  lastBlock := 7
  crc32 := sampleCrc32
  allocatePool _ := true
  readDisk _ := .success
  writeDisk _ := none
  garbage _ := zeroPool

/-- One partition, in the blocks 3 and 4. -/
def sampleArray : List UInt8 := List.replicate 32 7 ++ toLE 8 3 ++ toLE 8 4 ++ List.replicate 80 0

/-- The bytes of a header at block 1, for an entry at block 2. -/
def sampleTable (crc32 alternateLba : Nat) : List UInt8 :=
  toLE 8 efiPtabHeaderId ++ toLE 4 0x00010000 ++ toLE 4 92 ++ toLE 4 crc32 ++ toLE 4 0 ++ toLE 8 1 ++
    toLE 8 alternateLba ++ toLE 8 3 ++ toLE 8 4 ++ toLE 16 0 ++ toLE 8 2 ++ toLE 4 1 ++ toLE 4 128 ++ toLE 4 2302830185

def sampleDisk (crc32 alternateLba : Nat) : Memory :=
  write (write zeroPool 128 (sampleTable crc32 alternateLba)) 256 sampleArray

theorem restore_safe_sample :
    RestoreSafe sampleWorld (headerAt sampleWorld (sampleDisk 103558794 7) 1) (sampleDisk 103558794 7)
      (partitionRestoreGptTable sampleWorld (headerAt sampleWorld (sampleDisk 103558794 7) 1)
        ⟨sampleDisk 103558794 7, 0, [], [], []⟩) ∧
    (partitionRestoreGptTable sampleWorld (headerAt sampleWorld (sampleDisk 103558794 7) 1)
      ⟨sampleDisk 103558794 7, 0, [], [], []⟩).1 = true := by
  have hapart : ∀ {r r' : DiskRange}, r.1 + r.2 ≤ r'.1 ∨ r'.1 + r'.2 ≤ r.1 → DiskRange.Apart r r' := DiskRange.Apart.of_le
  refine ⟨(restore_safe sampleWorld (sampleDisk 103558794 7) 1 0 [] (by decide) (by decide +kernel)).1
    ⟨⟨fun i hi hmem => ?_, .inr fun i hi hmem => ?_, fun _ => .of_le (by decide +kernel)⟩, fun i hi => ?_⟩,
    by decide +kernel⟩
  · rcases hmem with hmem | hmem
    · exact hapart (by decide +kernel) i hi.2.1 hmem
    · exact hapart (by decide +kernel) i hi.2.1 hmem
  · rcases hmem with hmem | hmem
    · exact hapart (by decide +kernel) i hi.2.1 hmem
    · exact hapart (by decide +kernel) i hi.2.1 hmem
  · rcases hi with hi | hi
    · exact hapart (by decide +kernel) i hi.2.1
    · exact hapart (by decide +kernel) i hi.2.1

/-- The header names block 3, the first block of the partition, as the place of the other table. -/
theorem restore_overwrites_partition :
    ValidTable sampleWorld (sampleDisk 2608863284 3) 1 ∧
    (partitionRestoreGptTable sampleWorld (headerAt sampleWorld (sampleDisk 2608863284 3) 1)
      ⟨sampleDisk 2608863284 3, 0, [], [], []⟩).2.writes = [(4, 640, 128), (1, 384, 128)] ∧
    ¬RestoreSafe sampleWorld (headerAt sampleWorld (sampleDisk 2608863284 3) 1) (sampleDisk 2608863284 3)
      (partitionRestoreGptTable sampleWorld (headerAt sampleWorld (sampleDisk 2608863284 3) 1)
        ⟨sampleDisk 2608863284 3, 0, [], [], []⟩) := by
  have hwrites : (partitionRestoreGptTable sampleWorld (headerAt sampleWorld (sampleDisk 2608863284 3) 1)
      ⟨sampleDisk 2608863284 3, 0, [], [], []⟩).2.writes = [(4, 640, 128), (1, 384, 128)] := by decide +kernel
  have hrange : usableRange sampleWorld (headerAt sampleWorld (sampleDisk 2608863284 3) 1) = (384, 256) := by
    decide +kernel
  refine ⟨by decide +kernel, hwrites, fun hsafe => ?_⟩
  have hkept := hsafe.usable (1, 384, 128) (by rw [hwrites]; simp) 384 ⟨by decide, by decide⟩ rfl
  rw [hrange] at hkept
  exact hkept ⟨by decide, by decide⟩

end Udk.Partition
