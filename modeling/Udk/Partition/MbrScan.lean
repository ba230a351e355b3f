import Udk.Partition.Mbr

/-! # The scan of master boot records -/

namespace Udk.Partition

open Bytes Orbit
open DiskIo (EfiStatus)

section
variable {w : MbrWorld} {hd : DevicePathNode} {mbr : Memory} {c d : MbrChild} {r : PartitionRecord}
  {result result' : MbrResult} {lba number : UInt32}

/-! ## Installing a child -/

/-- Whether the handle of the child comes to be. -/
def installs (w : MbrWorld) (c : MbrChild) : Bool := (w.services c.partitionNumber).installs

theorem installChild_eq (w : MbrWorld) (c : MbrChild) (result : MbrResult) :
    ∃ found, installChild w c result = some ⟨found, result.children ++ [c].filter (installs w)⟩ := by
  obtain ⟨status, child, h, hchild⟩ := partitionInstallChildHandle_installs (w.services c.partitionNumber) w.parent
    c.startLba.toNat c.endLba.toNat (show mbrSize ≠ 0 by decide) c.installEspGuid
  refine ⟨if status = .success then .success else result.found, ?_⟩
  rw [installChild, h, Option.map_some]
  simp only [hchild]
  cases hi : (w.services c.partitionNumber).installs <;> simp [installs, hi]

/-! ## The entries of an MBR -/

/-- The children of the entries, with their numbers, whether they can be installed or not. -/
def primaryChildren (mbr : Memory) : List Nat → UInt32 → List MbrChild
  | [], _ => []
  | index :: rest, number =>
    let r := partitionRecord mbr index
    if r.null then primaryChildren mbr rest number
    else if r.osIndicator = pmbrGptPartition then primaryChildren mbr rest number
    else primaryChild mbr number r :: primaryChildren mbr rest (number + 1)

theorem installPrimary_eq (w : MbrWorld) (mbr : Memory) (indices : List Nat) (number : UInt32) (result : MbrResult) :
    ∃ found, installPrimary w mbr indices number result =
      some ⟨found, result.children ++ (primaryChildren mbr indices number).filter (installs w)⟩ := by
  induction indices generalizing number result with
  | nil => exact ⟨result.found, by rw [installPrimary, primaryChildren, List.filter_nil, List.append_nil]⟩
  | cons index rest ih =>
    simp only [installPrimary, primaryChildren]
    split
    · exact ih number result
    split
    · exact ih number result
    · obtain ⟨found, hc⟩ := installChild_eq w (primaryChild mbr number (partitionRecord mbr index)) result
      obtain ⟨found', hrest⟩ := ih (number + 1)
        ⟨found, result.children ++ [primaryChild mbr number (partitionRecord mbr index)].filter (installs w)⟩
      refine ⟨found', ?_⟩
      rw [hc, Option.bind_some, hrest, List.append_assoc, ← List.filter_append, List.singleton_append]

/-- A child inside the medium, whose end the 32 bits of the record reach. -/
structure InMedium (w : MbrWorld) (c : MbrChild) : Prop where
  nowrap : c.partitionStart.toNat + c.partitionSize.toNat ≤ 2 ^ 32
  start : c.startLba ≤ c.endLba
  last : c.endLba.toNat ≤ w.parent.media.lastBlock

def Disjoint (c d : MbrChild) : Prop := c.endLba < d.startLba ∨ d.endLba < c.startLba

/-- `StartingLBA + SizeInLBA - 1` has 32 bits. -/
def Unwrapped (c : MbrChild) : Prop := c.partitionStart.toNat + c.partitionSize.toNat ≤ 2 ^ 32

theorem size_pos (h : r.null = false) : 0 < r.sizeInLba.toNat := by
  rw [PartitionRecord.null, Bool.or_eq_false_iff] at h
  have h0 : r.sizeInLba ≠ 0 := by simpa using h.2
  exact Nat.pos_of_ne_zero fun hz => h0 (UInt32.toNat_inj.mp hz)

theorem endingLba_toNat (h : r.null = false) (hu : r.startingLba.toNat + r.sizeInLba.toNat ≤ 2 ^ 32) :
    r.endingLba.toNat = r.startingLba.toNat + r.sizeInLba.toNat - 1 := by
  have hpos := size_pos h
  rw [PartitionRecord.endingLba, UInt32.toNat_sub, UInt32.toNat_add, UInt32.toNat_one]
  omega

theorem primaryChild_endLba (mbr : Memory) (number : UInt32) (h : r.null = false) :
    (primaryChild mbr number r).endLba.toNat = r.startingLba.toNat + r.sizeInLba.toNat - 1 := by
  have hpos := size_pos h
  have h1 := r.startingLba.toNat_lt
  have h2 := r.sizeInLba.toNat_lt
  rw [primaryChild, UInt64.toNat_sub, UInt64.toNat_add, UInt32.toNat_toUInt64, UInt32.toNat_toUInt64, UInt64.toNat_one]
  omega

theorem primaryChild_unwrapped {number : UInt32} :
    Unwrapped (primaryChild mbr number r) ↔ r.startingLba.toNat + r.sizeInLba.toNat ≤ 2 ^ 32 := by
  rw [Unwrapped, primaryChild, UInt32.toNat_toUInt64, UInt32.toNat_toUInt64]

/-- What a valid MBR says about the entries of a list of indices. -/
theorem validRecords_valid {lastLba : Nat} {indices : List Nat} {mbrValid : Bool}
    (h : validRecords mbr lastLba indices mbrValid = true) :
    (∀ i ∈ indices, (partitionRecord mbr i).null = false → (partitionRecord mbr i).endingLba.toNat ≤ lastLba) ∧
      indices.Pairwise fun i j => (partitionRecord mbr i).null = false → (partitionRecord mbr j).null = false →
        overlaps (partitionRecord mbr i) (partitionRecord mbr j) = false := by
  induction indices generalizing mbrValid with
  | nil => exact ⟨nofun, List.Pairwise.nil⟩
  | cons i rest ih =>
    simp only [validRecords] at h
    rw [List.forall_mem_cons, List.pairwise_cons]
    split at h
    · rename_i hnull
      obtain ⟨h1, h2⟩ := ih h
      exact ⟨⟨fun hn => absurd hnull (by simp [hn]), h1⟩, fun j _ hn => absurd hnull (by simp [hn]), h2⟩
    split at h
    · cases h
    split at h
    · cases h
    · rename_i hlast hany
      obtain ⟨h1, h2⟩ := ih h
      refine ⟨⟨fun _ => Nat.le_of_not_lt hlast, h1⟩, fun j hj _ hn => ?_, h2⟩
      rw [List.any_eq_true, not_exists] at hany
      simpa [hj, hn] using hany j

theorem primaryChildren_mem {indices : List Nat} (h : c ∈ primaryChildren mbr indices number) :
    ∃ i ∈ indices, ∃ n, (partitionRecord mbr i).null = false ∧ c = primaryChild mbr n (partitionRecord mbr i) := by
  induction indices generalizing number with
  | nil => cases h
  | cons i rest ih =>
    simp only [primaryChildren] at h
    have htail {n : UInt32} (h : c ∈ primaryChildren mbr rest n) :
        ∃ j ∈ i :: rest, ∃ n, (partitionRecord mbr j).null = false ∧ c = primaryChild mbr n (partitionRecord mbr j) := by
      obtain ⟨j, hj, hc⟩ := ih h
      exact ⟨j, List.mem_cons_of_mem _ hj, hc⟩
    split at h
    · exact htail h
    · rename_i hnull
      split at h
      · exact htail h
      · rcases List.mem_cons.mp h with rfl | h
        · exact ⟨i, List.mem_cons_self, number, by simpa using hnull, rfl⟩
        · exact htail h

theorem disjoint_of_records {i j : Nat} {n n' : UInt32} (hi : (partitionRecord mbr i).null = false)
    (hj : (partitionRecord mbr j).null = false)
    (hij : overlaps (partitionRecord mbr i) (partitionRecord mbr j) = false)
    (hui : Unwrapped (primaryChild mbr n (partitionRecord mbr i)))
    (huj : Unwrapped (primaryChild mbr n' (partitionRecord mbr j))) :
    Disjoint (primaryChild mbr n (partitionRecord mbr i)) (primaryChild mbr n' (partitionRecord mbr j)) := by
  have hei := endingLba_toNat hi (primaryChild_unwrapped.mp hui)
  have hej := endingLba_toNat hj (primaryChild_unwrapped.mp huj)
  have hli := primaryChild_endLba mbr n hi
  have hlj := primaryChild_endLba mbr n' hj
  rw [overlaps, Bool.and_eq_false_iff, decide_eq_false_iff_not, decide_eq_false_iff_not, ge_iff_le,
    UInt32.le_iff_toNat_le, UInt32.le_iff_toNat_le, hei, hej] at hij
  rw [Disjoint, UInt64.lt_iff_toNat_lt, UInt64.lt_iff_toNat_lt, hli, hlj, primaryChild, primaryChild,
    UInt32.toNat_toUInt64, UInt32.toNat_toUInt64]
  omega

theorem primaryChildren_pairwise {indices : List Nat}
    (h : indices.Pairwise fun i j => (partitionRecord mbr i).null = false → (partitionRecord mbr j).null = false →
      overlaps (partitionRecord mbr i) (partitionRecord mbr j) = false) (number : UInt32) :
    (primaryChildren mbr indices number).Pairwise fun c d => Unwrapped c → Unwrapped d → Disjoint c d := by
  induction indices generalizing number with
  | nil => exact List.Pairwise.nil
  | cons i rest ih =>
    obtain ⟨hhead, htail⟩ := List.pairwise_cons.mp h
    simp only [primaryChildren]
    split
    · exact ih htail number
    · rename_i hnull
      split
      · exact ih htail number
      · refine List.pairwise_cons.mpr ⟨fun d hd hu hu' => ?_, ih htail _⟩
        obtain ⟨j, hj, n, hnj, rfl⟩ := primaryChildren_mem hd
        have hni : (partitionRecord mbr i).null = false := by simpa using hnull
        exact disjoint_of_records hni hnj (hhead j hj hni hnj) hu hu'

/-! ## The chain of an extended partition -/

/-- The address of the record that is read next, and the next partition number. -/
def nextRecord (w : MbrWorld) (hd : DevicePathNode) (s : UInt32 × UInt32) : Option (UInt32 × UInt32) :=
  if readStatus w s.1 ≠ .success then none
  else
    match extendedRound hd (blockOf w s.1) s.1 s.2 with
    | .stop => none
    | .chain lba => if lba.toUInt64 < hd.partitionSize then some (lba, s.2) else none
    | .child _ none => none
    | .child _ (some lba) => if lba.toUInt64 < hd.partitionSize then some (lba, s.2 + 1) else none

/-- The child that comes of the record. -/
def recordChild (w : MbrWorld) (hd : DevicePathNode) (s : UInt32 × UInt32) : Option MbrChild :=
  if readStatus w s.1 ≠ .success then none
  else
    match extendedRound hd (blockOf w s.1) s.1 s.2 with
    | .child c _ => [c].filter (installs w) |>.head?
    | _ => none

def Round.withNumber (number : UInt32) : Round → Round
  | stop => stop
  | chain lba => chain lba
  | child c after => child { c with partitionNumber := number } after

theorem extendedRound_number (hd : DevicePathNode) (mbr : Memory) (lba number number' : UInt32) :
    extendedRound hd mbr lba number' = (extendedRound hd mbr lba number).withNumber number' := by
  simp only [extendedRound]
  rw [apply_ite (Round.withNumber number'), apply_ite (Round.withNumber number'), apply_ite (Round.withNumber number')]
  rfl

/-- Where the chain goes does not depend on the partition number. -/
theorem nextRecord_fst (w : MbrWorld) (hd : DevicePathNode) (s t : UInt32 × UInt32) (h : s.1 = t.1) :
    (nextRecord w hd s).map Prod.fst = (nextRecord w hd t).map Prod.fst := by
  simp only [nextRecord, h, extendedRound_number hd _ _ t.2 s.2]
  by_cases hstatus : readStatus w t.1 ≠ .success
  · rw [if_pos hstatus, if_pos hstatus]
  rw [if_neg hstatus, if_neg hstatus]
  cases extendedRound hd (blockOf w t.1) t.1 t.2 with
  | stop => rfl
  | chain lba =>
    simp only [Round.withNumber]
    split <;> rfl
  | child c after =>
    cases after with
    | none => rfl
    | some lba =>
      simp only [Round.withNumber]
      split <;> rfl

/-- One round of the loop. -/
theorem extendedLoop_succ (w : MbrWorld) (hd : DevicePathNode) (fuel : Nat) (s : UInt32 × UInt32) (result : MbrResult) :
    ∃ r, r.children = result.children ++ (recordChild w hd s).toList ∧
      extendedLoop w hd (fuel + 1) s.1 s.2 result =
        match nextRecord w hd s with
        | none => some r
        | some t => extendedLoop w hd fuel t.1 t.2 r := by
  simp only [extendedLoop, nextRecord, recordChild]
  by_cases hstatus : readStatus w s.1 ≠ .success
  · simp only [if_pos hstatus]
    exact ⟨{ result with found := .readDisk (readStatus w s.1) }, (List.append_nil _).symm, rfl⟩
  simp only [if_neg hstatus]
  cases extendedRound hd (blockOf w s.1) s.1 s.2 with
  | stop => exact ⟨result, (List.append_nil _).symm, rfl⟩
  | chain lba =>
    refine ⟨result, (List.append_nil _).symm, ?_⟩
    simp only
    split <;> rfl
  | child c after =>
    obtain ⟨found, hc⟩ := installChild_eq w c result
    refine ⟨⟨found, result.children ++ [c].filter (installs w)⟩, ?_, ?_⟩
    · cases hi : installs w c <;> simp [hi]
    · simp only [hc, Option.bind_some]
      cases after with
      | none => rfl
      | some lba =>
        simp only
        split <;> rfl

/-- The loop ends with the chain, with the children of all its records. -/
theorem extendedLoop_eq (w : MbrWorld) (hd : DevicePathNode) (fuel : Nat) (s : UInt32 × UInt32) (result : MbrResult) :
    (orbit (nextRecord w hd) s fuel = none → ∃ r, extendedLoop w hd fuel s.1 s.2 result = some r ∧
        ∀ c, c ∈ r.children ↔ c ∈ result.children ∨
          ∃ n t, orbit (nextRecord w hd) s n = some t ∧ recordChild w hd t = some c) ∧
      (orbit (nextRecord w hd) s fuel ≠ none → extendedLoop w hd fuel s.1 s.2 result = none) := by
  induction fuel generalizing s result with
  | zero => exact ⟨nofun, fun _ => rfl⟩
  | succ fuel ih =>
    obtain ⟨r, hr, hloop⟩ := extendedLoop_succ w hd fuel s result
    rw [hloop]
    cases hnext : nextRecord w hd s with
    | none =>
      refine ⟨fun _ => ⟨r, rfl, fun c => ?_⟩, fun hn => absurd (orbit_of_end hnext fuel) hn⟩
      rw [hr, List.mem_append, Option.mem_toList]
      refine or_congr_right ⟨fun hc => ⟨0, s, rfl, hc⟩, ?_⟩
      rintro ⟨n, t, ht, hc⟩
      cases n with
      | zero =>
        cases ht
        exact hc
      | succ n =>
        rw [orbit_of_end hnext] at ht
        cases ht
    | some t =>
      obtain ⟨hends, hgoes⟩ := ih t r
      rw [orbit_of_next hnext]
      refine ⟨fun hn => ?_, hgoes⟩
      obtain ⟨r', hr', hmem⟩ := hends hn
      refine ⟨r', hr', fun c => ?_⟩
      rw [hmem, hr, List.mem_append, Option.mem_toList, or_assoc]
      refine or_congr_right ⟨?_, ?_⟩
      · rintro (hc | ⟨n, u, hu, hc⟩)
        · exact ⟨0, s, rfl, hc⟩
        · exact ⟨n + 1, u, (orbit_of_next hnext n).trans hu, hc⟩
      · rintro ⟨n, u, hu, hc⟩
        cases n with
        | zero =>
          cases hu
          exact .inl hc
        | succ n => exact .inr ⟨n, u, (orbit_of_next hnext n).symm.trans hu, hc⟩

/-- A child strictly inside the extended partition, whose first block is that of its own record. -/
structure InExtended (hd : DevicePathNode) (c : MbrChild) : Prop where
  start : 0 < c.startLba
  le : c.startLba ≤ c.endLba
  last : c.endLba < hd.partitionSize

/-- The end of the child has more than 64 bits where that of the extended partition has not. -/
def Overflows (hd : DevicePathNode) (c : MbrChild) : Prop :=
  hd.partitionStart.toNat + hd.partitionSize.toNat < 2 ^ 64 ∧ 2 ^ 64 < c.partitionStart.toNat + c.partitionSize.toNat

/-- The sums for a child that is checked, as numbers. -/
theorem logicalChild_inExtended {r : PartitionRecord} (hsize : r.sizeInLba ≠ 0)
    (hlast : ¬(logicalChild hd lba number r).partitionStart + (logicalChild hd lba number r).partitionSize - 1 ≥
      hd.partitionStart + hd.partitionSize)
    (hstart : ¬(logicalChild hd lba number r).partitionStart ≤ hd.partitionStart) :
    InExtended hd (logicalChild hd lba number r) ↔ ¬Overflows hd (logicalChild hd lba number r) := by
  have hpos : 0 < r.sizeInLba.toNat := Nat.pos_of_ne_zero fun hz => hsize (UInt32.toNat_inj.mp hz)
  have h1 := (r.startingLba + lba).toNat_lt
  have h2 := r.sizeInLba.toNat_lt
  have h3 := hd.partitionStart.toNat_lt
  have h4 := hd.partitionSize.toNat_lt
  simp only [logicalChild, ge_iff_le, UInt64.le_iff_toNat_le, UInt64.toNat_sub, UInt64.toNat_add, UInt64.toNat_one,
    UInt32.toNat_toUInt64] at hlast hstart
  rw [Overflows]
  constructor
  · rintro ⟨-, -, hin⟩ ⟨hhd, hover⟩
    simp only [logicalChild, UInt64.lt_iff_toNat_lt, UInt64.toNat_sub, UInt64.toNat_add, UInt64.toNat_one,
      UInt32.toNat_toUInt64] at hin hover
    omega
  · intro hover
    simp only [logicalChild, UInt64.toNat_add, UInt32.toNat_toUInt64] at hover
    constructor <;>
      simp only [logicalChild, UInt64.lt_iff_toNat_lt, UInt64.le_iff_toNat_le, UInt64.toNat_sub, UInt64.toNat_add,
        UInt64.toNat_one, UInt64.toNat_zero, UInt32.toNat_toUInt64] <;>
      omega

theorem recordChild_inExtended {s : UInt32 × UInt32} (h : recordChild w hd s = some c) :
    InExtended hd c ↔ ¬Overflows hd c := by
  simp only [recordChild] at h
  split at h
  · cases h
  simp only [extendedRound] at h
  split at h
  · rename_i hround
    split at hround
    · cases hround
    split at hround
    · cases hround
    split at hround
    · cases hround
    · rename_i hsize _ hcheck
      cases hround
      have hc := List.mem_filter.mp (List.mem_of_mem_head? h)
      rw [List.mem_singleton.mp hc.1]
      obtain ⟨hlast, hstart⟩ := not_or.mp hcheck
      exact logicalChild_inExtended hsize hlast hstart
  · cases h

end

/-! ## The whole scan -/

/-- What is promised of the children of a result. -/
def ScanOk (w : MbrWorld) (devicePath : List DevicePathNode) (r : MbrResult) : Prop :=
  match parentHdDev devicePath with
  | none => (∀ c ∈ r.children, InMedium w c) ∧ r.children.Pairwise Disjoint
  | some hd => ∀ c ∈ r.children, InExtended hd c

/-- The chain comes to no address twice. -/
def NoLoop (w : MbrWorld) (hd : DevicePathNode) : Prop :=
  ¬∃ i j s t, i < j ∧ orbit (nextRecord w hd) (0, 1) i = some s ∧ orbit (nextRecord w hd) (0, 1) j = some t ∧ s.1 = t.1

/-- For a valid MBR that can be read: the ends of the children that are installed have 32 bits, or the chain of an
extended partition has no loop and the ends of its children do not pass 64 bits. -/
def ScanHolds (w : MbrWorld) (devicePath : List DevicePathNode) : Prop :=
  w.allocatePool = true → w.readDisk 0 = .success → partitionValidMbr w.disk w.parent.media.lastBlock = true →
    match parentHdDev devicePath with
    | none => ∀ c ∈ primaryChildren w.disk (List.range maxMbrPartitions) 1, installs w c = true → Unwrapped c
    | some hd => NoLoop w hd ∧ ∀ n s c, orbit (nextRecord w hd) (0, 1) n = some s →
        recordChild w hd s = some c → ¬Overflows hd c

/-- A list without children is as promised. -/
theorem scanOk_nil (w : MbrWorld) (devicePath : List DevicePathNode) (found : MbrStatus) :
    ScanOk w devicePath ⟨found, []⟩ := by
  unfold ScanOk
  split
  · exact ⟨nofun, List.Pairwise.nil⟩
  · exact nofun

theorem primary_inMedium {w : MbrWorld} (hvalid : partitionValidMbr w.disk w.parent.media.lastBlock = true) {c : MbrChild}
    (hc : c ∈ primaryChildren w.disk (List.range maxMbrPartitions) 1) : InMedium w c ↔ Unwrapped c := by
  rw [partitionValidMbr] at hvalid
  split at hvalid
  · cases hvalid
  refine ⟨fun h => h.nowrap, fun h => ?_⟩
  obtain ⟨i, hi, n, hnull, rfl⟩ := primaryChildren_mem hc
  have hlast := (validRecords_valid hvalid).1 i hi hnull
  have hpos := size_pos hnull
  rw [endingLba_toNat hnull (primaryChild_unwrapped.mp h)] at hlast
  refine ⟨h, ?_, ?_⟩
  · rw [UInt64.le_iff_toNat_le, primaryChild_endLba _ n hnull, primaryChild, UInt32.toNat_toUInt64]
    omega
  · rw [primaryChild_endLba _ n hnull]
    exact hlast

/-- The scan of the entries of an MBR. -/
theorem primary_iff {w : MbrWorld} (hvalid : partitionValidMbr w.disk w.parent.media.lastBlock = true) :
    (∃ r, installPrimary w w.disk (List.range maxMbrPartitions) 1 ⟨.notFound, []⟩ = some r ∧
        (∀ c ∈ r.children, InMedium w c) ∧ r.children.Pairwise Disjoint) ↔
      ∀ c ∈ primaryChildren w.disk (List.range maxMbrPartitions) 1, installs w c = true → Unwrapped c := by
  obtain ⟨found, hinstall⟩ := installPrimary_eq w w.disk (List.range maxMbrPartitions) 1 ⟨.notFound, []⟩
  rw [hinstall]
  constructor
  · rintro ⟨r, hr, hin, -⟩ c hc hi
    obtain rfl := Option.some.inj hr
    exact (hin c (List.mem_filter.mpr ⟨hc, hi⟩)).nowrap
  · intro h
    refine ⟨_, rfl, fun c hc => ?_, ?_⟩
    · obtain ⟨hc, hi⟩ := List.mem_filter.mp hc
      exact (primary_inMedium hvalid hc).mpr (h c hc hi)
    · have hpairs := hvalid
      rw [partitionValidMbr] at hpairs
      split at hpairs
      · cases hpairs
      have hp := (primaryChildren_pairwise (validRecords_valid hpairs).2 1).filter (installs w)
      refine hp.imp_of_mem fun hc hd hcd => ?_
      obtain ⟨hc, hci⟩ := List.mem_filter.mp hc
      obtain ⟨hd, hdi⟩ := List.mem_filter.mp hd
      exact hcd (h _ hc hci) (h _ hd hdi)

instance finiteUInt32 : Finite UInt32 := Finite.of_injective UInt32.toFin fun _ _ h => UInt32.toFin_inj.mp h

/-- The walk along a chain. -/
theorem extended_iff (w : MbrWorld) (hd : DevicePathNode) :
    (∃ fuel r, extendedLoop w hd fuel 0 1 ⟨.notFound, []⟩ = some r ∧ ∀ c ∈ r.children, InExtended hd c) ↔
      NoLoop w hd ∧ ∀ n s c, orbit (nextRecord w hd) (0, 1) n = some s → recordChild w hd s = some c →
        ¬Overflows hd c := by
  have hends : Ends (nextRecord w hd) (0, 1) ↔ NoLoop w hd := ends_iff (nextRecord_fst w hd)
  rw [← hends]
  constructor
  · rintro ⟨fuel, r, hr, hin⟩
    obtain ⟨hdone, hgoes⟩ := extendedLoop_eq w hd fuel (0, 1) ⟨.notFound, []⟩
    have hnone : orbit (nextRecord w hd) (0, 1) fuel = none := by
      by_contra hn
      rw [hgoes hn] at hr
      cases hr
    refine ⟨⟨fuel, hnone⟩, fun n s c hs hc => ?_⟩
    obtain ⟨r', hr', hmem⟩ := hdone hnone
    obtain rfl := Option.some.inj (hr.symm.trans hr')
    exact (recordChild_inExtended hc).mp (hin c ((hmem c).mpr (.inr ⟨n, s, hs, hc⟩)))
  · rintro ⟨⟨fuel, hnone⟩, hover⟩
    obtain ⟨r, hr, hmem⟩ := (extendedLoop_eq w hd fuel (0, 1) ⟨.notFound, []⟩).1 hnone
    refine ⟨fuel, r, hr, fun c hc => ?_⟩
    rcases (hmem c).mp hc with hc | ⟨n, s, hs, hc⟩
    · cases hc
    · exact (recordChild_inExtended hc).mpr (hover n s c hs hc)

/-- The scan returns, with children as promised, exactly when the chain has no loop and no end passes its bits. -/
theorem mbr_scan_iff (w : MbrWorld) (devicePath : List DevicePathNode) :
    (∃ fuel r, partitionInstallMbrChildHandles w devicePath fuel = some r ∧ ScanOk w devicePath r) ↔
      ScanHolds w devicePath := by
  unfold partitionInstallMbrChildHandles ScanHolds
  by_cases halloc : w.allocatePool = false
  · simp only [if_pos halloc]
    exact ⟨fun _ h => absurd halloc (by simp [h]), fun _ => ⟨0, _, rfl, scanOk_nil _ _ _⟩⟩
  by_cases hread : w.readDisk 0 ≠ .success
  · simp only [if_neg halloc, if_pos hread]
    exact ⟨fun _ _ h => absurd h hread, fun _ => ⟨0, _, rfl, scanOk_nil _ _ _⟩⟩
  by_cases hvalid : partitionValidMbr w.disk w.parent.media.lastBlock = false
  · simp only [if_neg halloc, if_neg hread, if_pos hvalid]
    exact ⟨fun _ _ _ h => absurd hvalid (by simp [h]), fun _ => ⟨0, _, rfl, scanOk_nil _ _ _⟩⟩
  simp only [if_neg halloc, if_neg hread, if_neg hvalid]
  have hsucc : w.readDisk 0 = .success := not_not.mp hread
  have halloc' : w.allocatePool = true := by simpa using halloc
  have hvalid' : partitionValidMbr w.disk w.parent.media.lastBlock = true := by simpa using hvalid
  unfold ScanOk
  cases hhd : parentHdDev devicePath with
  | none =>
    simp only
    rw [exists_const, primary_iff hvalid']
    exact ⟨fun h _ _ _ => h, fun h => h halloc' hsucc hvalid'⟩
  | some hd =>
    simp only
    rw [extended_iff]
    exact ⟨fun h _ _ _ => h, fun h => h halloc' hsucc hvalid'⟩

/-- Blocks that are all alike: a partition in the first entry, and a chain to block 1 in the second. -/
def chainedDisk : Memory := fun i =>
  match i % 512 with
  | 450 => 0x83
  | 454 => 3
  | 458 => 1
  | 466 => extendedDosPartition
  | 470 => 1
  | 474 => 1
  | 510 => 0x55
  | 511 => 0xaa
  | _ => 0

def chainedWorld : MbrWorld where
  parent := { sampleParent with media := { sampleParent.media with blockSize := 512, lastBlock := 99 } }
  allocatePool := true
  disk := chainedDisk
  readDisk := fun _ => .success
  services := fun _ => sampleServices

def extendedNode : DevicePathNode := ⟨mediaDevicePath, mediaHarddriveDp, 1000, 100⟩

/-- The record in block 1 refers to block 1. -/
theorem chained_record_never_returns :
    ¬∃ fuel r, partitionInstallMbrChildHandles chainedWorld [extendedNode] fuel = some r ∧
      ScanOk chainedWorld [extendedNode] r := by
  rintro ⟨fuel, r, hr, hok⟩
  have hvalid : partitionValidMbr chainedDisk 99 = true := by decide +kernel
  have hloop : extendedLoop chainedWorld extendedNode fuel 0 1 ⟨.notFound, []⟩ = some r := by
    rw [← hr, partitionInstallMbrChildHandles, if_neg (by decide), if_neg (by decide), if_neg]
    · rfl
    · exact fun h => absurd (hvalid.symm.trans h) (by decide)
  refine ((extended_iff chainedWorld extendedNode).mp ⟨fuel, r, hloop, hok⟩).1
    ⟨1, 2, (1, 2), (1, 3), by decide, ?_, ?_, rfl⟩ <;> decide +kernel

end Udk.Partition
