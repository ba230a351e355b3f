import Udk.Partition.ElTorito
import Udk.Partition.MbrScan

/-! # The scan of El Torito boot catalogs -/

namespace Udk.Partition

open Bytes Orbit
open DiskIo (EfiStatus)

section
variable {w : CdWorld} {e : BootEntry} {volSpaceSize : UInt32} {b : Memory} {result : CdResult}

/-! ## One entry -/

/-- A child with blocks of its own inside the medium. -/
structure CdInMedium (w : CdWorld) (c : CdChild) : Prop where
  pos : 0 < c.partitionSize
  le : c.startLba ≤ c.endLba
  last : c.endLba ≤ w.lastBlock

/-- The numbers of an entry leave room for a child. Without a sector count it goes to the end of the medium or of the
volume. -/
def EntryFits (w : CdWorld) (volSpaceSize : UInt32) (e : BootEntry) : Prop :=
  if e.sectors.1 < 2 then
    if volSpaceSize.toUInt64 > w.lastBlock + 1 then e.lba.toUInt64 ≤ w.lastBlock
    else e.lba < volSpaceSize ∨ volSpaceSize < e.lba ∧ volSpaceSize.toNat + 2 ^ 32 ≤ w.lastBlock.toNat + 1
  else e.lba.toNat + (e.sectors.1.toNat * e.sectors.2.toNat + 2047) / 2048 ≤ w.lastBlock.toNat + 1

theorem sectors_size (e : BootEntry) : e.sectors.2.toNat = 512 ∨ e.sectors.2.toNat = 2048 := by
  rw [BootEntry.sectors]
  split
  · exact .inr rfl
  split
  · exact .inl rfl
  split
  · exact .inl rfl
  split
  · exact .inl rfl
  split
  · exact .inl rfl
  · exact .inr rfl

theorem lba_pos (h : e.bootable = true) : 0 < e.lba.toNat := by
  rw [BootEntry.bootable, Bool.and_eq_true, decide_eq_true_iff, decide_eq_true_iff] at h
  exact Nat.pos_of_ne_zero fun hz => h.2 (UInt32.toNat_inj.mp hz)

/-- The range of a child, from its size as a number. -/
theorem cdInMedium_iff {bootEntry size : Nat} (hsize : (partitionSizeOf w.lastBlock volSpaceSize e).toNat = size)
    (hlt : size < 2 ^ 63) :
    CdInMedium w (cdChild w.lastBlock volSpaceSize bootEntry e) ↔
      0 < size ∧ e.lba.toNat + size ≤ w.lastBlock.toNat + 1 := by
  have h1 := e.lba.toNat_lt
  have hend : (cdChild w.lastBlock volSpaceSize bootEntry e).endLba.toNat =
      (2 ^ 64 - 1 + (e.lba.toNat + size)) % 2 ^ 64 := by
    simp only [cdChild, UInt64.toNat_sub, UInt64.toNat_add, UInt32.toNat_toUInt64, hsize, UInt64.toNat_one]
    omega
  have hstart : (cdChild w.lastBlock volSpaceSize bootEntry e).startLba.toNat = e.lba.toNat := UInt32.toNat_toUInt64 _
  constructor
  · rintro ⟨hpos, hle, hlast⟩
    have hpos : 0 < (partitionSizeOf w.lastBlock volSpaceSize e).toNat := UInt64.lt_iff_toNat_lt.mp hpos
    rw [UInt64.le_iff_toNat_le, hend] at hle hlast
    omega
  · rintro ⟨hpos, hlast⟩
    refine ⟨UInt64.lt_iff_toNat_lt.mpr (hsize ▸ hpos), ?_, ?_⟩
    · rw [UInt64.le_iff_toNat_le, hend, hstart]
      omega
    · rw [UInt64.le_iff_toNat_le, hend]
      omega

theorem sectors_toNat {a b : UInt32} (h : a.toNat * b.toNat ≤ 2 ^ 43) :
    ((a.toUInt64 * b.toUInt64 + 2048 - 1) / 2048).toNat = (a.toNat * b.toNat + 2047) / 2048 := by
  rw [UInt64.toNat_div, UInt64.toNat_sub, UInt64.toNat_add, UInt64.toNat_mul, UInt32.toNat_toUInt64,
    UInt32.toNat_toUInt64, UInt64.toNat_one, show (2048 : UInt64).toNat = 2048 from rfl]
  generalize a.toNat * b.toNat = product at h
  omega

theorem entryFits_iff (h : e.bootable = true) (bootEntry : Nat) :
    CdInMedium w (cdChild w.lastBlock volSpaceSize bootEntry e) ↔ EntryFits w volSpaceSize e := by
  have hpos := lba_pos h
  have h1 := e.lba.toNat_lt
  have h2 := volSpaceSize.toNat_lt
  have h3 := w.lastBlock.toNat_lt
  rw [EntryFits]
  split
  · rename_i hcount
    split
    · rename_i hvol
      have hsize : (partitionSizeOf w.lastBlock volSpaceSize e).toNat =
          ((2 ^ 64 - e.lba.toNat + w.lastBlock.toNat) % 2 ^ 64 + 1) % 2 ^ 64 % 2 ^ 32 := by
        rw [partitionSizeOf, if_pos hcount, if_pos hvol, UInt32.toNat_toUInt64, UInt64.toNat_toUInt32, UInt64.toNat_add,
          UInt64.toNat_sub, UInt32.toNat_toUInt64, UInt64.toNat_one]
      rw [gt_iff_lt, UInt64.lt_iff_toNat_lt, UInt64.toNat_add, UInt32.toNat_toUInt64, UInt64.toNat_one] at hvol
      rw [cdInMedium_iff hsize (by omega), UInt64.le_iff_toNat_le, UInt32.toNat_toUInt64]
      omega
    · rename_i hvol
      have hsize : (partitionSizeOf w.lastBlock volSpaceSize e).toNat =
          (2 ^ 32 - e.lba.toNat + volSpaceSize.toNat) % 2 ^ 32 := by
        rw [partitionSizeOf, if_pos hcount, if_neg hvol, UInt32.toNat_toUInt64, UInt32.toNat_sub]
      rw [gt_iff_lt, UInt64.lt_iff_toNat_lt, UInt64.toNat_add, UInt32.toNat_toUInt64, UInt64.toNat_one] at hvol
      rw [cdInMedium_iff hsize (by omega), UInt32.lt_iff_toNat_lt, UInt32.lt_iff_toNat_lt]
      omega
  · rename_i hcount
    have h4 := e.sectors.1.toNat_lt
    have h5 := sectors_size e
    have hge : 2 ≤ e.sectors.1.toNat := UInt32.le_iff_toNat_le.mp (UInt32.not_lt.mp hcount)
    have hmul : e.sectors.1.toNat * e.sectors.2.toNat ≤ 2 ^ 43 :=
      Nat.le_trans (Nat.mul_le_mul (show _ ≤ 2 ^ 32 by omega) (show _ ≤ 2 ^ 11 by omega)) (by decide)
    have hmul2 : 2 * 512 ≤ e.sectors.1.toNat * e.sectors.2.toNat := Nat.mul_le_mul hge (by omega)
    have hsize : (partitionSizeOf w.lastBlock volSpaceSize e).toNat =
        (e.sectors.1.toNat * e.sectors.2.toNat + 2047) / 2048 := by
      rw [partitionSizeOf, if_neg hcount]
      exact sectors_toNat hmul
    rw [cdInMedium_iff hsize (by omega)]
    omega

/-! ## The entries of a catalog -/

/-- The bootable ones of the `n` entries behind `catalog`. -/
def bootEntries (b : Memory) : Nat → Nat → List BootEntry
  | 0, _ => []
  | n + 1, catalog =>
    let catalog := catalog + sizeofCatalog
    let e := bootEntryAt b catalog
    if e.bootable = false then bootEntries b n catalog else e :: bootEntries b n catalog

/-- Every entry that is installed, from a number of calls on, leaves room for a child. -/
def EntriesFit (w : CdWorld) (volSpaceSize : UInt32) (calls : Nat) (es : List BootEntry) : Prop :=
  ∀ k e, es[k]? = some e → (w.services (calls + k)).installs = true → EntryFits w volSpaceSize e

theorem entriesFit_nil (w : CdWorld) (volSpaceSize : UInt32) (calls : Nat) : EntriesFit w volSpaceSize calls [] := by
  intro k e h
  cases h

theorem entriesFit_cons {calls : Nat} {es : List BootEntry} :
    EntriesFit w volSpaceSize calls (e :: es) ↔
      ((w.services calls).installs = true → EntryFits w volSpaceSize e) ∧ EntriesFit w volSpaceSize (calls + 1) es := by
  constructor
  · intro h
    refine ⟨fun hi => h 0 e rfl hi, fun k e' he' hi => h (k + 1) e' he' ?_⟩
    rwa [Nat.add_right_comm] at hi
  · rintro ⟨hhead, htail⟩ k e' he' hi
    cases k with
    | zero =>
      cases he'
      exact hhead hi
    | succ k =>
      refine htail k e' he' ?_
      rwa [Nat.add_right_comm]

/-- All children are inside the medium. -/
def ChildrenOk (w : CdWorld) (result : CdResult) : Prop := ∀ c ∈ result.children, CdInMedium w c

theorem installCdChild_eq (w : CdWorld) (volSpaceSize : UInt32) (bootEntry : Nat) (result : CdResult)
    (h : e.bootable = true) :
    ∃ r, installCdChild w (cdChild w.lastBlock volSpaceSize bootEntry e) result = some r ∧
      r.calls = result.calls + 1 ∧
      (ChildrenOk w r ↔
        ChildrenOk w result ∧ ((w.services result.calls).installs = true → EntryFits w volSpaceSize e)) := by
  have hsize : e.sectors.2.toNat ≠ 0 := by
    have := sectors_size e
    omega
  obtain ⟨status, child, hc, hchild⟩ := partitionInstallChildHandle_installs (w.services result.calls) w.parent
    (cdChild w.lastBlock volSpaceSize bootEntry e).startLba.toNat
    (cdChild w.lastBlock volSpaceSize bootEntry e).endLba.toNat hsize false
  refine ⟨_, congrArg (Option.map _) hc, rfl, ?_⟩
  simp only [ChildrenOk, hchild]
  rw [← entryFits_iff h bootEntry]
  by_cases hi : (w.services result.calls).installs = true
  · simp only [hi, if_true, List.forall_mem_append, List.forall_mem_singleton, forall_const]
  · simp only [hi, Bool.false_eq_true, if_false, false_implies, and_true]

theorem catalogLoop_eq (w : CdWorld) (b : Memory) (volSpaceSize : UInt32) (n catalog index bootEntry : Nat)
    (result : CdResult) :
    ∃ r, catalogLoop w b volSpaceSize n catalog index bootEntry result = some (catalog + n * sizeofCatalog, r) ∧
      (ChildrenOk w r ↔
        ChildrenOk w result ∧ EntriesFit w volSpaceSize result.calls (bootEntries b n catalog)) := by
  induction n generalizing catalog index bootEntry result with
  | zero =>
    refine ⟨result, ?_, ?_⟩
    · rw [catalogLoop, Nat.zero_mul, Nat.add_zero]
    · exact (and_iff_left (entriesFit_nil w volSpaceSize _)).symm
  | succ n ih =>
    have hadd : catalog + (n + 1) * sizeofCatalog = catalog + sizeofCatalog + n * sizeofCatalog := by
      rw [Nat.succ_mul]
      omega
    rw [hadd]
    simp only [catalogLoop, bootEntries]
    split
    · exact ih _ _ _ _
    · rename_i hboot
      obtain ⟨r, hr, hcalls, hok⟩ := installCdChild_eq w volSpaceSize (if index = 1 then 0 else bootEntry) result
        (show (bootEntryAt b (catalog + sizeofCatalog)).bootable = true by simpa using hboot)
      obtain ⟨r', hr', hok'⟩ := ih (catalog + sizeofCatalog) (index + 1) ((if index = 1 then 0 else bootEntry) + 1) r
      refine ⟨r', ?_, ?_⟩
      · rw [hr, Option.bind_some, hr']
      · rw [hok', hok, entriesFit_cons, hcalls, and_assoc]

/-! ## The walk along the descriptors -/

/-- The last descriptor that was looked at, the size of the volume, and whether `Catalog` has moved. -/
structure CdPlace where
  lba : UInt32
  volSpaceSize : UInt32
  walked : Bool
  deriving DecidableEq

def hasDescriptor (w : CdWorld) (lba : UInt32) : Bool :=
  lba.toUInt64 ≤ w.lastBlock && w.status lba = .success && !endOfDescriptors (w.block lba)

/-- The descriptor refers to a catalog on the medium. -/
def refers (w : CdWorld) (lba : UInt32) : Bool :=
  isElTorito (w.block lba) && (catalogLba (w.block lba)).toUInt64 ≤ w.lastBlock

/-- The block of the catalog. -/
def catalogBlock (w : CdWorld) (lba : UInt32) : Memory := w.block (catalogLba (w.block lba))

/-- The catalog can be read, and its header is valid. -/
def catalogOk (w : CdWorld) (lba : UInt32) : Bool :=
  w.status (catalogLba (w.block lba)) = .success && validHeader (catalogBlock w lba) 0

def nextPlace (w : CdWorld) (p : CdPlace) : Option CdPlace :=
  let lba := p.lba + 1
  if hasDescriptor w lba then
    some ⟨lba, volSpaceSizeOf (w.block lba) p.volSpaceSize, p.walked || (refers w lba && catalogOk w lba)⟩
  else none

/-- A catalog is read while `Catalog` is at the start of the buffer, and its entries leave room for children. -/
def StepFits (w : CdWorld) (p q : CdPlace) : Prop :=
  refers w q.lba = true → p.walked = false ∧
    (catalogOk w q.lba = true → EntriesFit w q.volSpaceSize 0 (bootEntries (catalogBlock w q.lba) (maxIndex - 1) 0))

/-- The loop is where the walk is. -/
structure AtPlace (s : CdState) (p : CdPlace) : Prop where
  lba : s.volDescriptorLba = p.lba
  volSpaceSize : s.volSpaceSize = p.volSpaceSize
  start : p.walked = false → s.catalog = 0 ∧ s.result.calls = 0
  moved : p.walked = true → 0 < s.catalog

variable {s : CdState} {p q : CdPlace}

theorem readBlock_start (w : CdWorld) (lba : UInt32) : w.readBlock lba 0 = some (w.status lba, w.block lba) :=
  if_pos (by simp)

theorem readBlock_moved {offset : Nat} (lba : UInt32) (h : 0 < offset) : w.readBlock lba offset = none :=
  if_neg (by omega)

/-- Without another descriptor the loop ends. -/
theorem descriptorLoop_end (hs : AtPlace s p) (h : nextPlace w p = none) (fuel : Nat) :
    ∃ r, descriptorLoop w (fuel + 1) s = some r ∧ r.children = s.result.children := by
  have hno : ¬hasDescriptor w (p.lba + 1) = true := fun hd => by simp [nextPlace, hd] at h
  rw [descriptorLoop, hs.lba]
  simp only
  split
  · exact ⟨_, rfl, rfl⟩
  rename_i hlast
  rw [readBlock_start]
  simp only
  split
  · exact ⟨_, rfl, rfl⟩
  split
  · exact ⟨_, rfl, rfl⟩
  · rename_i hstatus hend
    refine absurd ?_ hno
    simp only [hasDescriptor, Bool.and_eq_true, decide_eq_true_iff, Bool.not_eq_true']
    exact ⟨⟨UInt64.not_lt.mp hlast, not_not.mp hstatus⟩, by simpa using hend⟩

/-- The loop at a descriptor. -/
theorem descriptorLoop_descriptor (hs : AtPlace s p) (h : nextPlace w p = some q) (fuel : Nat) :
    q.lba = p.lba + 1 ∧ q.volSpaceSize = volSpaceSizeOf (w.block q.lba) p.volSpaceSize ∧
      q.walked = (p.walked || (refers w q.lba && catalogOk w q.lba)) ∧
      descriptorLoop w (fuel + 1) s =
        if refers w q.lba = false then
          descriptorLoop w fuel { s with volDescriptorLba := q.lba, volSpaceSize := q.volSpaceSize }
        else
          (readCatalog w (catalogLba (w.block q.lba))
            { s with volDescriptorLba := q.lba, volSpaceSize := q.volSpaceSize }).bind (descriptorLoop w fuel) := by
  simp only [nextPlace] at h
  split at h
  · rename_i hd
    cases h
    refine ⟨rfl, rfl, rfl, ?_⟩
    simp only [hasDescriptor, Bool.and_eq_true, decide_eq_true_iff, Bool.not_eq_true'] at hd
    obtain ⟨⟨hlast, hstatus⟩, hend⟩ := hd
    rw [descriptorLoop, hs.lba, hs.volSpaceSize]
    simp only
    rw [if_neg (UInt64.not_lt.mpr hlast), readBlock_start]
    simp only [hstatus, hend]
    rw [if_neg (by simp), if_neg (by simp)]
    by_cases hel : isElTorito (w.block (p.lba + 1)) = false
    · have hr : refers w (p.lba + 1) = false := by simp [refers, hel]
      rw [if_pos hel, if_pos hr]
    rw [if_neg hel]
    by_cases hcat : (catalogLba (w.block (p.lba + 1))).toUInt64 > w.lastBlock
    · have hr : refers w (p.lba + 1) = false := by simp [refers, UInt64.not_le.mpr hcat]
      rw [if_pos hcat, if_pos hr]
    · have hr : ¬refers w (p.lba + 1) = false := by simp [refers, hel, UInt64.not_lt.mp hcat]
      rw [if_neg hcat, if_neg hr]
  · cases h

/-- A second catalog does not fit behind the first. -/
theorem descriptorLoop_fault (hs : AtPlace s p) (h : nextPlace w p = some q) (hrefers : refers w q.lba = true)
    (hwalked : p.walked = true) (fuel : Nat) : descriptorLoop w (fuel + 1) s = none := by
  obtain ⟨-, -, -, hloop⟩ := descriptorLoop_descriptor hs h fuel
  have hread : w.readBlock (catalogLba (w.block q.lba)) s.catalog = none := readBlock_moved _ (hs.moved hwalked)
  have hcatalog : readCatalog w (catalogLba (w.block q.lba))
      { s with volDescriptorLba := q.lba, volSpaceSize := q.volSpaceSize } = none := by
    unfold readCatalog
    rw [hread]
  rw [hloop, hrefers, hcatalog]
  rfl

theorem readCatalog_eq (lba : UInt32) (hcatalog : s.catalog = 0) (hcalls : s.result.calls = 0) :
    ∃ s', readCatalog w lba s = some s' ∧ s'.volDescriptorLba = s.volDescriptorLba ∧
      s'.volSpaceSize = s.volSpaceSize ∧
      (¬(w.status lba = .success ∧ validHeader (w.block lba) 0 = true) → s' = s) ∧
      (w.status lba = .success ∧ validHeader (w.block lba) 0 = true → 0 < s'.catalog ∧
        (ChildrenOk w s'.result ↔ ChildrenOk w s.result ∧
          EntriesFit w s.volSpaceSize 0 (bootEntries (w.block lba) (maxIndex - 1) 0))) := by
  unfold readCatalog
  rw [hcatalog, readBlock_start]
  simp only
  by_cases hstatus : w.status lba = .success
  · rw [if_neg (not_not_intro hstatus)]
    by_cases hvalid : validHeader (w.block lba) 0 = false
    · rw [if_pos hvalid]
      exact ⟨s, rfl, rfl, rfl, fun _ => rfl, fun h => absurd h.2 (by simp [hvalid])⟩
    · obtain ⟨r, hr, hok⟩ := catalogLoop_eq w (w.block lba) s.volSpaceSize (maxIndex - 1) 0 1 1 s.result
      rw [if_neg hvalid, hr, Option.map_some]
      refine ⟨_, rfl, rfl, rfl, fun h => absurd ⟨hstatus, by simpa using hvalid⟩ h,
        fun _ => ⟨show 0 < 0 + (maxIndex - 1) * sizeofCatalog by decide, ?_⟩⟩
      rw [hok, hcalls]
  · rw [if_pos hstatus]
    exact ⟨s, rfl, rfl, rfl, fun _ => rfl, fun h => absurd h.1 hstatus⟩

/-- The loop goes on behind a descriptor whose catalog, if it has one, is the first. -/
theorem descriptorLoop_step (hs : AtPlace s p) (h : nextPlace w p = some q)
    (hfirst : refers w q.lba = true → p.walked = false) (fuel : Nat) :
    ∃ s', AtPlace s' q ∧ descriptorLoop w (fuel + 1) s = descriptorLoop w fuel s' ∧
      (ChildrenOk w s'.result ↔ ChildrenOk w s.result ∧ StepFits w p q) := by
  obtain ⟨-, -, hwalked, hloop⟩ := descriptorLoop_descriptor hs h fuel
  rw [hloop]
  by_cases hrefers : refers w q.lba = true
  · rw [if_neg (by simp [hrefers])]
    have hp := hfirst hrefers
    obtain ⟨hcatalog, hcalls⟩ := hs.start hp
    obtain ⟨s', hs', hlba, hvol, hbad, hgood⟩ := readCatalog_eq (w := w) (catalogLba (w.block q.lba))
      (s := { s with volDescriptorLba := q.lba, volSpaceSize := q.volSpaceSize }) hcatalog hcalls
    rw [hs', Option.bind_some]
    have hok : catalogOk w q.lba = true ↔ w.status (catalogLba (w.block q.lba)) = .success ∧
        validHeader (w.block (catalogLba (w.block q.lba))) 0 = true := by
      simp [catalogOk, catalogBlock]
    by_cases hc : catalogOk w q.lba = true
    · obtain ⟨hpos, hchildren⟩ := hgood (hok.mp hc)
      refine ⟨s', ⟨hlba, hvol, fun hq => ?_, fun _ => hpos⟩, rfl, hchildren.trans (and_congr_right fun _ => ?_)⟩
      · simp [hwalked, hrefers, hc] at hq
      · exact ⟨fun hfit _ => ⟨hp, fun _ => hfit⟩, fun hstep => (hstep hrefers).2 hc⟩
    · obtain rfl := hbad (mt hok.mpr hc)
      refine ⟨{ s with volDescriptorLba := q.lba, volSpaceSize := q.volSpaceSize },
        ⟨rfl, rfl, fun _ => ⟨hcatalog, hcalls⟩, fun hq => ?_⟩, rfl,
        (and_iff_left fun _ => ⟨hp, fun h => absurd h hc⟩).symm⟩
      simp [hwalked, hp, hc] at hq
  · rw [if_pos (by simpa using hrefers)]
    have hq : q.walked = p.walked := by simp [hwalked, hrefers]
    exact ⟨{ s with volDescriptorLba := q.lba, volSpaceSize := q.volSpaceSize },
      ⟨rfl, rfl, fun hw => hs.start (hq ▸ hw), fun hw => hs.moved (hq ▸ hw)⟩, rfl,
      (and_iff_left fun hr => absurd hr hrefers).symm⟩

/-- The loop returns with good children exactly if the walk ends and every step of it is good. -/
theorem descriptorLoop_iff (hs : AtPlace s p) (fuel : Nat) :
    (∃ r, descriptorLoop w fuel s = some r ∧ ChildrenOk w r) ↔
      orbit (nextPlace w) p fuel = none ∧ Along (nextPlace w) (StepFits w) p ∧ ChildrenOk w s.result := by
  induction fuel generalizing s p with
  | zero => exact ⟨by rintro ⟨_, ⟨⟩, -⟩, by rintro ⟨⟨⟩, -⟩⟩
  | succ fuel ih =>
    cases hnext : nextPlace w p with
    | none =>
      obtain ⟨r, hr, hchildren⟩ := descriptorLoop_end hs hnext fuel
      rw [hr]
      constructor
      · rintro ⟨_, ⟨rfl⟩, hok⟩
        exact ⟨orbit_of_end hnext fuel, along_of_end hnext, fun c hc => hok c (hchildren ▸ hc)⟩
      · rintro ⟨-, -, hok⟩
        exact ⟨r, rfl, fun c hc => hok c (hchildren ▸ hc)⟩
    | some q =>
      rw [orbit_of_next hnext, along_iff hnext]
      by_cases hfirst : refers w q.lba = true → p.walked = false
      · obtain ⟨s', hs', hloop, hok⟩ := descriptorLoop_step hs hnext hfirst fuel
        rw [hloop, ih hs', hok]
        tauto
      · obtain ⟨hrefers, hwalked⟩ := Classical.not_imp.mp hfirst
        rw [descriptorLoop_fault hs hnext hrefers (by simpa using hwalked)]
        exact ⟨by rintro ⟨_, ⟨⟩, -⟩, fun h => absurd (h.2.1.1 hrefers).1 hwalked⟩

theorem nextPlace_lba (w : CdWorld) (p q : CdPlace) (h : p.lba = q.lba) :
    (nextPlace w p).map CdPlace.lba = (nextPlace w q).map CdPlace.lba := by
  simp only [nextPlace, h]
  split <;> rfl

end

/-- Where the walk begins. The first descriptor is that of block 16. -/
def firstPlace : CdPlace := ⟨15, 0, false⟩

/-- On a medium of the right block size: the walk along the descriptors comes to no block twice, no descriptor refers to
a catalog after one whose entries have been walked, and the entries that are walked leave room for children. -/
def CdScanHolds (w : CdWorld) : Prop :=
  w.parent.media.blockSize = cdBlockSize → w.allocatePool = true →
    (¬∃ i j p q, i < j ∧ orbit (nextPlace w) firstPlace i = some p ∧ orbit (nextPlace w) firstPlace j = some q ∧
      p.lba = q.lba) ∧
    Along (nextPlace w) (StepFits w) firstPlace

/-- The scan returns without a write outside its buffer, with children inside the medium. -/
theorem elTorito_scan_iff (w : CdWorld) :
    (∃ fuel r, partitionInstallElToritoChildHandles w fuel = some r ∧ ∀ c ∈ r.children, CdInMedium w c) ↔
      CdScanHolds w := by
  unfold partitionInstallElToritoChildHandles CdScanHolds
  by_cases hsize : w.parent.media.blockSize ≠ cdBlockSize
  · simp only [if_pos hsize]
    exact ⟨fun _ h => absurd h hsize, fun _ => ⟨0, _, rfl, nofun⟩⟩
  by_cases halloc : w.allocatePool = false
  · simp only [if_neg hsize, if_pos halloc]
    exact ⟨fun _ _ h => absurd halloc (by simp [h]), fun _ => ⟨0, _, rfl, nofun⟩⟩
  simp only [if_neg hsize, if_neg halloc]
  have hs : AtPlace ⟨15, 0, 0, ⟨.notFound, [], 0⟩⟩ firstPlace := ⟨rfl, rfl, fun _ => ⟨rfl, rfl⟩, nofun⟩
  have hends := ends_iff (a := firstPlace) (nextPlace_lba w)
  rw [← hends]
  constructor
  · rintro ⟨fuel, r, hr, hok⟩ - -
    obtain ⟨hend, halong, -⟩ := (descriptorLoop_iff hs fuel).mp ⟨r, hr, hok⟩
    exact ⟨⟨fuel, hend⟩, halong⟩
  · intro h
    obtain ⟨⟨fuel, hend⟩, halong⟩ := h (not_not.mp hsize) (by simpa using halloc)
    obtain ⟨r, hr, hok⟩ := (descriptorLoop_iff hs fuel).mpr ⟨hend, halong, nofun⟩
    exact ⟨fuel, r, hr, hok⟩

/-- A boot record that refers to the catalog in block 20. -/
def bootRecordBytes : List UInt8 := 0 :: cdvolId ++ 1 :: cdvolEltoritoId ++ List.replicate 41 0 ++ [20]

/-- The header of a catalog without entries. -/
def catalogBytes : List UInt8 := 1 :: List.replicate 27 0 ++ [0xaa, 0x55, 0x55, 0xaa]

/-- Two boot records, in blocks 16 and 17, for one catalog. -/
def twoRecordsDisc : Memory := fun i =>
  if i / 2048 = 16 ∨ i / 2048 = 17 then bootRecordBytes.getD (i % 2048) 0
  else if i / 2048 = 20 then catalogBytes.getD (i % 2048) 0
  else 0

def twoRecordsWorld : CdWorld where
  parent := { sampleParent with media := { sampleParent.media with blockSize := 2048, lastBlock := 30 } }
  allocatePool := true
  disk := twoRecordsDisc
  readDisk := fun _ => .success
  services := fun _ => sampleServices

/-- The second catalog is read to an offset of 2016 bytes in the buffer of 2048. -/
theorem second_record_overruns :
    ¬∃ fuel r, partitionInstallElToritoChildHandles twoRecordsWorld fuel = some r ∧
      ∀ c ∈ r.children, CdInMedium twoRecordsWorld c := by
  rintro ⟨fuel, r, hr, hok⟩
  have hs : AtPlace ⟨15, 0, 0, ⟨.notFound, [], 0⟩⟩ firstPlace := ⟨rfl, rfl, fun _ => ⟨rfl, rfl⟩, nofun⟩
  obtain ⟨-, halong, -⟩ := (descriptorLoop_iff (w := twoRecordsWorld) hs fuel).mp ⟨r, hr, hok⟩
  have hfits := halong 1 ⟨16, 0, true⟩ ⟨17, 0, true⟩ (by decide +kernel) (by decide +kernel)
  exact absurd (hfits (by decide +kernel)).1 (by decide)

end Udk.Partition
