import Mathlib.Data.List.Range
import Udk.Partition.Gpt

/-! # The entries that become children -/

namespace Udk.Partition

open Bytes

variable {w : World} {h : Header} {entry : Nat → PartitionEntry} {status : Nat → EntryStatus} {n i : Nat}

/-- A partition inside of the usable blocks. -/
def InRange (h : Header) (e : PartitionEntry) : Prop :=
  e.startingLba ≤ e.endingLba ∧ h.firstUsableLba ≤ e.startingLba ∧ e.endingLba ≤ h.lastUsableLba

instance (e : PartitionEntry) : Decidable (InRange h e) := inferInstanceAs (Decidable (_ ∧ _))

theorem outOfRange_iff (h : Header) (e : PartitionEntry) : outOfRange h e = true ↔ ¬InRange h e := by
  unfold outOfRange InRange
  simp only [Bool.or_eq_true, decide_eq_true_eq]
  omega

/-- An entry that may become a child. -/
def Eligible (h : Header) (e : PartitionEntry) : Prop :=
  e.used = true ∧ InRange h e ∧ e.attributes.testBit 1 = false

instance (e : PartitionEntry) : Decidable (Eligible h e) := inferInstanceAs (Decidable (_ ∧ _))

/-- The ranges have a block in common. -/
def Meets (e₁ e₂ : PartitionEntry) : Prop := e₁.startingLba ≤ e₂.endingLba ∧ e₂.startingLba ≤ e₁.endingLba

instance (e₁ e₂ : PartitionEntry) : Decidable (Meets e₁ e₂) := inferInstanceAs (Decidable (_ ∧ _))

theorem Meets.symm {e₁ e₂ : PartitionEntry} (hm : Meets e₁ e₂) : Meets e₂ e₁ := And.symm hm

theorem regionsMeet_iff (e₁ e₂ : PartitionEntry) : regionsMeet e₁ e₂ = true ↔ Meets e₁ e₂ := by
  simp [regionsMeet, Meets]

/-- The `n` entries of which a table has children. -/
def Exposed (h : Header) (entry : Nat → PartitionEntry) (n i : Nat) : Prop :=
  Eligible h (entry i) ∧ ∀ j < n, j ≠ i → Eligible h (entry j) → ¬Meets (entry i) (entry j)

instance (n i : Nat) : Decidable (Exposed h entry n i) := inferInstanceAs (Decidable (_ ∧ _))

/-- One of the two comparisons that the driver makes of entry `i` marks it. -/
def Marked (h : Header) (entry : Nat → PartitionEntry) (n i : Nat) : Prop :=
  ∃ j < n, j ≠ i ∧ (entry j).used = true ∧ Meets (entry i) (entry j) ∧ (i < j ∨ InRange h (entry j))

instance (n i : Nat) : Decidable (Marked h entry n i) := inferInstanceAs (Decidable (∃ j < n, _))

/-! ## The loops -/

/-- A fold in which each pass may set a flag. -/
theorem foldl_flag {σ : Type} (flag : σ → Bool) (f : σ → Nat → σ) (g : Nat → Bool)
    (hf : ∀ st k, flag (f st k) = (flag st || g k)) (l : List Nat) (st : σ) :
    flag (l.foldl f st) = (flag st || l.any g) := by
  induction l generalizing st with
  | nil => simp
  | cons k l ih => rw [List.foldl_cons, ih, hf, List.any_cons, Bool.or_assoc]

/-- A fold that leaves something alone. -/
theorem foldl_same {σ α : Type} (value : σ → α) (f : σ → Nat → σ) (hf : ∀ st k, value (f st k) = value st)
    (l : List Nat) (st : σ) : value (l.foldl f st) = value st := by
  induction l generalizing st with
  | nil => rfl
  | cons k l ih => rw [List.foldl_cons, ih, hf]

theorem markOverlap_overlap (index1 i : Nat) (status : Nat → EntryStatus) (index2 : Nat) :
    (markOverlap entry index1 status index2 i).overlap =
      ((status i).overlap ||
        ((entry index2).used && regionsMeet (entry index1) (entry index2) && (i = index1 || i = index2))) := by
  unfold markOverlap
  cases hu : (entry index2).used with
  | false => simp
  | true =>
    cases hm : regionsMeet (entry index1) (entry index2) with
    | false => simp
    | true =>
      simp only [setStatus, setOverlap, Bool.true_and, if_true, Bool.true_eq_false, if_false]
      by_cases h₁ : i = index1 <;> by_cases h₂ : i = index2 <;> simp [h₁, h₂]

theorem setStatus_same {α : Type} (value : EntryStatus → α) {f : EntryStatus → EntryStatus}
    (hf : ∀ st, value (f st) = value st) (j i : Nat) (status : Nat → EntryStatus) :
    value (setStatus j f status i) = value (status i) := by
  unfold setStatus
  split
  · exact hf _
  · rfl

/-- The other flags stay. -/
theorem markOverlap_same {α : Type} (value : EntryStatus → α) (hv : ∀ st, value (setOverlap st) = value st)
    (index1 i : Nat) (status : Nat → EntryStatus) (index2 : Nat) :
    value (markOverlap entry index1 status index2 i) = value (status i) := by
  unfold markOverlap
  split
  · rfl
  split
  · rw [setStatus_same value hv, setStatus_same value hv]
  · rfl

/-- The entries that pass `index1` compares. -/
def compared (h : Header) (index1 : Nat) : List Nat :=
  List.range' (index1 + 1) (h.numberOfPartitionEntries - (index1 + 1))

theorem mem_compared {a b : Nat} : b ∈ compared h a ↔ a < b ∧ b < h.numberOfPartitionEntries := by
  rw [compared, List.mem_range'_1]
  omega

theorem checkEntry_outOfRange (status : Nat → EntryStatus) (k : Nat) :
    (checkEntry h entry status k i).outOfRange =
      ((status i).outOfRange || ((entry k).used && outOfRange h (entry k) && i = k)) := by
  have hfold := foldl_same (fun st : Nat → EntryStatus => (st i).outOfRange) (markOverlap entry k)
    (markOverlap_same EntryStatus.outOfRange (fun _ => rfl) k i) (compared h k) status
  unfold checkEntry
  dsimp only
  cases hu : (entry k).used with
  | false => simp
  | true =>
    cases ho : outOfRange h (entry k) with
    | true => by_cases hi : i = k <;> simp [setStatus, hi]
    | false =>
      rw [if_neg (by simp), if_neg (by simp)]
      unfold compared at hfold
      split <;> simp [setStatus, hfold, apply_ite EntryStatus.outOfRange]

theorem checkEntry_osSpecific (status : Nat → EntryStatus) (k : Nat) :
    (checkEntry h entry status k i).osSpecific =
      ((status i).osSpecific ||
        ((entry k).used && !outOfRange h (entry k) && (entry k).attributes.testBit 1 && i = k)) := by
  have hfold := foldl_same (fun st : Nat → EntryStatus => (st i).osSpecific) (markOverlap entry k)
    (markOverlap_same EntryStatus.osSpecific (fun _ => rfl) k i) (compared h k) status
  unfold checkEntry
  dsimp only
  cases hu : (entry k).used with
  | false => simp
  | true =>
    cases ho : outOfRange h (entry k) with
    | true => by_cases hi : i = k <;> simp [setStatus, hi]
    | false =>
      rw [if_neg (by simp), if_neg (by simp)]
      unfold compared at hfold
      split
      · rename_i hbit
        by_cases hi : i = k <;> simp [setStatus, hfold, hi, hbit]
      · rename_i hbit
        simp [hfold, hbit]

theorem checkEntry_overlap (status : Nat → EntryStatus) (k : Nat) :
    (checkEntry h entry status k i).overlap =
      ((status i).overlap ||
        ((entry k).used && !outOfRange h (entry k) &&
          (compared h k).any fun b => (entry b).used && regionsMeet (entry k) (entry b) && (i = k || i = b))) := by
  have hfold := foldl_flag (fun st : Nat → EntryStatus => (st i).overlap) (markOverlap entry k) _
    (markOverlap_overlap k i) (compared h k) status
  unfold checkEntry
  dsimp only
  cases hu : (entry k).used with
  | false => simp
  | true =>
    cases ho : outOfRange h (entry k) with
    | true => by_cases hi : i = k <;> simp [setStatus, hi]
    | false =>
      rw [if_neg (by simp), if_neg (by simp)]
      unfold compared at hfold ⊢
      split <;> simp only [setStatus, Bool.not_false, Bool.true_and] <;> first | exact hfold | skip
      split
      · rename_i hi
        subst hi
        exact hfold
      · exact hfold

/-! ## What is recorded -/

theorem partitionCheckGptEntry_outOfRange (hi : i < h.numberOfPartitionEntries) :
    (partitionCheckGptEntry h entry i).outOfRange = ((entry i).used && outOfRange h (entry i)) := by
  have hfold := foldl_flag (fun st : Nat → EntryStatus => (st i).outOfRange) (checkEntry h entry) _
    checkEntry_outOfRange (List.range h.numberOfPartitionEntries) fun _ => ⟨false, false, false⟩
  rw [partitionCheckGptEntry, hfold, Bool.false_or, Bool.eq_iff_iff, List.any_eq_true]
  simp only [List.mem_range, Bool.and_eq_true, decide_eq_true_eq]
  exact ⟨fun ⟨k, _, hk, heq⟩ => heq ▸ hk, fun hk => ⟨i, hi, hk, rfl⟩⟩

theorem partitionCheckGptEntry_osSpecific (hi : i < h.numberOfPartitionEntries) :
    (partitionCheckGptEntry h entry i).osSpecific =
      ((entry i).used && !outOfRange h (entry i) && (entry i).attributes.testBit 1) := by
  have hfold := foldl_flag (fun st : Nat → EntryStatus => (st i).osSpecific) (checkEntry h entry) _
    checkEntry_osSpecific (List.range h.numberOfPartitionEntries) fun _ => ⟨false, false, false⟩
  rw [partitionCheckGptEntry, hfold, Bool.false_or, Bool.eq_iff_iff, List.any_eq_true]
  simp only [List.mem_range, Bool.and_eq_true, decide_eq_true_eq]
  exact ⟨fun ⟨k, _, hk, heq⟩ => heq ▸ hk, fun hk => ⟨i, hi, hk, rfl⟩⟩

theorem partitionCheckGptEntry_overlap (hi : i < h.numberOfPartitionEntries) (hu : (entry i).used = true)
    (hin : InRange h (entry i)) :
    (partitionCheckGptEntry h entry i).overlap = true ↔ Marked h entry h.numberOfPartitionEntries i := by
  have hfold := foldl_flag (fun st : Nat → EntryStatus => (st i).overlap) (checkEntry h entry) _
    checkEntry_overlap (List.range h.numberOfPartitionEntries) fun _ => ⟨false, false, false⟩
  have hrange (e : PartitionEntry) : (!outOfRange h e) = true ↔ InRange h e := by
    rw [Bool.not_eq_true', ← Bool.not_eq_true, outOfRange_iff, not_not]
  rw [partitionCheckGptEntry, hfold, Bool.false_or, List.any_eq_true]
  simp only [List.mem_range, List.any_eq_true, mem_compared, Bool.and_eq_true, Bool.or_eq_true, decide_eq_true_eq,
    regionsMeet_iff, hrange]
  constructor
  · rintro ⟨a, ha, ⟨hua, hina⟩, b, ⟨hab, hb⟩, ⟨hub, hm⟩, rfl | rfl⟩
    · exact ⟨b, hb, Nat.ne_of_gt hab, hub, hm, .inl hab⟩
    · exact ⟨a, ha, Nat.ne_of_lt hab, hua, hm.symm, .inr hina⟩
  · rintro ⟨j, hj, hne, huj, hm, hor⟩
    rcases Nat.lt_or_gt_of_ne hne with hlt | hgt
    · have hinj : InRange h (entry j) := hor.resolve_left (Nat.lt_asymm hlt)
      exact ⟨j, hj, ⟨huj, hinj⟩, i, ⟨hlt, hi⟩, ⟨hu, hm.symm⟩, .inr rfl⟩
    · exact ⟨i, hi, ⟨hu, hin⟩, j, ⟨hgt, hj⟩, ⟨huj, hm⟩, .inl rfl⟩

/-! ## The children -/

/-- The entries that are installed are eligible and not marked. -/
theorem installChildren_eq (w : World) (h : Header) (entry : Nat → PartitionEntry) :
    installChildren w h entry =
      ((List.range h.numberOfPartitionEntries).filter fun i =>
        Eligible h (entry i) ∧ ¬Marked h entry h.numberOfPartitionEntries i).map fun i => childOf w i (entry i) := by
  unfold installChildren
  dsimp only
  congr 1
  refine List.filter_congr fun i hi => ?_
  have hi := List.mem_range.mp hi
  have hout := outOfRange_iff h (entry i)
  rw [partitionCheckGptEntry_outOfRange hi, partitionCheckGptEntry_osSpecific hi, Bool.eq_iff_iff]
  simp only [Bool.not_eq_true', decide_eq_false_iff_not, decide_eq_true_eq, not_or]
  constructor
  · rintro ⟨hu, ho, hm, hos⟩
    have hu : (entry i).used = true := by simpa using hu
    have hin : InRange h (entry i) := by
      by_contra hno
      exact ho (by rw [hu, hout.mpr hno]; rfl)
    have ho' : outOfRange h (entry i) = false := by
      rw [← Bool.not_eq_true, hout, not_not]
      exact hin
    refine ⟨⟨hu, hin, ?_⟩, ?_⟩
    · rw [hu, ho'] at hos
      simpa using hos
    · rwa [partitionCheckGptEntry_overlap hi hu hin] at hm
  · rintro ⟨⟨hu, hin, hbit⟩, hm⟩
    have ho' : outOfRange h (entry i) = false := by
      rw [← Bool.not_eq_true, hout, not_not]
      exact hin
    refine ⟨by simp [hu], by simp [ho'], ?_, by simp [hbit]⟩
    rwa [partitionCheckGptEntry_overlap hi hu hin]

/-- Another eligible entry that meets this one marks it. -/
theorem Eligible.marked {j : Nat} (he : Eligible h (entry j)) (hj : j < n) (hne : j ≠ i) (hm : Meets (entry i) (entry j)) :
    Marked h entry n i :=
  ⟨j, hj, hne, he.1, hm, .inr he.2.1⟩

theorem exposed_of_unmarked (he : Eligible h (entry i)) (hm : ¬Marked h entry n i) : Exposed h entry n i :=
  ⟨he, fun _ hj hne hej hmeet => hm (hej.marked hj hne hmeet)⟩

/-- The children that a table should have. -/
def exposedChildren (w : World) (h : Header) (entry : Nat → PartitionEntry) : List GptChild :=
  ((List.range h.numberOfPartitionEntries).filter fun i => Exposed h entry h.numberOfPartitionEntries i).map
    fun i => childOf w i (entry i)

/-- Two children without a common block. -/
def GptChild.Disjoint (a b : GptChild) : Prop := a.endLba < b.startLba ∨ b.endLba < a.startLba

theorem installChildren_disjoint (w : World) (h : Header) (entry : Nat → PartitionEntry) :
    (installChildren w h entry).Pairwise GptChild.Disjoint := by
  rw [installChildren_eq, List.pairwise_map]
  refine List.Pairwise.imp_of_mem (fun {i j} hi hj hlt => ?_) (List.pairwise_lt_range.filter _)
  obtain ⟨hir, hip⟩ := List.mem_filter.mp hi
  obtain ⟨hjr, hjp⟩ := List.mem_filter.mp hj
  obtain ⟨hei, hmi⟩ := of_decide_eq_true hip
  obtain ⟨hej, -⟩ := of_decide_eq_true hjp
  have hno : ¬Meets (entry i) (entry j) := fun hm => hmi (hej.marked (List.mem_range.mp hjr) (Nat.ne_of_gt hlt) hm)
  unfold Meets at hno
  show (entry i).endingLba < (entry j).startingLba ∨ (entry j).endingLba < (entry i).startingLba
  omega

theorem childOf_injective {i j : Nat} (hi : i < n) (hj : j < n) (hn : n < 2 ^ 32) {e e' : PartitionEntry}
    (heq : childOf w i e = childOf w j e') : i = j := by
  have hnumber := congrArg GptChild.partitionNumber heq
  simp only [childOf, DiskIo.uint32] at hnumber
  omega

/-- The children are the right ones just when no entry is marked by one that is no child itself. -/
theorem installChildren_iff (w : World) (h : Header) (entry : Nat → PartitionEntry) :
    installChildren w h entry = exposedChildren w h entry ↔
      ∀ i < h.numberOfPartitionEntries, Exposed h entry h.numberOfPartitionEntries i →
        ¬Marked h entry h.numberOfPartitionEntries i := by
  have hn : h.numberOfPartitionEntries < 2 ^ 32 := readLE_lt h 80 4
  rw [installChildren_eq, exposedChildren]
  constructor
  · intro heq i hi hexposed hmarked
    have hmem : childOf w i (entry i) ∈
        ((List.range h.numberOfPartitionEntries).filter fun i =>
          Exposed h entry h.numberOfPartitionEntries i).map fun i => childOf w i (entry i) :=
      List.mem_map.mpr ⟨i, List.mem_filter.mpr ⟨List.mem_range.mpr hi, decide_eq_true hexposed⟩, rfl⟩
    rw [← heq] at hmem
    obtain ⟨j, hj, hchild⟩ := List.mem_map.mp hmem
    obtain ⟨hjr, hjp⟩ := List.mem_filter.mp hj
    obtain rfl := childOf_injective (List.mem_range.mp hjr) hi hn hchild
    exact (of_decide_eq_true hjp).2 hmarked
  · intro hcond
    congr 1
    refine List.filter_congr fun i hi => decide_eq_decide.mpr ⟨fun hp => exposed_of_unmarked hp.1 hp.2, fun he => ?_⟩
    exact ⟨he.1, hcond i (List.mem_range.mp hi) he⟩

end Udk.Partition
