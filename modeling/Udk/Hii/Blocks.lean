import Udk.Ranges

/-! # The block array of a request

The pairs of a request are put in the order of offsets and widths, and then merged. Sums of two 16-bit numbers are
made in `int`, but the width of a merged range has 16 bits again.
-/

namespace Udk.Hii

open Ranges (Covered)

/-- `IFR_BLOCK_DATA`, and the number of its allocation. -/
structure IfrBlockData where
  allocation : Nat
  offset : UInt16
  width : UInt16
  deriving DecidableEq

namespace IfrBlockData

/-- `Offset + Width`. -/
def limit (b : IfrBlockData) : Nat := b.offset.toNat + b.width.toNat

end IfrBlockData

instance : Ranges.Ranged IfrBlockData := ⟨fun b => b.offset.toNat, IfrBlockData.limit⟩

/-- The list, and what was freed. -/
def insertBlockData : List IfrBlockData → IfrBlockData → List IfrBlockData × List Nat
  | [], blockData => ([blockData], [])
  | blockArray :: link, blockData =>
    if blockArray.offset = blockData.offset then
      if blockArray.width > blockData.width then (blockData :: blockArray :: link, [])
      else if blockArray.width = blockData.width then (blockArray :: link, [blockData.allocation])
      else (blockArray :: (insertBlockData link blockData).1, (insertBlockData link blockData).2)
    else if blockArray.offset > blockData.offset then (blockData :: blockArray :: link, [])
    else (blockArray :: (insertBlockData link blockData).1, (insertBlockData link blockData).2)

/-- The blocks are allocated one after the other. -/
def insertBlocks (blocks : List IfrBlockData) (freed : List Nat) (allocation : Nat) :
    List (UInt16 × UInt16) → List IfrBlockData × List Nat
  | [] => (blocks, freed)
  | (offset, width) :: pairs =>
    insertBlocks (insertBlockData blocks ⟨allocation, offset, width⟩).1
      (freed ++ (insertBlockData blocks ⟨allocation, offset, width⟩).2) (allocation + 1) pairs

/-- The loop that merges, at `blockData`. -/
def mergeFrom (blockData : IfrBlockData) : List IfrBlockData → List IfrBlockData × List Nat
  | [] => ([blockData], [])
  | nextBlockData :: link =>
    if nextBlockData.offset ≥ blockData.offset ∧ nextBlockData.offset.toNat ≤ blockData.limit then
      let blockData := if nextBlockData.limit > blockData.limit then
          { blockData with width := UInt16.ofNat (nextBlockData.limit - blockData.offset.toNat) }
        else blockData
      ((mergeFrom blockData link).1, nextBlockData.allocation :: (mergeFrom blockData link).2)
    else (blockData :: (mergeFrom nextBlockData link).1, (mergeFrom nextBlockData link).2)

def mergeBlocks : List IfrBlockData → List IfrBlockData × List Nat
  | [] => ([], [])
  | blockData :: link => mergeFrom blockData link

/-- The array for the pairs of a request, and what was freed on the way. -/
def requestBlocks (pairs : List (UInt16 × UInt16)) : List IfrBlockData × List Nat :=
  let inserted := insertBlocks [] [] 0 pairs
  let merged := mergeBlocks inserted.1
  (merged.1, inserted.2 ++ merged.2)

def blockArrayCheck (requestBlockArray : Option (List IfrBlockData)) (varOffset varWidth : UInt16) : Bool :=
  match requestBlockArray with
  | none => true
  | some blocks =>
    blocks.any fun blockData =>
      varOffset ≥ blockData.offset && varOffset.toNat + varWidth.toNat ≤ blockData.limit

/-! ## Insertion -/

def Requested (pairs : List (UInt16 × UInt16)) (x : Nat) : Prop :=
  ∃ p ∈ pairs, p.1.toNat ≤ x ∧ x < p.1.toNat + p.2.toNat

/-- The order of offsets. -/
def InOrder (l : List IfrBlockData) : Prop := l.Pairwise fun a b => a.offset.toNat ≤ b.offset.toNat

def allocations (l : List IfrBlockData) : List Nat := l.map IfrBlockData.allocation

/-- The list `r` and what was freed come from the list `l` and a new block. -/
structure Inserted (l : List IfrBlockData) (b : IfrBlockData) (r : List IfrBlockData) (freed : List Nat) : Prop where
  inOrder : InOrder r
  mem : ∀ a ∈ r, a = b ∨ a ∈ l
  covered : ∀ x, Covered r x ↔ Covered l x ∨ b.offset.toNat ≤ x ∧ x < b.limit
  once : (allocations r ++ freed).Perm (b.allocation :: allocations l)

theorem Inserted.front {l : List IfrBlockData} {b : IfrBlockData} (h : InOrder l)
    (hle : ∀ a ∈ l, b.offset.toNat ≤ a.offset.toNat) : Inserted l b (b :: l) [] where
  inOrder := List.pairwise_cons.mpr ⟨hle, h⟩
  mem a ha := List.mem_cons.mp ha
  covered x := by
    rw [Ranges.covered_cons, or_comm]
    rfl
  once := by
    rw [List.append_nil]
    exact List.Perm.refl _

theorem Inserted.cons {l r : List IfrBlockData} {a b : IfrBlockData} {freed : List Nat} (h : InOrder (a :: l))
    (hr : Inserted l b r freed) (hle : a.offset.toNat ≤ b.offset.toNat) : Inserted (a :: l) b (a :: r) freed where
  inOrder := by
    refine List.pairwise_cons.mpr ⟨fun c hc => ?_, hr.inOrder⟩
    rcases hr.mem c hc with rfl | hc
    · exact hle
    · exact (List.pairwise_cons.mp h).1 c hc
  mem c hc := by
    rcases List.mem_cons.mp hc with rfl | hc
    · exact .inr List.mem_cons_self
    · exact (hr.mem c hc).imp id (List.mem_cons_of_mem _)
  covered x := by rw [Ranges.covered_cons, Ranges.covered_cons, hr.covered, or_assoc]
  once := (hr.once.cons a.allocation).trans (List.Perm.swap _ _ _)

theorem insertBlockData_spec (l : List IfrBlockData) (b : IfrBlockData) (h : InOrder l) :
    Inserted l b (insertBlockData l b).1 (insertBlockData l b).2 := by
  induction l with
  | nil => exact .front .nil nofun
  | cons a l ih =>
    obtain ⟨hal, hl⟩ := List.pairwise_cons.mp h
    have hfront (hle : b.offset.toNat ≤ a.offset.toNat) : ∀ c ∈ a :: l, b.offset.toNat ≤ c.offset.toNat := by
      intro c hc
      rcases List.mem_cons.mp hc with rfl | hc
      · exact hle
      · exact Nat.le_trans hle (hal c hc)
    unfold insertBlockData
    split
    · rename_i heq
      split
      · exact .front h (hfront (by rw [heq]))
      · split
        · rename_i hwidth
          refine ⟨h, fun c hc => .inr hc, fun x => ⟨.inl, fun hx => hx.elim id fun hx => ?_⟩, List.perm_append_comm⟩
          rw [Ranges.covered_cons]
          refine .inl ?_
          simp only [Ranges.lo, Ranges.hi, IfrBlockData.limit, heq, hwidth]
          exact hx
        · exact .cons h (ih hl) (by rw [heq])
    · split
      · rename_i hgt
        exact .front h (hfront (Nat.le_of_lt (UInt16.lt_iff_toNat_lt.mp hgt)))
      · rename_i hgt
        exact .cons h (ih hl) (Nat.le_of_not_lt fun hlt => hgt (UInt16.lt_iff_toNat_lt.mpr hlt))

theorem insertBlocks_spec (pairs : List (UInt16 × UInt16)) {blocks : List IfrBlockData} (freed : List Nat)
    (allocation : Nat) (h : InOrder blocks) (honce : (allocations blocks ++ freed).Perm (List.range allocation)) :
    InOrder (insertBlocks blocks freed allocation pairs).1 ∧
      (∀ x, Covered (insertBlocks blocks freed allocation pairs).1 x ↔ Covered blocks x ∨ Requested pairs x) ∧
      (allocations (insertBlocks blocks freed allocation pairs).1 ++
        (insertBlocks blocks freed allocation pairs).2).Perm (List.range (allocation + pairs.length)) := by
  induction pairs generalizing blocks freed allocation with
  | nil =>
    refine ⟨h, fun x => ⟨.inl, fun hx => hx.resolve_right ?_⟩, honce⟩
    exact fun ⟨_, hp, _⟩ => nomatch hp
  | cons p pairs ih =>
    obtain ⟨offset, width⟩ := p
    obtain ⟨horder, -, hcovered, honce'⟩ := insertBlockData_spec blocks ⟨allocation, offset, width⟩ h
    unfold insertBlocks
    obtain ⟨ih1, ih2, ih3⟩ := ih (freed ++ (insertBlockData blocks ⟨allocation, offset, width⟩).2)
      (allocation + 1) horder (by
        rw [List.range_succ]
        refine (List.perm_append_comm_assoc _ _ _).trans ?_
        refine (honce'.append_left freed).trans ?_
        refine List.perm_middle.trans ?_
        refine ((List.perm_append_comm.trans honce).cons allocation).trans ?_
        exact (List.perm_append_singleton _ _).symm)
    refine ⟨ih1, fun x => ?_, ?_⟩
    · rw [ih2, hcovered, or_assoc]
      refine or_congr_right ?_
      unfold Requested
      simp only [List.mem_cons, exists_eq_or_imp]
      rfl
    · rw [List.length_cons, Nat.add_comm pairs.length, ← Nat.add_assoc]
      exact ih3

/-! ## Merging -/

/-- There are not 65536 bytes in a row. -/
def Bounded (covered : Nat → Prop) : Prop := ¬∃ first, ∀ x, first ≤ x → x < first + 65536 → covered x

theorem Bounded.mono {covered covered' : Nat → Prop} (h : Bounded covered') (himp : ∀ x, covered x → covered' x) :
    Bounded covered := by
  rintro ⟨first, hall⟩
  exact h ⟨first, fun x h1 h2 => himp x (hall x h1 h2)⟩

/-- Two ranges that overlap or touch are one. -/
theorem mergeFrom_covered {b : IfrBlockData} {l : List IfrBlockData} (h : InOrder (b :: l))
    (hbounded : Bounded (Covered (b :: l))) : ∀ x, Covered (mergeFrom b l).1 x ↔ Covered (b :: l) x := by
  induction l generalizing b with
  | nil => exact fun _ => Iff.rfl
  | cons n l ih =>
    obtain ⟨hb, hnl⟩ := List.pairwise_cons.mp h
    obtain ⟨hn, hl⟩ := List.pairwise_cons.mp hnl
    have hbn := hb n List.mem_cons_self
    unfold mergeFrom
    split
    · rename_i hcond
      -- the merged range, if its width fits
      have hmerged : ∀ c : IfrBlockData, c.offset = b.offset → c.limit = max b.limit n.limit →
          ∀ x, Covered (mergeFrom c l).1 x ↔ Covered (b :: n :: l) x := by
        intro c hc hlimit
        have hsame : ∀ x, Covered (c :: l) x ↔ Covered (b :: n :: l) x := by
          intro x
          simp only [Ranges.covered_cons, Ranges.lo, Ranges.hi, hc, hlimit]
          rw [← or_assoc]
          refine or_congr_left ?_
          unfold IfrBlockData.limit at *
          omega
        have horder : InOrder (c :: l) :=
          List.pairwise_cons.mpr ⟨fun a ha => hc ▸ hb a (List.mem_cons_of_mem _ ha), hl⟩
        intro x
        rw [ih horder (hbounded.mono fun x => (hsame x).mp), hsame]
      simp only
      split
      · rename_i hgt
        have hwidth : n.limit - b.offset.toNat < 65536 := by
          by_contra hge
          refine hbounded ⟨b.offset.toNat, fun x h1 h2 => ?_⟩
          simp only [Ranges.covered_cons, Ranges.lo, Ranges.hi]
          unfold IfrBlockData.limit at *
          omega
        refine hmerged _ rfl ?_
        have hof : (UInt16.ofNat (n.limit - b.offset.toNat)).toNat = n.limit - b.offset.toNat :=
          Nat.mod_eq_of_lt hwidth
        simp only [IfrBlockData.limit] at *
        omega
      · rename_i hle
        exact hmerged b rfl (by omega)
    · intro x
      have htail : Bounded (Covered (n :: l)) := hbounded.mono fun x hx => (Ranges.covered_cons _ _ _).mpr (.inr hx)
      rw [Ranges.covered_cons, ih hnl htail, Ranges.covered_cons b]

/-- The ranges that are left do not overlap or touch. -/
def Separate (l : List IfrBlockData) : Prop := l.Pairwise fun a b => a.limit < b.offset.toNat

theorem mergeFrom_separate {b : IfrBlockData} {l : List IfrBlockData} (h : InOrder (b :: l)) :
    Separate (mergeFrom b l).1 ∧ ∀ a ∈ (mergeFrom b l).1, b.offset.toNat ≤ a.offset.toNat := by
  induction l generalizing b with
  | nil => exact ⟨List.pairwise_singleton _ _, fun a ha => by rw [List.mem_singleton.mp ha]⟩
  | cons n l ih =>
    obtain ⟨hb, hnl⟩ := List.pairwise_cons.mp h
    have hbn := hb n List.mem_cons_self
    unfold mergeFrom
    split
    · have hmerged : ∀ c : IfrBlockData, c.offset = b.offset → Separate (mergeFrom c l).1 ∧
          ∀ a ∈ (mergeFrom c l).1, b.offset.toNat ≤ a.offset.toNat := by
        intro c hc
        have horder : InOrder (c :: l) := List.pairwise_cons.mpr
          ⟨fun a ha => hc ▸ hb a (List.mem_cons_of_mem _ ha), (List.pairwise_cons.mp hnl).2⟩
        exact hc ▸ ih horder
      simp only
      split
      · exact hmerged _ rfl
      · exact hmerged b rfl
    · rename_i hcond
      obtain ⟨ih1, ih2⟩ := ih hnl
      have hgap : b.limit < n.offset.toNat := Nat.lt_of_not_le fun hle => hcond ⟨UInt16.le_iff_toNat_le.mpr hbn, hle⟩
      refine ⟨List.pairwise_cons.mpr ⟨fun a ha => Nat.lt_of_lt_of_le hgap (ih2 a ha), ih1⟩, fun a ha => ?_⟩
      rcases List.mem_cons.mp ha with rfl | ha
      · exact Nat.le_refl _
      · exact Nat.le_trans hbn (ih2 a ha)

theorem mergeFrom_once (b : IfrBlockData) (l : List IfrBlockData) :
    (allocations (mergeFrom b l).1 ++ (mergeFrom b l).2).Perm (allocations (b :: l)) := by
  induction l generalizing b with
  | nil => exact List.Perm.refl _
  | cons n l ih =>
    unfold mergeFrom
    split
    · have hmerged : ∀ c : IfrBlockData, c.allocation = b.allocation →
          (allocations (mergeFrom c l).1 ++ n.allocation :: (mergeFrom c l).2).Perm (allocations (b :: n :: l)) := by
        intro c hc
        refine List.perm_middle.trans (((ih c).cons _).trans ?_)
        rw [allocations, allocations, List.map_cons, hc]
        exact List.Perm.swap _ _ _
      simp only
      split
      · exact hmerged _ rfl
      · exact hmerged b rfl
    · exact (ih n).cons b.allocation

/-! ## What is covered -/

/-- Bytes in a row that are covered are in one of the ranges. -/
theorem in_one_block {l : List IfrBlockData} (h : Separate l) {first n : Nat} (hn : 0 < n)
    (hall : ∀ x, first ≤ x → x < first + n → Covered l x) : ∃ b ∈ l, b.offset.toNat ≤ first ∧ first + n ≤ b.limit := by
  obtain ⟨b, hb, h1, h2⟩ := hall first (Nat.le_refl _) (by omega)
  refine ⟨b, hb, h1, ?_⟩
  by_contra hlt
  have h2 : first < b.limit := h2
  -- the byte behind the range is in another one, which touches it
  obtain ⟨c, hc, h3, h4⟩ := hall b.limit (by omega) (by omega)
  have h3 : c.offset.toNat ≤ b.limit := h3
  have h4 : b.limit < c.limit := h4
  obtain ⟨before, behind, rfl⟩ := List.append_of_mem hb
  obtain ⟨-, hbb, hcross⟩ := List.pairwise_append.mp h
  rcases List.mem_append.mp hc with hc | hc
  · have := hcross c hc b List.mem_cons_self
    unfold IfrBlockData.limit at *
    omega
  · rcases List.mem_cons.mp hc with rfl | hc
    · omega
    · have := (List.pairwise_cons.mp hbb).1 c hc
      omega

/-- The array is sorted without overlaps, covers the bytes of the request, and tells them. No block is freed twice, or
lost. -/
structure CoversExactly (pairs : List (UInt16 × UInt16)) (blocks : List IfrBlockData) (freed : List Nat) : Prop where
  separate : Separate blocks
  covered : ∀ x, Covered blocks x ↔ Requested pairs x
  once : (allocations blocks ++ freed).Perm (List.range pairs.length)
  check : ∀ varOffset varWidth, 1 ≤ varWidth.toNat → (blockArrayCheck (some blocks) varOffset varWidth ↔
    ∀ x, varOffset.toNat ≤ x → x < varOffset.toNat + varWidth.toNat → Requested pairs x)

theorem blockArrayCheck_iff {l : List IfrBlockData} (h : Separate l) {varOffset varWidth : UInt16}
    (hw : 1 ≤ varWidth.toNat) : blockArrayCheck (some l) varOffset varWidth ↔
      ∀ x, varOffset.toNat ≤ x → x < varOffset.toNat + varWidth.toNat → Covered l x := by
  simp only [blockArrayCheck, List.any_eq_true, Bool.and_eq_true, decide_eq_true_eq]
  constructor
  · rintro ⟨b, hb, h1, h2⟩ x h3 h4
    have h1 : b.offset.toNat ≤ varOffset.toNat := UInt16.le_iff_toNat_le.mp h1
    exact ⟨b, hb, Nat.le_trans h1 h3, Nat.lt_of_lt_of_le h4 h2⟩
  · intro hall
    obtain ⟨b, hb, h1, h2⟩ := in_one_block h hw hall
    exact ⟨b, hb, UInt16.le_iff_toNat_le.mpr h1, h2⟩

theorem mergeBlocks_spec {l : List IfrBlockData} (h : InOrder l) : Separate (mergeBlocks l).1 ∧
    (Bounded (Covered l) → ∀ x, Covered (mergeBlocks l).1 x ↔ Covered l x) ∧
    (allocations (mergeBlocks l).1 ++ (mergeBlocks l).2).Perm (allocations l) := by
  cases l with
  | nil => exact ⟨.nil, fun _ _ => Iff.rfl, List.Perm.refl _⟩
  | cons b l => exact ⟨(mergeFrom_separate h).1, mergeFrom_covered h, mergeFrom_once b l⟩

theorem blocks_exact_iff (pairs : List (UInt16 × UInt16)) :
    CoversExactly pairs (requestBlocks pairs).1 (requestBlocks pairs).2 ↔ Bounded (Requested pairs) := by
  obtain ⟨horder, hcovered, honce⟩ := insertBlocks_spec pairs [] 0 .nil
    (List.Perm.refl _)
  have hcovered : ∀ x, Covered (insertBlocks [] [] 0 pairs).1 x ↔ Requested pairs x := fun x =>
    (hcovered x).trans ⟨fun h => h.resolve_left (Ranges.covered_nil x), .inr⟩
  rw [Nat.zero_add] at honce
  obtain ⟨hseparate, hmerged, hfreed⟩ := mergeBlocks_spec horder
  constructor
  · rintro h ⟨first, hall⟩
    -- a range has at most 65535 bytes
    obtain ⟨b, -, h1, h2⟩ := in_one_block h.separate (by decide : 0 < 65536) fun x h1 h2 =>
      (h.covered x).mpr (hall x h1 h2)
    have := b.width.toNat_lt
    unfold IfrBlockData.limit at h2
    omega
  · intro hbounded
    have hall : ∀ x, Covered (requestBlocks pairs).1 x ↔ Requested pairs x := fun x =>
      (hmerged (fun ⟨first, hall⟩ => hbounded ⟨first, fun x h1 h2 => (hcovered x).mp (hall x h1 h2)⟩) x).trans (hcovered x)
    refine ⟨hseparate, hall, ?_, fun varOffset varWidth hw => ?_⟩
    · refine List.Perm.trans ?_ honce
      simp only [requestBlocks]
      refine (List.perm_append_comm_assoc _ _ _).trans ?_
      exact (hfreed.append_left _).trans List.perm_append_comm
    · refine (blockArrayCheck_iff (l := (requestBlocks pairs).1) hseparate hw).trans ?_
      exact forall_congr' fun x => forall_congr' fun _ => forall_congr' fun _ => hall x

/-- The merged range of 65536 bytes has the width 0. -/
theorem full_block_lost :
    (requestBlocks [(0, 65535), (65535, 1)]).1 = [⟨0, 0, 0⟩] ∧
      ¬CoversExactly [(0, 65535), (65535, 1)] (requestBlocks [(0, 65535), (65535, 1)]).1
        (requestBlocks [(0, 65535), (65535, 1)]).2 := by
  have hblocks : (requestBlocks [(0, 65535), (65535, 1)]).1 = [⟨0, 0, 0⟩] := by decide
  refine ⟨hblocks, fun h => ?_⟩
  have hcovered := (h.covered 0).mpr ⟨(0, 65535), List.mem_cons_self, by decide, by decide⟩
  rw [hblocks] at hcovered
  exact absurd hcovered (by decide)

end Udk.Hii
