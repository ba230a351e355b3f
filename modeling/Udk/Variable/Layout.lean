import Udk.Variable.Record

/-! # A store in memory

A store is its header, the records one after the other, and erased bytes up to the end.
-/

open Udk.Bytes

namespace Udk.Variable

/-! ## Records one after the other -/

def Holds (m : Memory) : Nat → List Record → Prop
  | _, [] => True
  | a, r :: rs => At m a r.bytes ∧ Holds m (a + r.size) rs

/-- The bytes of all records. -/
def total (recs : List Record) : Nat := (recs.map Record.size).sum

/-- Where each record starts. -/
def addresses : Nat → List Record → List Nat
  | _, [] => []
  | a, r :: rs => a :: addresses (a + r.size) rs

@[simp] theorem total_nil : total [] = 0 := rfl

@[simp] theorem total_cons (r : Record) (rs : List Record) : total (r :: rs) = r.size + total rs := by
  simp [total]

@[simp] theorem total_append (xs ys : List Record) : total (xs ++ ys) = total xs + total ys := by
  simp [total]

theorem total_mod (recs : List Record) : total recs % 4 = 0 := by
  induction recs with
  | nil => rfl
  | cons r rs ih => rw [total_cons]; have := r.size_mod; omega

theorem length_le_total (recs : List Record) : recs.length ≤ total recs := by
  induction recs with
  | nil => simp
  | cons r rs ih => rw [total_cons, List.length_cons]; have := r.size_pos; omega

theorem total_setState (pre post : List Record) (r : Record) (st : UInt8) (h : r.isErased = false) (hst : st ≠ 0xff) :
    total (pre ++ r.setState st :: post) = total (pre ++ r :: post) := by
  have h' : (r.setState st).isErased = false := by simpa [Record.isErased] using hst
  simp [Record.size_of_not_erased _ h, Record.size_of_not_erased _ h']

theorem holds_append (m : Memory) (a : Nat) (xs ys : List Record) :
    Holds m a (xs ++ ys) ↔ Holds m a xs ∧ Holds m (a + total xs) ys := by
  induction xs generalizing a with
  | nil => simp [Holds]
  | cons r rs ih => simp [Holds, ih, and_assoc, Nat.add_assoc]

theorem holds_congr (m m' : Memory) (a : Nat) (recs : List Record)
    (h : ∀ i, a ≤ i → i < a + total recs → m' i = m i) : Holds m' a recs ↔ Holds m a recs := by
  induction recs generalizing a with
  | nil => rfl
  | cons r rs ih =>
    rw [total_cons] at h
    rw [Holds, Holds, at_congr m m' a r.bytes (fun i h1 h2 => h i h1 (by rw [r.bytes_length] at h2; omega)),
      ih _ fun i h1 h2 => h i (by omega) (by omega)]

theorem holds_split {m : Memory} {a : Nat} {pre post : List Record} {r : Record}
    (h : Holds m a (pre ++ r :: post)) : At m (a + total pre) r.bytes :=
  ((holds_append ..).mp h).2.1

theorem holds_bytes (m : Memory) (a : Nat) (recs : List Record) :
    Holds m a recs ↔ At m a (recs.flatMap Record.bytes) := by
  induction recs generalizing a with
  | nil => simp [Holds]
  | cons r rs ih => simp [Holds, ih, at_append, r.bytes_length]

theorem length_flatMap_bytes (recs : List Record) : (recs.flatMap Record.bytes).length = total recs := by
  induction recs with
  | nil => rfl
  | cons r rs ih => simp [ih, r.bytes_length]

/-! ## The walk over records -/

theorem walk_holds (m : Memory) (endPtr fuel a : Nat) (recs : List Record) (h : Holds m a recs) (ha : a ≠ 0)
    (h4 : a % 4 = 0) (hend : a + total recs ≤ endPtr) (hf : recs.length ≤ fuel) :
    walk m endPtr fuel a = addresses a recs ++ walk m endPtr (fuel - recs.length) (a + total recs) := by
  induction recs generalizing a fuel with
  | nil => simp [addresses]
  | cons r rs ih =>
    obtain ⟨fuel, rfl⟩ : ∃ k, fuel = k + 1 := ⟨fuel - 1, by simp at hf; omega⟩
    have hpos := r.size_pos
    have hmod := r.size_mod
    rw [total_cons] at hend
    rw [List.length_cons] at hf
    rw [walk, if_pos ⟨by omega, isValid_of_at ha h.1⟩, getNextVariablePtr_of_at ha h4 h.1,
      ih fuel (a + r.size) h.2 (by omega) (by omega) (by omega) (by omega)]
    simp [addresses, Nat.add_assoc]

theorem walkEnd_holds (m : Memory) (endPtr fuel a : Nat) (recs : List Record) (h : Holds m a recs) (ha : a ≠ 0)
    (h4 : a % 4 = 0) (hend : a + total recs ≤ endPtr) (hf : recs.length ≤ fuel) :
    walkEnd m endPtr fuel a = walkEnd m endPtr (fuel - recs.length) (a + total recs) := by
  induction recs generalizing a fuel with
  | nil => simp
  | cons r rs ih =>
    obtain ⟨fuel, rfl⟩ : ∃ k, fuel = k + 1 := ⟨fuel - 1, by simp at hf; omega⟩
    have hpos := r.size_pos
    have hmod := r.size_mod
    rw [total_cons] at hend
    rw [List.length_cons] at hf
    rw [walkEnd, if_pos ⟨by omega, isValid_of_at ha h.1⟩, getNextVariablePtr_of_at ha h4 h.1,
      ih fuel (a + r.size) h.2 (by omega) (by omega) (by omega) (by omega)]
    simp [Nat.add_assoc]

theorem walk_stop (m : Memory) (endPtr fuel p : Nat) (h : ¬(p < endPtr ∧ isValidVariableHeader m p)) :
    walk m endPtr fuel p = [] := by
  cases fuel with
  | zero => rfl
  | succ fuel => rw [walk, if_neg h]

theorem walkEnd_stop (m : Memory) (endPtr fuel p : Nat) (h : ¬(p < endPtr ∧ isValidVariableHeader m p)) :
    walkEnd m endPtr fuel p = p := by
  cases fuel with
  | zero => rfl
  | succ fuel => rw [walkEnd, if_neg h]

theorem not_valid_of_erased (m : Memory) (p : Nat) (h0 : m p = 0xff) (h1 : m (p + 1) = 0xff) :
    isValidVariableHeader m p = false := by
  simp [isValidVariableHeader, startIdOf, readLE, Bytes.read, h0, h1, fromLE, variableData]

/-! ## A store -/

/-- Where a store may lie. -/
structure StoreArea (base size : Nat) : Prop where
  pos : 0 < base
  base_mod : base % 4 = 0
  size_mod : size % 4 = 0
  addressable : base + size < maxAddress

theorem Platform.volatileArea (P : Platform) : StoreArea P.volatileVariableBase P.pcdVariableStoreSize :=
  ⟨P.volatile_pos, P.volatile_aligned, P.volatile_size.2.1, by have := P.addressable.2; omega⟩

theorem Platform.nonVolatileArea (P : Platform) :
    StoreArea P.nonVolatileVariableBase P.nonVolatileStoreSize :=
  ⟨P.nonVolatile_pos, P.nonVolatile_aligned, P.nonVolatile_size.2.1, by
    have := P.addressable.1; have := P.in_volume.2; omega⟩

/-- The store at `base` has `size` bytes and holds `recs`, and the rest of it is erased. -/
structure StoreHolds (m : Memory) (base size : Nat) (recs : List Record) : Prop where
  status : getVariableStoreStatus m base = .efiValid
  size_eq : storeSizeOf m base = size
  records : Holds m (base + sizeofVariableStoreHeader) recs
  fits : sizeofVariableStoreHeader + total recs ≤ size
  free : ∀ i, base + sizeofVariableStoreHeader + total recs ≤ i → i < base + size → m i = 0xff

theorem getStartPointer_eq (base : Nat) (h : base % 4 = 0) :
    getStartPointer base = base + sizeofVariableStoreHeader := by
  unfold getStartPointer sizeofVariableStoreHeader; exact headerAlign_of_mod _ (by omega)

theorem getVariableStoreStatus_congr (m m' : Memory) (base : Nat)
    (h : ∀ i, base ≤ i → i < base + sizeofVariableStoreHeader → m' i = m i) :
    getVariableStoreStatus m' base = getVariableStoreStatus m base := by
  unfold sizeofVariableStoreHeader at h
  unfold getVariableStoreStatus storeSizeOf
  rw [read_congr m m' base 16 (fun i h1 h2 => h i h1 (by omega)), h (base + 20) (by omega) (by omega),
    h (base + 21) (by omega) (by omega), readLE_congr m m' base 4 (fun i h1 h2 => h i h1 (by omega)),
    readLE_congr m m' (base + 4) 4 (fun i h1 h2 => h i (by omega) (by omega)),
    readLE_congr m m' (base + 8) 4 (fun i h1 h2 => h i (by omega) (by omega)),
    readLE_congr m m' (base + 12) 4 (fun i h1 h2 => h i (by omega) (by omega)),
    readLE_congr m m' (base + 16) 4 (fun i h1 h2 => h i (by omega) (by omega))]

theorem storeSizeOf_congr (m m' : Memory) (base : Nat)
    (h : ∀ i, base ≤ i → i < base + sizeofVariableStoreHeader → m' i = m i) :
    storeSizeOf m' base = storeSizeOf m base := by
  unfold sizeofVariableStoreHeader at h
  exact readLE_congr m m' (base + 16) 4 fun i h1 h2 => h i (by omega) (by omega)

namespace StoreHolds
variable {m m' : Memory} {base size : Nat} {recs : List Record}

/-- A store is what its bytes say. -/
theorem congr (h : StoreHolds m base size recs) (he : ∀ i, base ≤ i → i < base + size → m' i = m i) :
    StoreHolds m' base size recs := by
  have hfits := h.fits
  refine ⟨?_, ?_, ?_, hfits, ?_⟩
  · rw [getVariableStoreStatus_congr m m' base fun i h1 h2 => he i h1 (by omega)]; exact h.status
  · rw [storeSizeOf_congr m m' base fun i h1 h2 => he i h1 (by omega)]; exact h.size_eq
  · exact (holds_congr m m' _ _ fun i h1 h2 => he i (by omega) (by omega)).mpr h.records
  · intro i h1 h2
    rw [he i (by omega) h2]; exact h.free i h1 h2

theorem getEndPointer_eq (h : StoreHolds m base size recs) (ha : StoreArea base size) :
    getEndPointer m base = base + size := by
  unfold getEndPointer
  rw [h.size_eq]
  have := ha.base_mod; have := ha.size_mod
  exact headerAlign_of_mod _ (by omega)

theorem length_le (h : StoreHolds m base size recs) (ha : StoreArea base size) : recs.length ≤ maxAddress := by
  have := length_le_total recs; have := h.fits; have := ha.addressable
  omega

/-- No walk starts a record in the erased bytes. -/
theorem end_not_valid (h : StoreHolds m base size recs) (ha : StoreArea base size)
    (hroom : sizeofVariableStoreHeader + total recs < size) :
    isValidVariableHeader m (base + sizeofVariableStoreHeader + total recs) = false := by
  have := total_mod recs; have := ha.size_mod
  unfold sizeofVariableStoreHeader at *
  exact not_valid_of_erased _ _ (h.free _ (by unfold sizeofVariableStoreHeader; omega) (by omega))
    (h.free _ (by unfold sizeofVariableStoreHeader; omega) (by omega))

theorem storeHeaders_eq (h : StoreHolds m base size recs) (ha : StoreArea base size) :
    storeHeaders m base = addresses (base + sizeofVariableStoreHeader) recs := by
  have hfits := h.fits
  have hb := ha.base_mod
  unfold storeHeaders
  rw [getStartPointer_eq _ ha.base_mod, h.getEndPointer_eq ha,
    walk_holds m _ _ _ recs h.records (by have := ha.pos; omega) (by unfold sizeofVariableStoreHeader; omega)
      (by omega) (h.length_le ha), walk_stop, List.append_nil]
  rintro ⟨h1, h2⟩
  rw [h.end_not_valid ha (by omega)] at h2
  cases h2

theorem walkEnd_eq (h : StoreHolds m base size recs) (ha : StoreArea base size) :
    walkEnd m (getEndPointer m base) maxAddress (getStartPointer base) =
      base + sizeofVariableStoreHeader + total recs := by
  have hfits := h.fits
  have hb := ha.base_mod
  rw [getStartPointer_eq _ ha.base_mod, h.getEndPointer_eq ha,
    walkEnd_holds m _ _ _ recs h.records (by have := ha.pos; omega) (by unfold sizeofVariableStoreHeader; omega)
      (by omega) (h.length_le ha), walkEnd_stop]
  rintro ⟨h1, h2⟩
  rw [h.end_not_valid ha (by omega)] at h2
  cases h2

/-- A walk that does not stop at the end of the store goes on behind it. -/
theorem allHeaders_eq (h : StoreHolds m base size recs) (ha : StoreArea base size) :
    ∃ fuel, allHeaders m base = addresses (base + sizeofVariableStoreHeader) recs ++
      walk m maxAddress fuel (base + sizeofVariableStoreHeader + total recs) := by
  have hfits := h.fits
  have hb := ha.base_mod
  have hx := ha.addressable
  refine ⟨maxAddress - recs.length, ?_⟩
  unfold allHeaders
  rw [getStartPointer_eq _ ha.base_mod,
    walk_holds m _ _ _ recs h.records (by have := ha.pos; omega) (by unfold sizeofVariableStoreHeader; omega)
      (by omega) (h.length_le ha)]

/-- It stops there if no variable header follows the store. -/
theorem allHeaders_eq_of_guard (h : StoreHolds m base size recs) (ha : StoreArea base size)
    (hg : isValidVariableHeader m (base + size) = false) :
    allHeaders m base = addresses (base + sizeofVariableStoreHeader) recs := by
  obtain ⟨fuel, hw⟩ := h.allHeaders_eq ha
  rw [hw, walk_stop, List.append_nil]
  rintro ⟨-, h2⟩
  by_cases hroom : sizeofVariableStoreHeader + total recs < size
  · rw [h.end_not_valid ha hroom] at h2; cases h2
  · have := h.fits
    rw [show base + sizeofVariableStoreHeader + total recs = base + size by omega, hg] at h2
    cases h2

theorem walkEnd_all_eq_of_guard (h : StoreHolds m base size recs) (ha : StoreArea base size)
    (hg : isValidVariableHeader m (base + size) = false) :
    walkEnd m maxAddress maxAddress (getStartPointer base) = base + sizeofVariableStoreHeader + total recs := by
  have hfits := h.fits
  have hb := ha.base_mod
  have hx := ha.addressable
  rw [getStartPointer_eq _ ha.base_mod,
    walkEnd_holds m _ _ _ recs h.records (by have := ha.pos; omega) (by unfold sizeofVariableStoreHeader; omega)
      (by omega) (h.length_le ha), walkEnd_stop]
  rintro ⟨-, h2⟩
  by_cases hroom : sizeofVariableStoreHeader + total recs < size
  · rw [h.end_not_valid ha hroom] at h2; cases h2
  · rw [show base + sizeofVariableStoreHeader + total recs = base + size by omega, hg] at h2
    cases h2

end StoreHolds

end Udk.Variable
