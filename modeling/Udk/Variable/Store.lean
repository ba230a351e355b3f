import Udk.Variable.Flash

/-! # Changes of a store

What the writes of the driver make of the records of a store: a new state, one more record, or a
compacted store.
-/

open Udk.Bytes

namespace Udk.Variable

/-- The address of the record behind `pre`. -/
def recordAt (base : Nat) (pre : List Record) : Nat := base + sizeofVariableStoreHeader + total pre

/-! ## A new state -/

theorem at_setState {m : Memory} {p : Nat} {r : Record} (st : UInt8) (h : At m p r.bytes)
    (hr : r.isErased = false) (hst : st ≠ 0xff) : At (write m (p + 2) [st]) p (r.setState st).bytes := by
  have hst' : (r.setState st).stored = r.stored := by
    have h' : (r.setState st).isErased = false := by simpa [Record.isErased] using hst
    rw [Record.stored, Record.stored, hr, h', Record.setState_body]
  obtain ⟨h1, h2, h3, h4, h5, h6, h7, h8⟩ := at_record.mp h
  rw [at_record, hst']
  have hg := r.guid.length_eq
  have hw : ∀ a xs, (p + 3 ≤ a ∨ a + xs.length ≤ p + 2) → At m a xs → At (write m (p + 2) [st]) a xs :=
    fun a xs hd hx => (at_write m a (p + 2) xs [st] (by rw [List.length_singleton]; omega)).mpr hx
  refine ⟨hw _ _ (by simp) h1, ?_, ?_, hw _ _ (by omega) h4, hw _ _ (by omega) h5, hw _ _ (by omega) h6,
    hw _ _ (by omega) h7, hw _ _ (by unfold sizeofVariableHeader; omega) h8⟩
  · exact ((at_cons ..).mp (write_at m (p + 2) [st])).1
  · rw [write_outside _ _ _ _ (by simp)]; exact h3

theorem StoreHolds.setState {m : Memory} {base size : Nat} {pre post : List Record} {r : Record} (st : UInt8)
    (h : StoreHolds m base size (pre ++ r :: post)) (hr : r.isErased = false) (hst : st ≠ 0xff) :
    StoreHolds (write m (recordAt base pre + 2) [st]) base size (pre ++ r.setState st :: post) := by
  have ht := total_setState pre post r st hr hst
  have hfits := h.fits
  have hsize : 32 ≤ r.size := by unfold Record.size sizeofVariableHeader; omega
  obtain ⟨hpre, hrec, hpost⟩ : Holds m _ pre ∧ At m _ r.bytes ∧ Holds m _ post :=
    (holds_append ..).mp h.records
  have hsame : (r.setState st).size = r.size := by
    have := ht; simp only [total_append, total_cons] at this; omega
  rw [total_append, total_cons] at hfits
  have hout : ∀ i, i < recordAt base pre + 2 ∨ recordAt base pre + 3 ≤ i →
      write m (recordAt base pre + 2) [st] i = m i :=
    fun i hi => write_outside _ _ _ _ (by rw [List.length_singleton]; omega)
  unfold recordAt at hout ⊢
  refine ⟨?_, ?_, ?_, by rw [ht]; exact h.fits, ?_⟩
  · rw [getVariableStoreStatus_congr m _ base fun i _ h2 => hout i (by omega)]; exact h.status
  · rw [storeSizeOf_congr m _ base fun i _ h2 => hout i (by omega)]; exact h.size_eq
  · rw [holds_append]
    refine ⟨(holds_congr _ _ _ _ fun i _ h2 => hout i (by omega)).mpr hpre, at_setState st hrec hr hst, ?_⟩
    rw [hsame]
    exact (holds_congr _ _ _ _ fun i h1 _ => hout i (by omega)).mpr hpost
  · intro i h1 h2
    rw [ht] at h1
    rw [hout i (by rw [total_append, total_cons] at h1; omega)]
    exact h.free i h1 h2

/-! ## One more record -/

/-- A memory that keeps the records and has a new one behind them. -/
theorem StoreHolds.snoc {m m' : Memory} {base size : Nat} {recs : List Record} (r : Record)
    (h : StoreHolds m base size recs) (hroom : sizeofVariableStoreHeader + total recs + r.size ≤ size)
    (hkeep : ∀ i, base ≤ i → i < recordAt base recs → m' i = m i) (hr : At m' (recordAt base recs) r.bytes)
    (hfree : ∀ i, recordAt base recs + r.size ≤ i → i < base + size → m' i = 0xff) :
    StoreHolds m' base size (recs ++ [r]) := by
  unfold recordAt at *
  refine ⟨?_, ?_, ?_, ?_, ?_⟩
  · rw [getVariableStoreStatus_congr m _ base fun i h1 h2 => hkeep i h1 (by omega)]; exact h.status
  · rw [storeSizeOf_congr m _ base fun i h1 h2 => hkeep i h1 (by omega)]; exact h.size_eq
  · rw [holds_append]
    exact ⟨(holds_congr _ _ _ _ fun i h1 h2 => hkeep i (by omega) h2).mpr h.records, hr, trivial⟩
  · simp; omega
  · intro i h1 h2
    simp only [total_append, total_cons, total_nil] at h1
    exact hfree i (by omega) h2

/-! ## A compacted store -/

/-- A memory with the old header, then the records `recs`, then erased bytes. -/
theorem StoreHolds.compacted {m m' : Memory} {base size : Nat} {old recs : List Record}
    (h : StoreHolds m base size old) (hfits : sizeofVariableStoreHeader + total recs ≤ size)
    (hm : At m' base (Bytes.read m base sizeofVariableStoreHeader ++ recs.flatMap Record.bytes))
    (hfree : ∀ i, base + sizeofVariableStoreHeader + total recs ≤ i → i < base + size → m' i = 0xff) :
    StoreHolds m' base size recs := by
  rw [at_append, read_length] at hm
  have hkeep : ∀ i, base ≤ i → i < base + sizeofVariableStoreHeader → m' i = m i := by
    intro i h1 h2
    have := at_getElem _ _ _ hm.1 (i - base) (by rw [read_length]; omega)
    rw [read_getElem] at this
    rwa [show base + (i - base) = i by omega] at this
  refine ⟨?_, ?_, (holds_bytes ..).mpr hm.2, hfits, hfree⟩
  · rw [getVariableStoreStatus_congr m m' base hkeep]; exact h.status
  · rw [storeSizeOf_congr m m' base hkeep]; exact h.size_eq

/-! ## The record of a new variable -/

/-- The sizes and attributes that a header can hold. -/
structure Storable (variableName : Name) (attributes : Nat) (data : List UInt8) : Prop where
  attributes_lt : attributes < 0xffffffff
  size_lt : strSize variableName + data.length < 0xffffffff

/-- The bytes that align the next header stay erased. -/
def padding (variableName : Name) (data : List UInt8) : List UInt8 :=
  List.replicate (headerAlign (strSize variableName + data.length) - (strSize variableName + data.length)) 0xff

theorem charBytes_length (cs : List UInt16) : (cs.flatMap charBytes).length = 2 * cs.length := by
  induction cs with
  | nil => rfl
  | cons c cs ih => simp [ih, charBytes]; omega

theorem Name.bytes_length (n : Name) : n.bytes.length = strSize n := by
  rw [Name.bytes, List.length_append, charBytes_length, strSize]; rfl

section
variable (variableName : Name) (vendorGuid : Guid) (attributes : Nat) (data : List UInt8)
  (h : Storable variableName attributes data)

def newRecord (st : UInt8) : Record where
  state := st
  attributes := attributes
  nameSize := strSize variableName
  dataSize := data.length
  guid := vendorGuid
  body := newBody variableName data ++ padding variableName data
  attributes_lt := h.attributes_lt
  nameSize_lt := by have := h.size_lt; omega
  dataSize_lt := by have := h.size_lt; omega
  body_length := by
    have := headerAlign_le (strSize variableName + data.length)
    simp [newBody, padding, variableName.bytes_length]; omega

/-- The new record before its name and data are written. -/
def blankRecord (st : UInt8) : Record where
  state := st
  attributes := attributes
  nameSize := strSize variableName
  dataSize := data.length
  guid := vendorGuid
  body := List.replicate (headerAlign (strSize variableName + data.length)) 0xff
  attributes_lt := h.attributes_lt
  nameSize_lt := by have := h.size_lt; omega
  dataSize_lt := by have := h.size_lt; omega
  body_length := by simp

@[simp] theorem newRecord_header (st : UInt8) :
    (newRecord variableName vendorGuid attributes data h st).header =
      newHeader variableName vendorGuid attributes data st := rfl

@[simp] theorem blankRecord_header (st : UInt8) :
    (blankRecord variableName vendorGuid attributes data h st).header =
      newHeader variableName vendorGuid attributes data st := rfl

theorem newHeader_length (st : UInt8) :
    (newHeader variableName vendorGuid attributes data st).length = sizeofVariableHeader := by
  simp [newHeader, vendorGuid.length_eq, sizeofVariableHeader]

theorem newRecord_nameBytes (st : UInt8) :
    (newRecord variableName vendorGuid attributes data h st).nameBytes = variableName.bytes := by
  simp [Record.nameBytes, newRecord, newBody, ← variableName.bytes_length]

theorem newRecord_data (st : UInt8) :
    (newRecord variableName vendorGuid attributes data h st).data = data := by
  simp [Record.data, newRecord, newBody, ← variableName.bytes_length]

theorem varSize_eq : varSize variableName data = sizeofVariableHeader + (strSize variableName + data.length) := by
  simp [varSize, getPadSize, Nat.add_assoc]

theorem headerAlign_varSize : headerAlign (varSize variableName data) =
    sizeofVariableHeader + headerAlign (strSize variableName + data.length) := by
  rw [varSize_eq, headerAlign_add _ _ (by decide)]

theorem newBody_length : (newBody variableName data).length = strSize variableName + data.length := by
  simp [newBody, variableName.bytes_length]

end

end Udk.Variable
