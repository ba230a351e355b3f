import Udk.Variable.Update

/-! # Records

What a store holds, as a list of records, and what the header accessors read from a record in memory.
-/

open Udk.Bytes

namespace Udk.Variable

/-- A variable in a store. `body` is the name, the data and the bytes up to the next header. While
`state` is 0xff the sizes do not count and nothing of the body is in the store. -/
structure Record where
  state : UInt8
  attributes : Nat
  nameSize : Nat
  dataSize : Nat
  guid : Guid
  body : List UInt8
  attributes_lt : attributes < 0xffffffff
  nameSize_lt : nameSize < 0xffffffff
  dataSize_lt : dataSize < 0xffffffff
  body_length : body.length = headerAlign (nameSize + dataSize)
  deriving DecidableEq

theorem headerAlign_le (n : Nat) : n ≤ headerAlign n := by unfold headerAlign; omega

theorem headerAlign_mod (n : Nat) : headerAlign n % 4 = 0 := by unfold headerAlign; omega

theorem headerAlign_of_mod (n : Nat) (h : n % 4 = 0) : headerAlign n = n := by unfold headerAlign; omega

theorem headerAlign_add (a n : Nat) (h : a % 4 = 0) : headerAlign (a + n) = a + headerAlign n := by
  unfold headerAlign; omega

namespace Record
variable (r : Record)

def header : List UInt8 :=
  toLE 2 variableData ++ [r.state, 0] ++ toLE 4 r.attributes ++ toLE 4 r.nameSize ++
    toLE 4 r.dataSize ++ r.guid.bytes

def isErased : Bool := r.state == 0xff

/-- What follows the header in the store. -/
def stored : List UInt8 := if r.isErased then [] else r.body

def bytes : List UInt8 := r.header ++ r.stored

def size : Nat := sizeofVariableHeader + r.stored.length

/-- The size the header claims, whatever its state. -/
def claimed : Nat := sizeofVariableHeader + headerAlign (r.nameSize + r.dataSize)

def isAdded : Bool := r.state == varAdded
def isInDeleted : Bool := r.state == (varInDeletedTransition &&& varAdded)
def isLive : Bool := r.isAdded || r.isInDeleted

def nameBytes : List UInt8 := r.body.take r.nameSize
def data : List UInt8 := (r.body.drop r.nameSize).take r.dataSize

def setState (st : UInt8) : Record := { r with state := st }

@[simp] theorem setState_state (st : UInt8) : (r.setState st).state = st := rfl
@[simp] theorem setState_attributes (st : UInt8) : (r.setState st).attributes = r.attributes := rfl
@[simp] theorem setState_nameSize (st : UInt8) : (r.setState st).nameSize = r.nameSize := rfl
@[simp] theorem setState_dataSize (st : UInt8) : (r.setState st).dataSize = r.dataSize := rfl
@[simp] theorem setState_guid (st : UInt8) : (r.setState st).guid = r.guid := rfl
@[simp] theorem setState_body (st : UInt8) : (r.setState st).body = r.body := rfl
@[simp] theorem setState_nameBytes (st : UInt8) : (r.setState st).nameBytes = r.nameBytes := rfl
@[simp] theorem setState_data (st : UInt8) : (r.setState st).data = r.data := rfl
@[simp] theorem setState_claimed (st : UInt8) : (r.setState st).claimed = r.claimed := rfl

theorem header_length : r.header.length = sizeofVariableHeader := by
  simp [header, r.guid.length_eq, sizeofVariableHeader]

theorem bytes_length : r.bytes.length = r.size := by
  simp [bytes, header_length, size]

theorem size_pos : 0 < r.size := by unfold size sizeofVariableHeader; omega

theorem size_mod : r.size % 4 = 0 := by
  unfold size stored sizeofVariableHeader
  split
  · simp
  · rw [r.body_length]; have := headerAlign_mod (r.nameSize + r.dataSize); omega

theorem size_le_claimed : r.size ≤ r.claimed := by
  unfold size stored claimed
  split
  · simp
  · exact Nat.le_of_eq (congrArg (sizeofVariableHeader + ·) r.body_length)

theorem size_of_not_erased (h : r.isErased = false) : r.size = r.claimed := by
  simp [size, stored, claimed, h, r.body_length]

theorem claimed_mod : r.claimed % 4 = 0 := by
  unfold claimed sizeofVariableHeader
  have := headerAlign_mod (r.nameSize + r.dataSize); omega

theorem nameBytes_length : r.nameBytes.length = r.nameSize := by
  have := headerAlign_le (r.nameSize + r.dataSize)
  rw [nameBytes, List.length_take, r.body_length]; omega

theorem data_length : r.data.length = r.dataSize := by
  have := headerAlign_le (r.nameSize + r.dataSize)
  rw [data, List.length_take, List.length_drop, r.body_length]; omega

theorem not_erased_of_live (h : r.isLive = true) : r.isErased = false := by
  unfold isLive isAdded isInDeleted at h
  unfold isErased
  simp only [Bool.or_eq_true, beq_iff_eq] at h
  rcases h with h | h <;> rw [h] <;> rfl

theorem inDeleted_not_added (h : r.isInDeleted = true) : r.isAdded = false := by
  unfold isInDeleted at h
  simp only [beq_iff_eq] at h
  unfold isAdded; rw [h]; rfl

end Record

/-! ## A record in memory -/

section
variable {m : Memory} {p : Nat} {r : Record}

theorem at_record : At m p r.bytes ↔
    At m p (toLE 2 variableData) ∧ m (p + 2) = r.state ∧ m (p + 3) = 0 ∧ At m (p + 4) (toLE 4 r.attributes) ∧
      At m (p + 8) (toLE 4 r.nameSize) ∧ At m (p + 12) (toLE 4 r.dataSize) ∧
      At m (p + 16) r.guid.bytes ∧ At m (p + sizeofVariableHeader) r.stored := by
  have h := r.header_length
  unfold Record.bytes
  rw [at_append, h]
  simp only [Record.header, at_append, at_cons, at_nil, List.length_append, toLE_length, List.length_cons,
    List.length_nil, and_true, and_assoc, Nat.add_assoc, Nat.reduceAdd]

theorem isValid_of_at (hp : p ≠ 0) (h : At m p r.bytes) : isValidVariableHeader m p = true := by
  obtain ⟨h1, -⟩ := at_record.mp h
  have : startIdOf m p = variableData := at_readLE m p 2 _ h1 (by decide)
  simp [isValidVariableHeader, this, hp]

theorem stateOf_of_at (h : At m p r.bytes) : stateOf m p = r.state := (at_record.mp h).2.1

theorem attributesOf_of_at (h : At m p r.bytes) : attributesOf m p = r.attributes :=
  at_readLE m _ 4 _ (at_record.mp h).2.2.2.1 (by have := r.attributes_lt; omega)

theorem nameSizeField_of_at (h : At m p r.bytes) : nameSizeField m p = r.nameSize :=
  at_readLE m _ 4 _ (at_record.mp h).2.2.2.2.1 (by have := r.nameSize_lt; omega)

theorem dataSizeField_of_at (h : At m p r.bytes) : dataSizeField m p = r.dataSize :=
  at_readLE m _ 4 _ (at_record.mp h).2.2.2.2.2.1 (by have := r.dataSize_lt; omega)

theorem vendorGuidOf_of_at (h : At m p r.bytes) : vendorGuidOf m p = r.guid.bytes := by
  have := (at_record.mp h).2.2.2.2.2.2.1
  simpa [At, vendorGuidOf, r.guid.length_eq] using this

theorem stored_of_at (h : At m p r.bytes) : At m (p + sizeofVariableHeader) r.stored :=
  (at_record.mp h).2.2.2.2.2.2.2

theorem sizesErased_of_at (h : At m p r.bytes) : sizesErased m p = r.isErased := by
  have ha := r.attributes_lt; have hn := r.nameSize_lt; have hd := r.dataSize_lt
  unfold sizesErased Record.isErased
  rw [stateOf_of_at h, dataSizeField_of_at h, nameSizeField_of_at h, attributesOf_of_at h,
    beq_false_of_ne (by omega : r.dataSize ≠ 0xffffffff), beq_false_of_ne (by omega : r.nameSize ≠ 0xffffffff),
    beq_false_of_ne (by omega : r.attributes ≠ 0xffffffff)]
  simp

theorem nameSizeOfVariable_of_at (h : At m p r.bytes) :
    nameSizeOfVariable m p = if r.isErased then 0 else r.nameSize := by
  rw [nameSizeOfVariable, sizesErased_of_at h, nameSizeField_of_at h]

theorem dataSizeOfVariable_of_at (h : At m p r.bytes) :
    dataSizeOfVariable m p = if r.isErased then 0 else r.dataSize := by
  rw [dataSizeOfVariable, sizesErased_of_at h, dataSizeField_of_at h]

theorem isAdded_of_at (h : At m p r.bytes) : isAdded m p = r.isAdded := by
  rw [isAdded, stateOf_of_at h, Record.isAdded]

theorem isInDeletedTransition_of_at (h : At m p r.bytes) : isInDeletedTransition m p = r.isInDeleted := by
  rw [isInDeletedTransition, stateOf_of_at h, Record.isInDeleted]

theorem getNextVariablePtr_of_at (hp : p ≠ 0) (h4 : p % 4 = 0) (h : At m p r.bytes) :
    getNextVariablePtr m p = p + r.size := by
  unfold getNextVariablePtr getVariableDataPtr getVariableNamePtr getPadSize
  rw [if_pos (isValid_of_at hp h), nameSizeOfVariable_of_at h, dataSizeOfVariable_of_at h]
  unfold Record.size Record.stored sizeofVariableHeader
  split
  · simp only [Nat.add_zero, List.length_nil]
    exact headerAlign_of_mod _ (by omega)
  · rw [r.body_length, Nat.add_zero, Nat.add_zero, Nat.add_assoc, headerAlign_add _ _ (by omega)]
    omega

theorem nameOf_of_at (h : At m p r.bytes) (hl : r.isErased = false) : nameOf m p = r.nameBytes := by
  have hs := stored_of_at h
  rw [Record.stored, hl] at hs
  rw [nameOf, nameSizeOfVariable_of_at h, hl]
  simp only [Bool.false_eq_true, if_false] at hs ⊢
  rw [← List.take_append_drop r.nameSize r.body, at_append] at hs
  have := hs.1
  rw [At, ← Record.nameBytes, r.nameBytes_length] at this
  exact this

theorem dataOf_of_at (h : At m p r.bytes) (hl : r.isErased = false) : dataOf m p = r.data := by
  have hs := stored_of_at h
  rw [Record.stored, hl] at hs
  rw [dataOf, getVariableDataPtr, nameSizeOfVariable_of_at h, dataSizeOfVariable_of_at h, hl]
  simp only [Bool.false_eq_true, if_false] at hs ⊢
  rw [← List.take_append_drop r.nameSize r.body, at_append] at hs
  have h2 := hs.2
  rw [← Record.nameBytes, r.nameBytes_length, ← List.take_append_drop r.dataSize (r.body.drop r.nameSize),
    at_append] at h2
  have := h2.1
  rw [At, ← Record.data, r.data_length] at this
  exact this

end

end Udk.Variable
