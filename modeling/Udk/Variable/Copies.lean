import Udk.Variable.Record
import Udk.Variable.Find

/-! # The copies of a variable in a store

A variable is named by its name and its vendor GUID. The copies of it that count are the ones in state
`VAR_ADDED` and the ones in delete transition.
-/

open Udk.Bytes

namespace Udk.Variable

/-- The name of a variable: `VariableName` and `VendorGuid`. -/
abbrev Key := Name × Guid

/-! ## Names in memory -/

theorem toLE_two (n : Nat) : toLE 2 n = [UInt8.ofNat n, UInt8.ofNat (n / 256)] := rfl

theorem charsOf_append (cs : List UInt16) (h : ∀ c ∈ cs, c ≠ 0) (rest : List UInt8) :
    charsOf (cs.flatMap charBytes ++ [0, 0] ++ rest) = cs := by
  induction cs with
  | nil => simp [charsOf, fromLE]
  | cons c cs ih =>
    have hc : UInt16.ofNat (fromLE [UInt8.ofNat c.toNat, UInt8.ofNat (c.toNat / 256)]) = c := by
      rw [← toLE_two, fromLE_toLE 2 _ (by simpa using c.toNat_lt), UInt16.ofNat_toNat]
    have hne := h c (by simp)
    have ih' := ih fun x hx => h x (by simp [hx])
    simp only [List.flatMap_cons, charBytes, toLE_two, List.cons_append, List.nil_append, charsOf]
    rw [hc, if_neg hne]
    exact congrArg _ ih'

/-- A name is read back whatever follows it. -/
theorem Name.ofBytes_append (n : Name) (rest : List UInt8) : Name.ofBytes (n.bytes ++ rest) = n := by
  have := charsOf_append n.chars n.nonzero rest
  cases n
  simp only [Name.ofBytes, Name.bytes, Name.mk.injEq]
  exact this

theorem Name.ofBytes_bytes (n : Name) : Name.ofBytes n.bytes = n := by
  simpa using n.ofBytes_append []

theorem Name.eq_of_prefix (n n' : Name) (h : n'.bytes <+: n.bytes) : n = n' := by
  obtain ⟨rest, h⟩ := h
  rw [← n.ofBytes_bytes, ← h, n'.ofBytes_append]

theorem Name.bytes_inj (n n' : Name) : n.bytes = n'.bytes ↔ n = n' :=
  ⟨fun h => n.eq_of_prefix n' (h ▸ List.prefix_refl _), fun h => h ▸ rfl⟩

/-- `CompareMem` over the size of the stored name compares the names. -/
theorem Name.take_eq_bytes (n n' : Name) : n.bytes.take n'.bytes.length = n'.bytes ↔ n = n' := by
  constructor
  · intro h; exact n.eq_of_prefix n' (h ▸ List.take_prefix _ _)
  · rintro rfl; simp

/-! ## Records of a variable -/

namespace Record
variable (r q : Record)

def has (k : Key) : Bool := r.guid == k.2 && r.nameBytes == k.1.bytes

def isVisible (atRuntime : Bool) : Bool := !atRuntime || r.attributes &&& efiVariableRuntimeAccess != 0

/-- The name in the record is a string with at least one character. -/
def Named : Prop := ∃ n : Name, n.chars ≠ [] ∧ r.nameBytes = n.bytes

/-- Two records of one variable. -/
def sameAs : Bool := r.guid == q.guid && r.nameBytes == q.nameBytes

/-- What `GetVariable` returns of a record. -/
def value : Nat × List UInt8 := (r.attributes, r.data)

@[simp] theorem setState_has (st : UInt8) (k : Key) : (r.setState st).has k = r.has k := rfl
@[simp] theorem setState_isVisible (st : UInt8) (b : Bool) : (r.setState st).isVisible b = r.isVisible b := rfl
@[simp] theorem setState_value (st : UInt8) : (r.setState st).value = r.value := rfl
@[simp] theorem setState_sameAs (st : UInt8) : (r.setState st).sameAs q = r.sameAs q := rfl
@[simp] theorem sameAs_setState (st : UInt8) : r.sameAs (q.setState st) = r.sameAs q := rfl
@[simp] theorem isVisible_boot : r.isVisible false = true := rfl
theorem setState_named (st : UInt8) : (r.setState st).Named ↔ r.Named := Iff.rfl

variable {r q}

theorem has_iff {k : Key} : r.has k = true ↔ r.guid = k.2 ∧ r.nameBytes = k.1.bytes := by
  simp [has]

theorem sameAs_iff : r.sameAs q = true ↔ r.guid = q.guid ∧ r.nameBytes = q.nameBytes := by
  simp [sameAs]

theorem sameAs_of_has {k : Key} (hr : r.has k = true) : r.sameAs q = q.has k := by
  rw [has_iff] at hr
  rw [Bool.eq_iff_iff, sameAs_iff, has_iff, hr.1, hr.2]
  constructor <;> rintro ⟨h1, h2⟩ <;> exact ⟨h1.symm, h2.symm⟩

theorem sameAs_comm : r.sameAs q = q.sameAs r := by
  rw [Bool.eq_iff_iff, sameAs_iff, sameAs_iff]
  constructor <;> rintro ⟨h1, h2⟩ <;> exact ⟨h1.symm, h2.symm⟩

theorem has_unique {k j : Key} (h : r.has k = true) (hj : r.has j = true) : k = j := by
  rw [has_iff] at h hj
  have h1 := (Name.bytes_inj _ _).mp (h.2.symm.trans hj.2)
  exact Prod.ext h1 (h.1.symm.trans hj.1)

end Record

theorem nameMatches_of_at {m : Memory} {p : Nat} {r : Record} (h : At m p r.bytes) (hl : r.isErased = false)
    (hn : r.Named) (n : Name) (g : Guid) : nameMatches m n g p = r.has (n, g) := by
  obtain ⟨n', -, hn'⟩ := hn
  have hsize : r.nameSize = n'.bytes.length := by rw [← hn', r.nameBytes_length]
  unfold nameMatches
  rw [vendorGuidOf_of_at h, nameSizeOfVariable_of_at h, nameOf_of_at h hl, hl]
  simp only [Bool.false_eq_true, if_false]
  rw [Bool.eq_iff_iff, Record.has_iff, Bool.and_eq_true, beq_iff_eq, beq_iff_eq, hn', hsize,
    Name.take_eq_bytes, Name.bytes_inj]
  have hg : g.bytes = r.guid.bytes ↔ r.guid = g := by
    constructor
    · intro h; cases g; cases hr : r.guid; rw [hr] at h; simp only [Guid.mk.injEq]; exact h.symm
    · rintro rfl; rfl
  rw [hg]
  exact and_congr_right fun _ => eq_comm

theorem isVisible_of_at {m : Memory} {p : Nat} {r : Record} (h : At m p r.bytes) (atRuntime : Bool) :
    isVisible m atRuntime p = r.isVisible atRuntime := by
  rw [isVisible, attributesOf_of_at h, Record.isVisible]

/-! ## Copies -/

/-- The copies of `k` that count, in the order of the store. -/
def copies (k : Key) (recs : List Record) : List Record := recs.filter fun r => r.isLive && r.has k

/-- The copy that a lookup in a store finds. -/
def found (atRuntime : Bool) (k : Key) (recs : List Record) : Option Record :=
  ((copies k recs).filter (·.isVisible atRuntime)).getLast?

@[simp] theorem copies_nil (k : Key) : copies k [] = [] := rfl

@[simp] theorem copies_append (k : Key) (xs ys : List Record) : copies k (xs ++ ys) = copies k xs ++ copies k ys :=
  List.filter_append ..

theorem copies_cons_pos (k : Key) (r : Record) (rs : List Record) (hl : r.isLive = true) (hk : r.has k = true) :
    copies k (r :: rs) = r :: copies k rs := by simp [copies, hl, hk]

theorem copies_cons_dead (k : Key) (r : Record) (rs : List Record) (hl : r.isLive = false) :
    copies k (r :: rs) = copies k rs := by simp [copies, hl]

theorem copies_cons_other (k : Key) (r : Record) (rs : List Record) (hk : r.has k = false) :
    copies k (r :: rs) = copies k rs := by simp [copies, hk]

theorem mem_copies {k : Key} {r : Record} {recs : List Record} :
    r ∈ copies k recs ↔ r ∈ recs ∧ r.isLive = true ∧ r.has k = true := by simp [copies]

theorem copies_eq_nil {k : Key} {recs : List Record} :
    copies k recs = [] ↔ ∀ r ∈ recs, r.isLive = true → r.has k = false := by
  simp [copies, List.filter_eq_nil_iff]

/-- What holds of the records of every store: a copy that counts has a name and data, and only the last
copy of a variable may be `VAR_ADDED`. -/
structure Good (recs : List Record) : Prop where
  named : ∀ r ∈ recs, r.isLive = true → r.Named
  data_pos : ∀ r ∈ recs, r.isLive = true → 0 < r.dataSize
  newest : recs.Pairwise fun r q => r.isAdded = true → q.isLive = true → r.sameAs q = false

theorem good_nil : Good [] := ⟨by simp, by simp, List.Pairwise.nil⟩

theorem good_append {xs ys : List Record} : Good (xs ++ ys) ↔ Good xs ∧ Good ys ∧
    ∀ r ∈ xs, ∀ q ∈ ys, r.isAdded = true → q.isLive = true → r.sameAs q = false := by
  constructor
  · rintro ⟨h1, h2, h3⟩
    rw [List.pairwise_append] at h3
    exact ⟨⟨fun r hr => h1 r (by simp [hr]), fun r hr => h2 r (by simp [hr]), h3.1⟩,
      ⟨fun r hr => h1 r (by simp [hr]), fun r hr => h2 r (by simp [hr]), h3.2.1⟩, h3.2.2⟩
  · rintro ⟨hx, hy, hxy⟩
    refine ⟨?_, ?_, List.pairwise_append.mpr ⟨hx.newest, hy.newest, hxy⟩⟩
    · intro r hr
      rcases List.mem_append.mp hr with h | h
      · exact hx.named r h
      · exact hy.named r h
    · intro r hr
      rcases List.mem_append.mp hr with h | h
      · exact hx.data_pos r h
      · exact hy.data_pos r h

theorem good_cons {r : Record} {rs : List Record} : Good (r :: rs) ↔ (r.isLive = true → r.Named ∧ 0 < r.dataSize) ∧
    Good rs ∧ ∀ q ∈ rs, r.isAdded = true → q.isLive = true → r.sameAs q = false := by
  constructor
  · rintro ⟨h1, h2, h3⟩
    rw [List.pairwise_cons] at h3
    exact ⟨fun hl => ⟨h1 r (by simp) hl, h2 r (by simp) hl⟩,
      ⟨fun q hq => h1 q (by simp [hq]), fun q hq => h2 q (by simp [hq]), h3.2⟩, h3.1⟩
  · rintro ⟨hr, hs, hrs⟩
    refine ⟨?_, ?_, List.pairwise_cons.mpr ⟨hrs, hs.newest⟩⟩
    · intro q hq hl
      rcases List.mem_cons.mp hq with rfl | h
      · exact (hr hl).1
      · exact hs.named q h hl
    · intro q hq hl
      rcases List.mem_cons.mp hq with rfl | h
      · exact (hr hl).2
      · exact hs.data_pos q h hl

theorem Good.of_append_right {xs ys : List Record} (h : Good (xs ++ ys)) : Good ys := (good_append.mp h).2.1

/-- A record that counts less than before keeps the store good. -/
theorem Good.weaken {pre post : List Record} {r : Record} (st : UInt8) (h : Good (pre ++ r :: post))
    (ha : (r.setState st).isAdded = true → r.isAdded = true) (hl : (r.setState st).isLive = true → r.isLive = true) :
    Good (pre ++ r.setState st :: post) := by
  rw [good_append, good_cons] at h ⊢
  obtain ⟨hpre, ⟨hr, hpost, hrp⟩, hx⟩ := h
  refine ⟨hpre, ⟨fun h => hr (hl h), hpost, fun q hq h => hrp q hq (ha h)⟩, ?_⟩
  intro x hxm q hq hxa hql
  rcases List.mem_cons.mp hq with rfl | hq
  · exact hx x hxm r (by simp) hxa (hl hql)
  · exact hx x hxm q (by simp [hq]) hxa hql

end Udk.Variable
