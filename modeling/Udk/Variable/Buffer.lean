import Udk.Variable.Compact
import Udk.Variable.Layout

/-! # The buffer of `Reclaim`

The passes over the headers in memory build the image of the records that are kept.
-/

open Udk.Bytes

namespace Udk.Variable

/-- What a record adds to `CommonVariableTotalSize`. -/
def commonSize (r : Record) : Nat := if isHardwareError r.attributes then 0 else r.claimed

/-- What a record adds to `HwErrVariableTotalSize`. -/
def hwErrSize (r : Record) : Nat := if isHardwareError r.attributes then r.claimed else 0

theorem commonSize_setState (r : Record) (st : UInt8) : commonSize (r.setState st) = commonSize r := rfl
theorem hwErrSize_setState (r : Record) (st : UInt8) : hwErrSize (r.setState st) = hwErrSize r := rfl

/-- The buffer that holds `recs` behind a store header. -/
def bufferOf (isVolatile : Bool) (header : List UInt8) (recs : List Record) : ReclaimBuffer where
  bytes := header ++ recs.flatMap Record.bytes
  commonVariableTotalSize := if isVolatile then 0 else weight commonSize recs
  hwErrVariableTotalSize := if isVolatile then 0 else weight hwErrSize recs

theorem bufferOf_copy (isVolatile : Bool) (header : List UInt8) (recs : List Record) (r : Record)
    (h : r.isErased = false) :
    (bufferOf isVolatile header recs).copy isVolatile r.attributes r.bytes =
      bufferOf isVolatile header (recs ++ [r]) := by
  have hlen : r.bytes.length = r.claimed := by rw [r.bytes_length, r.size_of_not_erased h]
  unfold ReclaimBuffer.copy bufferOf
  rw [hlen]
  cases isVolatile <;> cases hc : isHardwareError r.attributes <;> simp [commonSize, hwErrSize, hc]

/-! ## One record -/

section
variable {m m' : Memory} {p q : Nat} {r x : Record}

theorem recordBytes_of_at (hp : p ≠ 0) (h4 : p % 4 = 0) (h : At m p r.bytes) : recordBytes m p = r.bytes := by
  rw [recordBytes, variableSize, getNextVariablePtr_of_at hp h4 h, Nat.add_sub_cancel_left, ← r.bytes_length]
  exact h

theorem sameVariable_of_at (h : At m p r.bytes) (h' : At m' q x.bytes) (hr : r.isErased = false)
    (hx : x.isErased = false) : sameVariable m p m' q = r.sameAs x := by
  unfold sameVariable
  rw [vendorGuidOf_of_at h, vendorGuidOf_of_at h', nameSizeOfVariable_of_at h, nameSizeOfVariable_of_at h',
    nameOf_of_at h hr, nameOf_of_at h' hx, hr, hx]
  simp only [Bool.false_eq_true, if_false]
  rw [Bool.eq_iff_iff, Record.sameAs_iff]
  simp only [Bool.and_eq_true, beq_iff_eq]
  constructor
  · rintro ⟨⟨h1, -⟩, h3⟩
    refine ⟨?_, h3⟩
    cases hg : r.guid; cases hg' : x.guid
    rw [hg, hg'] at h1
    simpa using h1
  · rintro ⟨h1, h3⟩
    refine ⟨⟨by rw [h1], ?_⟩, h3⟩
    rw [← r.nameBytes_length, ← x.nameBytes_length, h3]

theorem bytes_set_state (r : Record) (st : UInt8) (h : r.isErased = false) (hst : st ≠ 0xff) :
    r.bytes.set 2 st = (r.setState st).bytes := by
  have h' : (r.setState st).isErased = false := by simpa [Record.isErased] using hst
  simp [Record.bytes, Record.stored, h, h', Record.header, toLE_two]

end

/-- The variable that is updated, as the pointer that `Reclaim` gets and as a record. -/
inductive Updating (m : Memory) : Nat → Option Record → Prop
  | none : Updating m 0 none
  | some {p : Nat} {u : Record} (hp : p ≠ 0) (h4 : p % 4 = 0) (h : At m p u.bytes) (hl : u.isLive = true) :
      Updating m p (some u)

theorem Updating.live {m : Memory} {p : Nat} {u : Option Record} (h : Updating m p u) :
    ∀ x, u = .some x → x.isLive = true := by
  cases h with
  | none => simp
  | some _ _ _ hl => rintro x ⟨⟩; exact hl

section
variable {m : Memory} {upd : Nat} {u : Option Record} {isVolatile : Bool} {header : List UInt8}

/-! ## The pass over the `VAR_ADDED` records -/

theorem reinstallAdded_of_at {p : Nat} {r : Record} (hu : Updating m upd u) (hp : p ≠ 0) (h4 : p % 4 = 0)
    (h : At m p r.bytes) (b : ReclaimBuffer) :
    reinstallAdded m isVolatile upd b p =
      if r.isAdded && !u.any (fun x => r.sameAs x) then b.copy isVolatile r.attributes r.bytes else b := by
  unfold reinstallAdded
  rw [isAdded_of_at h, attributesOf_of_at h, recordBytes_of_at hp h4 h]
  cases ha : r.isAdded with
  | false => simp
  | true =>
    have hne := r.not_erased_of_live (isLive_of_added ha)
    cases hu with
    | none => simp
    | @some _ x hp' _ h' hl =>
      have hs := sameVariable_of_at h h' hne (x.not_erased_of_live hl)
      have hsame : (upd == p || sameVariable m p m upd) = r.sameAs x := by
        rw [hs]
        by_cases he : upd = p
        · subst he
          rw [← hs]; simp [sameVariable]
        · simp [he]
      simp only [Bool.not_true, Bool.false_eq_true, if_false, hsame, Option.any_some, Bool.true_and,
        bne_iff_ne.mpr hp']
      cases r.sameAs x <;> rfl

theorem foldl_reinstallAdded {recs : List Record} {a : Nat} (xs : List Record) (hu : Updating m upd u)
    (h : Holds m a recs) (ha : a ≠ 0) (h4 : a % 4 = 0) :
    (addresses a recs).foldl (reinstallAdded m isVolatile upd) (bufferOf isVolatile header xs) =
      bufferOf isVolatile header (xs ++ recs.filter fun r => r.isAdded && !u.any fun x => r.sameAs x) := by
  induction recs generalizing a xs with
  | nil => simp [addresses]
  | cons r rs ih =>
    have := r.size_mod
    rw [addresses, List.foldl_cons, reinstallAdded_of_at hu ha h4 h.1]
    by_cases hc : (r.isAdded && !u.any fun x => r.sameAs x) = true
    · have hadd : r.isAdded = true := (Bool.and_eq_true _ _ ▸ hc).1
      rw [if_pos hc, bufferOf_copy _ _ _ _ (r.not_erased_of_live (isLive_of_added hadd)),
        ih _ h.2 (by omega) (by omega), List.filter_cons, if_pos hc, List.append_assoc]
      rfl
    · rw [if_neg hc, ih _ h.2 (by omega) (by omega), List.filter_cons, if_neg hc]

theorem reinstallUpdating_eq (xs : List Record) (hu : Updating m upd u) :
    reinstallUpdating m isVolatile upd (bufferOf isVolatile header xs) =
      bufferOf isVolatile header (xs ++ u.toList) := by
  unfold reinstallUpdating
  cases hu with
  | none => simp
  | @some _ x hp h4 h hl =>
    rw [if_neg hp, attributesOf_of_at h, recordBytes_of_at hp h4 h,
      bufferOf_copy _ _ _ _ (x.not_erased_of_live hl)]
    rfl

/-! ## The pass over the records in delete transition -/

theorem at_bufferMemory (bs : List UInt8) : At (bufferMemory bs) 0 bs := by
  apply at_of_getElem
  intro i hi
  rw [Nat.zero_add, bufferMemory, List.getD_eq_getElem _ _ hi]

theorem holds_buffer (xs : List Record) (hh : header.length = sizeofVariableStoreHeader) :
    Holds (bufferMemory (bufferOf isVolatile header xs).bytes) sizeofVariableStoreHeader xs := by
  have := at_bufferMemory (bufferOf isVolatile header xs).bytes
  rw [holds_bytes]
  conv at this => rhs; unfold bufferOf
  rw [at_append, hh, Nat.zero_add] at this
  exact this.2

/-- The walk over the buffer goes over the records that are in it so far. -/
theorem bufferHeaders_eq (xs : List Record) (hh : header.length = sizeofVariableStoreHeader)
    (hx : sizeofVariableStoreHeader + total xs < maxAddress) :
    bufferHeaders (bufferOf isVolatile header xs).bytes = addresses sizeofVariableStoreHeader xs := by
  have hlen := length_le_total xs
  have hstart : getStartPointer 0 = sizeofVariableStoreHeader := rfl
  have hbytes : (bufferOf isVolatile header xs).bytes.length = sizeofVariableStoreHeader + total xs := by
    simp only [bufferOf, List.length_append, hh, length_flatMap_bytes]
  unfold bufferHeaders allHeaders
  rw [hstart, walk_holds _ _ _ _ xs (holds_buffer xs hh) (by decide) (by decide) (by omega) (by omega),
    walk_stop, List.append_nil]
  rintro ⟨-, hv⟩
  rw [not_valid_of_erased] at hv
  · cases hv
  · rw [bufferMemory, List.getD_eq_default _ _ (by omega)]
  · rw [bufferMemory, List.getD_eq_default _ _ (by omega)]

theorem any_addresses {m' : Memory} {xs : List Record} {a : Nat} (f : Nat → Bool) (g : Record → Bool)
    (h : Holds m' a xs) (hfg : ∀ q x, x ∈ xs → At m' q x.bytes → f q = g x) :
    (addresses a xs).any f = xs.any g := by
  induction xs generalizing a with
  | nil => rfl
  | cons x xs ih =>
    rw [addresses, List.any_cons, List.any_cons, hfg a x (by simp) h.1,
      ih h.2 fun q y hy => hfg q y (by simp [hy])]

theorem reinstallInDeleted_of_at {p : Nat} {r : Record} {xs : List Record} (hu : Updating m upd u)
    (hux : ∀ x, u = some x → x ∈ xs) (hxs : ∀ x ∈ xs, x.isLive = true)
    (hh : header.length = sizeofVariableStoreHeader) (hx : sizeofVariableStoreHeader + total xs < maxAddress)
    (hp : p ≠ 0) (h4 : p % 4 = 0) (h : At m p r.bytes) :
    reinstallInDeleted m isVolatile upd (bufferOf isVolatile header xs) p =
      bufferOf isVolatile header (promote xs r) := by
  unfold reinstallInDeleted promote
  rw [isInDeletedTransition_of_at h]
  cases hd : r.isInDeleted with
  | false => simp
  | true =>
    have hne := r.not_erased_of_live (isLive_of_inDeleted hd)
    have hany : ((bufferHeaders (bufferOf isVolatile header xs).bytes).any fun q =>
        sameVariable (bufferMemory (bufferOf isVolatile header xs).bytes) q m p) = xs.any fun x => x.sameAs r := by
      rw [bufferHeaders_eq xs hh hx]
      exact any_addresses _ _ (holds_buffer xs hh) fun q x hx' hq =>
        sameVariable_of_at hq h (x.not_erased_of_live (hxs x hx')) hne
    by_cases he : p = upd
    · subst he
      cases hu with
      | none => exact absurd rfl hp
      | @some _ x _ _ h' hl =>
        have hs : x.sameAs r = true := by
          rw [← sameVariable_of_at h' h (x.not_erased_of_live hl) hne]
          simp [sameVariable]
        have : (xs.any fun x => x.sameAs r) = true := List.any_eq_true.mpr ⟨x, hux x rfl, hs⟩
        rw [this]; simp
    · rw [hany, attributesOf_of_at h, recordBytes_of_at hp h4 h, bytes_set_state r _ hne (by decide)]
      simp only [bne_iff_ne.mpr he, Bool.and_self, if_true, Bool.true_and, Bool.not_eq_true']
      cases hc : xs.any fun x => x.sameAs r with
      | true => simp
      | false =>
        have := bufferOf_copy isVolatile header xs (r.setState varAdded) rfl
        rw [Record.setState_attributes] at this
        simp [this]

theorem foldl_reinstallInDeleted {recs : List Record} {a : Nat} (xs : List Record) (hu : Updating m upd u)
    (hux : ∀ x, u = some x → x ∈ xs) (hxs : ∀ x ∈ xs, x.isLive = true)
    (hh : header.length = sizeofVariableStoreHeader)
    (hx : sizeofVariableStoreHeader + total xs + total recs < maxAddress) (h : Holds m a recs) (ha : a ≠ 0)
    (h4 : a % 4 = 0) :
    (addresses a recs).foldl (reinstallInDeleted m isVolatile upd) (bufferOf isVolatile header xs) =
      bufferOf isVolatile header (recs.foldl promote xs) := by
  induction recs generalizing a xs with
  | nil => rfl
  | cons r rs ih =>
    have hmod := r.size_mod
    rw [total_cons] at hx
    have hgrow : total (promote xs r) ≤ total xs + r.size := by
      unfold promote
      split
      · rename_i hc
        have hd : r.isInDeleted = true := (Bool.and_eq_true _ _ ▸ hc).1
        rw [total_append, total_cons, total_nil,
          Record.size_of_not_erased (r.setState varAdded) rfl,
          r.size_of_not_erased (r.not_erased_of_live (isLive_of_inDeleted hd)), Record.setState_claimed]
        omega
      · omega
    have hmem : ∀ x, u = some x → x ∈ promote xs r := by
      intro x hx'
      unfold promote
      split
      · exact List.mem_append_left _ (hux x hx')
      · exact hux x hx'
    rw [addresses, List.foldl_cons, List.foldl_cons,
      reinstallInDeleted_of_at hu hux hxs hh (by omega) ha h4 h.1]
    exact ih _ hmem (promote_live hxs) (by omega) h.2 (by omega) (by omega)

/-! ## The whole buffer -/

/-- Headers that are not copied change nothing. -/
theorem foldl_skip {tail : List Nat} (b : ReclaimBuffer)
    (ht : ∀ p ∈ tail, isAdded m p = false ∧ isInDeletedTransition m p = false) :
    tail.foldl (reinstallAdded m isVolatile upd) b = b ∧
      tail.foldl (reinstallInDeleted m isVolatile upd) b = b := by
  induction tail with
  | nil => exact ⟨rfl, rfl⟩
  | cons p ps ih =>
    obtain ⟨h1, h2⟩ := ht p (by simp)
    have ih := ih fun q hq => ht q (by simp [hq])
    simp [reinstallAdded, reinstallInDeleted, h1, h2, ih.1, ih.2]

theorem total_eq_claimed {recs : List Record} (h : ∀ x ∈ recs, x.isErased = false) :
    total recs = weight Record.claimed recs := by
  induction recs with
  | nil => rfl
  | cons r rs ih =>
    rw [total_cons, weight_cons, ih fun x hx => h x (by simp [hx]), r.size_of_not_erased (h r (by simp))]

theorem total_eq_weight {recs : List Record} (h : ∀ x ∈ recs, x.isLive = true) :
    total recs = weight Record.claimed recs := total_eq_claimed fun x hx => x.not_erased_of_live (h x hx)

theorem weight_live_le_total (recs : List Record) : weight Record.claimed (recs.filter Record.isLive) ≤ total recs := by
  induction recs with
  | nil => simp
  | cons r rs ih =>
    rw [total_cons]
    by_cases hl : r.isLive = true
    · rw [List.filter_cons_of_pos hl, weight_cons, r.size_of_not_erased (r.not_erased_of_live hl)]; omega
    · rw [List.filter_cons_of_neg hl]; omega

theorem reclaimBuffer_eq (isVolatile : Bool) {base size : Nat} {recs : List Record} {tail : List Nat}
    (h : StoreHolds m base size recs) (ha : StoreArea base size) (hs : size < 2 ^ 32) (hu : Updating m upd u)
    (hux : ∀ x, u = some x → x.isInDeleted = true ∧ x ∈ recs)
    (hw : allHeaders m base = addresses (base + sizeofVariableStoreHeader) recs ++ tail)
    (ht : ∀ p ∈ tail, isAdded m p = false ∧ isInDeletedTransition m p = false) :
    reclaimBuffer m base isVolatile upd =
      bufferOf isVolatile (Bytes.read m base sizeofVariableStoreHeader) (reclaimed u recs) := by
  have hb := ha.base_mod
  have hpos := ha.pos
  have hfits := h.fits
  have h0 : base + sizeofVariableStoreHeader ≠ 0 := by omega
  have h4 : (base + sizeofVariableStoreHeader) % 4 = 0 := by unfold sizeofVariableStoreHeader; omega
  have hstart : (⟨Bytes.read m base sizeofVariableStoreHeader, 0, 0⟩ : ReclaimBuffer) =
      bufferOf isVolatile (Bytes.read m base sizeofVariableStoreHeader) [] := by
    cases isVolatile <;> simp [bufferOf]
  have hlive := start_live recs u hu.live
  have htotal : total ((recs.filter fun r => r.isAdded && !u.any fun x => r.sameAs x) ++ u.toList) ≤ total recs := by
    rw [total_eq_weight hlive]
    refine Nat.le_trans ?_ (weight_live_le_total recs)
    rw [weight_append]
    have h1 := weight_split_le Record.claimed (fun r => !u.any fun x => r.sameAs x) recs
    have h2 : weight Record.claimed u.toList ≤ weight Record.claimed (recs.filter Record.isInDeleted) := by
      cases u with
      | none => simp
      | some x =>
        obtain ⟨hd, hx⟩ := hux x rfl
        obtain ⟨pre, post, rfl⟩ := List.append_of_mem hx
        rw [List.filter_append, List.filter_cons_of_pos hd]
        simp only [Option.toList_some, weight_append, weight_cons, weight_nil]
        omega
    omega
  have hmax : (2 : Nat) ^ 32 + 2 ^ 32 < maxAddress := by decide
  unfold reclaimBuffer
  simp only
  rw [hw, hstart, List.foldl_append, List.foldl_append, foldl_reinstallAdded [] hu h.records h0 h4,
    (foldl_skip _ ht).1, List.nil_append, reinstallUpdating_eq _ hu,
    foldl_reinstallInDeleted _ hu (by rintro x rfl; simp) hlive (read_length ..) (by omega) h.records h0 h4,
    (foldl_skip _ ht).2]
  rfl

end

end Udk.Variable
