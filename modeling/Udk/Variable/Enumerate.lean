import Udk.Variable.Values

/-! # The walk of `GetNextVariableName` -/

open Udk.Bytes

namespace Udk.Variable

/-! ## The loop -/

/-- The records that `GetNextVariableName` gives back. -/
def Record.isListed (r : Record) (atRuntime : Bool) : Bool := r.isAdded && r.isVisible atRuntime

/-- The first address in the list at which a `VAR_ADDED` record can be seen. -/
def firstListed (m : Memory) (atRuntime : Bool) (ps : List Nat) : Option Nat :=
  ps.find? fun p => isAdded m p && isVisible m atRuntime p

theorem isListed_of_at {m : Memory} {p : Nat} {r : Record} (h : At m p r.bytes) (atRuntime : Bool) :
    (isAdded m p && isVisible m atRuntime p) = r.isListed atRuntime := by
  rw [isAdded_of_at h, isVisible_of_at h]; rfl

section
variable {P : Platform} {m : Memory} {atRuntime : Bool} {vol nv : List Record}

/-- The loop walks over the records that lie ahead. -/
theorem nextAdded_records {base size : Nat} {recs : List Record} (h : StoreHolds m base size recs)
    (ha : StoreArea base size) (rest : List Record) (fuel : Nat) (v : VariablePointerTrack) (pre : List Record)
    (hs : recs = pre ++ rest) (hp : v.currPtr = recordAt base pre) (he : v.endPtr = base + size) :
    nextAdded P m atRuntime (rest.length + fuel) v =
      (firstListed m atRuntime (addresses (recordAt base pre) rest)).or
        (nextAdded P m atRuntime fuel { v with currPtr := recordAt base recs }) := by
  induction rest generalizing pre v with
  | nil =>
    rw [List.append_nil] at hs
    subst hs
    cases v
    simp only [List.length_nil, Nat.zero_add, addresses, firstListed, List.find?_nil, Option.none_or]
    simp only at hp
    rw [hp]
  | cons r rs ih =>
    have hfits := h.fits
    have hrec := h.records
    rw [hs] at hrec hfits
    have hat : At m v.currPtr r.bytes := by rw [hp]; exact holds_split hrec
    have hmod := recordAt_mod ha pre
    have hpos := r.size_pos
    rw [total_append, total_cons] at hfits
    have hnext : getNextVariablePtr m v.currPtr = recordAt base (pre ++ [r]) := by
      rw [getNextVariablePtr_of_at (hp ▸ hmod.1) (hp ▸ hmod.2) hat, hp]
      simp [recordAt, Nat.add_assoc]
    have hlt : ¬(v.endPtr ≤ v.currPtr ∨ v.currPtr = 0) := by
      rw [hp, he]
      have := hmod.1
      unfold recordAt at this ⊢
      omega
    rw [show (r :: rs).length + fuel = (rs.length + fuel) + 1 by simp [Nat.add_assoc, Nat.add_comm], nextAdded,
      if_neg hlt, isValid_of_at (hp ▸ hmod.1) hat, Bool.true_and, addresses, firstListed, List.find?_cons,
      ← hp, isListed_of_at hat]
    cases hl : r.isListed atRuntime with
    | true => simp
    | false =>
      simp only [Bool.false_eq_true, if_false]
      rw [ih { v with currPtr := getNextVariablePtr m v.currPtr } (pre ++ [r]) (by simp [hs]) hnext he]
      have : recordAt base (pre ++ [r]) = v.currPtr + r.size := by
        rw [hp]; simp [recordAt, Nat.add_assoc]
      rw [this]
      rfl

/-- At the end of the records the loop comes to the end of the store, in one turn at most. -/
theorem nextAdded_end {base size : Nat} {recs : List Record} (h : StoreHolds m base size recs)
    (ha : StoreArea base size) (fuel : Nat) (v : VariablePointerTrack) (hp : v.currPtr = recordAt base recs)
    (he : v.endPtr = base + size) :
    ∃ v' fuel', fuel ≤ fuel' ∧ nextAdded P m atRuntime (fuel + 1) v = nextAdded P m atRuntime fuel' v' ∧
      (v'.endPtr ≤ v'.currPtr ∨ v'.currPtr = 0) ∧ v'.isVolatile = v.isVolatile := by
  have hfits := h.fits
  by_cases hroom : sizeofVariableStoreHeader + total recs < size
  · have hinv : isValidVariableHeader m v.currPtr = false := by
      rw [hp]; exact h.end_not_valid ha hroom
    have hlt : ¬(v.endPtr ≤ v.currPtr ∨ v.currPtr = 0) := by
      rw [hp, he]
      have := (recordAt_mod ha recs).1
      unfold recordAt at this ⊢
      omega
    refine ⟨{ v with currPtr := getNextVariablePtr m v.currPtr }, fuel, Nat.le_refl _, ?_, .inr ?_, rfl⟩
    · rw [nextAdded, if_neg hlt, hinv]
      rfl
    · unfold getNextVariablePtr
      rw [hinv]; rfl
  · refine ⟨v, fuel + 1, Nat.le_succ _, rfl, .inl ?_, rfl⟩
    rw [hp, he]
    unfold recordAt
    omega

theorem nextAdded_stop {v : VariablePointerTrack} (fuel : Nat) (hend : v.endPtr ≤ v.currPtr ∨ v.currPtr = 0)
    (hv : v.isVolatile = false) : nextAdded P m atRuntime fuel v = none := by
  cases fuel with
  | zero => rfl
  | succ fuel => rw [nextAdded, if_pos hend, hv]; rfl

theorem nextAdded_nonVolatile (h : StoreHolds m P.nonVolatileVariableBase P.nonVolatileStoreSize nv)
    {pre rest : List Record} (fuel : Nat) (v : VariablePointerTrack) (hs : nv = pre ++ rest)
    (hp : v.currPtr = recordAt P.nonVolatileVariableBase pre)
    (he : v.endPtr = P.nonVolatileVariableBase + P.nonVolatileStoreSize) (hv : v.isVolatile = false) :
    nextAdded P m atRuntime (rest.length + (fuel + 1)) v =
      firstListed m atRuntime (addresses (recordAt P.nonVolatileVariableBase pre) rest) := by
  rw [nextAdded_records h P.nonVolatileArea rest _ v pre hs hp he]
  obtain ⟨v', fuel', -, hn, hend, hv'⟩ := nextAdded_end h P.nonVolatileArea fuel
    { v with currPtr := recordAt P.nonVolatileVariableBase nv } rfl he
  rw [hn, nextAdded_stop fuel' hend (hv'.trans hv), Option.or_none]

/-- From the end of the volatile store the loop goes on with the non-volatile one. -/
theorem nextAdded_switch (h : NonVolatile P m nv) (fuel : Nat) {v : VariablePointerTrack}
    (hend : v.endPtr ≤ v.currPtr ∨ v.currPtr = 0) (hv : v.isVolatile = true) :
    nextAdded P m atRuntime (nv.length + (fuel + 2)) v =
      firstListed m atRuntime (addresses (recordAt P.nonVolatileVariableBase []) nv) := by
  have hstart : getStartPointer P.nonVolatileVariableBase = recordAt P.nonVolatileVariableBase [] :=
    getStartPointer_eq _ P.nonVolatile_aligned
  let v1 : VariablePointerTrack :=
    { startPtr := getStartPointer P.nonVolatileVariableBase
      endPtr := getEndPointer m P.nonVolatileVariableBase
      currPtr := getStartPointer P.nonVolatileVariableBase
      isVolatile := false }
  have he : v1.endPtr = P.nonVolatileVariableBase + P.nonVolatileStoreSize :=
    h.holds.getEndPointer_eq P.nonVolatileArea
  have hsame : nextAdded P m atRuntime (nv.length + (fuel + 2)) v = nextAdded P m atRuntime (nv.length + (fuel + 1)) v1 ∨
      nextAdded P m atRuntime (nv.length + (fuel + 2)) v = nextAdded P m atRuntime (nv.length + (fuel + 2)) v1 := by
    rw [show nv.length + (fuel + 2) = (nv.length + (fuel + 1)) + 1 by omega, nextAdded, if_pos hend, hv]
    simp only [if_true]
    cases hval : isValidVariableHeader m (getStartPointer P.nonVolatileVariableBase) with
    | false => exact .inl rfl
    | true =>
      have hlt : ¬(v1.endPtr ≤ v1.currPtr ∨ v1.currPtr = 0) := by
        rintro (hle | h0)
        · have hfits := h.holds.fits
          have hcur : v1.currPtr = P.nonVolatileVariableBase + sizeofVariableStoreHeader :=
            getStartPointer_eq _ P.nonVolatile_aligned
          have : getStartPointer P.nonVolatileVariableBase = P.nonVolatileVariableBase + P.nonVolatileStoreSize := by
            have : v1.currPtr = getStartPointer P.nonVolatileVariableBase := rfl
            omega
          rw [this, h.guard] at hval
          cases hval
        · exact (recordAt_mod P.nonVolatileArea []).1 (hstart.symm.trans h0)
      right
      rw [nextAdded, if_neg hlt]
      simp only [v1, hval, Bool.true_and, Bool.not_true, Bool.false_eq_true, if_false]
  rcases hsame with hsame | hsame
  · rw [hsame]; exact nextAdded_nonVolatile h.holds fuel v1 rfl hstart he rfl
  · rw [hsame]; exact nextAdded_nonVolatile h.holds (fuel + 1) v1 rfl hstart he rfl

theorem nextAdded_volatile (h : StoreHolds m P.volatileVariableBase P.pcdVariableStoreSize vol)
    (hnv : NonVolatile P m nv) {pre rest : List Record} (fuel : Nat) (v : VariablePointerTrack)
    (hs : vol = pre ++ rest) (hp : v.currPtr = recordAt P.volatileVariableBase pre)
    (he : v.endPtr = P.volatileVariableBase + P.pcdVariableStoreSize) (hv : v.isVolatile = true) :
    nextAdded P m atRuntime (rest.length + (nv.length + (fuel + 3))) v =
      (firstListed m atRuntime (addresses (recordAt P.volatileVariableBase pre) rest)).or
        (firstListed m atRuntime (addresses (recordAt P.nonVolatileVariableBase []) nv)) := by
  rw [nextAdded_records h P.volatileArea rest _ v pre hs hp he]
  obtain ⟨v', fuel', hle, hn, hend, hv'⟩ := nextAdded_end h P.volatileArea
    (nv.length + (fuel + 2)) { v with currPtr := recordAt P.volatileVariableBase vol } rfl he
  rw [show nv.length + (fuel + 3) = nv.length + (fuel + 2) + 1 by omega, hn]
  obtain ⟨f, rfl⟩ : ∃ f, fuel' = nv.length + (f + 2) := ⟨fuel' - nv.length - 2, by omega⟩
  rw [nextAdded_switch hnv f hend (hv'.trans hv)]

end

/-! ## The records that are listed -/

def listed (atRuntime : Bool) (recs : List Record) : List Record := recs.filter (·.isListed atRuntime)

@[simp] theorem listed_nil (b : Bool) : listed b [] = [] := rfl

@[simp] theorem listed_append (b : Bool) (xs ys : List Record) : listed b (xs ++ ys) = listed b xs ++ listed b ys :=
  List.filter_append ..

theorem listed_cons_pos {b : Bool} {r : Record} (h : r.isListed b = true) (rs : List Record) :
    listed b (r :: rs) = r :: listed b rs := List.filter_cons_of_pos h

theorem listed_cons_neg {b : Bool} {r : Record} (h : r.isListed b = false) (rs : List Record) :
    listed b (r :: rs) = listed b rs := List.filter_cons_of_neg (by simp [h])

theorem mem_listed {b : Bool} {r : Record} {recs : List Record} :
    r ∈ listed b recs ↔ r ∈ recs ∧ r.isAdded = true ∧ r.isVisible b = true := by
  simp [listed, Record.isListed]

theorem firstListed_spec {m : Memory} {b : Bool} {a : Nat} {recs : List Record} (h : Holds m a recs) :
    (firstListed m b (addresses a recs) = none ∧ listed b recs = []) ∨
      ∃ p r, firstListed m b (addresses a recs) = some p ∧ At m p r.bytes ∧ (listed b recs).head? = some r := by
  induction recs generalizing a with
  | nil => exact .inl ⟨rfl, rfl⟩
  | cons r rs ih =>
    have hr := isListed_of_at h.1 b
    unfold firstListed at ih ⊢
    rw [addresses, List.find?_cons, hr]
    cases hl : r.isListed b with
    | true => exact .inr ⟨a, r, rfl, h.1, by rw [listed_cons_pos hl]; rfl⟩
    | false =>
      rw [listed_cons_neg hl]
      exact ih h.2

/-- The variable that a record is a copy of. -/
def Record.key (r : Record) : Key := (Name.ofBytes r.nameBytes, r.guid)

theorem Record.Named.has_key {r : Record} (h : r.Named) : r.has r.key = true ∧ r.key.1.chars ≠ [] := by
  obtain ⟨n, hn, hb⟩ := h
  have : r.key.1 = n := by
    unfold Record.key
    rw [hb]
    exact n.ofBytes_bytes
  refine ⟨Record.has_iff.mpr ⟨rfl, by rw [this]; exact hb⟩, by rw [this]; exact hn⟩

/-- The last copy that can be seen is in one place. -/
theorem IsFound.unique {b : Bool} {k : Key} {recs pre post pre' post' : List Record} {r r' : Record}
    (h : IsFound b k recs pre r post) (hg : Good recs) (hs : recs = pre' ++ r' :: post') (ha : r'.isAdded = true)
    (hv : r'.isVisible b = true) (hk : r'.has k = true) : pre = pre' ∧ r = r' ∧ post = post' := by
  have hsplit := h.split.symm.trans hs
  rcases List.append_eq_append_iff.mp hsplit with ⟨zs, hz, hz'⟩ | ⟨zs, hz, hz'⟩
  · cases zs with
    | nil =>
      simp only [List.append_nil, List.nil_append] at hz hz'
      obtain ⟨rfl, rfl⟩ := List.cons.inj hz'
      exact ⟨hz.symm, rfl, rfl⟩
    | cons z zs =>
      -- the listed record lies behind the found one
      obtain ⟨-, hpost⟩ := List.cons.inj hz'
      have := h.last r' (by rw [hpost]; simp) (isLive_of_added ha) hv
      rw [hk] at this; cases this
  · cases zs with
    | nil =>
      simp only [List.append_nil, List.nil_append] at hz hz'
      obtain ⟨rfl, rfl⟩ := List.cons.inj hz'
      exact ⟨hz, rfl, rfl⟩
    | cons z zs =>
      -- the found record lies behind the listed one
      obtain ⟨-, hpost⟩ := List.cons.inj hz'
      subst hs
      have hgood := (good_cons.mp hg.of_append_right).2.2 r (by rw [hpost]; simp) ha h.live
      rw [Record.sameAs_of_has hk, h.has] at hgood
      cases hgood

/-! ## `GetNextVariableName` -/

/-- What the service gives back for the next record. -/
def nextResult (variableNameSize : Nat) : Option Record → NextResult
  | some r => ⟨.success, r.nameSize, some (r.nameBytes, r.guid.bytes)⟩
  | none => ⟨.notFound, variableNameSize, none⟩

/-- What the service gives back where the loop ends. -/
def resultAt (m : Memory) (variableNameSize : Nat) : Option Nat → NextResult
  | some p =>
    let varNameSize := nameSizeOfVariable m p
    if varNameSize ≤ variableNameSize then ⟨.success, varNameSize, some (nameOf m p, vendorGuidOf m p)⟩
    else ⟨.bufferTooSmall, varNameSize, none⟩
  | none => ⟨.notFound, variableNameSize, none⟩

section
variable {P : Platform} {s : State} {vol nv : List Record} {n : Name} {g : Guid} {v : VariablePointerTrack} {size : Nat}

theorem getNext_of_found (h : findVariable P n g s = (.success, v)) :
    runtimeServiceGetNextVariableName P (some size) (some n) (some g) s =
      resultAt s.mem size (nextAdded P s.mem s.atRuntime maxAddress
        (if n.chars.isEmpty then v else { v with currPtr := getNextVariablePtr s.mem v.currPtr })) := by
  unfold runtimeServiceGetNextVariableName
  simp only [h]
  split
  · rename_i he; rw [he]; rfl
  · rename_i he; rw [he]; rfl

theorem resultAt_some {p : Nat} {r : Record} (h : At s.mem p r.bytes) (hl : r.isLive = true) (hs : r.nameSize ≤ size) :
    resultAt s.mem size (some p) = nextResult size (some r) := by
  have he := r.not_erased_of_live hl
  unfold resultAt
  simp only [nameSizeOfVariable_of_at h, nameOf_of_at h he, vendorGuidOf_of_at h, he, Bool.false_eq_true, if_false,
    hs, if_true]
  rfl

/-- The buffer is large enough for every name in the store. -/
def LargeEnough (size : Nat) (recs : List Record) : Prop := ∀ r ∈ recs, r.isAdded = true → r.nameSize ≤ size

theorem largeEnough_of_size {m : Memory} {base st : Nat} {recs : List Record} (h : StoreHolds m base st recs)
    (hs : st ≤ size) : LargeEnough size recs := by
  intro r hr ha
  obtain ⟨pre, post, rfl⟩ := List.append_of_mem hr
  have hfits := h.fits
  have hsize := r.size_of_not_erased (r.not_erased_of_live (isLive_of_added ha))
  have hle := headerAlign_le (r.nameSize + r.dataSize)
  rw [total_append, total_cons] at hfits
  unfold Record.claimed at hsize
  omega

theorem resultAt_firstListed {b : Bool} {a : Nat} {recs : List Record} (h : Holds s.mem a recs)
    (hs : LargeEnough size recs) :
    resultAt s.mem size (firstListed s.mem b (addresses a recs)) = nextResult size (listed b recs).head? := by
  rcases firstListed_spec (b := b) h with ⟨hn, hl⟩ | ⟨p, r, hp, hat, hr⟩
  · rw [hn, hl]; rfl
  · obtain ⟨hmem, ha, -⟩ := mem_listed.mp (List.mem_of_head? hr)
    rw [hp, hr, resultAt_some hat (isLive_of_added ha) (hs r hmem ha)]

theorem record_bounds {m : Memory} {base st : Nat} {recs : List Record} (h : StoreHolds m base st recs) :
    recs.length < st := by
  have := length_le_total recs
  have := h.fits
  unfold sizeofVariableStoreHeader at this
  omega

/-- The walk over the rest of the non-volatile store. -/
theorem resultAt_nonVolatile (h : Settled P s vol nv) (hsize : LargeEnough size nv) (pre : List Record) {rest : List Record}
    (hs : nv = pre ++ rest) (hp : v.currPtr = recordAt P.nonVolatileVariableBase pre)
    (he : v.endPtr = P.nonVolatileVariableBase + P.nonVolatileStoreSize) (hv : v.isVolatile = false) :
    resultAt s.mem size (nextAdded P s.mem s.atRuntime maxAddress v) =
      nextResult size (listed s.atRuntime rest).head? := by
  have hnv := h.holding.nonVolatile.holds
  have hlen := record_bounds hnv
  have haddr := P.nonVolatileArea.addressable
  have hrec := hnv.records
  rw [hs, holds_append] at hrec
  rw [hs, List.length_append] at hlen
  rw [show maxAddress = rest.length + ((maxAddress - rest.length - 1) + 1) by omega,
    nextAdded_nonVolatile hnv _ v hs hp he hv]
  exact resultAt_firstListed hrec.2 fun r hr => hsize r (by rw [hs]; simp [hr])

/-- The walk over the rest of the volatile store, and then over the other one. -/
theorem resultAt_volatile (h : Settled P s vol nv) (hsize : LargeEnough size vol) (hsize' : LargeEnough size nv)
    (pre : List Record) {rest : List Record} (hs : vol = pre ++ rest) (hp : v.currPtr = recordAt P.volatileVariableBase pre)
    (he : v.endPtr = P.volatileVariableBase + P.pcdVariableStoreSize) (hv : v.isVolatile = true) :
    resultAt s.mem size (nextAdded P s.mem s.atRuntime maxAddress v) =
      nextResult size (listed s.atRuntime rest ++ listed s.atRuntime nv).head? := by
  have hvol := h.holding.volatile
  have hnv := h.holding.nonVolatile
  have hlen := record_bounds hvol
  have hlen' := record_bounds hnv.holds
  have hsz := P.volatile_size
  have hsz' := P.nonVolatile_size
  have hrec := hvol.records
  rw [hs, holds_append] at hrec
  rw [hs, List.length_append] at hlen
  have hmax : maxAddress = 2 ^ 64 := rfl
  rw [show maxAddress = rest.length + (nv.length + ((maxAddress - rest.length - nv.length - 3) + 3)) by omega,
    nextAdded_volatile hvol hnv _ v hs hp he hv]
  have hsizer : LargeEnough size rest := fun r hr => hsize r (by rw [hs]; simp [hr])
  rcases firstListed_spec (b := s.atRuntime) hrec.2 with ⟨hn, hl⟩ | ⟨p, r, hp, hat, hr⟩
  · have hn : firstListed s.mem s.atRuntime (addresses (recordAt P.volatileVariableBase pre) rest) = none := hn
    rw [hn, hl, Option.none_or, List.nil_append]
    exact resultAt_firstListed hnv.holds.records hsize'
  · have hp : firstListed s.mem s.atRuntime (addresses (recordAt P.volatileVariableBase pre) rest) = some p := hp
    obtain ⟨hmem, ha, -⟩ := mem_listed.mp (List.mem_of_head? hr)
    rw [hp, Option.some_or, List.head?_append, hr, Option.some_or,
      resultAt_some hat (isLive_of_added ha) (hsizer r hmem ha)]

end

end Udk.Variable
