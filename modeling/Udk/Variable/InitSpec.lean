import Udk.Variable.SetSpec
import Udk.Variable.Init

/-! # What `VariableCommonInitialize` and `ReclaimForOS` do -/

open Udk.Bytes

namespace Udk.Variable

/-! ## Empty stores -/

theorem variableStoreHeader_length (size : Nat) :
    (variableStoreHeader size).length = sizeofVariableStoreHeader := by
  simp [variableStoreHeader, gEfiVariableGuid, sizeofVariableStoreHeader]

/-- A header, and nothing behind it. -/
theorem storeHolds_nil {m : Memory} {base size : Nat} (hm : At m base (variableStoreHeader size))
    (hle : sizeofVariableStoreHeader ≤ size) (hlt : size < 2 ^ 32)
    (hfree : ∀ i, base + sizeofVariableStoreHeader ≤ i → i < base + size → m i = 0xff) : StoreHolds m base size [] := by
  have hlen : gEfiVariableGuid.bytes.length = 16 := gEfiVariableGuid.length_eq
  unfold variableStoreHeader at hm
  simp only [at_append, at_cons, at_nil, hlen, List.length_append, List.length_cons, List.length_nil, toLE_length,
    Nat.reduceAdd, Nat.add_assoc, and_true] at hm
  obtain ⟨⟨⟨h1, h2⟩, h3, h4, -⟩, -⟩ := hm
  refine ⟨?_, at_readLE _ _ 4 _ h2 hlt, trivial, by simpa using hle, ?_⟩
  · unfold getVariableStoreStatus
    rw [if_pos]
    refine ⟨?_, h3, h4⟩
    rw [At, hlen] at h1; exact h1
  · intro i h5 h6
    exact hfree i (by simpa using h5) h6

section
variable {P : Platform} {mem : Memory} {nv : List Record} {reclaims : Nat}

theorem initialState_outside (i : Nat) (hi : i < P.volatileVariableBase ∨
    P.volatileVariableBase + P.pcdVariableStoreSize + P.scratchSize ≤ i) :
    (initialState P reclaims mem).mem i = mem i := by
  have := P.volatile_size.1
  unfold initialState
  simp only
  rw [write_outside _ _ _ _ (by rw [variableStoreHeader_length]; omega),
    fill_outside _ _ _ _ _ (by omega)]

theorem initialState_volatile :
    StoreHolds (initialState P reclaims mem).mem P.volatileVariableBase P.pcdVariableStoreSize [] := by
  have hsz := P.volatile_size
  refine storeHolds_nil (write_at _ _ _) hsz.1 (by omega) fun i h1 h2 => ?_
  unfold initialState
  simp only
  rw [write_outside _ _ _ _ (by rw [variableStoreHeader_length]; omega), fill_inside _ _ _ _ _ (by omega) (by omega)]

/-- The flash as it is built: an empty store, and nothing else. -/
def formattedFlash (P : Platform) : Memory :=
  write (fun _ => 0xff) P.nonVolatileVariableBase (variableStoreHeader P.nonVolatileStoreSize)

theorem formattedFlash_nonVolatile (P : Platform) : NonVolatile P (formattedFlash P) [] := by
  have hsz := P.nonVolatile_size
  have hfree : ∀ i, P.nonVolatileVariableBase + sizeofVariableStoreHeader ≤ i → formattedFlash P i = 0xff :=
    fun i hi => write_outside _ _ _ _ (by rw [variableStoreHeader_length]; omega)
  refine ⟨storeHolds_nil (write_at _ _ _) (by omega) (by omega) fun i h1 _ => hfree i h1, ?_, good_nil, by simp,
    Nat.zero_le _, Nat.zero_le _⟩
  unfold isValidVariableHeader startIdOf readLE
  simp only [Bytes.read]
  rw [hfree _ (by omega), hfree _ (by omega)]
  simp [fromLE, variableData]

/-! ## The non-volatile store -/

theorem isNonVolatileHardwareError_eq {attributes : Nat} (h : isNonVolatile attributes = true) :
    isNonVolatileHardwareError attributes = isHardwareError attributes := by
  have h0 := and_two_pow attributes 0
  have h3 := and_two_pow attributes 3
  have hnv : attributes.testBit 0 = true := by
    unfold isNonVolatile efiVariableNonVolatile at h
    have : attributes &&& 1 ≠ 0 := by simpa only [bne_iff_ne] using h
    rw [show (1 : Nat) = 2 ^ 0 from rfl, h0] at this
    exact of_not_not fun hb => this (if_neg hb)
  have hsum : attributes &&& (efiVariableNonVolatile ||| efiVariableHardwareErrorRecord) =
      (attributes &&& 2 ^ 0) ||| (attributes &&& 2 ^ 3) := by
    rw [← Nat.and_or_distrib_left]; rfl
  unfold isNonVolatileHardwareError isHardwareError
  rw [hsum, show efiVariableHardwareErrorRecord = 2 ^ 3 from rfl, h0, h3, hnv]
  cases attributes.testBit 3 <;> rfl

theorem claimedSize_of_at {m : Memory} {p : Nat} {r : Record} (h : At m p r.bytes) : claimedSize m p = r.claimed := by
  unfold claimedSize Record.claimed
  rw [nameSizeField_of_at h, dataSizeField_of_at h, Nat.add_comm, headerAlign_add _ _ (by decide)]

/-- The parse adds up what the records claim. -/
theorem foldl_countVariable (m : Memory) (recs : List Record) (a : Nat) (s : State) (h : Holds m a recs)
    (hnv : ∀ r ∈ recs, isNonVolatile r.attributes = true) :
    (addresses a recs).foldl (countVariable m) s =
      { s with
        commonVariableTotalSize := s.commonVariableTotalSize + weight commonSize recs
        hwErrVariableTotalSize := s.hwErrVariableTotalSize + weight hwErrSize recs } := by
  induction recs generalizing a s with
  | nil => rfl
  | cons r rs ih =>
    rw [addresses, List.foldl_cons, ih _ _ h.2 fun q hq => hnv q (by simp [hq])]
    unfold countVariable
    rw [attributesOf_of_at h.1, isNonVolatileHardwareError_eq (hnv r (by simp)), claimedSize_of_at h.1]
    cases hh : isHardwareError r.attributes <;> simp [commonSize, hwErrSize, hh, Nat.add_assoc]

/-- The driver starts on every well-formed store, and holds what the store holds. -/
theorem variableCommonInitialize_spec (env : Environment) (hr : P.RoomBehind) (h : NonVolatile P mem nv) :
    ∃ s, variableCommonInitialize P env reclaims mem = (.success, s) ∧ Invariant P s [] nv ∧
      s.atRuntime = false ∧ s.cache = mVariableCache ∧ s.flashTrace = [] := by
  let s := initialState P reclaims mem
  have hnv : NonVolatile P s.mem nv := h.congr hr fun i h1 h2 => initialState_outside i (by
    have := outside_store P i h1 h2; omega)
  have hsz := P.nonVolatile_size
  have hfits := hnv.holds.fits
  have hsize : storeSizeOf s.mem P.nonVolatileVariableBase ≠ 0xffffffff := by
    rw [hnv.holds.size_eq]; omega
  have hwalk := hnv.holds.allHeaders_eq_of_guard P.nonVolatileArea hnv.guard
  have hparse : parseNonVolatile P s =
      { s with
        commonVariableTotalSize := weight commonSize nv
        hwErrVariableTotalSize := weight hwErrSize nv
        nonVolatileLastVariableOffset := sizeofVariableStoreHeader + total nv } := by
    unfold parseNonVolatile
    rw [hwalk, foldl_countVariable _ _ _ _ hnv.holds.records hnv.attributes,
      hnv.holds.walkEnd_all_eq_of_guard P.nonVolatileArea hnv.guard]
    have h0 : P.nonVolatileVariableBase + sizeofVariableStoreHeader + total nv - P.nonVolatileVariableBase =
        sizeofVariableStoreHeader + total nv := by omega
    simp only [h0, s, initialState, Nat.zero_add]
  have hfree : freeAreaErased P (parseNonVolatile P s) = true := by
    rw [hparse]
    unfold freeAreaErased
    simp only
    rw [List.all_eq_true]
    intro b hb
    obtain ⟨i, hi, rfl⟩ := List.mem_iff_getElem.mp hb
    rw [read_getElem, beq_iff_eq]
    rw [read_length, hnv.holds.size_eq] at hi
    exact hnv.holds.free _ (by omega) (by omega)
  refine ⟨parseNonVolatile P s, ?_, ?_, by rw [hparse]; rfl, by rw [hparse]; rfl, by rw [hparse]; rfl⟩
  · unfold variableCommonInitialize
    simp only
    rw [if_pos hnv.holds.status, if_neg hsize]
    simp only [EfiStatus.isError, bne_self_eq_false, Bool.false_eq_true, if_false]
    rw [if_pos hfree]
  · rw [hparse]
    have hmod1 := weight_mod commonSize commonSize_mod nv
    have hmod2 := weight_mod hwErrSize hwErrSize_mod nv
    refine ⟨⟨⟨@initialState_volatile P mem reclaims, good_nil, hnv, ?_, rfl, ⟨rfl, hnv.common_le, hmod1, rfl,
      hnv.hwErr_le, hmod2⟩⟩, fun k => .inl rfl⟩, rfl, ?_⟩
    · simp only [s, initialState, getStartPointer_eq _ P.volatile_aligned, total_nil]
      omega
    · intro codes hcd; cases hcd

end

/-! ## `ReclaimForOS` -/

/-- The condition on `ReclaimForOS`: if it runs `Reclaim`, that succeeds and keeps every value. -/
structure ReclaimSafe (P : Platform) (env : Environment) (s : State) : Prop where
  services : belowThreshold P s = true →
    env.allocatePool s.reclaims (maximumBufferSize s.mem P.nonVolatileVariableBase) = true ∧
      (env.ftwWrite s.reclaims).isError = false
  others : belowThreshold P s = true → ReclaimKeeps P.nonVolatileVariableBase none s

theorem reclaimForOS_spec {P : Platform} {env : Environment} {s : State} {vol nv : List Record}
    (h : Invariant P s vol nv) (hrt : s.atRuntime = false) (hsafe : ReclaimSafe P env s) :
    ∃ nv', Invariant P (reclaimForOS P env s) vol nv' ∧ (∀ j, Keeps false j nv nv') ∧
      (reclaimForOS P env s).context = s.context ∧ (Whole nv → Whole nv') := by
  unfold reclaimForOS
  cases hb : belowThreshold P s with
  | false => exact ⟨nv, h, fun _ => .refl, rfl, id⟩
  | true =>
    obtain ⟨ha, hf⟩ := hsafe.services hb
    have hh := h.settled.holding
    obtain ⟨s', he, h', hc, -, -⟩ := reclaim_nonVolatile_spec hh .none (by simp) ha hf
    have hkeeps : ∀ j, Keeps false j nv (reclaimed none nv) := fun j => by
      refine keeps_reclaimed (by simp) (by simp) ?_
      have := hsafe.others hb j (by simp)
      rwa [shownValue_kept _ _ hh.nonVolatile.holds P.nonVolatileArea hh.nonVolatile.good,
        shownValue_liveCopies _ _ hh.nonVolatile.holds P.nonVolatileArea hh.nonVolatile.good, hrt] at this
    simp only [he, if_true]
    refine ⟨_, ⟨⟨h', fun k => (h.settled.apart k).imp_right (hkeeps k).copies_eq_nil⟩, ?_, ?_⟩, hkeeps, hc,
      fun _ => whole_reclaimed none nv (by simp)⟩
    · exact (congrArg Context.reentrantState hc).trans h.reentrant
    · intro codes hcd
      exact h.codes codes ((congrArg Context.platformLangCodes hc).symm.trans hcd)

end Udk.Variable
