import Udk.Variable.Accounting

/-! # `RuntimeServiceQueryVariableInfo` -/

open Udk.Bytes

namespace Udk.Variable

/-! ## The service -/

/-- What the output parameters hold. -/
structure VariableInfo where
  maximumVariableStorageSize : Nat
  remainingVariableStorageSize : Nat
  maximumVariableSize : Nat
  deriving DecidableEq

/-- `CommonVariableTotalSize` and `HwErrVariableTotalSize`. -/
structure Totals where
  common : Nat
  hwErr : Nat

def Totals.of (t : Totals) (hwErr : Bool) : Nat := if hwErr then t.hwErr else t.common

def Totals.add (t : Totals) (hwErr : Bool) (size : Nat) : Totals :=
  if hwErr then { t with hwErr := (t.hwErr + size) % maxAddress } else { t with common := (t.common + size) % maxAddress }

/-- The state counts at boot time only. -/
def isCounted (atRuntime : Bool) (m : Memory) (p : Nat) : Bool := atRuntime || stateOf m p == varAdded

/-- One turn of the loop. The class is that of the next header. -/
def queryTurn (atRuntime : Bool) (m : Memory) (t : Totals) (p : Nat) : Totals :=
  let next := getNextVariablePtr m p
  if isCounted atRuntime m p then t.add (isHardwareError (attributesOf m next)) (subtractUintn next p) else t

def queryAttributesStatus (atRuntime : Bool) (attributes : Nat) : EfiStatus :=
  if attributes &&& (efiVariableNonVolatile ||| efiVariableBootserviceAccess ||| efiVariableRuntimeAccess |||
      efiVariableHardwareErrorRecord) = 0 then .unsupported
  else if attributes &&& (efiVariableRuntimeAccess ||| efiVariableBootserviceAccess) = efiVariableRuntimeAccess then
    .invalidParameter
  else if atRuntime = true ∧ attributes &&& efiVariableRuntimeAccess = 0 then .invalidParameter
  else if attributes &&& (efiVariableNonVolatile ||| efiVariableHardwareErrorRecord) = efiVariableHardwareErrorRecord then
    .invalidParameter
  else if attributes &&& efiVariableAuthenticatedWriteAccess ≠ 0 then .unsupported
  else .success

/-- The store that the attributes are about. -/
def queryBase (P : Platform) (attributes : Nat) : Nat :=
  if attributes &&& efiVariableNonVolatile = 0 then P.volatileVariableBase else P.nonVolatileVariableBase

/-- The maximum sizes of the storage and of a variable. -/
def queryMaximum (P : Platform) (attributes : Nat) (m : Memory) : Nat × Nat :=
  let size := subtractUintn (storeSizeOf m (queryBase P attributes)) sizeofVariableStoreHeader
  if isNonVolatileHardwareError attributes then
    (P.pcdHwErrStorageSize, subtractUintn P.pcdMaxHardwareErrorVariableSize sizeofVariableHeader)
  else
    (if attributes &&& efiVariableNonVolatile ≠ 0 then subtractUintn size P.pcdHwErrStorageSize else size,
      subtractUintn P.pcdMaxVariableSize sizeofVariableHeader)

def runtimeServiceQueryVariableInfo (P : Platform) (attributes : Nat) (nullPointer : Bool) (s : State) :
    EfiStatus × Option VariableInfo :=
  if nullPointer = true ∨ attributes = 0 then (.invalidParameter, none)
  else
    match queryAttributesStatus s.atRuntime attributes with
    | .success =>
      let (maximum, maximumVariable) := queryMaximum P attributes s.mem
      let totals := (storeHeaders s.mem (queryBase P attributes)).foldl (queryTurn s.atRuntime s.mem) ⟨0, 0⟩
      let remaining := subtractUintn maximum (totals.of (isHardwareError attributes))
      let maximumVariable :=
        if remaining < sizeofVariableHeader then 0
        else if remaining - sizeofVariableHeader < maximumVariable then remaining - sizeofVariableHeader
        else maximumVariable
      (.success, some ⟨maximum, remaining, maximumVariable⟩)
    | status => (status, none)

/-! ## Sizes of records -/

/-- What the counted records take that meet `q`. -/
def countedSize (atRuntime : Bool) (m : Memory) (l : List Nat) (q : Nat → Bool) : Nat :=
  ((l.filter fun p => isCounted atRuntime m p && q p).map (variableSize m)).sum

/-- The class of a header, and that of the next one. -/
def hasClass (m : Memory) (hwErr : Bool) (p : Nat) : Bool := isHardwareError (attributesOf m p) == hwErr

def nextHasClass (m : Memory) (hwErr : Bool) (p : Nat) : Bool := hasClass m hwErr (getNextVariablePtr m p)

section
variable {atRuntime : Bool} {m : Memory} {l : List Nat} {p endPtr : Nat}

theorem countedSize_cons (q : Nat → Bool) : countedSize atRuntime m (p :: l) q =
    (if isCounted atRuntime m p && q p then variableSize m p else 0) + countedSize atRuntime m l q := by
  unfold countedSize
  rw [List.filter_cons]
  split
  · rw [List.map_cons, List.sum_cons]
  · rw [Nat.zero_add]

theorem countedSize_le (q : Nat → Bool) : countedSize atRuntime m l q ≤ (l.map (variableSize m)).sum := by
  induction l with
  | nil => exact Nat.le_refl _
  | cons p l ih =>
    rw [countedSize_cons, List.map_cons, List.sum_cons]
    split
    · omega
    · omega

/-- What meets `q` and not `q'`, and the other way round, is the difference. -/
theorem countedSize_exchange (q q' : Nat → Bool) :
    countedSize atRuntime m l q' + countedSize atRuntime m l (fun p => q p && !q' p) =
      countedSize atRuntime m l q + countedSize atRuntime m l (fun p => q' p && !q p) := by
  induction l with
  | nil => rfl
  | cons p l ih =>
    simp only [countedSize_cons]
    cases isCounted atRuntime m p <;> cases q p <;> cases q' p <;> simp <;> omega

theorem subtractUintn_sub {a b : Nat} (h : b ≤ a) (hlt : a - b < maxAddress) : subtractUintn a b = a - b := by
  unfold subtractUintn maxAddress at *
  omega

/-- A header that is valid has its next one behind it, and not far. -/
theorem getNextVariablePtr_bounds (h : isValidVariableHeader m p = true) :
    p < getNextVariablePtr m p ∧ getNextVariablePtr m p < p + 2 ^ 34 := by
  have hname : nameSizeOfVariable m p < 2 ^ 32 := by
    unfold nameSizeOfVariable
    split
    · decide
    · exact readLE_lt m _ 4
  have hdata : dataSizeOfVariable m p < 2 ^ 32 := by
    unfold dataSizeOfVariable
    split
    · decide
    · exact readLE_lt m _ 4
  unfold getNextVariablePtr
  rw [if_pos h]
  unfold getVariableDataPtr getVariableNamePtr headerAlign sizeofVariableHeader getPadSize
  omega

theorem walk_sum (fuel : Nat) (p : Nat) :
    (∀ q ∈ walk m endPtr fuel p, q < getNextVariablePtr m q ∧ getNextVariablePtr m q < q + 2 ^ 34) ∧
      ((walk m endPtr fuel p).map (variableSize m)).sum + p ≤ max p (endPtr + 2 ^ 34) := by
  induction fuel generalizing p with
  | zero => exact ⟨fun q hq => absurd hq List.not_mem_nil, by simp only [walk, List.map_nil, List.sum_nil]; omega⟩
  | succ fuel ih =>
    rw [walk]
    split
    · rename_i h
      obtain ⟨h1, h2⟩ := getNextVariablePtr_bounds h.2
      obtain ⟨hall, hsum⟩ := ih (getNextVariablePtr m p)
      refine ⟨fun q hq => ?_, ?_⟩
      · rcases List.mem_cons.mp hq with rfl | hq
        · exact ⟨h1, h2⟩
        · exact hall q hq
      · have hsize : variableSize m p = getNextVariablePtr m p - p := rfl
        rw [List.map_cons, List.sum_cons, hsize]
        omega
    · exact ⟨fun q hq => absurd hq List.not_mem_nil, by simp only [List.map_nil, List.sum_nil]; omega⟩

/-- The loop adds up the sizes by the class of the next header. -/
theorem foldl_queryTurn {t : Totals} (hnext : ∀ q ∈ l, q < getNextVariablePtr m q ∧ getNextVariablePtr m q < q + 2 ^ 34)
    (hsum : t.common + (l.map (variableSize m)).sum < maxAddress ∧ t.hwErr + (l.map (variableSize m)).sum < maxAddress)
    (hwErr : Bool) :
    (l.foldl (queryTurn atRuntime m) t).of hwErr = t.of hwErr + countedSize atRuntime m l (nextHasClass m hwErr) := by
  induction l generalizing t with
  | nil => rfl
  | cons p l ih =>
    obtain ⟨h1, h2⟩ := hnext p List.mem_cons_self
    have hsize : variableSize m p = getNextVariablePtr m p - p := rfl
    have hsub : subtractUintn (getNextVariablePtr m p) p = variableSize m p :=
      subtractUintn_sub (Nat.le_of_lt h1) (by unfold maxAddress; omega)
    rw [List.map_cons, List.sum_cons] at hsum
    have hrest := fun q hq => hnext q (List.mem_cons_of_mem _ hq)
    rw [List.foldl_cons, countedSize_cons, queryTurn]
    simp only [hsub]
    cases hcounted : isCounted atRuntime m p with
    | false =>
      simp only [Bool.false_eq_true, if_false, Bool.false_and, Nat.zero_add]
      exact ih hrest (by omega)
    | true =>
      simp only [if_true, Bool.true_and, nextHasClass, hasClass]
      have hadd : ∀ c : Bool, (t.add c (variableSize m p)).common ≤ t.common + variableSize m p ∧
          (t.add c (variableSize m p)).hwErr ≤ t.hwErr + variableSize m p ∧
          ∀ b : Bool, (t.add c (variableSize m p)).of b = t.of b + if (c == b) = true then variableSize m p else 0 := by
        intro c
        have hcommon : (t.common + variableSize m p) % maxAddress = t.common + variableSize m p :=
          Nat.mod_eq_of_lt (by omega)
        have hhw : (t.hwErr + variableSize m p) % maxAddress = t.hwErr + variableSize m p :=
          Nat.mod_eq_of_lt (by omega)
        cases c
        · refine ⟨Nat.le_of_eq hcommon, Nat.le_add_right _ _, fun b => ?_⟩
          cases b
          · exact hcommon
          · rfl
        · refine ⟨Nat.le_add_right _ _, Nat.le_of_eq hhw, fun b => ?_⟩
          cases b
          · rfl
          · exact hhw
      obtain ⟨hc, hh, hof⟩ := hadd (isHardwareError (attributesOf m (getNextVariablePtr m p)))
      rw [ih hrest (by omega), hof, Nat.add_assoc]

end

/-! ## The account -/

/-- What the counted records of the queried class take. -/
def querySize (P : Platform) (attributes : Nat) (s : State) : Nat :=
  countedSize s.atRuntime s.mem (storeHeaders s.mem (queryBase P attributes)) (hasClass s.mem (isHardwareError attributes))

/-- What remains is the maximum less the records of the class, each by its own attributes, without a wrap. -/
def AccountsExactly (P : Platform) (attributes : Nat) (s : State) (info : VariableInfo) : Prop :=
  querySize P attributes s ≤ info.maximumVariableStorageSize ∧
    info.remainingVariableStorageSize = info.maximumVariableStorageSize - querySize P attributes s

/-- The records of the class fit in its maximum, and those in front of a header of the other class take as much as those
of the other class in front of a header of this one. -/
def QueryCondition (P : Platform) (attributes : Nat) (s : State) : Prop :=
  let headers := storeHeaders s.mem (queryBase P attributes)
  let own := hasClass s.mem (isHardwareError attributes)
  let next := nextHasClass s.mem (isHardwareError attributes)
  querySize P attributes s ≤ (queryMaximum P attributes s.mem).1 ∧
    countedSize s.atRuntime s.mem headers (fun p => own p && !next p) =
      countedSize s.atRuntime s.mem headers fun p => next p && !own p

theorem queryMaximum_lt (P : Platform) (attributes : Nat) (m : Memory) : (queryMaximum P attributes m).1 < maxAddress := by
  have hsize := P.nonVolatile_size
  have hmod : ∀ a b, subtractUintn a b < maxAddress := fun a b => Nat.mod_lt _ (by unfold maxAddress; decide)
  unfold queryMaximum
  split
  · show P.pcdHwErrStorageSize < 2 ^ 64
    omega
  · simp only
    split
    · exact hmod _ _
    · exact hmod _ _

/-- The sizes in the store that is walked don't wrap. -/
theorem storeHeaders_sum (m : Memory) (base : Nat) : ((storeHeaders m base).map (variableSize m)).sum < maxAddress := by
  have hsum := (@walk_sum m (getEndPointer m base) maxAddress (getStartPointer base)).2
  have hsize : storeSizeOf m base < 2 ^ 32 := readLE_lt m _ 4
  have hend : getEndPointer m base ≤ base + 2 ^ 32 + 3 := by
    unfold getEndPointer headerAlign
    omega
  have hstart : base ≤ getStartPointer base := by
    unfold getStartPointer headerAlign sizeofVariableStoreHeader
    omega
  unfold storeHeaders
  generalize ((walk m (getEndPointer m base) maxAddress (getStartPointer base)).map (variableSize m)).sum = n at *
  unfold maxAddress
  omega

/-- The records that count are records of the class. -/
theorem querySize_le_classSize (P : Platform) (attributes : Nat) (s : State) :
    querySize P attributes s ≤ classSize s.mem (queryBase P attributes) (isHardwareError attributes) := by
  unfold querySize countedSize classSize hasClass
  generalize storeHeaders s.mem (queryBase P attributes) = l
  induction l with
  | nil => exact Nat.le_refl _
  | cons p l ih =>
    rw [List.filter_cons, List.filter_cons]
    cases isCounted s.atRuntime s.mem p <;> cases isHardwareError (attributesOf s.mem p) == isHardwareError attributes
    · exact ih
    · exact Nat.le_trans ih (Nat.le_add_left _ _)
    · exact ih
    · simp only [Bool.and_self, if_true, List.map_cons, List.sum_cons]
      omega

/-- Where the non-volatile store is accounted for, its records fit in the maximum of their class. -/
theorem Accounted.querySize_le {P : Platform} {s : State} (h : Accounted P s) {attributes : Nat}
    (hnv : attributes &&& efiVariableNonVolatile ≠ 0) :
    querySize P attributes s ≤ (queryMaximum P attributes s.mem).1 := by
  have hle := querySize_le_classSize P attributes s
  rw [queryBase, if_neg hnv] at hle
  have hnvhw : isNonVolatileHardwareError attributes = isHardwareError attributes :=
    isNonVolatileHardwareError_eq (by simpa only [isNonVolatile, bne_iff_ne] using hnv)
  by_cases hclass : isHardwareError attributes = true
  · have hmax : (queryMaximum P attributes s.mem).1 = P.pcdHwErrStorageSize := by
      unfold queryMaximum
      rw [if_pos (hnvhw.trans hclass)]
    rw [hmax]
    rw [hclass, ← h.hwErr] at hle
    exact Nat.le_trans hle h.hwErr_le
  · have hmax : (queryMaximum P attributes s.mem).1 = subtractUintn (subtractUintn
        (storeSizeOf s.mem P.nonVolatileVariableBase) sizeofVariableStoreHeader) P.pcdHwErrStorageSize := by
      unfold queryMaximum
      simp only [queryBase, if_neg hnv, if_neg fun h => hclass (hnvhw.symm.trans h), if_pos hnv]
    have hwrap := h.noWrap.1
    have hsize : storeSizeOf s.mem P.nonVolatileVariableBase < 2 ^ 32 := readLE_lt s.mem _ 4
    have hrecords : subtractUintn (storeSizeOf s.mem P.nonVolatileVariableBase) sizeofVariableStoreHeader =
        storeSizeOf s.mem P.nonVolatileVariableBase - sizeofVariableStoreHeader :=
      subtractUintn_sub (by omega) (by unfold maxAddress; omega)
    rw [hmax, hrecords, subtractUintn_sub (by omega) (by unfold maxAddress; omega)]
    rw [Bool.eq_false_iff.mpr hclass, ← h.common] at hle
    exact Nat.le_trans hle h.common_le

/-- After safe calls the records of a class fit in its maximum. -/
theorem querySize_le_maximum {P : Platform} {env : Environment} {s₀ s : State} {nv : List Record} {mem : Memory}
    {reclaims attributes : Nat} {es : List Event} (hr : P.RoomBehind) (hnv : NonVolatile P mem nv)
    (hstate : ∀ p ∈ storeHeaders mem P.nonVolatileVariableBase, stateOf mem p ≠ 0xff)
    (hst : start P env reclaims mem = some s₀)
    (hrun : Run (step P env) (fun s e => SafeEvent P env s e ∧ (e.IsCall ∨ e = .exitBootServices)) s₀ es s)
    (hbit : attributes &&& efiVariableNonVolatile ≠ 0) :
    querySize P attributes s ≤ (queryMaximum P attributes s.mem).1 := by
  obtain ⟨vol', nv', h', hw'⟩ := whole_of_run hr hnv hstate hst hrun
  exact (h'.settled.holding.accounted hw').querySize_le hbit

/-- The difference to a total that is too large or too small is not the one to the right total. -/
theorem subtractUintn_inj {a b c : Nat} (ha : a < maxAddress) (hb : b < maxAddress) (hc : c ≤ a) :
    subtractUintn a b = a - c ↔ b = c := by
  unfold subtractUintn maxAddress at *
  omega

/-- The service accounts exactly if and only if the condition holds, in every state of the driver. -/
theorem queryVariableInfo_exact_iff (P : Platform) (attributes : Nat) (s : State) (info : VariableInfo)
    (h : runtimeServiceQueryVariableInfo P attributes false s = (.success, some info)) :
    AccountsExactly P attributes s info ↔ QueryCondition P attributes s := by
  have hmax := queryMaximum_lt P attributes s.mem
  have hsum := storeHeaders_sum s.mem (queryBase P attributes)
  have hloop := @foldl_queryTurn s.atRuntime s.mem (storeHeaders s.mem (queryBase P attributes)) ⟨0, 0⟩
    (@walk_sum s.mem _ _ _).1 ⟨by simpa using hsum, by simpa using hsum⟩ (isHardwareError attributes)
  have hzero : (⟨0, 0⟩ : Totals).of (isHardwareError attributes) = 0 := by
    unfold Totals.of
    split
    · rfl
    · rfl
  have hexchange := @countedSize_exchange s.atRuntime s.mem (storeHeaders s.mem (queryBase P attributes))
    (hasClass s.mem (isHardwareError attributes)) (nextHasClass s.mem (isHardwareError attributes))
  have hnext := @countedSize_le s.atRuntime s.mem (storeHeaders s.mem (queryBase P attributes))
    (nextHasClass s.mem (isHardwareError attributes))
  have hinfo : info.maximumVariableStorageSize = (queryMaximum P attributes s.mem).1 ∧
      info.remainingVariableStorageSize = subtractUintn (queryMaximum P attributes s.mem).1
        (countedSize s.atRuntime s.mem (storeHeaders s.mem (queryBase P attributes))
          (nextHasClass s.mem (isHardwareError attributes))) := by
    unfold runtimeServiceQueryVariableInfo at h
    split at h
    · cases h
    · split at h
      · rw [hzero, Nat.zero_add] at hloop
        rw [← hloop]
        obtain rfl := by simpa only [Prod.mk.injEq, true_and, Option.some.injEq] using h
        exact ⟨rfl, rfl⟩
      · exact absurd (congrArg Prod.snd h) nofun
  unfold AccountsExactly QueryCondition
  rw [hinfo.1, hinfo.2]
  simp only [querySize]
  refine and_congr_right fun hle => ?_
  rw [subtractUintn_inj hmax (by omega) hle]
  omega

/-- `C`, the last record of the store, is deleted. -/
def deleteLast : List Event :=
  [.setVariable (setSample 7 4 1), .setVariable (.of otherName sampleGuid 6 [5]), .setVariable (setSample 7 4 2),
    .setVariable (.of thirdName sampleGuid 7 [3]), .setVariable (.of thirdName sampleGuid 7 [])]

theorem queryVariableInfo_exact_sample :
    let s := events smallPlatform .ideal deleteLast smallStart
    runtimeServiceQueryVariableInfo smallPlatform 7 false s = (.success, some ⟨996, 956, 480⟩) ∧
      AccountsExactly smallPlatform 7 s ⟨996, 956, 480⟩ := by
  have hrun := @Reachable.safe_of_room _ _ _ deleteLast smallPlatform_room (reachable_smallStart _) (by decide +kernel)
  have hcalls : ∀ e ∈ deleteLast, e.IsCall := by
    simp only [deleteLast, List.forall_mem_cons, List.not_mem_nil, false_imp_iff, implies_true, and_true]
    exact ⟨trivial, trivial, trivial, trivial, trivial⟩
  have hle := querySize_le_maximum smallPlatform_room (formattedFlash_nonVolatile _)
    (fun p hp => absurd hp (by
      rw [show storeHeaders (formattedFlash smallPlatform) smallPlatform.nonVolatileVariableBase = [] by decide +kernel]
      exact List.not_mem_nil))
    (show start smallPlatform .ideal 0 (formattedFlash smallPlatform) = some smallStart from
      start_eq (by decide +kernel))
    ((hrun.and_of_mem hcalls).mono fun _ _ h => ⟨h.1.1, .inl h.2⟩) (show 7 &&& efiVariableNonVolatile ≠ 0 by decide)
  have hquery : runtimeServiceQueryVariableInfo smallPlatform 7 false (events smallPlatform .ideal deleteLast smallStart) =
      (.success, some ⟨996, 956, 480⟩) := by
    decide +kernel
  exact ⟨hquery, (queryVariableInfo_exact_iff _ _ _ _ hquery).mpr ⟨hle, by decide +kernel⟩⟩

/-- One variable in the store. What is behind it is erased, and has all bits of the attributes. -/
theorem last_record_not_counted :
    Reachable smallPlatform .ideal (SafeEvent smallPlatform .ideal) sampleState ∧
      runtimeServiceQueryVariableInfo smallPlatform 7 false sampleState = (.success, some ⟨996, 996, 480⟩) ∧
      ¬AccountsExactly smallPlatform 7 sampleState ⟨996, 996, 480⟩ := by
  refine ⟨reachable_sampleState, by decide +kernel, ?_⟩
  rintro ⟨-, hremaining⟩
  have hsize : querySize smallPlatform 7 sampleState = 40 := by decide +kernel
  rw [hsize] at hremaining
  exact absurd hremaining (by decide)

end Udk.Variable
