import Udk.Variable.Frame

/-! # The space of the non-volatile store is accounted for -/

open Udk.Bytes

namespace Udk.Variable

/-! ## The account -/

/-- What the records of one class take, as the walk through the store goes over them. -/
def classSize (m : Memory) (base : Nat) (hwErr : Bool) : Nat :=
  (((storeHeaders m base).filter fun p => isHardwareError (attributesOf m p) == hwErr).map (variableSize m)).sum

/-- The last offset and the totals say what is in the non-volatile store, and the totals keep to their limits. -/
structure Accounted (P : Platform) (s : State) : Prop where
  walk : walkEnd s.mem (getEndPointer s.mem P.nonVolatileVariableBase) maxAddress
    (getStartPointer P.nonVolatileVariableBase) = P.nonVolatileVariableBase + s.nonVolatileLastVariableOffset
  total : sizeofVariableStoreHeader + s.commonVariableTotalSize + s.hwErrVariableTotalSize =
    s.nonVolatileLastVariableOffset
  common : s.commonVariableTotalSize = classSize s.mem P.nonVolatileVariableBase false
  hwErr : s.hwErrVariableTotalSize = classSize s.mem P.nonVolatileVariableBase true
  inside : ∀ p ∈ storeHeaders s.mem P.nonVolatileVariableBase,
    getNextVariablePtr s.mem p ≤ P.nonVolatileVariableBase + storeSizeOf s.mem P.nonVolatileVariableBase
  common_le : s.commonVariableTotalSize ≤ storeSizeOf s.mem P.nonVolatileVariableBase -
    sizeofVariableStoreHeader - P.pcdHwErrStorageSize
  hwErr_le : s.hwErrVariableTotalSize ≤ P.pcdHwErrStorageSize
  /-- The subtractions of `ReclaimForOS`. -/
  noWrap : subtractUintn (subtractUintn (subtractUintn (storeSizeOf s.mem P.nonVolatileVariableBase)
        sizeofVariableStoreHeader) P.pcdHwErrStorageSize) s.commonVariableTotalSize + s.commonVariableTotalSize +
      P.pcdHwErrStorageSize + sizeofVariableStoreHeader = storeSizeOf s.mem P.nonVolatileVariableBase ∧
    subtractUintn P.pcdHwErrStorageSize s.hwErrVariableTotalSize + s.hwErrVariableTotalSize = P.pcdHwErrStorageSize

section
variable {P : Platform} {env : Environment} {s s' s₀ : State} {vol nv : List Record} {m : Memory}

/-! ## From the records to the memory -/

theorem whole_iff {base size : Nat} {recs : List Record} (h : StoreHolds m base size recs) (ha : StoreArea base size) :
    Whole recs ↔ ∀ p ∈ storeHeaders m base, stateOf m p ≠ 0xff := by
  rw [h.storeHeaders_eq ha]
  have hwalk : ∀ (recs : List Record) (a : Nat), Holds m a recs →
      (Whole recs ↔ ∀ p ∈ addresses a recs, stateOf m p ≠ 0xff) := by
    intro recs
    induction recs with
    | nil => intro a _; simp [Whole, addresses]
    | cons r rs ih =>
      intro a hh
      have hr : r.isErased = false ↔ stateOf m a ≠ 0xff := by
        rw [stateOf_of_at hh.1]; simp [Record.isErased]
      have := ih _ hh.2
      unfold Whole at this ⊢
      rw [addresses, List.forall_mem_cons, List.forall_mem_cons, hr, this]
  exact hwalk recs _ h.records

theorem sum_addresses {recs : List Record} {a : Nat} (f : Nat → Bool) (g : Record → Bool) (h : Holds m a recs)
    (ha : a ≠ 0) (h4 : a % 4 = 0) (hf : ∀ p r, At m p r.bytes → f p = g r) :
    (((addresses a recs).filter f).map (variableSize m)).sum = weight (fun r => if g r then r.size else 0) recs := by
  induction recs generalizing a with
  | nil => rfl
  | cons r rs ih =>
    have := r.size_mod
    rw [addresses, List.filter_cons, hf a r h.1, weight_cons]
    cases g r with
    | true => rw [if_pos rfl, if_pos rfl, List.map_cons, List.sum_cons, ih h.2 (by omega) (by omega), variableSize,
        getNextVariablePtr_of_at ha h4 h.1, Nat.add_sub_cancel_left]
    | false => simp only [Bool.false_eq_true, if_false, ih h.2 (by omega) (by omega), Nat.zero_add]

theorem classSize_eq {base size : Nat} {recs : List Record} (h : StoreHolds m base size recs) (ha : StoreArea base size)
    (hw : Whole recs) (hwErr : Bool) :
    classSize m base hwErr = weight (if hwErr then hwErrSize else commonSize) recs := by
  have hpos := ha.pos
  have hmod := ha.base_mod
  unfold classSize
  rw [h.storeHeaders_eq ha, sum_addresses _ (fun r => isHardwareError r.attributes == hwErr) h.records (by omega)
    (by unfold sizeofVariableStoreHeader; omega) fun p r hr => by rw [attributesOf_of_at hr]]
  clear h ha
  induction recs with
  | nil => cases hwErr <;> rfl
  | cons r rs ih =>
    rw [weight_cons, ih fun q hq => hw q (by simp [hq]), r.size_of_not_erased (hw r (by simp))]
    cases hwErr <;> cases hh : isHardwareError r.attributes <;> simp [weight_cons, commonSize, hwErrSize, hh]

theorem subtractUintn_eq {a b : Nat} (h : b ≤ a) (ha : a < maxAddress) : subtractUintn a b = a - b := by
  unfold subtractUintn
  rw [Nat.mod_eq_of_lt (show b < maxAddress by omega), show a + (maxAddress - b) = a - b + maxAddress by omega,
    Nat.add_mod_right, Nat.mod_eq_of_lt (by omega)]

/-- Where no record is a header only, everything is accounted for. -/
theorem Holding.accounted (h : Holding P s vol nv) (hw : Whole nv) : Accounted P s := by
  have hnv := h.nonVolatile.holds
  have hacc := h.accounts
  have hsz := P.nonVolatile_size
  have hlast := h.nonVolatileLast
  have hcommon := classSize_eq hnv P.nonVolatileArea hw false
  have hhw := classSize_eq hnv P.nonVolatileArea hw true
  have htotal : total nv = weight commonSize nv + weight hwErrSize nv := by
    rw [total_eq_claimed hw]
    clear * -
    induction nv with
    | nil => rfl
    | cons r rs ih =>
      have := claimed_eq r
      simp only [weight_cons]
      omega
  have h1 := hacc.common_eq
  have h2 := hacc.hwErr_eq
  have h3 := hacc.common_le
  have h4 := hacc.hwErr_le
  have hmax : P.nonVolatileStoreSize < maxAddress := by have := P.addressable; have := P.in_volume; omega
  unfold Platform.commonVariableSpace at h3
  refine ⟨?_, by omega, by rw [hcommon]; exact h1, by rw [hhw]; exact h2, fun p hp => ?_, ?_, h4, ?_, ?_⟩
  · rw [hnv.walkEnd_eq P.nonVolatileArea]; omega
  · have := h.freeBehind.records p hp
    have := hnv.fits
    rw [hnv.size_eq]; omega
  · rw [hnv.size_eq]; exact h3
  · have h5 : sizeofVariableStoreHeader ≤ P.nonVolatileStoreSize := by omega
    have h6 : P.pcdHwErrStorageSize ≤ P.nonVolatileStoreSize - sizeofVariableStoreHeader := by omega
    rw [hnv.size_eq, subtractUintn_eq h5 hmax, subtractUintn_eq h6 (by omega), subtractUintn_eq h3 (by omega)]
    omega
  · rw [subtractUintn_eq h4 (by omega)]; omega

/-! ## Runs -/

/-- No call leaves a header with nothing behind it. -/
theorem step_whole {e : Event} (hr : P.RoomBehind) (h : Invariant P s vol nv) (hw : Whole nv)
    (hsafe : SafeEvent P env s e) (he : e.IsCall ∨ e = .exitBootServices) (hs : step P env s e = some s') :
    ∃ vol' nv', Invariant P s' vol' nv' ∧ Whole nv' := by
  cases e with
  | setVariable c =>
    obtain rfl := Option.some.inj hs
    cases hchk : checkedParameters P c with
    | none => rw [setVariable_unchecked hchk]; exact ⟨vol, nv, h, hw⟩
    | some x =>
      obtain ⟨n, g, data⟩ := x
      obtain ⟨s1, vol1, nv1, st, s2, vol2, nv2, hauto, -, -, heff, he', hinv⟩ := setVariable_spec h hr hchk hsafe
      rw [he']
      refine ⟨vol2, nv2, hinv, heff.whole ?_⟩
      cases hauto with
      | none => exact hw
      | companion _ hcomp => exact hcomp.whole hw
  | getVariable q =>
    obtain rfl := Option.some.inj hs
    obtain ⟨cache, hc⟩ := getVariable_state P q s
    rw [hc]
    exact ⟨vol, nv, h.cache cache, hw⟩
  | reclaimForOS =>
    rw [step] at hs
    split at hs
    · cases hs
    · rename_i hboot
      obtain rfl := Option.some.inj hs
      obtain ⟨nv', hinv, -, -, hw'⟩ := reclaimForOS_spec h (by simpa using hboot) hsafe
      exact ⟨vol, nv', hinv, hw' hw⟩
  | exitBootServices => exact ⟨vol, nv, (step_exitBootServices h hs).1, hw⟩
  | restart => rcases he with he | he <;> cases he
  | powerLoss c writes => rcases he with he | he <;> cases he

/-- The driver, started on a well-formed store in which every header has a state, leaves such a store. -/
theorem whole_of_run {mem : Memory} {reclaims : Nat} {es : List Event} (hr : P.RoomBehind)
    (hnv : NonVolatile P mem nv) (hstate : ∀ p ∈ storeHeaders mem P.nonVolatileVariableBase, stateOf mem p ≠ 0xff)
    (hst : start P env reclaims mem = some s₀)
    (hrun : Run (step P env) (fun s e => SafeEvent P env s e ∧ (e.IsCall ∨ e = .exitBootServices)) s₀ es s) :
    ∃ vol' nv', Invariant P s vol' nv' ∧ Whole nv' := by
  obtain ⟨s₁, he, hinv, -⟩ := start_spec env reclaims hr hnv
  obtain rfl := Option.some.inj (hst.symm.trans he)
  have hw : Whole nv := (whole_iff hnv.holds P.nonVolatileArea).mpr hstate
  exact hrun.invariant (fun s => ∃ vol nv, Invariant P s vol nv ∧ Whole nv)
    ⟨[], nv, hinv, hw⟩ fun s e s' ⟨vol, nv, h, hw⟩ hok hs => step_whole hr h hw hok.1 hok.2 hs

/-- And keeps account of it. -/
theorem nonVolatile_accounted {mem : Memory} {reclaims : Nat} {es : List Event} (hr : P.RoomBehind)
    (hnv : NonVolatile P mem nv) (hstate : ∀ p ∈ storeHeaders mem P.nonVolatileVariableBase, stateOf mem p ≠ 0xff)
    (hst : start P env reclaims mem = some s₀)
    (hrun : Run (step P env) (fun s e => SafeEvent P env s e ∧ (e.IsCall ∨ e = .exitBootServices)) s₀ es s) :
    Accounted P s := by
  obtain ⟨vol', nv', h', hw'⟩ := whole_of_run hr hnv hstate hst hrun
  exact h'.settled.holding.accounted hw'

end

theorem nonVolatile_accounted_sample : Accounted smallPlatform sampleState :=
  nonVolatile_accounted smallPlatform_room
    (formattedFlash_nonVolatile _)
    (fun p hp => absurd hp (by
      rw [show storeHeaders (formattedFlash smallPlatform) smallPlatform.nonVolatileVariableBase = [] by decide +kernel]
      simp))
    (show start smallPlatform .ideal 0 (formattedFlash smallPlatform) = some smallStart from
      start_eq (by decide +kernel))
    (.single (e := Event.setVariable (setSample 7 4 1)) ⟨setSafe_sample, .inl trivial⟩ rfl)

/-- A volatile variable, and a non-volatile one that takes more than half of the space. -/
def movingState : State :=
  setVariables tinyPlatform .ideal [setSample 6 100 1, .of otherName sampleGuid 7 (List.replicate 160 2)] tinyStart

/-- `Reclaim` takes a variable over from the volatile store, and with it the total exceeds its limit. -/
theorem quota_exceeded :
    let s := (runtimeServiceSetVariable tinyPlatform .ideal (setSample 7 100 3) movingState).2
    Reachable tinyPlatform .ideal (fun _ _ => True) s ∧
      storeSizeOf s.mem tinyPlatform.nonVolatileVariableBase - sizeofVariableStoreHeader -
        tinyPlatform.pcdHwErrStorageSize < s.commonVariableTotalSize ∧
      storeSizeOf s.mem tinyPlatform.nonVolatileVariableBase < s.nonVolatileLastVariableOffset :=
  ⟨((reachable_tinyStart _).setVariables _).step (e := .setVariable (setSample 7 100 3)) trivial rfl,
    by decide +kernel, by decide +kernel⟩

end Udk.Variable
