import Udk.Variable.Lookup
import Udk.Variable.Buffer

/-! # What the stores hold in a state

The invariant of the two stores, and the writes that keep it.
-/

open Udk.Bytes

namespace Udk.Variable

/-- There is something behind the store in its volume, so a write to the store never ends where the
volume ends. -/
def Platform.RoomBehind (P : Platform) : Prop :=
  P.nonVolatileVariableBase + P.nonVolatileStoreSize < P.fvBase + P.fvLength

/-- The part of the non-volatile store for variables that are no hardware error records. -/
def Platform.commonVariableSpace (P : Platform) : Nat :=
  P.nonVolatileStoreSize - sizeofVariableStoreHeader - P.pcdHwErrStorageSize

/-- What holds of the non-volatile store whenever power may be lost. -/
structure NonVolatile (P : Platform) (m : Memory) (nv : List Record) : Prop where
  holds : StoreHolds m P.nonVolatileVariableBase P.nonVolatileStoreSize nv
  /-- What follows the store does not look like a variable. -/
  guard : isValidVariableHeader m (P.nonVolatileVariableBase + P.nonVolatileStoreSize) = false
  good : Good nv
  attributes : ∀ r ∈ nv, isNonVolatile r.attributes = true
  common_le : weight commonSize nv ≤ P.commonVariableSpace
  hwErr_le : weight hwErrSize nv ≤ P.pcdHwErrStorageSize

/-- The totals count what the records claim, and no more than there is room for. -/
structure Accounts (P : Platform) (common hwErr : Nat) (nv : List Record) : Prop where
  common_eq : common = weight commonSize nv
  common_le : common ≤ P.commonVariableSpace
  common_mod : common % 4 = 0
  hwErr_eq : hwErr = weight hwErrSize nv
  hwErr_le : hwErr ≤ P.pcdHwErrStorageSize
  hwErr_mod : hwErr % 4 = 0

/-- The stores hold `vol` and `nv`, and the offsets and totals fit. -/
structure Holding (P : Platform) (s : State) (vol nv : List Record) : Prop where
  volatile : StoreHolds s.mem P.volatileVariableBase P.pcdVariableStoreSize vol
  volatile_good : Good vol
  nonVolatile : NonVolatile P s.mem nv
  volatileLast : s.volatileLastVariableOffset = sizeofVariableStoreHeader + total vol
  nonVolatileLast : s.nonVolatileLastVariableOffset = sizeofVariableStoreHeader + total nv
  accounts : Accounts P s.commonVariableTotalSize s.hwErrVariableTotalSize nv

theorem Holding.stores {P : Platform} {s : State} {vol nv : List Record} (h : Holding P s vol nv) :
    Stores P s.mem vol nv :=
  ⟨h.volatile, h.nonVolatile.holds, h.volatile_good, h.nonVolatile.good⟩

/-! ## Frames -/

/-- What the writes to the stores leave alone. -/
structure Context where
  atRuntime : Bool
  platformLangCodes : Option (List UInt8)
  langCodes : Option (List UInt8)
  reentrantState : Nat
  cache : List CacheEntry

def State.context (s : State) : Context :=
  ⟨s.atRuntime, s.platformLangCodes, s.langCodes, s.reentrantState, s.cache⟩

theorem context_atRuntime {s s' : State} (h : s'.context = s.context) : s'.atRuntime = s.atRuntime :=
  congrArg Context.atRuntime h

/-- From `s` to `s'` the flash goes through memories with `Q` only. -/
def Traces (Q : Memory → Prop) (s s' : State) : Prop :=
  ∃ ms, s'.flashTrace = ms ++ s.flashTrace ∧ ∀ m ∈ ms, Q m

theorem Traces.refl (Q : Memory → Prop) (s : State) : Traces Q s s := ⟨[], rfl, by simp⟩

theorem Traces.of_eq {Q : Memory → Prop} {s s' : State} (h : s'.flashTrace = s.flashTrace) : Traces Q s s' :=
  ⟨[], h, by simp⟩

theorem Traces.trans {Q : Memory → Prop} {s s' s'' : State} (h : Traces Q s s') (h' : Traces Q s' s'') :
    Traces Q s s'' := by
  obtain ⟨ms, h1, h2⟩ := h
  obtain ⟨ms', h1', h2'⟩ := h'
  refine ⟨ms' ++ ms, by rw [h1', h1, List.append_assoc], ?_⟩
  intro m hm
  rcases List.mem_append.mp hm with hm | hm
  · exact h2' m hm
  · exact h2 m hm

theorem Traces.mono {Q Q' : Memory → Prop} {s s' : State} (h : Traces Q s s') (hq : ∀ m, Q m → Q' m) :
    Traces Q' s s' := by
  obtain ⟨ms, h1, h2⟩ := h
  exact ⟨ms, h1, fun m hm => hq m (h2 m hm)⟩

theorem traces_flash {Q : Memory → Prop} (s : State) (p : Nat) (bs : List UInt8) (h : Q (write s.mem p bs)) :
    Traces Q s (s.flash p bs) := ⟨[write s.mem p bs], rfl, by simpa using h⟩

section
variable {P : Platform} {m m' : Memory} {vol nv : List Record}

/-- The volume decides what the non-volatile store holds. -/
theorem NonVolatile.congr (hr : P.RoomBehind) (h : NonVolatile P m nv)
    (he : ∀ i, P.fvBase ≤ i → i < P.fvBase + P.fvLength → m' i = m i) : NonVolatile P m' nv := by
  have hin := P.in_volume
  have hnv := P.nonVolatile_size
  have hal := P.volume_aligned
  have hal' := P.nonVolatile_aligned
  unfold Platform.RoomBehind at hr
  refine ⟨h.holds.congr fun i h1 h2 => he i (by omega) (by omega), ?_, h.good, h.attributes, h.common_le,
    h.hwErr_le⟩
  rw [← h.guard]
  unfold isValidVariableHeader startIdOf
  rw [readLE_congr m m' _ 2 fun i h1 h2 => he i (by omega) (by omega)]

/-- The volatile store and the scratch area behind it are not in the volume. -/
theorem outside_volume (P : Platform) (i : Nat) (h1 : P.volatileVariableBase ≤ i)
    (h2 : i < P.volatileVariableBase + P.pcdVariableStoreSize + P.scratchSize) :
    i < P.fvBase ∨ P.fvBase + P.fvLength ≤ i := by
  have := P.disjoint
  unfold Platform.scratchSize at h2
  omega

theorem outside_store (P : Platform) (i : Nat) (h1 : P.fvBase ≤ i) (h2 : i < P.fvBase + P.fvLength) :
    i < P.volatileVariableBase ∨ P.volatileVariableBase + P.pcdVariableStoreSize + P.scratchSize ≤ i := by
  have := P.disjoint
  unfold Platform.scratchSize
  omega

theorem recordAt_bounds {base size : Nat} {pre post : List Record} {r : Record}
    (h : StoreHolds m base size (pre ++ r :: post)) :
    base + sizeofVariableStoreHeader ≤ recordAt base pre ∧ recordAt base pre + r.size ≤ base + size := by
  have := h.fits
  unfold recordAt
  rw [total_append, total_cons] at this
  omega

theorem recordAt_mod {base size : Nat} (ha : StoreArea base size) (pre : List Record) :
    recordAt base pre ≠ 0 ∧ recordAt base pre % 4 = 0 := by
  have := ha.pos; have := ha.base_mod; have := total_mod pre
  unfold recordAt sizeofVariableStoreHeader
  omega

end

/-! ## Marking a copy -/

namespace Record
variable (r : Record)

/-- `State & VAR_IN_DELETED_TRANSITION`. -/
def mark : Record := r.setState (r.state &&& varInDeletedTransition)

/-- `State & VAR_DELETED`. -/
def erase : Record := r.setState (r.state &&& varDeleted)

variable {r}

theorem state_of_live (h : r.isLive = true) : r.state = varAdded ∨ r.state = varInDeletedTransition &&& varAdded := by
  simpa [isLive, isAdded, isInDeleted] using h

theorem mark_inDeleted (h : r.isLive = true) : r.mark.isInDeleted = true := by
  rcases state_of_live h with h | h <;> simp only [mark, isInDeleted, setState_state, h] <;> rfl

theorem erase_not_live (h : r.isLive = true) : r.erase.isLive = false := by
  rcases state_of_live h with h | h <;> simp only [erase, isLive, isAdded, isInDeleted, setState_state, h] <;> rfl

theorem mark_ne (h : r.isLive = true) : r.state &&& varInDeletedTransition ≠ 0xff := by
  rcases state_of_live h with h | h <;> rw [h] <;> decide

theorem erase_ne (h : r.isLive = true) : r.state &&& varDeleted ≠ 0xff := by
  rcases state_of_live h with h | h <;> rw [h] <;> decide

theorem mark_not_added (h : r.isLive = true) : r.mark.isAdded = false := r.mark.inDeleted_not_added (mark_inDeleted h)

end Record

theorem uint8_and_absorb (a b : UInt8) : a &&& (a &&& b) = a &&& b := by
  rw [← UInt8.and_assoc, UInt8.and_self]

section
variable {P : Platform} {s : State} {vol nv pre post : List Record} {r : Record} {v : VariablePointerTrack}

theorem NonVolatile.setState {m : Memory} (st : UInt8) (h : NonVolatile P m (pre ++ r :: post))
    (hl : r.isLive = true) (hst : st ≠ 0xff) (ha : (r.setState st).isAdded = true → r.isAdded = true) :
    NonVolatile P (write m (recordAt P.nonVolatileVariableBase pre + 2) [st]) (pre ++ r.setState st :: post) := by
  have hb := recordAt_bounds h.holds
  have hsize : 32 ≤ r.size := by unfold Record.size sizeofVariableHeader; omega
  refine ⟨h.holds.setState st (r.not_erased_of_live hl) hst, ?_, h.good.weaken st ha fun _ => hl, ?_, ?_, ?_⟩
  · rw [← h.guard]
    unfold isValidVariableHeader startIdOf
    rw [readLE_congr _ _ _ 2 fun i h1 h2 => write_outside _ _ _ _ (by simp; omega)]
  · intro q hq
    rcases List.mem_append.mp hq with hq | hq
    · exact h.attributes q (by simp [hq])
    · rcases List.mem_cons.mp hq with rfl | hq
      · exact h.attributes r (by simp)
      · exact h.attributes q (by simp [hq])
  · rw [weight_setState commonSize commonSize_setState]; exact h.common_le
  · rw [weight_setState hwErrSize hwErrSize_setState]; exact h.hwErr_le

/-- `updateState` on a copy of the volatile store. -/
theorem updateState_volatile (mask : UInt8) (h : Holding P s (pre ++ r :: post) nv) (hr : P.RoomBehind)
    (hl : r.isLive = true) (hm : r.state &&& mask ≠ 0xff)
    (ha : (r.setState (r.state &&& mask)).isAdded = true → r.isAdded = true)
    (hp : v.currPtr = recordAt P.volatileVariableBase pre) (hv : v.isVolatile = true) :
    ∃ s', updateState P v mask s = (.success, s') ∧
      Holding P s' (pre ++ r.setState (r.state &&& mask) :: post) nv ∧ s'.context = s.context ∧
      s'.flashTrace = s.flashTrace ∧ s'.reclaims = s.reclaims ∧
      s'.commonVariableTotalSize = s.commonVariableTotalSize ∧
      s'.hwErrVariableTotalSize = s.hwErrVariableTotalSize := by
  have hb := recordAt_bounds h.volatile
  have hsize : 32 ≤ r.size := by unfold Record.size sizeofVariableHeader; omega
  have hrec : stateOf s.mem v.currPtr = r.state := by
    rw [hp]; exact stateOf_of_at (holds_split h.volatile.records)
  refine ⟨s.poke (recordAt P.volatileVariableBase pre + 2) [r.state &&& mask], ?_, ?_, rfl, rfl, rfl, rfl, rfl⟩
  · unfold updateState
    rw [hv, updateVariableStore_volatile P false _ _ _ s rfl, hrec, hp, h.volatile.size_eq]
    rw [if_neg]
    · rfl
    · simp only [Bool.false_eq_true, if_false, List.length_singleton]; omega
  · have ht := total_setState pre post r (r.state &&& mask) (r.not_erased_of_live hl) hm
    refine ⟨h.volatile.setState _ (r.not_erased_of_live hl) hm, h.volatile_good.weaken _ ha fun _ => hl, ?_, ?_,
      h.nonVolatileLast, h.accounts⟩
    · refine h.nonVolatile.congr hr fun i h1 h2 => write_outside _ _ _ _ ?_
      have := outside_store P i h1 h2
      simp; omega
    · rw [ht]; exact h.volatileLast

/-- `updateState` on a copy of the non-volatile store. -/
theorem updateState_nonVolatile (mask : UInt8) (h : Holding P s vol (pre ++ r :: post)) (hr : P.RoomBehind)
    (hl : r.isLive = true) (hm : r.state &&& mask ≠ 0xff)
    (ha : (r.setState (r.state &&& mask)).isAdded = true → r.isAdded = true)
    (hp : v.currPtr = recordAt P.nonVolatileVariableBase pre) (hv : v.isVolatile = false) :
    ∃ s', updateState P v mask s = (.success, s') ∧
      Holding P s' vol (pre ++ r.setState (r.state &&& mask) :: post) ∧ s'.context = s.context ∧
      Traces (fun m => NonVolatile P m (pre ++ r.setState (r.state &&& mask) :: post)) s s' ∧
      s'.reclaims = s.reclaims ∧ s'.commonVariableTotalSize = s.commonVariableTotalSize ∧
      s'.hwErrVariableTotalSize = s.hwErrVariableTotalSize := by
  have hb := recordAt_bounds h.nonVolatile.holds
  have hin := P.in_volume
  have hsize : 32 ≤ r.size := by unfold Record.size sizeofVariableHeader; omega
  have hrec : stateOf s.mem v.currPtr = r.state := by
    rw [hp]; exact stateOf_of_at (holds_split h.nonVolatile.holds.records)
  have hnv := h.nonVolatile.setState (r.state &&& mask) hl hm ha
  refine ⟨s.flash (recordAt P.nonVolatileVariableBase pre + 2) [r.state &&& mask], ?_, ?_, rfl,
    traces_flash s _ _ hnv, rfl, rfl, rfl⟩
  · unfold updateState
    rw [hv, hrec, hp]
    refine updateVariableStore_nonVolatile P false _ _ _ s (by simp) (by simp) (by omega) ?_ ?_
    · unfold Platform.RoomBehind at hr
      simp only [List.length_singleton]; omega
    · refine programmable_cons _ _ _ _ ?_ (by intro i hi; simp at hi)
      have := (at_record.mp (holds_split h.nonVolatile.holds.records)).2.1
      unfold recordAt
      rw [this, uint8_and_absorb]
  · have ht := total_setState pre post r (r.state &&& mask) (r.not_erased_of_live hl) hm
    refine ⟨?_, h.volatile_good, hnv, h.volatileLast, by rw [ht]; exact h.nonVolatileLast, ?_⟩
    · refine h.volatile.congr fun i h1 h2 => write_outside _ _ _ _ ?_
      have := outside_volume P i h1 (by omega)
      simp; omega
    · have := h.accounts
      refine ⟨?_, this.common_le, this.common_mod, ?_, this.hwErr_le, this.hwErr_mod⟩
      · rw [weight_setState commonSize commonSize_setState]; exact this.common_eq
      · rw [weight_setState hwErrSize hwErrSize_setState]; exact this.hwErr_eq

end

end Udk.Variable
