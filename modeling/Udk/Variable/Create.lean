import Udk.Variable.Holding

/-! # Writing a new record

The scratch area, the record of a new variable, and the steps that write it to its store.
-/

open Udk.Bytes

namespace Udk.Variable

/-! ## The new record -/

section
variable {variableName : Name} {vendorGuid : Guid} {attributes : Nat} {data : List UInt8}
  (h : Storable variableName attributes data)

theorem newRecord_bytes (st : UInt8) (hst : st ≠ 0xff) :
    (newRecord variableName vendorGuid attributes data h st).bytes =
      newHeader variableName vendorGuid attributes data st ++ newBody variableName data ++
        padding variableName data := by
  have : (newRecord variableName vendorGuid attributes data h st).isErased = false := by
    simpa [Record.isErased, newRecord] using hst
  rw [Record.bytes, Record.stored, this, newRecord_header, List.append_assoc]
  rfl

theorem newRecord_claimed (st : UInt8) : (newRecord variableName vendorGuid attributes data h st).claimed =
    headerAlign (varSize variableName data) := (headerAlign_varSize ..).symm

theorem newRecord_has (st : UInt8) :
    (newRecord variableName vendorGuid attributes data h st).has (variableName, vendorGuid) = true :=
  Record.has_iff.mpr ⟨rfl, newRecord_nameBytes ..⟩

/-- The new record may follow a store that has no `VAR_ADDED` copy of the variable. -/
theorem good_snoc {recs : List Record} (hg : Good recs) (hn : variableName.chars ≠ []) (hd : data ≠ [])
    (hone : ∀ r ∈ recs, r.isAdded = true → r.has (variableName, vendorGuid) = false) (st : UInt8) :
    Good (recs ++ [newRecord variableName vendorGuid attributes data h st]) := by
  rw [good_append]
  refine ⟨hg, good_cons.mpr ⟨fun _ => ⟨⟨variableName, hn, newRecord_nameBytes ..⟩, List.length_pos_of_ne_nil hd⟩,
    good_nil, by simp⟩, ?_⟩
  intro r hr q hq ha _
  rw [List.mem_singleton.mp hq, Record.sameAs_comm, Record.sameAs_of_has (newRecord_has h st)]
  exact hone r hr ha

/-- A record that does not count may follow any store. -/
theorem good_snoc_dead {recs : List Record} (hg : Good recs) (r : Record) (hr : r.isLive = false) :
    Good (recs ++ [r]) := by
  rw [good_append]
  refine ⟨hg, good_cons.mpr ⟨by simp [hr], good_nil, by simp⟩, ?_⟩
  intro x _ q hq _ hql
  rw [List.mem_singleton.mp hq, hr] at hql
  cases hql

variable (variableName data) in
theorem padding_length : varSize variableName data + (padding variableName data).length =
    headerAlign (varSize variableName data) := by
  rw [headerAlign_varSize, varSize_eq, padding, List.length_replicate]
  have := headerAlign_le (strSize variableName + data.length); omega

/-- Header, name and data at `p`, and erased bytes behind them, are the new record. -/
theorem at_newRecord {m : Memory} {p : Nat} (st : UInt8) (hst : st ≠ 0xff)
    (hh : At m p (newHeader variableName vendorGuid attributes data st))
    (hb : At m (p + sizeofVariableHeader) (newBody variableName data))
    (hfree : ∀ i, p + varSize variableName data ≤ i → i < p + headerAlign (varSize variableName data) →
      m i = 0xff) : At m p (newRecord variableName vendorGuid attributes data h st).bytes := by
  rw [newRecord_bytes h st hst, at_append, at_append, newHeader_length, List.length_append, newHeader_length,
    newBody_length, ← varSize_eq]
  refine ⟨⟨hh, hb⟩, (at_replicate ..).mpr fun i h1 h2 => hfree i h1 ?_⟩
  have := padding_length variableName data
  rw [padding, List.length_replicate] at this
  omega

end

section
variable {P : Platform} {s : State} {vol nv : List Record} {variableName : Name} {vendorGuid : Guid}
  {attributes : Nat} {data : List UInt8}

/-! ## The scratch area -/

theorem buildScratch_outside (hsz : varSize variableName data ≤ P.scratchSize) (i : Nat)
    (hv : StoreHolds s.mem P.volatileVariableBase P.pcdVariableStoreSize vol)
    (hi : i < P.volatileVariableBase + P.pcdVariableStoreSize ∨
      P.volatileVariableBase + P.pcdVariableStoreSize + P.scratchSize ≤ i) :
    (buildScratch P variableName vendorGuid attributes data s).mem i = s.mem i := by
  rw [varSize_eq] at hsz
  unfold buildScratch
  simp only
  rw [hv.getEndPointer_eq P.volatileArea, write_outside, fill_outside _ _ _ _ _ hi]
  rw [List.length_append, newHeader_length, newBody_length]; omega

theorem buildScratch_at (hv : StoreHolds s.mem P.volatileVariableBase P.pcdVariableStoreSize vol) :
    At (buildScratch P variableName vendorGuid attributes data s).mem
      (P.volatileVariableBase + P.pcdVariableStoreSize)
      (newHeader variableName vendorGuid attributes data 0xff ++ newBody variableName data) := by
  unfold buildScratch
  simp only
  rw [hv.getEndPointer_eq P.volatileArea]
  exact write_at _ _ _

theorem buildScratch_holding (h : Holding P s vol nv) (hr : P.RoomBehind)
    (hsz : varSize variableName data ≤ P.scratchSize) :
    Holding P (buildScratch P variableName vendorGuid attributes data s) vol nv := by
  refine ⟨h.volatile.congr fun i _ h2 => buildScratch_outside hsz i h.volatile (.inl h2), h.volatile_good,
    h.nonVolatile.congr hr fun i h1 h2 => buildScratch_outside hsz i h.volatile ?_, h.volatileLast,
    h.nonVolatileLast, h.accounts⟩
  have := outside_store P i h1 h2
  omega

/-! ## The volatile store -/

theorem overVolatileSize_iff (h : Holding P s vol nv) (hsz : varSize variableName data ≤ P.scratchSize) :
    overVolatileSize P (varSize variableName data) s = true ↔
      P.pcdVariableStoreSize < varSize variableName data + s.volatileLastVariableOffset := by
  have hlast := h.volatileLast
  have hfits := h.volatile.fits
  have hsize := P.volatile_size.2.2
  unfold Platform.scratchSize at hsz
  unfold overVolatileSize
  rw [h.volatile.size_eq, Nat.mod_eq_of_lt (by omega), decide_eq_true_iff]

/-- The volatile record, unless it would end where the store ends. -/
theorem writeVolatile_spec (h : Holding P s vol nv) (hr : P.RoomBehind)
    (hst : Storable variableName attributes data) (hsz : varSize variableName data ≤ P.scratchSize)
    (hn : variableName.chars ≠ []) (hd : data ≠ [])
    (hroom : overVolatileSize P (varSize variableName data) s = false)
    (hone : ∀ r ∈ vol, r.isAdded = true → r.has (variableName, vendorGuid) = false) :
    writeVolatile P variableName vendorGuid attributes data s = (.invalidParameter, s) ∨
      ∃ s', writeVolatile P variableName vendorGuid attributes data s = (.success, s') ∧
        Holding P s' (vol ++ [newRecord variableName vendorGuid attributes data hst varAdded]) nv ∧
        s'.context = s.context ∧ s'.flashTrace = s.flashTrace ∧ s'.reclaims = s.reclaims := by
  have hlast := h.volatileLast
  have hfits := h.volatile.fits
  have hroom' : varSize variableName data + s.volatileLastVariableOffset ≤ P.pcdVariableStoreSize := by
    rw [← Bool.not_eq_true, overVolatileSize_iff h hsz] at hroom; omega
  have hbytes : (newHeader variableName vendorGuid attributes data varAdded ++
      newBody variableName data).length = varSize variableName data := by
    rw [List.length_append, newHeader_length, newBody_length, varSize_eq]
  have hnewsize : (newRecord variableName vendorGuid attributes data hst varAdded).size =
      headerAlign (varSize variableName data) := by
    rw [Record.size_of_not_erased _ rfl, newRecord_claimed]
  have hp : s.volatileLastVariableOffset + P.volatileVariableBase = recordAt P.volatileVariableBase vol := by
    rw [hlast]; unfold recordAt; omega
  unfold writeVolatile
  rw [updateVariableStore_volatile P true _ _ _ s rfl, h.volatile.size_eq, hbytes]
  simp only [if_true, hp]
  by_cases hexact : P.volatileVariableBase + P.pcdVariableStoreSize ≤
      recordAt P.volatileVariableBase vol + varSize variableName data
  · left; rw [if_pos hexact]; rfl
  · right
    rw [if_neg hexact]
    let m' := write s.mem (recordAt P.volatileVariableBase vol)
      (newHeader variableName vendorGuid attributes data varAdded ++ newBody variableName data)
    let last := s.volatileLastVariableOffset + headerAlign (varSize variableName data)
    refine ⟨{ s with mem := m', volatileLastVariableOffset := last }, rfl, ?_, rfl, rfl, rfl⟩
    have hout : ∀ i, i < recordAt P.volatileVariableBase vol ∨
        recordAt P.volatileVariableBase vol + varSize variableName data ≤ i → m' i = s.mem i :=
      fun i hi => write_outside _ _ _ _ (by rw [hbytes]; exact hi)
    have hmodS := P.volatile_size.2.1
    have hmodT := total_mod vol
    have halign : headerAlign (varSize variableName data) + s.volatileLastVariableOffset ≤
        P.pcdVariableStoreSize := by
      rw [hlast] at hroom' ⊢
      unfold headerAlign
      unfold sizeofVariableStoreHeader at *
      omega
    have hle := headerAlign_le (varSize variableName data)
    have hw := (at_append ..).mp (write_at s.mem (recordAt P.volatileVariableBase vol)
      (newHeader variableName vendorGuid attributes data varAdded ++ newBody variableName data))
    rw [newHeader_length] at hw
    refine ⟨h.volatile.snoc _ (by rw [hnewsize]; omega) (fun i _ h2 => hout i (.inl h2)) ?_ ?_,
      good_snoc hst h.volatile_good hn hd hone _, ?_, ?_, h.nonVolatileLast, h.accounts⟩
    · refine at_newRecord hst varAdded (by decide) hw.1 hw.2 fun i h1 h2 => ?_
      exact (hout i (.inr h1)).trans (h.volatile.free i (by unfold recordAt at h1; omega)
        (by unfold recordAt at h2; omega))
    · intro i h1 h2
      rw [hnewsize] at h1
      exact (hout i (.inr (by omega))).trans (h.volatile.free i (by unfold recordAt at h1; omega) h2)
    · refine h.nonVolatile.congr hr fun i h1 h2 => hout i ?_
      have := outside_store P i h1 h2
      omega
    · simp only [total_append, total_cons, total_nil, hnewsize, last]
      omega

/-! ## The non-volatile store -/

theorem isHardwareError_eq (attributes : Nat) :
    isHardwareError attributes = (attributes &&& efiVariableHardwareErrorRecord != 0) := by
  have h : attributes &&& efiVariableHardwareErrorRecord = if attributes.testBit 3 then 2 ^ 3 else 0 :=
    and_two_pow attributes 3
  unfold isHardwareError
  rw [h]
  cases attributes.testBit 3 <;> rfl

theorem accounts_snoc {common hwErr : Nat} {r : Record} (h : Accounts P common hwErr nv)
    (hc : (if isHardwareError r.attributes then hwErr + r.claimed else common + r.claimed) ≤
      if isHardwareError r.attributes then P.pcdHwErrStorageSize else P.commonVariableSpace) :
    Accounts P (if isHardwareError r.attributes then common else common + r.claimed)
      (if isHardwareError r.attributes then hwErr + r.claimed else hwErr) (nv ++ [r]) := by
  obtain ⟨h1, h2, h3, h4, h5, h6⟩ := h
  have hmod := r.claimed_mod
  cases hh : isHardwareError r.attributes <;> rw [hh] at hc <;> constructor <;>
    simp only [weight_append, weight_cons, weight_nil, commonSize, hwErrSize, hh, if_true, if_false,
      Bool.false_eq_true] at * <;> omega

/-- Below the quota there is room for the aligned record. -/
theorem overQuota_false (h : Holding P s vol nv)
    (hq : overQuota P attributes (varSize variableName data) s = false) :
    (if isHardwareError attributes then s.hwErrVariableTotalSize + headerAlign (varSize variableName data)
      else s.commonVariableTotalSize + headerAlign (varSize variableName data)) ≤
      if isHardwareError attributes then P.pcdHwErrStorageSize else P.commonVariableSpace := by
  have hsz := P.nonVolatile_size
  have h1 := h.accounts.common_mod
  have h2 := h.accounts.hwErr_mod
  unfold overQuota at hq
  rw [← isHardwareError_eq, h.nonVolatile.holds.size_eq] at hq
  unfold Platform.commonVariableSpace
  unfold sizeofVariableStoreHeader at *
  unfold headerAlign
  cases hh : isHardwareError attributes <;> rw [hh] at hq <;>
    simp only [if_true, if_false, Bool.false_eq_true, decide_eq_false_iff_not, Nat.not_lt] at * <;> omega

theorem claimed_eq (r : Record) : r.claimed = commonSize r + hwErrSize r := by
  unfold commonSize hwErrSize; split <;> omega

theorem total_le_accounts {common hwErr : Nat} (h : Accounts P common hwErr nv) : total nv ≤ common + hwErr := by
  have hle : total nv ≤ weight commonSize nv + weight hwErrSize nv := by
    clear h
    induction nv with
    | nil => simp
    | cons r rs ih =>
      have := r.size_le_claimed
      have := claimed_eq r
      simp only [total_cons, weight_cons]
      omega
  have := h.common_eq; have := h.hwErr_eq
  omega

/-- A memory with one more record behind the store. -/
theorem NonVolatile.snoc {m m' : Memory} {r : Record} (h : NonVolatile P m nv)
    (hroom : sizeofVariableStoreHeader + total nv + r.claimed ≤ P.nonVolatileStoreSize)
    (hfit : weight commonSize (nv ++ [r]) ≤ P.commonVariableSpace ∧
      weight hwErrSize (nv ++ [r]) ≤ P.pcdHwErrStorageSize)
    (hout : ∀ i, i < recordAt P.nonVolatileVariableBase nv ∨
      recordAt P.nonVolatileVariableBase nv + r.claimed ≤ i → m' i = m i)
    (hr : At m' (recordAt P.nonVolatileVariableBase nv) r.bytes)
    (hfree : ∀ i, recordAt P.nonVolatileVariableBase nv + r.size ≤ i →
      i < recordAt P.nonVolatileVariableBase nv + r.claimed → m' i = 0xff)
    (hg : Good (nv ++ [r])) (hnv : isNonVolatile r.attributes = true) : NonVolatile P m' (nv ++ [r]) := by
  have hsize := r.size_le_claimed
  refine ⟨h.holds.snoc r (by omega) (fun i _ h2 => hout i (.inl h2)) hr ?_, ?_, hg, ?_, hfit.1,
    hfit.2⟩
  · intro i h1 h2
    by_cases hi : i < recordAt P.nonVolatileVariableBase nv + r.claimed
    · exact hfree i h1 hi
    · rw [hout i (.inr (by omega))]
      exact h.holds.free i (by unfold recordAt at h1; omega) h2
  · rw [← h.guard]
    unfold isValidVariableHeader startIdOf
    rw [readLE_congr _ _ _ 2 fun i h1 h2 => hout i (.inr (by unfold recordAt; omega))]
  · intro q hq
    rcases List.mem_append.mp hq with hq | hq
    · exact h.attributes q hq
    · rw [List.mem_singleton.mp hq]; exact hnv

theorem programmable_header {m : Memory} {p : Nat} {st st' : UInt8} (hst : st &&& st' = st')
    (h : At m p (newHeader variableName vendorGuid attributes data st)) :
    Programmable m p (newHeader variableName vendorGuid attributes data st') := by
  have hsplit : ∀ st, newHeader variableName vendorGuid attributes data st = toLE 2 variableData ++
      (st :: (0 :: (toLE 4 attributes ++ toLE 4 (strSize variableName) ++ toLE 4 data.length ++
        vendorGuid.bytes))) := by
    intro st; simp [newHeader]
  rw [hsplit, at_append, at_cons] at h
  rw [hsplit]
  refine programmable_append _ _ _ _ (programmable_same _ _ _ h.1) (programmable_cons _ _ _ _ ?_ ?_)
  · rw [h.2.1, hst]
  · exact programmable_same _ _ _ h.2.2

/-- The non-volatile record goes to the store in four steps, and is `VAR_ADDED` with the last one. -/
theorem writeNonVolatile_spec (h : Holding P s vol nv) (hr : P.RoomBehind)
    (hst : Storable variableName attributes data) (hn : variableName.chars ≠ []) (hd : data ≠ [])
    (hattr : isNonVolatile attributes = true)
    (hq : overQuota P attributes (varSize variableName data) s = false)
    (hone : ∀ r ∈ nv, r.isAdded = true → r.has (variableName, vendorGuid) = false) :
    ∃ s', writeNonVolatile P variableName vendorGuid attributes data s = (.success, s') ∧
      Holding P s' vol (nv ++ [newRecord variableName vendorGuid attributes data hst varAdded]) ∧
      s'.context = s.context ∧ s'.reclaims = s.reclaims ∧
      Traces (fun m => ∃ r, NonVolatile P m (nv ++ [r]) ∧
        (r.isLive = false ∨ r = newRecord variableName vendorGuid attributes data hst varAdded)) s s' := by
  let new := newRecord variableName vendorGuid attributes data hst
  let H := newHeader variableName vendorGuid attributes data
  let p := recordAt P.nonVolatileVariableBase nv
  have hquota := overQuota_false h hq
  have hclaimed : ∀ st, (new st).claimed = headerAlign (varSize variableName data) := newRecord_claimed hst
  have hacc := accounts_snoc (r := new varAdded) h.accounts (by rw [hclaimed]; exact hquota)
  have hspace := P.nonVolatile_size.1
  have hroom : sizeofVariableStoreHeader + total nv + headerAlign (varSize variableName data) ≤
      P.nonVolatileStoreSize := by
    have h1 := total_le_accounts h.accounts
    have h2 := h.accounts.common_le
    have h3 := h.accounts.hwErr_le
    unfold Platform.commonVariableSpace at hquota h2
    cases hh : isHardwareError attributes <;> rw [hh] at hquota <;>
      simp only [if_true, if_false, Bool.false_eq_true] at hquota <;> omega
  have hfit : ∀ r : Record, r.attributes = attributes → r.claimed = headerAlign (varSize variableName data) →
      weight commonSize (nv ++ [r]) ≤ P.commonVariableSpace ∧
        weight hwErrSize (nv ++ [r]) ≤ P.pcdHwErrStorageSize := by
    intro r ha hc
    have h1 := hacc.common_eq ▸ hacc.common_le
    have h2 := hacc.hwErr_eq ▸ hacc.hwErr_le
    have ha' : (new varAdded).attributes = attributes := rfl
    simp only [weight_append, weight_cons, weight_nil, commonSize, hwErrSize, ha, ha', hc, hclaimed] at h1 h2 ⊢
    exact ⟨h1, h2⟩
  have hlen : ∀ st, (H st).length = sizeofVariableHeader := newHeader_length _ _ _ _
  have hblen := newBody_length variableName data
  have hvs := varSize_eq variableName data
  have hal := headerAlign_le (varSize variableName data)
  have hin := P.in_volume
  have hp : p = s.nonVolatileLastVariableOffset + P.nonVolatileVariableBase := by
    rw [h.nonVolatileLast]; simp only [p, recordAt]; omega
  have hlo : P.fvBase ≤ p := by simp only [p, recordAt]; omega
  have hhi : p + headerAlign (varSize variableName data) < P.fvBase + P.fvLength := by
    unfold Platform.RoomBehind at hr
    simp only [p, recordAt]; omega
  have hfree : ∀ i, p ≤ i → i < p + headerAlign (varSize variableName data) → s.mem i = 0xff := fun i h1 h2 =>
    h.nonVolatile.holds.free i (by simpa only [p, recordAt] using h1) (by simp only [p, recordAt] at h2; omega)
  -- the four memories
  let m1 := write s.mem p (H 0xff)
  let m2 := write m1 p (H varHeaderValidOnly)
  let m3 := write m2 (p + sizeofVariableHeader) (newBody variableName data)
  let m4 := write m3 p (H varAdded)
  have hat1 : At m1 p (H 0xff) := write_at _ _ _
  have hat2 : At m2 p (H varHeaderValidOnly) := write_at _ _ _
  have hat3 : At m3 p (H varHeaderValidOnly) := (at_write _ _ _ _ _ (.inr (Nat.le_of_eq (by rw [hlen])))).mpr hat2
  have hat4 : At m4 p (H varAdded) := write_at _ _ _
  have hbody3 : At m3 (p + sizeofVariableHeader) (newBody variableName data) := write_at _ _ _
  have hbody4 : At m4 (p + sizeofVariableHeader) (newBody variableName data) :=
    (at_write _ _ _ _ _ (.inl (Nat.le_of_eq (by rw [hlen])))).mpr hbody3
  have hout1 : ∀ i, i < p ∨ p + sizeofVariableHeader ≤ i → m1 i = s.mem i := fun i hi =>
    write_outside _ _ _ _ (by rw [hlen]; exact hi)
  have hout2 : ∀ i, i < p ∨ p + sizeofVariableHeader ≤ i → m2 i = s.mem i := fun i hi =>
    (write_outside _ _ _ _ (by rw [hlen]; exact hi)).trans (hout1 i hi)
  have hout3 : ∀ i, i < p ∨ p + varSize variableName data ≤ i → m3 i = s.mem i := fun i hi =>
    (write_outside _ _ _ _ (by rw [hblen]; omega)).trans (hout2 i (by omega))
  have hout4 : ∀ i, i < p ∨ p + varSize variableName data ≤ i → m4 i = s.mem i := fun i hi =>
    (write_outside _ _ _ _ (by rw [hlen]; omega)).trans (hout3 i hi)
  -- the writes succeed
  have hu1 : updateVariableStore P false true s.nonVolatileLastVariableOffset (H 0xff) s =
      (.success, s.flash p (H 0xff)) :=
    updateVariableStore_nonVolatile P true _ p _ s hp (List.ne_nil_of_length_pos (by rw [hlen]; decide)) hlo
      (by rw [hlen]; omega) (programmable_erased _ _ _ fun i h1 h2 => hfree i h1 (by rw [hlen] at h2; omega))
  have hu2 : updateVariableStore P false true s.nonVolatileLastVariableOffset (H varHeaderValidOnly)
      (s.flash p (H 0xff)) = (.success, (s.flash p (H 0xff)).flash p (H varHeaderValidOnly)) :=
    updateVariableStore_nonVolatile P true _ p _ _ hp (List.ne_nil_of_length_pos (by rw [hlen]; decide)) hlo
      (by rw [hlen]; omega) (programmable_header (by decide) hat1)
  have hu3 : updateVariableStore P false true (s.nonVolatileLastVariableOffset + sizeofVariableHeader)
      (newBody variableName data) ((s.flash p (H 0xff)).flash p (H varHeaderValidOnly)) =
      (.success, ((s.flash p (H 0xff)).flash p (H varHeaderValidOnly)).flash (p + sizeofVariableHeader)
        (newBody variableName data)) :=
    updateVariableStore_nonVolatile P true _ (p + sizeofVariableHeader) _ _
      (by simp only [if_true]; omega)
      (List.ne_nil_of_length_pos (by rw [hblen]; unfold strSize; omega)) (by omega) (by rw [hblen]; omega)
      (programmable_erased _ _ _ fun i h1 h2 => (hout2 i (.inr h1)).trans
        (hfree i (by omega) (by rw [hblen] at h2; omega)))
  have hu4 : updateVariableStore P false true s.nonVolatileLastVariableOffset (H varAdded)
      (((s.flash p (H 0xff)).flash p (H varHeaderValidOnly)).flash (p + sizeofVariableHeader)
        (newBody variableName data)) = (.success, (((s.flash p (H 0xff)).flash p
          (H varHeaderValidOnly)).flash (p + sizeofVariableHeader) (newBody variableName data)).flash p
          (H varAdded)) :=
    updateVariableStore_nonVolatile P true _ p _ _ hp (List.ne_nil_of_length_pos (by rw [hlen]; decide)) hlo
      (by rw [hlen]; omega) (programmable_header (by decide) hat3)
  -- what the store holds after each of them
  let blank := blankRecord variableName vendorGuid attributes data hst
  have hblank : ∀ st, (blank st).claimed = headerAlign (varSize variableName data) :=
    fun _ => (headerAlign_varSize ..).symm
  have hn1 : NonVolatile P m1 (nv ++ [blank 0xff]) := by
    refine h.nonVolatile.snoc (by rw [hblank]; exact hroom) (hfit _ rfl (hblank _))
      (fun i hi => hout1 i (by rw [hblank] at hi; exact hi.imp_right (by omega))) ?_ ?_
      (good_snoc_dead h.nonVolatile.good _ rfl) hattr
    · show At m1 p ((blank 0xff).header ++ [])
      rw [List.append_nil]; exact hat1
    · intro i h1 h2
      rw [hblank] at h2
      have : (blank 0xff).size = sizeofVariableHeader := rfl
      rw [this] at h1
      exact (hout1 i (.inr h1)).trans (hfree i (by omega) h2)
  have hn2 : NonVolatile P m2 (nv ++ [blank varHeaderValidOnly]) := by
    refine h.nonVolatile.snoc (by rw [hblank]; exact hroom) (hfit _ rfl (hblank _))
      (fun i hi => hout2 i (by rw [hblank] at hi; exact hi.imp_right (by omega))) ?_ ?_
      (good_snoc_dead h.nonVolatile.good _ rfl) hattr
    · show At m2 p ((blank varHeaderValidOnly).header ++ (blank varHeaderValidOnly).body)
      rw [at_append, Record.header_length]
      refine ⟨hat2, (at_replicate ..).mpr fun i h1 h2 => (hout2 i (.inr h1)).trans (hfree i (by omega) ?_)⟩
      rw [headerAlign_varSize]; omega
    · intro i h1 h2
      rw [hblank] at h2
      rw [Record.size_of_not_erased _ rfl, hblank] at h1
      omega
  have hfree' : ∀ m : Memory, (∀ i, i < p ∨ p + varSize variableName data ≤ i → m i = s.mem i) →
      ∀ i, p + varSize variableName data ≤ i → i < p + headerAlign (varSize variableName data) → m i = 0xff :=
    fun m hm i h1 h2 => (hm i (.inr h1)).trans (hfree i (by omega) h2)
  have hn3 : NonVolatile P m3 (nv ++ [new varHeaderValidOnly]) := by
    refine h.nonVolatile.snoc (by rw [hclaimed]; exact hroom) (hfit _ rfl (hclaimed _))
      (fun i hi => hout3 i (by rw [hclaimed] at hi; exact hi.imp_right (by omega)))
      (at_newRecord hst _ (by decide) hat3 hbody3 (hfree' m3 hout3)) ?_
      (good_snoc_dead h.nonVolatile.good _ rfl) hattr
    intro i h1 h2
    rw [Record.size_of_not_erased _ rfl] at h1
    omega
  have hn4 : NonVolatile P m4 (nv ++ [new varAdded]) := by
    refine h.nonVolatile.snoc (by rw [hclaimed]; exact hroom) (hfit _ rfl (hclaimed _))
      (fun i hi => hout4 i (by rw [hclaimed] at hi; exact hi.imp_right (by omega)))
      (at_newRecord hst _ (by decide) hat4 hbody4 (hfree' m4 hout4)) ?_
      (good_snoc hst h.nonVolatile.good hn hd hone _) hattr
    intro i h1 h2
    rw [Record.size_of_not_erased _ rfl] at h1
    omega
  have hsuccess : EfiStatus.success.isError = false := rfl
  simp only [H] at hu1 hu2 hu3 hu4
  unfold writeNonVolatile
  simp only [hu1, hu2, hu3, hu4, hsuccess, Bool.false_eq_true, if_false]
  refine ⟨_, rfl, ⟨?_, h.volatile_good, hn4, h.volatileLast, ?_, ?_⟩, rfl, rfl, [m4, m3, m2, m1], rfl, ?_⟩
  · refine h.volatile.congr fun i h1 h2 => hout4 i ?_
    have := outside_volume P i h1 (by omega)
    omega
  · simp only [total_append, total_cons, total_nil]
    rw [Record.size_of_not_erased _ rfl, newRecord_claimed, ← Nat.add_assoc, ← h.nonVolatileLast]
    simp
  · have := hacc
    rw [hclaimed] at this
    have ha' : (new varAdded).attributes = attributes := rfl
    rw [ha', isHardwareError_eq] at this
    simpa [State.flash] using this
  · intro m hm
    simp only [List.mem_cons, List.not_mem_nil, or_false] at hm
    rcases hm with rfl | rfl | rfl | rfl
    · exact ⟨_, hn4, .inr rfl⟩
    · exact ⟨_, hn3, .inl rfl⟩
    · exact ⟨_, hn2, .inl rfl⟩
    · exact ⟨_, hn1, .inl rfl⟩

end

end Udk.Variable
