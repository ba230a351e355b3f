import Udk.Variable.Create

/-! # What `Reclaim` leaves in the stores -/

open Udk.Bytes

namespace Udk.Variable

theorem weight_reclaimed_le (w : Record → Nat) (hw : ∀ r st, w (r.setState st) = w r) {recs : List Record}
    {u : Option Record} (hu : ∀ x, u = some x → x.isInDeleted = true ∧ x ∈ recs) :
    weight w (reclaimed u recs) ≤ weight w (recs.filter Record.isLive) := by
  cases u with
  | none => exact weight_reclaimed_none w hw recs
  | some x =>
    obtain ⟨hd, hx⟩ := hu x rfl
    obtain ⟨pre, post, rfl⟩ := List.append_of_mem hx
    exact weight_reclaimed_some w hw pre post x hd

theorem total_reclaimed_le {recs : List Record} {u : Option Record}
    (hu : ∀ x, u = some x → x.isInDeleted = true ∧ x ∈ recs) : total (reclaimed u recs) ≤ total recs := by
  rw [total_eq_weight (reclaimed_live u fun x hx => isLive_of_inDeleted (hu x hx).1)]
  exact Nat.le_trans (weight_reclaimed_le Record.claimed (fun _ _ => rfl) hu) (weight_live_le_total recs)

theorem good_reclaimed {recs : List Record} {u : Option Record} (hg : Good recs)
    (hu : ∀ x, u = some x → x.isInDeleted = true ∧ x ∈ recs) : Good (reclaimed u recs) := by
  refine reclaimed_good u hg fun x hx => ?_
  obtain ⟨hd, hm⟩ := hu x hx
  exact ⟨hd, hg.named x hm (isLive_of_inDeleted hd), hg.data_pos x hm (isLive_of_inDeleted hd)⟩

theorem weight_mod (w : Record → Nat) (hw : ∀ r, w r % 4 = 0) (recs : List Record) : weight w recs % 4 = 0 := by
  induction recs with
  | nil => rfl
  | cons r rs ih => rw [weight_cons]; have := hw r; omega

theorem commonSize_mod (r : Record) : commonSize r % 4 = 0 := by
  unfold commonSize; have := r.claimed_mod; split <;> omega

theorem hwErrSize_mod (r : Record) : hwErrSize r % 4 = 0 := by
  unfold hwErrSize; have := r.claimed_mod; split <;> omega

section
variable {P : Platform} {env : Environment} {s : State} {vol nv : List Record} {upd : Nat} {u : Option Record}

/-- The new totals are those of the records that are kept. -/
theorem accounts_reclaimed {common hwErr : Nat} (h : Accounts P common hwErr nv)
    (hu : ∀ x, u = some x → x.isInDeleted = true ∧ x ∈ nv) :
    Accounts P (weight commonSize (reclaimed u nv)) (weight hwErrSize (reclaimed u nv)) (reclaimed u nv) := by
  have h1 := Nat.le_trans (weight_reclaimed_le commonSize commonSize_setState hu) (weight_filter_le _ _ nv)
  have h2 := Nat.le_trans (weight_reclaimed_le hwErrSize hwErrSize_setState hu) (weight_filter_le _ _ nv)
  exact ⟨rfl, Nat.le_trans h1 (h.common_eq ▸ h.common_le), weight_mod _ commonSize_mod _,
    rfl, Nat.le_trans h2 (h.hwErr_eq ▸ h.hwErr_le), weight_mod _ hwErrSize_mod _⟩

/-! ## The non-volatile store -/

theorem nonVolatile_reclaimed {m m' : Memory} (h : NonVolatile P m nv)
    (hu : ∀ x, u = some x → x.isInDeleted = true ∧ x ∈ nv)
    (hm : At m' P.nonVolatileVariableBase (Bytes.read m P.nonVolatileVariableBase sizeofVariableStoreHeader ++
      (reclaimed u nv).flatMap Record.bytes))
    (hfree : ∀ i, recordAt P.nonVolatileVariableBase (reclaimed u nv) ≤ i →
      i < P.nonVolatileVariableBase + P.nonVolatileStoreSize → m' i = 0xff)
    (hout : ∀ i, P.nonVolatileVariableBase + P.nonVolatileStoreSize ≤ i → m' i = m i) :
    NonVolatile P m' (reclaimed u nv) := by
  have hfits := h.holds.fits
  have hle := total_reclaimed_le hu
  have h1 := Nat.le_trans (weight_reclaimed_le commonSize commonSize_setState hu) (weight_filter_le _ _ nv)
  have h2 := Nat.le_trans (weight_reclaimed_le hwErrSize hwErrSize_setState hu) (weight_filter_le _ _ nv)
  refine ⟨h.holds.compacted (by omega) hm hfree, ?_, good_reclaimed h.good hu, ?_, Nat.le_trans h1 h.common_le,
    Nat.le_trans h2 h.hwErr_le⟩
  · rw [← h.guard]
    unfold isValidVariableHeader startIdOf
    rw [readLE_congr _ _ _ 2 fun i hi _ => hout i hi]
  · intro x hx
    rcases mem_reclaimed hx with rfl | ⟨r, hr, rfl | rfl⟩
    · exact h.attributes x (hu x rfl).2
    · exact h.attributes x hr
    · exact h.attributes r hr

/-- `Reclaim` of the non-volatile store, where its services succeed. -/
theorem reclaim_nonVolatile_spec (h : Holding P s vol nv) (hu : Updating s.mem upd u)
    (hux : ∀ x, u = some x → x.isInDeleted = true ∧ x ∈ nv)
    (halloc : env.allocatePool s.reclaims (maximumBufferSize s.mem P.nonVolatileVariableBase) = true)
    (hftw : (env.ftwWrite s.reclaims).isError = false) :
    ∃ s', reclaim env P.nonVolatileVariableBase false upd s = (.success, s') ∧
      Holding P s' vol (reclaimed u nv) ∧ s'.context = s.context ∧ s'.reclaims = s.reclaims + 1 ∧
      Traces (fun m => NonVolatile P m (reclaimed u nv)) s s' := by
  have hnv := h.nonVolatile
  have hsz := P.nonVolatile_size
  have hin := P.in_volume
  have hfits := hnv.holds.fits
  have hle := total_reclaimed_le hux
  have hwalk := hnv.holds.allHeaders_eq_of_guard P.nonVolatileArea hnv.guard
  have hbuf := reclaimBuffer_eq false hnv.holds P.nonVolatileArea (by omega) hu hux
    (hwalk.trans (List.append_nil _).symm) (by simp)
  let bs := Bytes.read s.mem P.nonVolatileVariableBase sizeofVariableStoreHeader ++
    (reclaimed u nv).flatMap Record.bytes
  have hbs : bs.length = sizeofVariableStoreHeader + total (reclaimed u nv) := by
    simp only [bs, List.length_append, read_length, length_flatMap_bytes]
  let m' := write s.mem P.nonVolatileVariableBase
    (bs ++ List.replicate (P.nonVolatileStoreSize - bs.length) 0xff)
  have hout : ∀ i, i < P.nonVolatileVariableBase ∨ P.nonVolatileVariableBase + P.nonVolatileStoreSize ≤ i →
      m' i = s.mem i := fun i hi => write_outside _ _ _ _ (by
    rw [List.length_append, List.length_replicate]; omega)
  have hat := (at_append ..).mp (write_at s.mem P.nonVolatileVariableBase
    (bs ++ List.replicate (P.nonVolatileStoreSize - bs.length) 0xff))
  have hnv' : NonVolatile P m' (reclaimed u nv) := by
    refine nonVolatile_reclaimed hnv hux hat.1 (fun i h1 h2 => ?_) fun i hi => hout i (.inr hi)
    refine (at_replicate ..).mp hat.2 i ?_ (by omega)
    unfold recordAt at h1; omega
  have hresult : reclaim env P.nonVolatileVariableBase false upd s = (.success,
      { s with
        mem := m'
        flashTrace := m' :: s.flashTrace
        commonVariableTotalSize := weight commonSize (reclaimed u nv)
        hwErrVariableTotalSize := weight hwErrSize (reclaimed u nv)
        nonVolatileLastVariableOffset := bs.length
        reclaims := s.reclaims + 1 }) := by
    have htake : (bs ++ List.replicate (P.nonVolatileStoreSize - bs.length) 0xff).take P.nonVolatileStoreSize =
        bs ++ List.replicate (P.nonVolatileStoreSize - bs.length) 0xff := by
      apply List.take_of_length_le
      rw [List.length_append, List.length_replicate]; omega
    unfold reclaim
    simp only [halloc, hbuf, Bool.not_true, Bool.false_eq_true, if_false, ftwVariableSpace, hftw]
    have hbytes : (bufferOf false (Bytes.read s.mem P.nonVolatileVariableBase sizeofVariableStoreHeader)
      (reclaimed u nv)).bytes = bs := rfl
    simp only [hbytes, hnv.holds.size_eq, htake, countReclaim, setLastVariableOffset]
    rfl
  refine ⟨_, hresult, ⟨?_, h.volatile_good, hnv', h.volatileLast, hbs, ?_⟩, rfl, rfl, [m'], rfl,
    by simpa using hnv'⟩
  · refine h.volatile.congr fun i h1 h2 => hout i ?_
    have := outside_volume P i h1 (by omega)
    omega
  · exact accounts_reclaimed h.accounts hux

/-! ## The volatile store -/

/-- The walk of `Reclaim` stops before the name in the scratch area. -/
def WalkStops (P : Platform) (s : State) (variableName : Name) : Prop :=
  s.volatileLastVariableOffset < P.pcdVariableStoreSize ∨
    variableName.chars.head? ≠ some (UInt16.ofNat variableData)

/-- Behind a full store the walk finds the header in the scratch area, which counts for nothing. -/
theorem volatile_headers {variableName : Name} {vendorGuid : Guid} {attributes : Nat} {data : List UInt8}
    (h : Holding P s vol nv) (hst : Storable variableName attributes data)
    (hscratch : At s.mem (P.volatileVariableBase + P.pcdVariableStoreSize)
      (newHeader variableName vendorGuid attributes data 0xff ++ newBody variableName data))
    (hn : variableName.chars ≠ []) (hstop : WalkStops P s variableName) :
    ∃ tail, allHeaders s.mem P.volatileVariableBase =
        addresses (P.volatileVariableBase + sizeofVariableStoreHeader) vol ++ tail ∧
      ∀ p ∈ tail, isAdded s.mem p = false ∧ isInDeletedTransition s.mem p = false := by
  have hfits := h.volatile.fits
  have hlast := h.volatileLast
  have hpos := P.volatile_pos
  have hmod := P.volatile_aligned
  have hsmod := P.volatile_size.2.1
  obtain ⟨fuel, hw⟩ := h.volatile.allHeaders_eq P.volatileArea
  by_cases hroom : sizeofVariableStoreHeader + total vol < P.pcdVariableStoreSize
  · refine ⟨[], ?_, by simp⟩
    rw [hw, walk_stop]
    rintro ⟨-, hv⟩
    rw [h.volatile.end_not_valid P.volatileArea hroom] at hv
    cases hv
  · let p := P.volatileVariableBase + P.pcdVariableStoreSize
    let r := newRecord variableName vendorGuid attributes data hst 0xff
    have hp : P.volatileVariableBase + sizeofVariableStoreHeader + total vol = p := by simp only [p]; omega
    have hrec : At s.mem p r.bytes := by
      show At s.mem p (r.header ++ [])
      rw [List.append_nil]
      exact ((at_append ..).mp hscratch).1
    have hnext : getNextVariablePtr s.mem p = p + sizeofVariableHeader :=
      getNextVariablePtr_of_at (by simp only [p]; omega) (by simp only [p]; omega) hrec
    -- the first character of the name is where the next header would be
    have hname : isValidVariableHeader s.mem (p + sizeofVariableHeader) = false := by
      have hbody := ((at_append ..).mp hscratch).2
      rw [newHeader_length] at hbody
      obtain ⟨c, cs, hc⟩ : ∃ c cs, variableName.chars = c :: cs := List.exists_cons_of_ne_nil hn
      rw [newBody, Name.bytes, hc, List.flatMap_cons, List.append_assoc, List.append_assoc, at_append] at hbody
      have hid : startIdOf s.mem (p + sizeofVariableHeader) = c.toNat :=
        at_readLE _ _ 2 _ hbody.1 (by simpa using c.toNat_lt)
      have hne : c.toNat ≠ variableData := by
        intro he
        rcases hstop with h1 | h1
        · omega
        · apply h1
          rw [hc, List.head?_cons, ← he, UInt16.ofNat_toNat]
      simp [isValidVariableHeader, hid, hne]
    rw [hp] at hw
    cases fuel with
    | zero => exact ⟨[], hw, by simp⟩
    | succ fuel =>
      by_cases hin : p < maxAddress
      · refine ⟨[p], ?_, ?_⟩
        · rw [hw, walk, if_pos ⟨hin, isValid_of_at (by simp only [p]; omega) hrec⟩, hnext, walk_stop]
          rw [hname]; simp
        · intro q hq
          rw [List.mem_singleton.mp hq, isAdded_of_at hrec, isInDeletedTransition_of_at hrec]
          exact ⟨rfl, rfl⟩
      · exact ⟨[], by rw [hw, walk_stop]; exact fun hc => hin hc.1, by simp⟩

/-- `Reclaim` of the volatile store, for a new record that lies in the scratch area. -/
theorem reclaim_volatile_spec (env : Environment) {variableName : Name} {vendorGuid : Guid} {attributes : Nat}
    {data : List UInt8}
    (h : Holding P s vol nv) (hr : P.RoomBehind) (hst : Storable variableName attributes data)
    (hscratch : At s.mem (P.volatileVariableBase + P.pcdVariableStoreSize)
      (newHeader variableName vendorGuid attributes data 0xff ++ newBody variableName data))
    (hn : variableName.chars ≠ []) (hstop : WalkStops P s variableName) (hu : Updating s.mem upd u)
    (hux : ∀ x, u = some x → x.isInDeleted = true ∧ x ∈ vol) :
    (∃ s', reclaim env P.volatileVariableBase true upd s = (.outOfResources, s') ∧ Holding P s' vol nv ∧
        s'.context = s.context ∧ s'.flashTrace = s.flashTrace) ∨
      ∃ s', reclaim env P.volatileVariableBase true upd s = (.success, s') ∧ Holding P s' (reclaimed u vol) nv ∧
        s'.context = s.context ∧ s'.flashTrace = s.flashTrace := by
  cases halloc : env.allocatePool s.reclaims (maximumBufferSize s.mem P.volatileVariableBase) with
  | false =>
    left
    refine ⟨countReclaim s, ?_, ⟨h.volatile, h.volatile_good, h.nonVolatile, h.volatileLast, h.nonVolatileLast,
      h.accounts⟩, rfl, rfl⟩
    unfold reclaim
    simp only [halloc, if_true, Bool.not_false]
  | true =>
    right
    have hsz := P.volatile_size
    have hfits := h.volatile.fits
    have hle := total_reclaimed_le hux
    obtain ⟨tail, htail, hdead⟩ := volatile_headers h hst hscratch hn hstop
    have hbuf := reclaimBuffer_eq true h.volatile P.volatileArea (by omega) hu hux htail hdead
    let bs := Bytes.read s.mem P.volatileVariableBase sizeofVariableStoreHeader ++
      (reclaimed u vol).flatMap Record.bytes
    have hbs : bs.length = sizeofVariableStoreHeader + total (reclaimed u vol) := by
      simp only [bs, List.length_append, read_length, length_flatMap_bytes]
    let m' := write (fill s.mem P.volatileVariableBase P.pcdVariableStoreSize 0xff) P.volatileVariableBase bs
    have hout : ∀ i, i < P.volatileVariableBase ∨ P.volatileVariableBase + P.pcdVariableStoreSize ≤ i →
        m' i = s.mem i := fun i hi =>
      (write_outside _ _ _ _ (by omega)).trans (fill_outside _ _ _ _ _ hi)
    have hresult : reclaim env P.volatileVariableBase true upd s = (.success,
        { s with mem := m', volatileLastVariableOffset := bs.length, reclaims := s.reclaims + 1 }) := by
      unfold reclaim
      simp only [halloc, hbuf, Bool.not_true, Bool.false_eq_true, if_false, if_true, h.volatile.size_eq]
      rfl
    refine ⟨_, hresult, ⟨?_, good_reclaimed h.volatile_good hux, ?_, hbs, h.nonVolatileLast, h.accounts⟩, rfl, rfl⟩
    · refine h.volatile.compacted (by omega) (write_at _ _ _) fun i h1 h2 => ?_
      exact (write_outside _ _ _ _ (by omega)).trans (fill_inside _ _ _ _ _ (by omega) h2)
    · refine h.nonVolatile.congr hr fun i h1 h2 => hout i ?_
      have := outside_store P i h1 h2
      omega

end

end Udk.Variable
