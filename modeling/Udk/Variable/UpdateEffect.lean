import Udk.Variable.Outcome

/-! # What `UpdateVariable` does -/

open Udk.Bytes

namespace Udk.Variable

section
variable {P : Platform} {env : Environment} {s : State} {vol nv : List Record} {k : Key}
  {attributes : Nat} {data : List UInt8} {v : VariablePointerTrack}

/-- The effect of a call: the stores it leaves, what becomes of the other variables and of `k`, and what
the flash goes through. -/
structure Effect (P : Platform) (k : Key) (attributes : Nat) (data : List UInt8) (s : State)
    (vol nv : List Record) (st : EfiStatus) (s' : State) (vol' nv' : List Record) : Prop where
  settled : Settled P s' vol' nv'
  other : ∀ j ≠ k, Keeps s.atRuntime j vol vol' ∧ KeepsBoth s.atRuntime j nv nv'
  outcome : Outcome k attributes data s.context (allCopies k vol nv) st s'.context (allCopies k vol' nv')
  trace : Traces (Snapshot P k nv nv') s s'
  /-- Without `Reclaim` the other variables stay where they are. -/
  steady : runsReclaim P k.1 attributes data (findVariable P k.1 k.2 s).2 s = false →
    ∀ j ≠ k, SamePlace s.atRuntime j vol vol' ∧ SamePlace s.atRuntime j nv nv'
  /-- The new record is in the store of its class, unless the data is there already. -/
  placed : st.isError = true ∨ isDelete attributes data = true ∨
    (vol' = vol ∧ nv' = nv ∧ ∃ r, lastVisible s.atRuntime (allCopies k vol nv) = some r ∧ r.data = data) ∨
    Placed k attributes data vol' nv'
  whole : Whole nv → Whole nv'

/-- An error before any write. -/
theorem Effect.refused {st : EfiStatus} (h : Settled P s vol nv) (hs : st.isError = true) :
    Effect P k attributes data s vol nv st s vol nv :=
  ⟨h, fun _ _ => ⟨.refl, .refl⟩, .refused hs, .refl _ _, fun _ _ _ => ⟨.refl, .refl⟩, .inl hs, id⟩

/-- The copies of the other variables are not in the record that changes its state. -/
theorem keeps_setState {b : Bool} {j : Key} {pre post : List Record} {r r' : Record} (hr : r.has k = true)
    (hr' : r'.has k = true) (hj : j ≠ k) : Keeps b j (pre ++ r :: post) (pre ++ r' :: post) :=
  .same (by rw [copies_mid_other hr' hj, copies_mid_other hr hj])

/-- The record that a lookup finds is deleted. -/
theorem deleted_outcome {atRuntime : Bool} {recs pre post : List Record} {r : Record} {c : Context}
    (h : IsFound atRuntime k recs pre r post) (hc : c.atRuntime = atRuntime)
    (hd : isDelete attributes data = true) :
    Outcome k attributes data c (copies k recs) .success (contextAfter k attributes data .success c)
      (copies k (pre ++ r.erase :: post)) := by
  rw [copies_erase h.live, h.split, copies_mid h.live h.has]
  refine .deleted hd rfl (hc ▸ h.visible) fun q hq => ?_
  obtain ⟨hm, hl, hk⟩ := mem_copies.mp hq
  rw [hc]
  by_contra hv
  rw [h.last q hm hl (by simpa using hv)] at hk
  cases hk

/-- Where no `Reclaim` runs, there is room for the record after the old copy is marked too. -/
theorem after_mark_room {s1 : State} {vol1 nv1 : List Record} (h : Holding P s vol nv) (h1 : Holding P s1 vol1 nv1)
    (hc : createsRecord attributes data v s = true) (hno : runsReclaim P k.1 attributes data v s = false)
    (ht : total vol1 = total vol) (hrt : s1.atRuntime = s.atRuntime)
    (hcommon : s1.commonVariableTotalSize = s.commonVariableTotalSize)
    (hhw : s1.hwErrVariableTotalSize = s.hwErrVariableTotalSize) :
    (isFull P k.1 attributes data s1 && !(isNonVolatile attributes && s1.atRuntime)) = false := by
  rw [(isFull_congr k attributes data h h1 ht hcommon hhw).1, hrt]
  unfold runsReclaim at hno
  rwa [hc, Bool.true_and] at hno

theorem placed_of {vol' nv' : List Record} {st : EfiStatus} {same : Prop}
    (h : st.isError = false → Placed k attributes data vol' nv') :
    st.isError = true ∨ isDelete attributes data = true ∨ same ∨ Placed k attributes data vol' nv' := by
  cases hs : st.isError with
  | true => exact .inl rfl
  | false => exact .inr (.inr (.inr (h hs)))

/-- With the old copy in the volatile store. -/
theorem updateVariable_found_volatile {pre post : List Record} {r : Record} (h : Settled P s vol nv)
    (hr : P.RoomBehind) (hf : IsFound s.atRuntime k vol pre r post)
    (hp : v.currPtr = recordAt P.volatileVariableBase pre) (hv : v.isVolatile = true) (hn : k.1.chars ≠ [])
    (ha : attributes < 0xffffffff) (hsz : isDelete attributes data = false → varSize k.1 data ≤ P.scratchSize)
    (hsafe : UpdateSafe P env k attributes data v s) :
    ∃ st s' vol' nv', updateVariable P env k.1 k.2 data attributes v s = (st, s') ∧
      Effect P k attributes data s vol nv st s' vol' nv' := by
  have hne : v.currPtr ≠ 0 := by rw [hp]; exact (recordAt_mod P.volatileArea pre).1
  have hat : At s.mem v.currPtr r.bytes := by
    rw [hp]; exact holds_split (hf.split ▸ h.holding.volatile.records)
  have hcn : copies k nv = [] := by
    refine (h.apart k).resolve_left fun hc => ?_
    rw [hf.split, copies_mid hf.live hf.has] at hc
    simp at hc
  have hall : allCopies k vol nv = copies k vol := by rw [allCopies, hcn, List.append_nil]
  have hholds := h.holding
  rw [hf.split] at hholds
  have hsuccess : EfiStatus.success.isError = false := rfl
  unfold updateVariable
  rw [show (decide (data.length = 0) || !hasAccess attributes) = isDelete attributes data from rfl]
  simp only [ne_eq, hne, not_false_eq_true, if_true, hv, Bool.and_true]
  cases hrt : s.atRuntime with
  | true => exact ⟨_, _, _, _, rfl, .refused h rfl⟩
  | false =>
    rw [hrt] at hf
    simp only [Bool.false_eq_true, if_false, Bool.false_and]
    cases hd : isDelete attributes data with
    | true =>
      -- delete
      obtain ⟨s1, he, h1, hc1, ht1, -⟩ := updateState_volatile varDeleted hholds hr hf.live
        (Record.erase_ne hf.live) (erase_not_added hf.live) hp hv
      simp only [if_true, he, hsuccess, Bool.false_eq_true, if_false]
      refine ⟨_, _, _, nv, rfl, ⟨holding_cache _ _ _ _ h1, fun j => ?_⟩, fun j hj => ⟨?_, .refl⟩, ?_, ?_,
        fun _ j hj => ?_, .inr (.inl hd), ?_⟩
      · by_cases hj : j = k
        · rw [hj]; exact .inr hcn
        · have hcj := h.apart j
          rw [hf.split, copies_mid_other hf.has hj] at hcj
          rwa [show r.setState (r.state &&& varDeleted) = r.erase from rfl, copies_erase hf.live]
      · rw [hf.split]; exact keeps_setState hf.has hf.has hj
      · rw [context_cache, hc1, hall, allCopies, hcn, List.append_nil]
        exact deleted_outcome hf hrt hd
      · exact (Traces.of_eq ht1).trans (.of_eq (flashTrace_cache ..))
      · rw [hf.split]
        exact ⟨.setState _ hf.has hj (r.not_erased_of_live hf.live) (Record.erase_ne hf.live), .refl⟩
      · exact id
    | false =>
      simp only [Bool.false_eq_true, if_false]
      by_cases hsame : dataSizeOfVariable s.mem v.currPtr = data.length ∧
          Bytes.read s.mem (getVariableDataPtr s.mem v.currPtr) data.length = data
      · -- the same data
        rw [if_pos hsame]
        have hdata := (sameData_iff hat hf.live).mp hsame
        have hlast : lastVisible s.atRuntime (allCopies k vol nv) = some r := by
          rw [hall, hrt]; exact hf.found_eq
        exact ⟨_, _, vol, nv, rfl, h, fun _ _ => ⟨.refl, .refl⟩, .unchanged hd hlast hdata, .refl _ _,
          fun _ _ _ => ⟨.refl, .refl⟩, .inr (.inr (.inl ⟨rfl, rfl, r, hlast, hdata⟩)), id⟩
      · -- mark the old copy, then create the new one
        rw [if_neg hsame]
        have hlive : (isAdded s.mem v.currPtr || isInDeletedTransition s.mem v.currPtr) = true := by
          rw [isAdded_of_at hat, isInDeletedTransition_of_at hat]; exact hf.live
        have hcreates : createsRecord attributes data v s = true := by
          unfold createsRecord
          rw [if_neg hne, hrt, hd]
          simp only [Bool.not_false, Bool.false_and, Bool.true_and]
          rw [Bool.not_eq_true', Bool.eq_false_iff, ne_eq, Bool.and_eq_true, beq_iff_eq, beq_iff_eq]
          exact hsame
        obtain ⟨s1, he, h1, hc1, ht1, hrec1, hcm1, hhw1⟩ := updateState_volatile varInDeletedTransition hholds hr
          hf.live (Record.mark_ne hf.live) (fun hadd => by
            have := Record.mark_not_added hf.live
            rw [show r.setState (r.state &&& varInDeletedTransition) = r.mark from rfl, this] at hadd
            cases hadd) hp hv
        have h1 : Holding P s1 (pre ++ r.mark :: post) nv := h1
        have hrt1 : s1.atRuntime = s.atRuntime := context_atRuntime hc1
        rw [if_pos hlive]
        simp only [he, hsuccess, Bool.false_eq_true, if_false]
        have hvis := (visible_liveCopies s.atRuntime k h.holding.volatile P.volatileArea
          h.holding.volatile_good).mp (hsafe.visible hcreates).1
        rw [hrt] at hvis
        have hpost := hf.copies_post hvis
        have hcv : copies k vol = copies k pre ++ [r] := by
          rw [hf.split, copies_mid hf.live hf.has, hpost]
        have hcm : copies k (pre ++ r.mark :: post) = copies k pre ++ [r.mark] := by
          rw [copies_mid (mark_live hf.live) hf.has, hpost]
        have htot : total (pre ++ r.mark :: post) = total vol := by
          rw [hf.split]; exact total_setState pre post r _ (r.not_erased_of_live hf.live) (Record.mark_ne hf.live)
        have hold : if isNonVolatile attributes then Old P k false v nv (pre ++ r.mark :: post) (some r.mark)
            else Old P k true v (pre ++ r.mark :: post) nv (some r.mark) := by
          cases hattr : isNonVolatile attributes with
          | true =>
            have hone := hsafe.moves hcreates hne (by rw [hv, hattr]; decide)
            rw [liveCopies_length k h.holding.volatile P.volatileArea h.holding.volatile_good,
              liveCopies_length k h.holding.nonVolatile.holds P.nonVolatileArea h.holding.nonVolatile.good,
              hcv, hcn] at hone
            have hpre : copies k pre = [] := by
              rw [← List.length_eq_zero_iff]
              simp only [List.length_append, List.length_singleton, List.length_nil] at hone
              omega
            exact .there rfl (Record.mark_inDeleted hf.live) hf.has hpre hpost hcn hp hv
          | false => exact .here rfl (Record.mark_inDeleted hf.live) hf.has hpost hcn hp hv
        obtain ⟨st, s', vol', nv', he', h', hk', ho', ha', ht', hs', hp', hw'⟩ := createVariable_spec env
          (l := allCopies k vol nv) h1 hr hn ha (hsz hd) hd hold (.inr hcn)
          (.inr ⟨copies k pre, r, by rw [allCopies, hcn, List.append_nil]; exact hcm, hall.trans hcv⟩)
          (fun hfull hnr => hsafe.after_mark h.holding h1 hcreates htot hrt1 hrec1 hcm1 hhw1 rfl
            (fun hkf => keepsFound_mark hf.has (hf.split ▸ hkf)) (fun hkf => hkf)
            (fun hstay x hx => by
              obtain rfl : r.mark = x := by simpa using hx
              have := hstay hne
              rw [hv] at this
              have hattr : isNonVolatile attributes = false := by simpa using this.symm
              rw [hattr]; simp) hfull hnr)
        refine ⟨st, s', vol', nv', he', ⟨h', ?_⟩, ?_, ?_, ?_, fun hno j hj => ?_, ?_, ?_⟩
        · refine apart_of_keeps (fun j => ?_) ha' hk'
          by_cases hj : j = k
          · rw [hj]; exact .inr hcn
          · rw [copies_mark_other hf.has hj, ← hf.split]; exact h.apart j
        · intro j hj
          rw [hrt1, hrt] at hk'
          rw [hrt, hf.split]
          exact ⟨(hk' j hj).1.after_copies (copies_mark_other hf.has hj), (hk' j hj).2⟩
        · rw [hc1] at ho'; exact ho'
        · exact (Traces.of_eq ht1).trans ht'
        · rw [hsafe.current] at hno
          obtain ⟨hv', hn'⟩ := hs' (after_mark_room h.holding h1 hcreates hno htot hrt1 hcm1 hhw1) j hj
          rw [hrt1, hrt] at hv' hn'
          rw [hrt, hf.split]
          have hmark : SamePlace false j (pre ++ r :: post) (pre ++ r.mark :: post) :=
            .setState _ hf.has hj (r.not_erased_of_live hf.live) (Record.mark_ne hf.live)
          exact ⟨hmark.trans hv', hn'⟩
        · exact placed_of hp'
        · exact hw'

/-- With the old copy in the non-volatile store. -/
theorem updateVariable_found_nonVolatile {pre post : List Record} {r : Record} (h : Settled P s vol nv)
    (hr : P.RoomBehind) (hf : IsFound s.atRuntime k nv pre r post)
    (hp : v.currPtr = recordAt P.nonVolatileVariableBase pre) (hv : v.isVolatile = false) (hn : k.1.chars ≠ [])
    (ha : attributes < 0xffffffff) (hsz : isDelete attributes data = false → varSize k.1 data ≤ P.scratchSize)
    (hsafe : UpdateSafe P env k attributes data v s) :
    ∃ st s' vol' nv', updateVariable P env k.1 k.2 data attributes v s = (st, s') ∧
      Effect P k attributes data s vol nv st s' vol' nv' := by
  have hne : v.currPtr ≠ 0 := by rw [hp]; exact (recordAt_mod P.nonVolatileArea pre).1
  have hat : At s.mem v.currPtr r.bytes := by
    rw [hp]; exact holds_split (hf.split ▸ h.holding.nonVolatile.holds.records)
  have hcv : copies k vol = [] := by
    refine (h.apart k).resolve_right fun hc => ?_
    rw [hf.split, copies_mid hf.live hf.has] at hc
    simp at hc
  have hall : allCopies k vol nv = copies k nv := by rw [allCopies, hcv, List.nil_append]
  have hattr : isNonVolatile (attributesOf s.mem v.currPtr) = true := by
    rw [attributesOf_of_at hat]
    exact h.holding.nonVolatile.attributes r (by rw [hf.split]; simp)
  have hholds := h.holding
  rw [hf.split] at hholds
  have hsuccess : EfiStatus.success.isError = false := rfl
  unfold updateVariable
  rw [show (decide (data.length = 0) || !hasAccess attributes) = isDelete attributes data from rfl]
  simp only [ne_eq, hne, not_false_eq_true, if_true, hv, hattr, Bool.and_false, Bool.not_true, Bool.false_eq_true,
    if_false]
  cases hd : isDelete attributes data with
  | true =>
    -- delete
    obtain ⟨s1, he, h1, hc1, ht1, -⟩ := updateState_nonVolatile varDeleted hholds hr hf.live
      (Record.erase_ne hf.live) (erase_not_added hf.live) hp hv
    simp only [if_true, he, hsuccess, Bool.false_eq_true, if_false]
    refine ⟨_, _, vol, _, rfl, ⟨holding_cache _ _ _ _ h1, fun j => ?_⟩, fun j hj => ⟨.refl, ?_⟩, ?_, ?_,
      fun _ j hj => ?_, .inr (.inl hd), ?_⟩
    · by_cases hj : j = k
      · rw [hj]; exact .inl hcv
      · have hcj := h.apart j
        rw [hf.split, copies_mid_other hf.has hj] at hcj
        rwa [show r.setState (r.state &&& varDeleted) = r.erase from rfl, copies_erase hf.live]
    · rw [hf.split]; exact fun _ _ => keeps_setState hf.has hf.has hj
    · rw [context_cache, hc1, hall, allCopies, hcv, List.nil_append]
      exact deleted_outcome hf rfl hd
    · refine (ht1.mono fun m hm => ?_).trans (.of_eq (flashTrace_cache ..))
      refine ⟨_, hm, fun j hj => ?_, .inr rfl⟩
      rw [hf.split]; exact keeps_setState hf.has hf.has hj
    · rw [hf.split]
      exact ⟨.refl, .setState _ hf.has hj (r.not_erased_of_live hf.live) (Record.erase_ne hf.live)⟩
    · rw [hf.split]; exact fun h => h.setState (Record.erase_ne hf.live)
  | false =>
    simp only [Bool.false_eq_true, if_false]
    by_cases hsame : dataSizeOfVariable s.mem v.currPtr = data.length ∧
        Bytes.read s.mem (getVariableDataPtr s.mem v.currPtr) data.length = data
    · -- the same data
      rw [if_pos hsame]
      have hdata := (sameData_iff hat hf.live).mp hsame
      have hlast : lastVisible s.atRuntime (allCopies k vol nv) = some r := by
        rw [hall]; exact hf.found_eq
      exact ⟨_, _, vol, nv, rfl, h, fun _ _ => ⟨.refl, .refl⟩, .unchanged hd hlast hdata, .refl _ _,
        fun _ _ _ => ⟨.refl, .refl⟩, .inr (.inr (.inl ⟨rfl, rfl, r, hlast, hdata⟩)), id⟩
    · -- mark the old copy, then create the new one
      rw [if_neg hsame]
      have hlive : (isAdded s.mem v.currPtr || isInDeletedTransition s.mem v.currPtr) = true := by
        rw [isAdded_of_at hat, isInDeletedTransition_of_at hat]; exact hf.live
      have hcreates : createsRecord attributes data v s = true := by
        unfold createsRecord
        rw [if_neg hne, hattr, hv, hd]
        simp only [Bool.not_true, Bool.not_false, Bool.and_false, Bool.true_and]
        rw [Bool.not_eq_true', Bool.eq_false_iff, ne_eq, Bool.and_eq_true, beq_iff_eq, beq_iff_eq]
        exact hsame
      obtain ⟨s1, he, h1, hc1, ht1, hrec1, hcm1, hhw1⟩ := updateState_nonVolatile varInDeletedTransition hholds hr
        hf.live (Record.mark_ne hf.live) (fun hadd => by
          have := Record.mark_not_added hf.live
          rw [show r.setState (r.state &&& varInDeletedTransition) = r.mark from rfl, this] at hadd
          cases hadd) hp hv
      have h1 : Holding P s1 vol (pre ++ r.mark :: post) := h1
      have hrt1 : s1.atRuntime = s.atRuntime := context_atRuntime hc1
      rw [if_pos hlive]
      simp only [he, hsuccess, Bool.false_eq_true, if_false]
      have hvis := (visible_liveCopies s.atRuntime k h.holding.nonVolatile.holds P.nonVolatileArea
        h.holding.nonVolatile.good).mp (hsafe.visible hcreates).2
      have hpost := hf.copies_post hvis
      have hcn : copies k nv = copies k pre ++ [r] := by
        rw [hf.split, copies_mid hf.live hf.has, hpost]
      have hcm : copies k (pre ++ r.mark :: post) = copies k pre ++ [r.mark] := by
        rw [copies_mid (mark_live hf.live) hf.has, hpost]
      have hold : if isNonVolatile attributes then Old P k false v (pre ++ r.mark :: post) vol (some r.mark)
          else Old P k true v vol (pre ++ r.mark :: post) (some r.mark) := by
        cases hattr : isNonVolatile attributes with
        | false =>
          have hone := hsafe.moves hcreates hne (by rw [hv, hattr]; decide)
          rw [liveCopies_length k h.holding.volatile P.volatileArea h.holding.volatile_good,
            liveCopies_length k h.holding.nonVolatile.holds P.nonVolatileArea h.holding.nonVolatile.good,
            hcn, hcv] at hone
          have hpre : copies k pre = [] := by
            rw [← List.length_eq_zero_iff]
            simp only [List.length_append, List.length_singleton, List.length_nil] at hone
            omega
          exact .there rfl (Record.mark_inDeleted hf.live) hf.has hpre hpost hcv hp hv
        | true => exact .here rfl (Record.mark_inDeleted hf.live) hf.has hpost hcv hp hv
      obtain ⟨st, s', vol', nv', he', h', hk', ho', ha', ht', hs', hp', hw'⟩ := createVariable_spec env
        (l := allCopies k vol nv) h1 hr hn ha (hsz hd) hd hold (.inl hcv)
        (.inr ⟨copies k pre, r, by rw [allCopies, hcv, List.nil_append]; exact hcm, hall.trans hcn⟩)
        (fun hfull hnr => hsafe.after_mark h.holding h1 hcreates rfl hrt1 hrec1 hcm1 hhw1
          (by rw [hf.split]; exact weight_live_mark hf.live) (fun hkf => hkf)
          (fun hkf => keepsFound_mark hf.has (hf.split ▸ hkf))
          (fun hstay x hx => by
            obtain rfl : r.mark = x := by simpa using hx
            have := hstay hne
            rw [hv] at this
            have hattr : isNonVolatile attributes = true := by simpa using this
            rw [hattr]; simp) hfull hnr)
      refine ⟨st, s', vol', nv', he', ⟨h', ?_⟩, ?_, ?_, ?_, fun hno j hj => ?_, ?_, ?_⟩
      · refine apart_of_keeps (fun j => ?_) ha' hk'
        by_cases hj : j = k
        · rw [hj]; exact .inl hcv
        · rw [copies_mark_other hf.has hj, ← hf.split]; exact h.apart j
      · intro j hj
        rw [hrt1] at hk'
        rw [hf.split]
        exact ⟨(hk' j hj).1, (hk' j hj).2.after_copies (copies_mark_other hf.has hj)⟩
      · rw [hc1] at ho'; exact ho'
      · rw [hf.split]
        refine (ht1.mono fun m hm => ?_).trans (ht'.mono fun m hm => hm.of_mark hf.live hf.has)
        exact ⟨_, hm, fun j hj => keeps_setState hf.has hf.has hj, .inl (foundValue_mark hf.live hf.has)⟩
      · rw [hsafe.current] at hno
        obtain ⟨hv', hn'⟩ := hs' (after_mark_room h.holding h1 hcreates hno rfl hrt1 hcm1 hhw1) j hj
        rw [hrt1] at hv' hn'
        rw [hf.split]
        have hmark : SamePlace s.atRuntime j (pre ++ r :: post) (pre ++ r.mark :: post) :=
          .setState _ hf.has hj (r.not_erased_of_live hf.live) (Record.mark_ne hf.live)
        exact ⟨hv', hmark.trans hn'⟩
      · exact placed_of hp'
      · rw [hf.split]; exact fun h => hw' (h.setState (Record.mark_ne hf.live))

/-- With no old copy. -/
theorem updateVariable_not_found (h : Settled P s vol nv) (hr : P.RoomBehind)
    (hnv : NotFound s.atRuntime k vol) (hnn : NotFound s.atRuntime k nv) (hp : v.currPtr = 0)
    (hn : k.1.chars ≠ []) (ha : attributes < 0xffffffff)
    (hsz : isDelete attributes data = false → varSize k.1 data ≤ P.scratchSize)
    (hsafe : UpdateSafe P env k attributes data v s) :
    ∃ st s' vol' nv', updateVariable P env k.1 k.2 data attributes v s = (st, s') ∧
      Effect P k attributes data s vol nv st s' vol' nv' := by
  unfold updateVariable
  rw [show (decide (data.length = 0) || !hasAccess attributes) = isDelete attributes data from rfl]
  simp only [ne_eq, hp, not_true_eq_false, if_false]
  cases hd : isDelete attributes data with
  | true => exact ⟨_, _, _, _, rfl, .refused h rfl⟩
  | false =>
    simp only [Bool.false_eq_true, if_false]
    cases hrt : s.atRuntime && (attributes &&& efiVariableRuntimeAccess == 0 || !isNonVolatile attributes) with
    | true => exact ⟨_, _, _, _, rfl, .refused h rfl⟩
    | false =>
      simp only [Bool.false_eq_true, if_false]
      have hcreates : createsRecord attributes data v s = true := by
        unfold createsRecord
        rw [if_pos hp, hrt, hd]; rfl
      have hvis := hsafe.visible hcreates
      rw [visible_liveCopies s.atRuntime k h.holding.volatile P.volatileArea h.holding.volatile_good,
        visible_liveCopies s.atRuntime k h.holding.nonVolatile.holds P.nonVolatileArea
          h.holding.nonVolatile.good] at hvis
      have hempty : ∀ recs, NotFound s.atRuntime k recs → (∀ r ∈ copies k recs, r.isVisible s.atRuntime = true) →
          copies k recs = [] := fun recs hno hv => copies_eq_nil.mpr fun r hmem hl => by
        by_contra hk
        simp only [Bool.not_eq_false] at hk
        rw [hno r hmem hl (hv r (mem_copies.mpr ⟨hmem, hl, hk⟩))] at hk
        cases hk
      have hcv := hempty vol hnv hvis.1
      have hcn := hempty nv hnn hvis.2
      have hold : if isNonVolatile attributes then Old P k false v nv vol none else Old P k true v vol nv none := by
        split
        · exact .absent hcn hcv hp
        · exact .absent hcv hcn hp
      have hall : allCopies k vol nv = [] := by rw [allCopies, hcv, hcn]; rfl
      obtain ⟨st, s', vol', nv', he', h', hk', ho', ha', ht', hs', hp', hw'⟩ := createVariable_spec env
        (l := allCopies k vol nv) h.holding hr hn ha (hsz hd) hd hold (.inl hcv) (.inl ⟨hall, hall⟩)
        (fun hfull hnr => hsafe.after_mark h.holding h.holding hcreates rfl rfl rfl rfl rfl rfl
          (fun hkf => hkf) (fun hkf => hkf) (fun _ x hx => by cases hx) hfull hnr)
      refine ⟨st, s', vol', nv', he', ⟨h', apart_of_keeps h.apart ha' hk'⟩, hk', ho', ht', fun hno => ?_, placed_of hp', hw'⟩
      rw [hsafe.current] at hno
      exact hs' (after_mark_room h.holding h.holding hcreates hno rfl rfl rfl rfl)

/-- `UpdateVariable`, called with what `FindVariable` finds. -/
theorem updateVariable_spec (h : Settled P s vol nv) (hr : P.RoomBehind) (hn : k.1.chars ≠ [])
    (ha : attributes < 0xffffffff)
    (hsz : isDelete attributes data = false → varSize k.1 data ≤ P.scratchSize)
    (hsafe : UpdateSafe P env k attributes data v s) :
    ∃ st s' vol' nv', updateVariable P env k.1 k.2 data attributes v s = (st, s') ∧
      Effect P k attributes data s vol nv st s' vol' nv' := by
  have hf := hsafe.current ▸ (findVariable_spec h.holding.stores hn).2
  cases hf with
  | volatile hf hp hv => exact updateVariable_found_volatile h hr hf hp hv hn ha hsz hsafe
  | nonVolatile hf _ hp hv => exact updateVariable_found_nonVolatile h hr hf hp hv hn ha hsz hsafe
  | none hv hn' hp _ => exact updateVariable_not_found h hr hv hn' hp hn ha hsz hsafe

end

end Udk.Variable
