import Udk.Variable.Effect

/-! # What the function part of `UpdateVariable` does -/

open Udk.Bytes

namespace Udk.Variable

/-! ## The size of the buffer -/

/-- `Reclaim` asks for the copies that count, whatever their state. -/
theorem maximumBufferSize_eq {m : Memory} {base size : Nat} {recs : List Record} {tail : List Nat}
    (h : StoreHolds m base size recs) (ha : StoreArea base size)
    (hw : allHeaders m base = addresses (base + sizeofVariableStoreHeader) recs ++ tail)
    (ht : ∀ p ∈ tail, isAdded m p = false ∧ isInDeletedTransition m p = false) :
    maximumBufferSize m base =
      sizeofVariableStoreHeader + weight Record.claimed (recs.filter Record.isLive) + 1 := by
  have hsum : ∀ (recs : List Record) (a : Nat), a ≠ 0 → a % 4 = 0 → Holds m a recs →
      (((addresses a recs).filter fun p => isAdded m p || isInDeletedTransition m p).map (variableSize m)).sum =
        weight Record.claimed (recs.filter Record.isLive) := by
    intro recs
    induction recs with
    | nil => intro a _ _ _; rfl
    | cons r rs ih =>
      intro a ha h4 hh
      have := r.size_mod
      have ih := ih (a + r.size) (by omega) (by omega) hh.2
      have hl : (isAdded m a || isInDeletedTransition m a) = r.isLive := by
        rw [isAdded_of_at hh.1, isInDeletedTransition_of_at hh.1]; rfl
      rw [addresses]
      cases hr : r.isLive with
      | true =>
        rw [List.filter_cons_of_pos (by rw [hl, hr]), List.filter_cons_of_pos hr, List.map_cons, List.sum_cons,
          weight_cons, ih, variableSize, getNextVariablePtr_of_at ha h4 hh.1,
          r.size_of_not_erased (r.not_erased_of_live hr)]
        omega
      | false => rw [List.filter_cons_of_neg (by simp [hl, hr]), List.filter_cons_of_neg (by simp [hr]), ih]
  have htail : tail.filter (fun p => isAdded m p || isInDeletedTransition m p) = [] := by
    rw [List.filter_eq_nil_iff]
    intro p hp
    simp [ht p hp]
  have hb := ha.base_mod
  have hpos := ha.pos
  unfold maximumBufferSize
  rw [hw, List.filter_append, htail, List.append_nil, hsum recs _ (by omega)
    (by unfold sizeofVariableStoreHeader; omega) h.records]

/-! ## The cache -/

section
variable {P : Platform} {s : State} {vol nv : List Record}

theorem holding_cache (variableName : Name) (vendorGuid : Guid) (attributes : Nat) (data : List UInt8)
    (h : Holding P s vol nv) : Holding P (updateVariableCache variableName vendorGuid attributes data s) vol nv := by
  unfold updateVariableCache
  split
  · exact h
  · exact ⟨h.volatile, h.volatile_good, h.nonVolatile, h.volatileLast, h.nonVolatileLast, h.accounts⟩

theorem flashTrace_cache (variableName : Name) (vendorGuid : Guid) (attributes : Nat) (data : List UInt8) :
    (updateVariableCache variableName vendorGuid attributes data s).flashTrace = s.flashTrace := by
  unfold updateVariableCache; split <;> rfl

/-- The context after a call that writes the cache if it succeeds. -/
def contextAfter (k : Key) (attributes : Nat) (data : List UInt8) (st : EfiStatus) (c : Context) : Context :=
  if st.isError || c.atRuntime then c
  else { c with cache := c.cache.map (updateCacheEntry k.1 k.2 attributes data) }

theorem context_cache (k : Key) (attributes : Nat) (data : List UInt8) :
    (updateVariableCache k.1 k.2 attributes data s).context = contextAfter k attributes data .success s.context := by
  unfold updateVariableCache contextAfter
  cases h : s.atRuntime <;> simp [State.context, h, EfiStatus.isError]

theorem contextAfter_error (k : Key) (attributes : Nat) (data : List UInt8) {st : EfiStatus} (c : Context)
    (h : st.isError = true) : contextAfter k attributes data st c = c := by simp [contextAfter, h]

/-! ## Room for the new record -/

theorem overQuota_congr {s s' : State} (attributes size : Nat)
    (hm : storeSizeOf s'.mem P.nonVolatileVariableBase = storeSizeOf s.mem P.nonVolatileVariableBase)
    (hc : s'.commonVariableTotalSize = s.commonVariableTotalSize)
    (hh : s'.hwErrVariableTotalSize = s.hwErrVariableTotalSize) :
    overQuota P attributes size s' = overQuota P attributes size s := by
  unfold overQuota; rw [hm, hc, hh]

variable {env : Environment} {upd : Nat} {u : Option Record} {attributes size : Nat}

variable (env attributes size) in
theorem makeRoom_nonVolatile (h : Holding P s vol nv) (hu : Updating s.mem upd u)
    (hrec : overQuota P attributes size s = true → s.atRuntime = false →
      (∀ x, u = some x → x.isInDeleted = true ∧ x ∈ nv) ∧
        env.allocatePool s.reclaims (maximumBufferSize s.mem P.nonVolatileVariableBase) = true ∧
        (env.ftwWrite s.reclaims).isError = false) :
    (makeRoom P env false attributes size upd s = (.success, false, s) ∧ overQuota P attributes size s = false) ∨
    makeRoom P env false attributes size upd s = (.outOfResources, false, s) ∨
    (overQuota P attributes size s = true ∧ s.atRuntime = false ∧
      ∃ s', Holding P s' vol (reclaimed u nv) ∧ s'.context = s.context ∧
        Traces (fun m => NonVolatile P m (reclaimed u nv)) s s' ∧
        (makeRoom P env false attributes size upd s = (.outOfResources, false, s') ∨
          (makeRoom P env false attributes size upd s = (.success, true, s') ∧
            overQuota P attributes size s' = false))) := by
  unfold makeRoom
  simp only [Bool.false_eq_true, if_false, Bool.not_false, Bool.true_and]
  cases hq : overQuota P attributes size s with
  | false => left; simp
  | true =>
    cases hrt : s.atRuntime with
    | true => right; left; simp
    | false =>
      right; right
      obtain ⟨hux, halloc, hftw⟩ := hrec hq hrt
      obtain ⟨s', he, hh, hc, -, ht⟩ := reclaim_nonVolatile_spec h hu hux halloc hftw
      refine ⟨rfl, rfl, s', hh, hc, ht, ?_⟩
      simp only [he, Bool.not_true, Bool.false_eq_true, if_false, EfiStatus.isError]
      cases hq' : overQuota P attributes size s' with
      | true => left; simp
      | false => right; simp

variable (env size) in
theorem makeRoom_volatile {variableName : Name} {vendorGuid : Guid} {data : List UInt8}
    (h : Holding P s vol nv) (hr : P.RoomBehind) (hst : Storable variableName attributes data)
    (hscratch : At s.mem (P.volatileVariableBase + P.pcdVariableStoreSize)
      (newHeader variableName vendorGuid attributes data 0xff ++ newBody variableName data))
    (hn : variableName.chars ≠ []) (hu : Updating s.mem upd u)
    (hrec : overVolatileSize P size s = true → (∀ x, u = some x → x.isInDeleted = true ∧ x ∈ vol) ∧
      WalkStops P s variableName) :
    (makeRoom P env true attributes size upd s = (.success, false, s) ∧ overVolatileSize P size s = false) ∨
    (∃ s', makeRoom P env true attributes size upd s = (.outOfResources, false, s') ∧ Holding P s' vol nv ∧
      s'.context = s.context ∧ s'.flashTrace = s.flashTrace) ∨
    (overVolatileSize P size s = true ∧
      ∃ s', Holding P s' (reclaimed u vol) nv ∧ s'.context = s.context ∧ s'.flashTrace = s.flashTrace ∧
        (makeRoom P env true attributes size upd s = (.outOfResources, false, s') ∨
          (makeRoom P env true attributes size upd s = (.success, true, s') ∧
            overVolatileSize P size s' = false))) := by
  unfold makeRoom
  simp only [if_true, Bool.not_true, Bool.false_and, Bool.false_eq_true, if_false]
  cases hq : overVolatileSize P size s with
  | false => left; simp
  | true =>
    obtain ⟨hux, hstop⟩ := hrec hq
    rcases reclaim_volatile_spec env h hr hst hscratch hn hstop hu hux with
      ⟨s', he, hh, hc, ht⟩ | ⟨s', he, hh, hc, ht⟩
    · right; left
      refine ⟨s', ?_, hh, hc, ht⟩
      simp [he, EfiStatus.isError]
    · right; right
      refine ⟨rfl, s', hh, hc, ht, ?_⟩
      simp only [he, Bool.not_true, Bool.false_eq_true, if_false, EfiStatus.isError]
      cases hq' : overVolatileSize P size s' with
      | true => left; simp
      | false => right; simp

end

/-! ## The function part -/

/-- The flash holds a store in which every variable but `k` keeps its value, and `k` has its value in
`nv` or in `nv'`. -/
def Snapshot (P : Platform) (k : Key) (nv nv' : List Record) (m : Memory) : Prop :=
  ∃ x, NonVolatile P m x ∧ (∀ j ≠ k, Keeps false j nv x) ∧
    (foundValue false k x = foundValue false k nv ∨ foundValue false k x = foundValue false k nv')

theorem foundValue_reclaimed {P : Platform} {isVolatile : Bool} {k : Key} {v : VariablePointerTrack}
    {xs ys : List Record} {u : Option Record} (ho : Old P k isVolatile v xs ys u)
    (hx : ∀ x, u = some x → x ∈ xs) : foundValue false k (reclaimed u xs) = foundValue false k xs := by
  rcases (ho.copies_reclaimed hx).1 with h | ⟨r, h1, h2⟩
  · exact foundValue_congr h
  · rw [foundValue, foundValue, found_eq, found_eq, h1, lastVisible_boot, lastVisible_boot, h2]; rfl

section
variable {P : Platform} {s : State} {vol nv : List Record} {k : Key} {attributes : Nat}
  {data : List UInt8} {v : VariablePointerTrack} {u : Option Record}

theorem Old.updating (isVolatile : Bool) (ho : Old P k isVolatile v (if isVolatile then vol else nv)
    (if isVolatile then nv else vol) u) (h : Holding P s vol nv) : Updating s.mem v.currPtr u := by
  have hat : ∀ {pre post : List Record} {r : Record} (b : Bool), (if b then vol else nv) = pre ++ r :: post →
      r.isInDeleted = true → v.currPtr = recordAt (P.base b) pre → Updating s.mem v.currPtr (some r) := by
    intro pre post r b hs hd hp
    rw [hp]
    cases b with
    | true =>
      have := recordAt_mod P.volatileArea pre
      simp only [if_true] at hs
      exact .some this.1 this.2 (holds_split (hs ▸ h.volatile.records)) (isLive_of_inDeleted hd)
    | false =>
      have := recordAt_mod P.nonVolatileArea pre
      simp only [Bool.false_eq_true, if_false] at hs
      exact .some this.1 this.2 (holds_split (hs ▸ h.nonVolatile.holds.records)) (isLive_of_inDeleted hd)
  cases ho with
  | absent _ _ hp => rw [hp]; exact .none
  | here hs hd _ _ _ hp => exact hat isVolatile hs hd hp
  | @there pre r post hs hd _ _ _ _ hp =>
    have hs' : (if !isVolatile then vol else nv) = pre ++ r :: post := by
      cases isVolatile <;> exact hs
    exact hat (!isVolatile) hs' hd hp

theorem erase_not_added {r : Record} (hl : r.isLive = true) :
    (r.setState (r.state &&& varDeleted)).isAdded = true → r.isAdded = true := by
  intro h
  have := isLive_of_added h
  rw [show r.setState (r.state &&& varDeleted) = r.erase from rfl, Record.erase_not_live hl] at this
  cases this

/-- The function part for a non-volatile variable. -/
theorem createVariable_nonVolatile (env : Environment) (h : Holding P s vol nv) (hr : P.RoomBehind)
    (ho : Old P k false v nv vol u) (hst : Storable k.1 attributes data)
    (hsz : varSize k.1 data ≤ P.scratchSize) (hn : k.1.chars ≠ []) (hd : data ≠ [])
    (hattr : isNonVolatile attributes = true)
    (hrec : overQuota P attributes (varSize k.1 data) s = true → s.atRuntime = false →
      (∀ x, u = some x → x ∈ nv) ∧ KeepsFound false k nv ∧
        env.allocatePool s.reclaims (maximumBufferSize s.mem P.nonVolatileVariableBase) = true ∧
        (env.ftwWrite s.reclaims).isError = false) :
    ∃ st s' vol' nv', createVariable P env k.1 k.2 data attributes v s = (st, s') ∧ Holding P s' vol' nv' ∧
      (∀ b, (s.atRuntime = false → b = false) → Creates b k (attributes, data) st
        (overQuota P attributes (varSize k.1 data) s && !s.atRuntime) u nv vol nv' vol') ∧
      s'.context = contextAfter k attributes data st s.context ∧ Traces (Snapshot P k nv nv') s s' := by
  let new := newRecord k.1 k.2 attributes data hst varAdded
  have hnk : new.has k = true := newRecord_has hst varAdded
  have hna : new.isAdded = true := rfl
  have hnv : new.value = (attributes, data) := by
    simp only [Record.value, new, newRecord_data]; rfl
  let s1 := buildScratch P k.1 k.2 attributes data s
  have h1 : Holding P s1 vol nv := buildScratch_holding h hr hsz
  have hq1 : overQuota P attributes (varSize k.1 data) s1 = overQuota P attributes (varSize k.1 data) s :=
    overQuota_congr _ _ (by rw [h1.nonVolatile.holds.size_eq, h.nonVolatile.holds.size_eq]) rfl rfl
  have hmax : maximumBufferSize s1.mem P.nonVolatileVariableBase =
      maximumBufferSize s.mem P.nonVolatileVariableBase := by
    have e : ∀ {s : State}, Holding P s vol nv → allHeaders s.mem P.nonVolatileVariableBase =
        addresses (P.nonVolatileVariableBase + sizeofVariableStoreHeader) nv ++ [] := fun h => by
      rw [h.nonVolatile.holds.allHeaders_eq_of_guard P.nonVolatileArea h.nonVolatile.guard, List.append_nil]
    rw [maximumBufferSize_eq h1.nonVolatile.holds P.nonVolatileArea (e h1) (by simp),
      maximumBufferSize_eq h.nonVolatile.holds P.nonVolatileArea (e h) (by simp)]
  have hdel : ∀ x, u = some x → x.isInDeleted = true := by
    cases ho with
    | absent => simp
    | here _ hd => rintro x ⟨⟩; exact hd
    | there _ hd => rintro x ⟨⟩; exact hd
  have hsuccess : EfiStatus.success.isError = false := rfl
  have hoor : EfiStatus.outOfResources.isError = true := rfl
  have ht1 : ∀ Q : Memory → Prop, Traces Q s s1 := fun Q => .of_eq rfl
  have hroom := makeRoom_nonVolatile env attributes (varSize k.1 data) h1
    (Old.updating false ho h1) (fun hq hrt => by
      rw [hq1] at hq
      obtain ⟨hx, -, ha, hf⟩ := hrec hq hrt
      exact ⟨fun x hu => ⟨hdel x hu, hx x hu⟩, by rw [hmax]; exact ha, hf⟩)
  unfold createVariable
  simp only [hattr, Bool.not_true, Bool.false_eq_true, if_false]
  rcases hroom with ⟨hm, hq⟩ | hm | ⟨hq, hrt, s2, h2, hc2, ht2, hm⟩
  · -- there is room
    obtain ⟨s3, hw, h3, hc3, -, ht3⟩ := writeNonVolatile_spec h1 hr hst hn hd hattr hq
      (ho.not_added h.nonVolatile.good)
    simp only [s1] at hm hw
    simp only [hm, hw, hsuccess, Bool.false_eq_true, if_false, Bool.not_false, Bool.true_and]
    have htr : ∀ nv', foundValue false k nv' = foundValue false k (nv ++ [new]) →
        Traces (Snapshot P k nv nv') s s3 := fun nv' hf => (ht1 _).trans (ht3.mono fun m hm => by
      obtain ⟨x, hx, hl | rfl⟩ := hm
      · exact ⟨_, hx, fun j _ => .same (copies_snoc_dead hl), .inl (foundValue_congr (copies_snoc_dead hl))⟩
      · exact ⟨_, hx, fun j hj => .same (copies_snoc_other hnk hj), .inr hf.symm⟩)
    cases ho with
    | absent hx hy hp =>
      simp only [hp, bne_self_eq_false, Bool.false_eq_true, if_false, hsuccess]
      refine ⟨_, _, vol, nv ++ [new], rfl, holding_cache _ _ _ _ h3, fun _ _ => hnv ▸ creates_added hnk hna hx hy, ?_, ?_⟩
      · rw [context_cache, hc3]; rfl
      · exact (htr _ rfl).trans (.of_eq (flashTrace_cache ..))
    | @here pre r post hs hrd hk hpost hy hp hv =>
      have hl := isLive_of_inDeleted hrd
      have hcur : (v.currPtr != 0) = true := by
        rw [hp]; exact bne_iff_ne.mpr (recordAt_mod P.nonVolatileArea pre).1
      subst hs
      rw [List.append_assoc, List.cons_append] at h3
      obtain ⟨s4, he, h4, hc4, ht4, -⟩ := updateState_nonVolatile varDeleted h3 hr hl (Record.erase_ne hl)
        (erase_not_added hl) hp hv
      simp only [hcur, if_true, he, hsuccess, Bool.false_eq_true, if_false]
      refine ⟨_, _, vol, pre ++ r.erase :: (post ++ [new]), rfl, holding_cache _ _ _ _ h4,
        fun _ _ => hnv ▸ creates_replaced hnk hna h.nonVolatile.good hrd hk hpost hy, ?_, ?_⟩
      · rw [context_cache, hc4, hc3]; rfl
      · have hval : foundValue false k (pre ++ r.erase :: (post ++ [new])) =
            foundValue false k (pre ++ r :: post ++ [new]) := by
          rw [foundValue, foundValue, found_eq, found_eq, copies_erase hl, copies_snoc hnk hna,
            copies_snoc hnk hna, lastVisible_boot, lastVisible_boot]
          simp
        refine ((htr _ hval).trans (ht4.mono fun m hm => ?_)).trans (.of_eq (flashTrace_cache ..))
        refine ⟨_, hm, fun j hj => .same ?_, .inr rfl⟩
        rw [show r.setState (r.state &&& varDeleted) = r.erase from rfl, copies_erase hl,
          copies_mid_other hk hj, copies_snoc_other hnk hj]
    | @there pre r post hs hrd hk hpre hpost hx hp hv =>
      have hl := isLive_of_inDeleted hrd
      have hcur : (v.currPtr != 0) = true := by
        rw [hp]; exact bne_iff_ne.mpr (recordAt_mod P.volatileArea pre).1
      subst hs
      obtain ⟨s4, he, h4, hc4, ht4, -⟩ := updateState_volatile varDeleted h3 hr hl (Record.erase_ne hl)
        (erase_not_added hl) hp hv
      simp only [hcur, if_true, he, hsuccess, Bool.false_eq_true, if_false]
      refine ⟨_, _, pre ++ r.erase :: post, nv ++ [new], rfl, holding_cache _ _ _ _ h4,
        fun _ _ => hnv ▸ creates_moved hnk hna hrd hk hpre hpost hx, ?_, ?_⟩
      · rw [context_cache, hc4, hc3]; rfl
      · exact (htr _ rfl).trans ((Traces.of_eq ht4).trans (.of_eq (flashTrace_cache ..)))
  · -- no `Reclaim` at runtime
    simp only [s1] at hm
    simp only [hm, hoor, if_true]
    exact ⟨_, _, vol, nv, rfl, h1, fun _ _ => creates_failed rfl, rfl, ht1 _⟩
  · -- after `Reclaim`
    rw [hq1] at hq
    have hrt' : s.atRuntime = false := hrt
    obtain ⟨hx, hkf, -, -⟩ := hrec hq hrt'
    have hfull : (overQuota P attributes (varSize k.1 data) s && !s.atRuntime) = true := by rw [hq, hrt']; rfl
    have hkf' : ∀ b, (s.atRuntime = false → b = false) → KeepsFound b k nv := fun b hb => (hb hrt').symm ▸ hkf
    have hval := foundValue_reclaimed ho hx
    have hkeeps : ∀ j ≠ k, Keeps false j nv (reclaimed u nv) := fun j hj => ho.keeps_reclaimed hkf hj
    have ht2' : ∀ nv', Traces (Snapshot P k nv nv') s s2 := fun nv' =>
      (ht1 _).trans (ht2.mono fun m hm => ⟨_, hm, hkeeps, .inl hval⟩)
    simp only [s1] at hm
    rcases hm with hm | ⟨hm, hq2⟩
    · simp only [hm, hoor, if_true]
      exact ⟨_, _, vol, reclaimed u nv, rfl, h2,
        fun b hb => creates_compactedFailed rfl hfull ho hx (hkf' b hb), hc2, ht2' _⟩
    · have hgone : ∀ r ∈ reclaimed u nv, r.isAdded = true → r.has k = false := by
        intro r hmem ha
        by_contra hk
        simp only [Bool.not_eq_false] at hk
        have := (ho.copies_reclaimed hx).2.1 r (mem_copies.mpr ⟨hmem, isLive_of_added ha, hk⟩)
        rw [r.inDeleted_not_added this] at ha; cases ha
      obtain ⟨s3, hw, h3, hc3, -, ht3⟩ := writeNonVolatile_spec h2 hr hst hn hd hattr hq2 hgone
      simp only [hm, hw, hsuccess, Bool.false_eq_true, if_false, Bool.not_true, Bool.false_and]
      refine ⟨_, _, vol, reclaimed u nv ++ [new], rfl, holding_cache _ _ _ _ h3,
        fun b hb => hnv ▸ creates_compacted hnk hna hfull ho hx (hkf' b hb), ?_, ?_⟩
      · rw [context_cache, hc3, hc2]; rfl
      · refine ((ht2' _).trans (ht3.mono fun m hm => ?_)).trans (.of_eq (flashTrace_cache ..))
        obtain ⟨x, hx', hl | rfl⟩ := hm
        · exact ⟨_, hx', fun j hj => (hkeeps j hj).of_copies (copies_snoc_dead hl),
            .inl ((foundValue_congr (copies_snoc_dead hl)).trans hval)⟩
        · exact ⟨_, hx', fun j hj => (hkeeps j hj).of_copies (copies_snoc_other hnk hj), .inr rfl⟩

/-- The function part for a volatile variable. -/
theorem createVariable_volatile (env : Environment) (h : Holding P s vol nv) (hr : P.RoomBehind)
    (ho : Old P k true v vol nv u) (hst : Storable k.1 attributes data)
    (hsz : varSize k.1 data ≤ P.scratchSize) (hn : k.1.chars ≠ []) (hd : data ≠ [])
    (hattr : isNonVolatile attributes = false)
    (hrec : overVolatileSize P (varSize k.1 data) s = true →
      (∀ x, u = some x → x ∈ vol) ∧ KeepsFound s.atRuntime k vol ∧ WalkStops P s k.1) :
    ∃ st s' vol' nv', createVariable P env k.1 k.2 data attributes v s = (st, s') ∧ Holding P s' vol' nv' ∧
      Creates s.atRuntime k (attributes, data) st (overVolatileSize P (varSize k.1 data) s) u vol nv vol' nv' ∧
      s'.context = contextAfter k attributes data st s.context ∧ Traces (Snapshot P k nv nv') s s' := by
  let new := newRecord k.1 k.2 attributes data hst varAdded
  have hnk : new.has k = true := newRecord_has hst varAdded
  have hna : new.isAdded = true := rfl
  have hnv : new.value = (attributes, data) := by
    simp only [Record.value, new, newRecord_data]; rfl
  let s1 := buildScratch P k.1 k.2 attributes data s
  have h1 : Holding P s1 vol nv := buildScratch_holding h hr hsz
  have hq1 : overVolatileSize P (varSize k.1 data) s1 = overVolatileSize P (varSize k.1 data) s := by
    unfold overVolatileSize
    rw [h1.volatile.size_eq, h.volatile.size_eq]; rfl
  have hdel : ∀ x, u = some x → x.isInDeleted = true := by
    cases ho with
    | absent => simp
    | here _ hd => rintro x ⟨⟩; exact hd
    | there _ hd => rintro x ⟨⟩; exact hd
  have hsuccess : EfiStatus.success.isError = false := rfl
  have hoor : EfiStatus.outOfResources.isError = true := rfl
  have hinv : EfiStatus.invalidParameter.isError = true := rfl
  have ht1 : ∀ Q : Memory → Prop, Traces Q s s1 := fun Q => .of_eq rfl
  have hroom := makeRoom_volatile env (varSize k.1 data) h1 hr hst
    (buildScratch_at h.volatile) hn (Old.updating true ho h1) (fun hq => by
      rw [hq1] at hq
      obtain ⟨hx, -, hstop⟩ := hrec hq
      exact ⟨fun x hu => ⟨hdel x hu, hx x hu⟩, hstop⟩)
  unfold createVariable
  simp only [hattr, Bool.not_false, if_true]
  rcases hroom with ⟨hm, hq⟩ | ⟨s2, hm, h2, hc2, ht2⟩ | ⟨hq, s2, h2, hc2, ht2, hm⟩
  · -- there is room
    simp only [s1] at hm
    rcases writeVolatile_spec h1 hr hst hsz hn hd hq (ho.not_added h.volatile_good) with
      hw | ⟨s3, hw, h3, hc3, ht3, -⟩
    · simp only [s1] at hw
      simp only [hm, hw, hsuccess, hinv, Bool.false_eq_true, if_false, if_true]
      exact ⟨_, _, vol, nv, rfl, h1, creates_failed rfl, rfl, ht1 _⟩
    · simp only [s1] at hw
      simp only [hm, hw, hsuccess, Bool.false_eq_true, if_false, Bool.not_false, Bool.true_and]
      cases ho with
      | absent hx hy hp =>
        simp only [hp, bne_self_eq_false, Bool.false_eq_true, if_false, hsuccess]
        refine ⟨_, _, vol ++ [new], nv, rfl, holding_cache _ _ _ _ h3, hnv ▸ creates_added hnk hna hx hy, ?_, ?_⟩
        · rw [context_cache, hc3]; rfl
        · exact ((ht1 _).trans (.of_eq ht3)).trans (.of_eq (flashTrace_cache ..))
      | @here pre r post hs hrd hk hpost hy hp hv =>
        have hl := isLive_of_inDeleted hrd
        have hcur : (v.currPtr != 0) = true := by
          rw [hp]; exact bne_iff_ne.mpr (recordAt_mod P.volatileArea pre).1
        subst hs
        rw [List.append_assoc, List.cons_append] at h3
        obtain ⟨s4, he, h4, hc4, ht4, -⟩ := updateState_volatile varDeleted h3 hr hl (Record.erase_ne hl)
          (erase_not_added hl) hp hv
        simp only [hcur, if_true, he, hsuccess, Bool.false_eq_true, if_false]
        refine ⟨_, _, pre ++ r.erase :: (post ++ [new]), nv, rfl, holding_cache _ _ _ _ h4,
          hnv ▸ creates_replaced hnk hna h.volatile_good hrd hk hpost hy, ?_, ?_⟩
        · rw [context_cache, hc4, hc3]; rfl
        · exact (((ht1 _).trans (.of_eq ht3)).trans (.of_eq ht4)).trans (.of_eq (flashTrace_cache ..))
      | @there pre r post hs hrd hk hpre hpost hx hp hv =>
        have hl := isLive_of_inDeleted hrd
        have hcur : (v.currPtr != 0) = true := by
          rw [hp]; exact bne_iff_ne.mpr (recordAt_mod P.nonVolatileArea pre).1
        subst hs
        obtain ⟨s4, he, h4, hc4, ht4, -⟩ := updateState_nonVolatile varDeleted h3 hr hl (Record.erase_ne hl)
          (erase_not_added hl) hp hv
        simp only [hcur, if_true, he, hsuccess, Bool.false_eq_true, if_false]
        refine ⟨_, _, vol ++ [new], pre ++ r.erase :: post, rfl, holding_cache _ _ _ _ h4,
          hnv ▸ creates_moved hnk hna hrd hk hpre hpost hx, ?_, ?_⟩
        · rw [context_cache, hc4, hc3]; rfl
        · refine (((ht1 _).trans (.of_eq ht3)).trans (ht4.mono fun m hm => ?_)).trans
            (.of_eq (flashTrace_cache ..))
          refine ⟨_, hm, fun j hj => .same ?_, .inr rfl⟩
          rw [show r.setState (r.state &&& varDeleted) = r.erase from rfl, copies_erase hl,
            copies_mid_other hk hj]
  · -- `Reclaim` gets no buffer
    simp only [s1] at hm
    simp only [hm, hoor, if_true]
    exact ⟨_, _, vol, nv, rfl, h2, creates_failed rfl, hc2, (ht1 _).trans (.of_eq ht2)⟩
  · -- after `Reclaim`
    rw [hq1] at hq
    obtain ⟨hx, hkf, -⟩ := hrec hq
    simp only [s1] at hm
    rcases hm with hm | ⟨hm, hq2⟩
    · simp only [hm, hoor, if_true]
      exact ⟨_, _, reclaimed u vol, nv, rfl, h2, creates_compactedFailed rfl hq ho hx hkf, hc2,
        (ht1 _).trans (.of_eq ht2)⟩
    · have hgone : ∀ r ∈ reclaimed u vol, r.isAdded = true → r.has k = false := by
        intro r hmem ha
        by_contra hk
        simp only [Bool.not_eq_false] at hk
        have := (ho.copies_reclaimed hx).2.1 r (mem_copies.mpr ⟨hmem, isLive_of_added ha, hk⟩)
        rw [r.inDeleted_not_added this] at ha; cases ha
      rcases writeVolatile_spec h2 hr hst hsz hn hd hq2 hgone with hw | ⟨s3, hw, h3, hc3, ht3, -⟩
      · simp only [hm, hw, hsuccess, hinv, Bool.false_eq_true, if_false, if_true]
        exact ⟨_, _, reclaimed u vol, nv, rfl, h2, creates_compactedFailed rfl hq ho hx hkf, hc2,
          (ht1 _).trans (.of_eq ht2)⟩
      · simp only [hm, hw, hsuccess, Bool.false_eq_true, if_false, Bool.not_true, Bool.false_and]
        refine ⟨_, _, reclaimed u vol ++ [new], nv, rfl, holding_cache _ _ _ _ h3,
          hnv ▸ creates_compacted hnk hna hq ho hx hkf, ?_, ?_⟩
        · rw [context_cache, hc3, hc2]; rfl
        · exact (((ht1 _).trans (.of_eq ht2)).trans (.of_eq ht3)).trans (.of_eq (flashTrace_cache ..))

end

end Udk.Variable
