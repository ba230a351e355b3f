import Udk.Variable.Reachable

/-! # What `GetVariable` returns -/

open Udk.Bytes

namespace Udk.Variable

/-! ## The stores -/

/-- What `GetVariable` makes of a value. -/
def answer (value : Option (Nat × List UInt8)) (wantAttributes : Bool) (dataSize : Nat) (hasData : Bool) : GetResult :=
  match value with
  | some (attributes, data) =>
    if data.length ≤ dataSize then
      if !hasData then .unchanged .invalidParameter dataSize
      else ⟨.success, data.length, data, if wantAttributes then some attributes else none⟩
    else .unchanged .bufferTooSmall data.length
  | none => .unchanged .notFound dataSize

section
variable {P : Platform} {s : State} {vol nv : List Record} {k : Key}

theorem isFound_at {m : Memory} {base size : Nat} {recs pre post : List Record} {r : Record} {b : Bool}
    (h : StoreHolds m base size recs) (hf : IsFound b k recs pre r post) : At m (recordAt base pre) r.bytes :=
  holds_split (hf.split ▸ h.records)

theorem foundValue_of_isFound {recs pre post : List Record} {r : Record} {b : Bool}
    (hf : IsFound b k recs pre r post) : foundValue b k recs = some r.value := by rw [foundValue, hf.found_eq]; rfl

theorem foundValue_of_notFound {recs : List Record} {b : Bool} (hf : NotFound b k recs) :
    foundValue b k recs = none := by rw [foundValue, hf.found_eq]; rfl

/-- What is found in a store, with its address. -/
theorem storedValue_of_at {m : Memory} {r : Record} {p : Nat} (h : At m p r.bytes) (hl : r.isLive = true) :
    (attributesOf m p, dataOf m p) = r.value ∧ dataSizeOfVariable m p = r.data.length := by
  have he := r.not_erased_of_live hl
  rw [attributesOf_of_at h, dataOf_of_at h he, dataSizeOfVariable_of_at h, he, r.data_length]
  exact ⟨rfl, rfl⟩

theorem storedValue_eq (h : Stores P s.mem vol nv) (hk : k.1.chars ≠ []) :
    storedValue P s k = heldValue s.atRuntime k vol nv := by
  obtain ⟨hst, hf⟩ := findVariable_spec (s := s) h hk
  have hpos := P.volatile_pos
  have hpos' := P.nonVolatile_pos
  unfold storedValue heldValue
  generalize findVariable P k.1 k.2 s = x at hst hf
  obtain ⟨st, v⟩ := x
  simp only at hst hf ⊢
  cases hf with
  | @volatile pre r post hf hp hv =>
    have hne : v.currPtr ≠ 0 := by rw [hp]; exact (recordAt_mod P.volatileArea pre).1
    rw [if_neg hne] at hst
    rw [hst, foundValue_of_isFound hf]
    simp only [Option.some_or]
    rw [hp, (storedValue_of_at (isFound_at h.volatile hf) hf.live).1]
  | @nonVolatile pre r post hf hno hp hv =>
    have hne : v.currPtr ≠ 0 := by rw [hp]; exact (recordAt_mod P.nonVolatileArea pre).1
    rw [if_neg hne] at hst
    rw [hst, foundValue_of_isFound hf, foundValue_of_notFound hno]
    simp only [Option.none_or]
    rw [hp, (storedValue_of_at (isFound_at h.nonVolatile hf) hf.live).1]
  | none hv hn hp =>
    rw [if_pos hp] at hst
    rw [hst, foundValue_of_notFound hv, foundValue_of_notFound hn]
    rfl

theorem findVariable_cases (P : Platform) (k : Key) (s : State) :
    (findVariable P k.1 k.2 s).1 = .success ∨ (findVariable P k.1 k.2 s).1 = .notFound := by
  unfold findVariable
  split
  · exact .inl rfl
  · split
    · exact .inl rfl
    · exact .inr rfl

/-- The path without the cache answers with the stored value. -/
theorem getVariableFromStore_eq (P : Platform) (k : Key) (s : State) (wantAttributes : Bool) (dataSize : Nat)
    (hasData : Bool) : (getVariableFromStore P k.1 k.2 wantAttributes dataSize hasData s).1 =
      answer (storedValue P s k) wantAttributes dataSize hasData := by
  have hst := findVariable_cases P k s
  have hlen : ∀ p, (dataOf s.mem p).length = dataSizeOfVariable s.mem p := fun p => read_length _ _ _
  unfold getVariableFromStore storedValue answer
  generalize findVariable P k.1 k.2 s = x at hst
  obtain ⟨st, v⟩ := x
  rcases hst with rfl | rfl
  · simp only [hlen]
    split
    · split <;> rfl
    · rfl
  · rfl

end

/-! ## The cache -/

/-- The entry that a lookup in the cache takes. -/
def cacheEntry (cache : List CacheEntry) (k : Name × Guid) : Option CacheEntry :=
  cache.find? fun e => k.2 = e.guid ∧ k.1 = e.name

/-- The entry of `k` is empty or has the value. -/
def CacheHolds (cache : List CacheEntry) (k : Name × Guid) (value : Option (Nat × List UInt8)) : Prop :=
  ∀ e, cacheEntry cache k = some e → e.dataSize ≠ 0 → e.data.length = e.dataSize ∧ value = some (e.attributes, e.data)

theorem updateCacheEntry_key (k : Name × Guid) (attributes : Nat) (data : List UInt8) (e : CacheEntry) :
    (updateCacheEntry k.1 k.2 attributes data e).name = e.name ∧
      (updateCacheEntry k.1 k.2 attributes data e).guid = e.guid := by
  unfold updateCacheEntry
  split
  · split <;> exact ⟨rfl, rfl⟩
  · exact ⟨rfl, rfl⟩

theorem cacheEntry_map (cache : List CacheEntry) (k j : Name × Guid) (attributes : Nat) (data : List UInt8) :
    cacheEntry (cache.map (updateCacheEntry k.1 k.2 attributes data)) j =
      (cacheEntry cache j).map (updateCacheEntry k.1 k.2 attributes data) := by
  unfold cacheEntry
  rw [List.find?_map]
  congr 2
  funext e
  obtain ⟨hn, hg⟩ := updateCacheEntry_key k attributes data e
  simp only [Function.comp_apply, hn, hg]

theorem cacheEntry_name {cache : List CacheEntry} {k : Name × Guid} {e : CacheEntry}
    (h : cacheEntry cache k = some e) : k.2 = e.guid ∧ k.1 = e.name := by
  simpa using List.find?_some h

/-- The entries of other variables are left alone. -/
theorem cacheEntry_map_other (cache : List CacheEntry) {k j : Name × Guid} (attributes : Nat) (data : List UInt8)
    (hj : j ≠ k) :
    cacheEntry (cache.map (updateCacheEntry k.1 k.2 attributes data)) j = cacheEntry cache j := by
  rw [cacheEntry_map]
  cases h : cacheEntry cache j with
  | none => rfl
  | some e =>
    obtain ⟨hg, hn⟩ := cacheEntry_name h
    simp only [Option.map_some, Option.some.injEq]
    unfold updateCacheEntry
    rw [if_neg]
    rintro ⟨hg', hn'⟩
    exact hj (Prod.ext (hn.trans hn'.symm) (hg.trans hg'.symm))

/-- An entry that is written has the value that is written; a deletion makes it empty. -/
theorem cacheHolds_map (cache : List CacheEntry) (k : Name × Guid) (attributes : Nat) (data : List UInt8)
    (value : Option (Nat × List UInt8)) (h : data ≠ [] → value = some (attributes, data)) :
    CacheHolds (cache.map (updateCacheEntry k.1 k.2 attributes data)) k value := by
  intro e he hne
  rw [cacheEntry_map] at he
  cases hc : cacheEntry cache k with
  | none => rw [hc] at he; cases he
  | some e' =>
    rw [hc] at he
    obtain rfl := Option.some.inj he
    unfold updateCacheEntry at hne ⊢
    rw [if_pos (cacheEntry_name hc)] at hne ⊢
    by_cases hd : data.length = 0
    · rw [if_pos hd] at hne
      exact absurd rfl hne
    · rw [if_neg hd]
      exact ⟨rfl, h fun h0 => hd (by rw [h0]; rfl)⟩

theorem cacheHolds_absent {cache : List CacheEntry} {k : Name × Guid} (value : Option (Nat × List UInt8))
    (h : cacheEntry cache k = none) : CacheHolds cache k value := by
  intro e he
  rw [h] at he; cases he

theorem cacheHolds_loaded (k : Name × Guid) (value : Option (Nat × List UInt8)) : CacheHolds mVariableCache k value := by
  intro e he hne
  have := List.mem_of_find?_eq_some he
  simp only [mVariableCache, List.mem_cons, List.not_mem_nil, or_false] at this
  rcases this with rfl | rfl <;> exact absurd rfl hne

/-! ## `GetVariable` -/

/-- A call of `GetVariable` for `k`. -/
structure GetCall.For (q : GetCall) (k : Name × Guid) (dataSize : Nat) : Prop where
  variableName : q.variableName = some k.1
  vendorGuid : q.vendorGuid = some k.2
  dataSize : q.dataSize = some dataSize

section
variable {P : Platform} {s s' : State} {vol nv : List Record} {k : Key} {q : GetCall} {dataSize : Nat}

theorem getVariable_for {r : GetResult} (hq : q.For k dataSize)
    (hr : findVariableInCache k.1 k.2 q.wantAttributes dataSize s = r) :
    runtimeServiceGetVariable P q s =
      if r.status = .bufferTooSmall ∨ r.status = .success then (r, s)
      else getVariableFromStore P k.1 k.2 q.wantAttributes dataSize q.hasData s := by
  unfold runtimeServiceGetVariable
  rw [hq.variableName, hq.vendorGuid, hq.dataSize]
  subst hr
  rfl

/-- The cache, the stored value and the phase decide the answer. -/
theorem getVariable_congr (hq : q.For k dataSize) (hrt : s'.atRuntime = s.atRuntime)
    (hc : cacheEntry s'.cache k = cacheEntry s.cache k) (hv : storedValue P s' k = storedValue P s k) :
    (runtimeServiceGetVariable P q s').1 = (runtimeServiceGetVariable P q s).1 := by
  have hcache : findVariableInCache k.1 k.2 q.wantAttributes dataSize s' =
      findVariableInCache k.1 k.2 q.wantAttributes dataSize s := by
    unfold findVariableInCache
    unfold cacheEntry at hc
    rw [hrt, hc]
  rw [getVariable_for hq hcache, getVariable_for (s := s) hq rfl]
  split
  · rfl
  · rw [getVariableFromStore_eq, getVariableFromStore_eq, hv]

/-- The cache does not answer, or there is a buffer. A hit does not look at `Data`. -/
def HitHasData (q : GetCall) (k : Name × Guid) (dataSize : Nat) (s : State) : Prop :=
  q.hasData = true ∨ ∀ e, cacheEntry s.cache k = some e → e.dataSize = 0 ∨ dataSize < e.dataSize

/-- A call answers with the stored value, from the cache or not. -/
theorem getVariable_eq (hq : q.For k dataSize)
    (hd : s.atRuntime = false → HitHasData q k dataSize s)
    (hc : s.atRuntime = false → CacheHolds s.cache k (storedValue P s k)) :
    (runtimeServiceGetVariable P q s).1 = answer (storedValue P s k) q.wantAttributes dataSize q.hasData := by
  have hstore := getVariableFromStore_eq P k s q.wantAttributes dataSize q.hasData
  have hmiss : findVariableInCache k.1 k.2 q.wantAttributes dataSize s = .unchanged .notFound dataSize →
      (runtimeServiceGetVariable P q s).1 = answer (storedValue P s k) q.wantAttributes dataSize q.hasData := fun hr => by
    rw [getVariable_for hq hr]
    exact hstore
  cases hrt : s.atRuntime with
  | true => exact hmiss (by unfold findVariableInCache; rw [if_pos hrt])
  | false =>
    cases he : cacheEntry s.cache k with
    | none => exact hmiss (by unfold cacheEntry at he; unfold findVariableInCache; simp only [hrt, he]; rfl)
    | some e =>
      have hr : findVariableInCache k.1 k.2 q.wantAttributes dataSize s =
          if e.dataSize = 0 then .unchanged .notFound dataSize
          else if dataSize < e.dataSize then .unchanged .bufferTooSmall e.dataSize
          else ⟨.success, e.dataSize, e.data, if q.wantAttributes then some e.attributes else none⟩ := by
        unfold cacheEntry at he
        unfold findVariableInCache
        simp only [hrt, he]; rfl
      by_cases h0 : e.dataSize = 0
      · exact hmiss (hr.trans (if_pos h0))
      · obtain ⟨hlen, hval⟩ := hc hrt e he h0
        rw [if_neg h0] at hr
        rw [hval]
        unfold answer
        simp only [hlen]
        by_cases hlt : dataSize < e.dataSize
        · rw [if_pos hlt] at hr
          rw [getVariable_for hq hr, if_pos (.inl rfl), if_neg (by omega)]
        · rw [if_neg hlt] at hr
          have hle : e.dataSize ≤ dataSize := Nat.le_of_not_lt hlt
          have hdata : q.hasData = true := (hd hrt).resolve_right fun hm => by
            rcases hm e he with h | h
            · exact h0 h
            · exact hlt h
          simp only [getVariable_for hq hr, or_true, if_true, hle, hdata, Bool.not_true, Bool.false_eq_true, if_false]

end

/-! ## Without the cache -/

/-- `GetVariable` where `FindVariableInCache` always answers `EFI_NOT_FOUND`. -/
def getVariableUncached (P : Platform) (q : GetCall) (s : State) : GetResult :=
  match q.variableName, q.vendorGuid, q.dataSize with
  | some variableName, some vendorGuid, some dataSize =>
    (getVariableFromStore P variableName vendorGuid q.wantAttributes dataSize q.hasData s).1
  | _, _, dataSize => .unchanged .invalidParameter (dataSize.getD 0)

end Udk.Variable
