import Udk.Variable.Pei
import Udk.Variable.Room

/-! # What PEI returns of a variable -/

open Udk.Bytes

namespace Udk.Variable.Pei

/-! ## The walk -/

/-- Comparing the words of two GUIDs compares the GUIDs. -/
theorem guidWords_inj {xs ys : List UInt8} (hx : xs.length = 16) (hy : ys.length = 16) :
    guidWords xs = guidWords ys ↔ xs = ys := by
  refine ⟨fun h => ?_, fun h => h ▸ rfl⟩
  unfold guidWords at h
  simp only [List.cons.injEq, and_true] at h
  obtain ⟨h0, h1, h2, h3⟩ := h
  have h0 := fromLE_inj (by simp [hx, hy]) h0
  have h1 := fromLE_inj (by simp [hx, hy]) h1
  have h2 := fromLE_inj (by simp [hx, hy]) h2
  have h3 := fromLE_inj (by simp [hx, hy]) h3
  rw [← List.take_append_drop 4 xs, ← List.take_append_drop 4 ys, h0,
    ← List.take_append_drop 4 (xs.drop 4), ← List.take_append_drop 4 (ys.drop 4), h1]
  simp only [List.drop_drop, Nat.reduceAdd]
  rw [← List.take_append_drop 4 (xs.drop 8), ← List.take_append_drop 4 (ys.drop 8), h2]
  simp only [List.drop_drop, Nat.reduceAdd]
  have hx12 : (xs.drop 12).take 4 = xs.drop 12 := List.take_of_length_le (by simp [hx])
  have hy12 : (ys.drop 12).take 4 = ys.drop 12 := List.take_of_length_le (by simp [hy])
  rw [← hx12, ← hy12, h3]

section
variable {m : Memory} {n : Name} {g : Guid}

theorem compareWithValidVariable_of_at {p : Nat} {r : Record} (h : At m p r.bytes) (hl : r.isErased = false)
    (hn : r.Named) (hne : n.chars ≠ []) : compareWithValidVariable m p n g = r.has (n, g) := by
  have hempty : n.chars.isEmpty = false := by simpa using hne
  rw [← nameMatches_of_at h hl hn]
  unfold compareWithValidVariable nameMatches
  rw [hempty, Bool.false_or, vendorGuidOf_of_at h]
  congr 1
  rw [Bool.eq_iff_iff, beq_iff_eq, beq_iff_eq, guidWords_inj g.length_eq r.guid.length_eq]

/-- The walk takes the first record that is `VAR_ADDED` and has the name. -/
theorem searchStore_eq (ps : List Nat) (r : Recorder) :
    (searchStore m n g ps r).1 = ps.find? fun p => isAdded m p && compareWithValidVariable m p n g := by
  induction ps generalizing r with
  | nil => rfl
  | cons p ps ih =>
    rw [searchStore, List.find?_cons]
    cases ha : isAdded m p with
    | false => simpa [ha] using ih r
    | true =>
      cases hc : compareWithValidVariable m p n g with
      | false => simpa [ha, hc] using ih (r.record p)
      | true => simp

/-- The `VAR_ADDED` record of the variable. -/
def addedRecord (k : Key) (recs : List Record) : Option Record := recs.find? fun r => r.isAdded && r.has k

theorem find_added {a : Nat} {recs : List Record} (h : Holds m a recs) (hg : Good recs) {k : Key}
    (hk : k.1.chars ≠ []) :
    ((addresses a recs).find? (fun p => isAdded m p && compareWithValidVariable m p k.1 k.2) = none ∧
        addedRecord k recs = none) ∨
      ∃ p r, (addresses a recs).find? (fun p => isAdded m p && compareWithValidVariable m p k.1 k.2) = some p ∧
        addedRecord k recs = some r ∧ At m p r.bytes ∧ r.isAdded = true := by
  induction recs generalizing a with
  | nil => exact .inl ⟨rfl, rfl⟩
  | cons r rs ih =>
    have hrs := (good_cons.mp hg).2.1
    unfold addedRecord at ih ⊢
    rw [addresses, List.find?_cons, List.find?_cons, isAdded_of_at h.1]
    cases ha : r.isAdded with
    | false => simpa using ih h.2 hrs
    | true =>
      have hl := isLive_of_added ha
      rw [compareWithValidVariable_of_at h.1 (r.not_erased_of_live hl) (hg.named r (by simp) hl) hk]
      cases hh : r.has k with
      | false => simpa using ih h.2 hrs
      | true => exact .inr ⟨a, r, rfl, rfl, h.1, ha⟩

/-- Without a table, PEI answers with the `VAR_ADDED` record. -/
theorem peiGetVariable_eq {base size : Nat} {recs : List Record} (h : StoreHolds m base size recs)
    (ha : StoreArea base size) (hg : Good recs) (hsz : size < 0xffffffff) {k : Key} (hk : k.1.chars ≠ [])
    (wantAttributes : Bool) (dataSize : Nat) (hasData : Bool) :
    (peiGetVariable base m (some k.1) (some k.2) wantAttributes (some dataSize) hasData none).1 =
      answer ((addedRecord k recs).map Record.value) wantAttributes dataSize hasData := by
  have hheaders := h.storeHeaders_eq ha
  unfold storeHeaders at hheaders
  have hfind : ∀ table : VariableIndexTable, table.endPtr = getEndPointer m base →
      searchFrom m k.1 k.2 (getStartPointer base) (getStartPointer base) table =
        ((addresses (base + sizeofVariableStoreHeader) recs).find?
            fun p => isAdded m p && compareWithValidVariable m p k.1 k.2).elim
          (.notFound, none, (searchFrom m k.1 k.2 (getStartPointer base) (getStartPointer base) table).2.2)
          fun q => (.success, some q, (searchFrom m k.1 k.2 (getStartPointer base) (getStartPointer base) table).2.2) := by
    intro table he
    have hs := searchStore_eq (m := m) (n := k.1) (g := k.2) (walk m table.endPtr maxAddress (getStartPointer base))
      ⟨table, getStartPointer base, false⟩
    unfold searchFrom
    rw [he] at hs ⊢
    rw [hheaders] at hs ⊢
    generalize searchStore m k.1 k.2 (addresses (base + sizeofVariableStoreHeader) recs)
      ⟨table, getStartPointer base, false⟩ = x at hs
    obtain ⟨o, r⟩ := x
    rw [← hs]
    cases o <;> rfl
  let table : VariableIndexTable := ⟨getStartPointer base, getEndPointer m base, [], false⟩
  have hvar : ∃ t, findVariable base m k.1 k.2 none =
      ((addresses (base + sizeofVariableStoreHeader) recs).find?
          fun p => isAdded m p && compareWithValidVariable m p k.1 k.2).elim (.notFound, none, t)
        fun q => (.success, some q, t) := by
    refine ⟨(searchFrom m k.1 k.2 (getStartPointer base) (getStartPointer base) table).2.2, ?_⟩
    unfold findVariable
    simp only [Option.getD_none, newIndexTable, indexedRecords, List.find?_nil, Bool.false_eq_true, if_false,
      List.getLast?_nil, ne_eq, not_true_eq_false, or_self, h.status, h.size_eq]
    rw [if_neg (by omega)]
    exact hfind table rfl
  obtain ⟨t, hvar⟩ := hvar
  unfold peiGetVariable
  rcases find_added h.records hg hk with ⟨hn, hr⟩ | ⟨p, r, hp, hr, hat, hadd⟩
  · rw [hn, Option.elim_none] at hvar
    simp only [hvar, hr]
    rfl
  · rw [hp, Option.elim_some] at hvar
    obtain ⟨hv, hd⟩ := storedValue_of_at hat (isLive_of_added hadd)
    obtain ⟨hv1, hv2⟩ := Prod.mk.inj hv
    simp only [hvar, hr, hd, Option.map_some, answer]
    rw [hv1, hv2]
    by_cases hle : r.data.length ≤ dataSize
    · rw [if_pos hle]
      cases hasData <;> simp [hle, Record.value]
    · rw [if_neg hle]
      simp [hle, Record.value]

/-! ## PEI and DXE -/

/-- A `VAR_ADDED` copy is the last one. -/
theorem getLast_of_added {recs : List Record} (hg : Good recs) {k : Key} {r : Record} (hr : r ∈ recs)
    (ha : r.isAdded = true) (hk : r.has k = true) : (copies k recs).getLast? = some r := by
  obtain ⟨pre, post, rfl⟩ := List.append_of_mem hr
  have hpost : copies k post = [] := copies_eq_nil.mpr fun q hq hl => by
    have := (good_cons.mp hg.of_append_right).2.2 q hq ha hl
    rwa [Record.sameAs_of_has hk] at this
  rw [copies_mid (isLive_of_added ha) hk, hpost]
  simp

theorem addedRecord_eq_iff {recs : List Record} (hg : Good recs) (k : Key) :
    (addedRecord k recs).map Record.value = (copies k recs).getLast?.map Record.value ↔
      copies k recs = [] ∨ ∃ r ∈ copies k recs, r.isAdded = true := by
  cases h : addedRecord k recs with
  | some r =>
    have hr := List.find?_some h
    rw [Bool.and_eq_true] at hr
    have hm := List.mem_of_find?_eq_some h
    rw [getLast_of_added hg hm hr.1 hr.2]
    exact ⟨fun _ => .inr ⟨r, mem_copies.mpr ⟨hm, isLive_of_added hr.1, hr.2⟩, hr.1⟩, fun _ => rfl⟩
  | none =>
    unfold addedRecord at h
    rw [List.find?_eq_none] at h
    constructor
    · intro he
      left
      rw [Option.map_none, eq_comm, Option.map_eq_none_iff] at he
      exact List.getLast?_eq_none_iff.mp he
    · rintro (he | ⟨r, hr, ha⟩)
      · rw [he]; rfl
      · obtain ⟨hm, -, hk⟩ := mem_copies.mp hr
        have := h r hm
        rw [ha, hk] at this
        exact absurd rfl this

/-- The answers for all buffers tell the value. -/
theorem answer_inj {a b : Option (Nat × List UInt8)} : (∀ w size d, answer a w size d = answer b w size d) ↔ a = b := by
  refine ⟨fun h => ?_, fun h _ _ _ => h ▸ rfl⟩
  cases a with
  | none =>
    cases b with
    | none => rfl
    | some y => simpa [answer, GetResult.unchanged] using h true y.2.length true
  | some x =>
    cases b with
    | none => simpa [answer, GetResult.unchanged] using h true x.2.length true
    | some y =>
      have := h true (max x.2.length y.2.length) true
      simp only [answer, Nat.le_max_left, Nat.le_max_right, if_true, Bool.not_true, Bool.false_eq_true, if_false,
        GetResult.mk.injEq, true_and, Option.some.injEq] at this
      exact congrArg some (Prod.ext this.2.2 this.2.1)

theorem liveCopies_added {base size : Nat} {recs : List Record} (k : Key) (h : StoreHolds m base size recs)
    (ha : StoreArea base size) (hg : Good recs) :
    (liveCopies m base k = [] ∨ ∃ p ∈ liveCopies m base k, isAdded m p = true) ↔
      copies k recs = [] ∨ ∃ r ∈ copies k recs, r.isAdded = true := by
  obtain ⟨z, hz, h1, h2⟩ := liveCopies_eq k h ha hg
  rw [h1, h2]
  simp only [List.map_eq_nil_iff, List.mem_map, exists_exists_and_eq_and]
  refine or_congr_right (exists_congr fun x => and_congr_right fun hx => ?_)
  rw [isAdded_of_at (hz x hx).1]

end

/-- The memories that DXE leaves behind: between two calls, or where power is lost in one. -/
def FlashReached (P : Platform) (env : Environment) (m : Memory) : Prop :=
  ∃ s, Reachable P env (SafeEvent P env) s ∧
    (m = s.mem ∨ ∃ c writes, SetSafe P env c s ∧ m = memoryAfterLoss P env c writes s)

theorem FlashReached.nonVolatile {P : Platform} {env : Environment} {m : Memory} (hr : P.RoomBehind)
    (h : FlashReached P env m) : ∃ nv, NonVolatile P m nv := by
  obtain ⟨s, hs, hm⟩ := h
  obtain ⟨vol, nv, hinv⟩ := hs.invariant hr
  rcases hm with rfl | ⟨c, writes, hsafe, rfl⟩
  · exact ⟨nv, hinv.settled.holding.nonVolatile⟩
  · obtain ⟨x, hx, -⟩ := memoryAfterLoss_spec writes hinv hr hsafe
    exact ⟨x, hx⟩

/-- PEI and DXE agree on a variable exactly if it has a `VAR_ADDED` copy or no copy that counts. -/
theorem pei_agrees_iff {P : Platform} {env : Environment} {m : Memory} (hr : P.RoomBehind)
    (hm : FlashReached P env m) (reclaims : Nat) {k : Name × Guid} (hk : k.1.chars ≠ []) :
    ∃ s, start P env reclaims m = some s ∧
      ((∀ wantAttributes dataSize hasData,
        (peiGetVariable P.nonVolatileVariableBase m (some k.1) (some k.2) wantAttributes (some dataSize) hasData none).1 =
          (runtimeServiceGetVariable P ⟨some k.1, some k.2, wantAttributes, some dataSize, hasData⟩ s).1) ↔
        (liveCopies m P.nonVolatileVariableBase k = [] ∨
          ∃ p ∈ liveCopies m P.nonVolatileVariableBase k, isAdded m p = true)) := by
  obtain ⟨nv, hnv⟩ := hm.nonVolatile hr
  obtain ⟨s, hs, hinv, hrt, hcache⟩ := start_spec env reclaims hr hnv
  refine ⟨s, hs, ?_⟩
  have hsz := P.nonVolatile_size.2.2.2
  have hval : storedValue P s k = (copies k nv).getLast?.map Record.value :=
    hinv.settled.storedValue_boot hk hrt
  have hdxe : ∀ w size d, (runtimeServiceGetVariable P ⟨some k.1, some k.2, w, some size, d⟩ s).1 =
      answer (storedValue P s k) w size d := by
    intro w size d
    refine getVariable_eq ⟨rfl, rfl, rfl⟩ (fun _ => .inr fun e he => .inl ?_)
      (fun _ => hcache ▸ cacheHolds_loaded k _)
    by_contra hne
    obtain ⟨-, hv⟩ := cacheHolds_loaded k none e (hcache ▸ he) hne
    cases hv
  rw [liveCopies_added k hnv.holds P.nonVolatileArea hnv.good, ← addedRecord_eq_iff hnv.good k, ← hval, ← answer_inj]
  refine forall_congr' fun w => forall_congr' fun size => forall_congr' fun d => ?_
  rw [peiGetVariable_eq hnv.holds P.nonVolatileArea hnv.good hsz hk, hdxe]

/-- `A` has a deleted copy in front of the one that counts. -/
theorem pei_agrees_iff_sample :
    ∃ s, start smallPlatform .ideal 0 mixedState.mem = some s ∧
      ((∀ wantAttributes dataSize hasData,
        (peiGetVariable smallPlatform.nonVolatileVariableBase mixedState.mem (some sampleName) (some sampleGuid)
            wantAttributes (some dataSize) hasData none).1 =
          (runtimeServiceGetVariable smallPlatform
            ⟨some sampleName, some sampleGuid, wantAttributes, some dataSize, hasData⟩ s).1) ↔
        (liveCopies mixedState.mem smallPlatform.nonVolatileVariableBase (sampleName, sampleGuid) = [] ∨
          ∃ p ∈ liveCopies mixedState.mem smallPlatform.nonVolatileVariableBase (sampleName, sampleGuid),
            isAdded mixedState.mem p = true)) :=
  pei_agrees_iff (k := (sampleName, sampleGuid)) smallPlatform_room ⟨_, reachable_mixedState, .inl rfl⟩ 0 (by decide)

/-- PEI does not find a variable in delete transition, and DXE does. -/
theorem hidden_not_found_in_pei :
    Reachable smallPlatform .ideal (SafeEvent smallPlatform .ideal) hiddenState ∧
      (peiGetVariable smallPlatform.nonVolatileVariableBase hiddenState.mem (some sampleName) (some sampleGuid) true
        (some 512) true none).1.status = .notFound ∧
      ∃ s, start smallPlatform .ideal 0 hiddenState.mem = some s ∧
        (runtimeServiceGetVariable smallPlatform getSample s).1.status = .success := by
  obtain ⟨vol, nv, h⟩ := reachable_hiddenState.invariant smallPlatform_room
  have hnv := h.settled.holding.nonVolatile
  obtain ⟨s, hs, hinv, hrt, hcache⟩ := start_spec .ideal 0 smallPlatform_room hnv
  refine ⟨reachable_hiddenState, by decide +kernel, s, hs, ?_⟩
  have hshown : (shownValue hiddenState.mem false (liveCopies hiddenState.mem
      smallPlatform.nonVolatileVariableBase (sampleName, sampleGuid))).map (·.2.length) = some 476 := by
    decide +kernel
  rw [shownValue_liveCopies false _ hnv.holds smallPlatform.nonVolatileArea hnv.good] at hshown
  obtain ⟨⟨a, data⟩, hfound, hlen⟩ := Option.map_eq_some_iff.mp hshown
  have hval : storedValue smallPlatform s (sampleName, sampleGuid) = some (a, data) := by
    rw [hinv.settled.storedValue_eq (by decide), hrt, ← hfound]
    rfl
  rw [getVariable_eq (show getSample.For (sampleName, sampleGuid) 512 from ⟨rfl, rfl, rfl⟩) (fun _ => .inl rfl)
    (fun _ => hcache ▸ cacheHolds_loaded _ _), hval]
  simp only [answer, hlen]
  rfl

end Udk.Variable.Pei
