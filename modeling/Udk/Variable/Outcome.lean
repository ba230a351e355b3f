import Udk.Variable.Safe

/-! # What a call of `UpdateVariable` does -/

open Udk.Bytes

namespace Udk.Variable

/-- The invariant of the stores between two calls. -/
structure Settled (P : Platform) (s : State) (vol nv : List Record) : Prop where
  holding : Holding P s vol nv
  /-- The copies of a variable lie in one store. -/
  apart : ∀ k, copies k vol = [] ∨ copies k nv = []

/-- All copies of a variable. -/
def allCopies (k : Key) (vol nv : List Record) : List Record := copies k vol ++ copies k nv

/-- What a call for the variable `k` does to the copies of `k` and to the context. -/
inductive Outcome (k : Key) (attributes : Nat) (data : List UInt8) (c : Context) (l : List Record) :
    EfiStatus → Context → List Record → Prop
  /-- An error before any write, or with no old copy. -/
  | refused {st} (h : st.isError = true) : Outcome k attributes data c l st c l
  /-- The data that is there already. -/
  | unchanged {r} (hd : isDelete attributes data = false) (hl : lastVisible c.atRuntime l = some r)
      (hr : r.data = data) : Outcome k attributes data c l .success c l
  | deleted {pre r post} (hd : isDelete attributes data = true) (hl : l = pre ++ r :: post)
      (hv : r.isVisible c.atRuntime = true) (hpost : ∀ q ∈ post, q.isVisible c.atRuntime = false) :
      Outcome k attributes data c l .success (contextAfter k attributes data .success c) (pre ++ post)
  /-- An error after the old copy was marked. -/
  | failed {st old r l'} (h : st.isError = true) (hl : l = old ++ [r])
      (hl' : l' = old ++ [r.mark] ∨ l' = [r.mark]) : Outcome k attributes data c l st c l'
  | written {old new} (hd : isDelete attributes data = false) (hold : ∀ d ∈ old, d.isInDeleted = true)
      (hn : new.isAdded = true) (hv : new.value = (attributes, data)) :
      Outcome k attributes data c l .success (contextAfter k attributes data .success c) (old ++ [new])

/-- The variable is in the store of its class only, with the new value. -/
def Placed (k : Key) (attributes : Nat) (data : List UInt8) (vol nv : List Record) : Prop :=
  copies k (if isNonVolatile attributes then vol else nv) = [] ∧
    ∃ old new, copies k (if isNonVolatile attributes then nv else vol) = old ++ [new] ∧
      new.value = (attributes, data)

section
variable {P : Platform} {env : Environment} {s : State} {vol nv : List Record} {k : Key} {attributes : Nat}
  {data : List UInt8} {v : VariablePointerTrack}

theorem append_comm_of_nil {l l' : List Record} (h : l = [] ∨ l' = []) : l ++ l' = l' ++ l := by
  rcases h with h | h <;> simp [h]

/-! ## The old copy -/

theorem sameData_iff {m : Memory} {p : Nat} {r : Record} (h : At m p r.bytes) (hl : r.isLive = true) :
    dataSizeOfVariable m p = data.length ∧ Bytes.read m (getVariableDataPtr m p) data.length = data ↔
      r.data = data := by
  have hd := dataOf_of_at h (r.not_erased_of_live hl)
  have hs : dataSizeOfVariable m p = r.dataSize := by
    rw [dataSizeOfVariable_of_at h, r.not_erased_of_live hl]; rfl
  rw [dataOf, hs] at hd
  rw [hs]
  constructor
  · rintro ⟨h1, h2⟩; rw [← hd, h1, h2]
  · intro he
    have : r.dataSize = data.length := by rw [← r.data_length, he]
    exact ⟨this, by rw [← this, hd, he]⟩

theorem foundValue_mark {pre post : List Record} {r : Record} (hl : r.isLive = true) (hk : r.has k = true) :
    foundValue false k (pre ++ r.mark :: post) = foundValue false k (pre ++ r :: post) := by
  rw [foundValue, foundValue, found_eq, found_eq, copies_mid (mark_live hl) hk, copies_mid hl hk,
    lastVisible_boot, lastVisible_boot]
  cases h : (copies k post).reverse with
  | nil =>
    have : copies k post = [] := by simpa using h
    simp [this, mark_value]
  | cons x xs =>
    have : copies k post = xs.reverse ++ [x] := by
      have := congrArg List.reverse h; simpa using this
    rw [this]
    simp [List.getLast?_append, List.getLast?_cons]

/-- Marking the old copy is nothing to other variables, and keeps the value. -/
theorem Snapshot.of_mark {pre post nv' : List Record} {r : Record} {m : Memory} (hl : r.isLive = true)
    (hk : r.has k = true) (h : Snapshot P k (pre ++ r.mark :: post) nv' m) :
    Snapshot P k (pre ++ r :: post) nv' m := by
  obtain ⟨x, hx, hj, hv⟩ := h
  exact ⟨x, hx, fun j hjk => (hj j hjk).after_copies (copies_mark_other hk hjk),
    hv.imp_left fun h => h.trans (foundValue_mark hl hk)⟩

/-- A new record after the old copy was marked. -/
theorem outcome_of_creates {c : Context} {xs ys xs' ys' old : List Record} {r : Record} {st : EfiStatus}
    {atRuntime full : Bool} {u : Option Record} (hc : Creates atRuntime k (attributes, data) st full u xs ys xs' ys')
    (hm : copies k xs ++ copies k ys = old ++ [r.mark]) (hz : copies k xs = [] ∨ copies k ys = [])
    (hd : isDelete attributes data = false) :
    Outcome k attributes data c (old ++ [r]) st (contextAfter k attributes data st c)
      (copies k xs' ++ copies k ys') ∧ (copies k xs' = [] ∨ copies k ys' = []) := by
  cases he : st.isError with
  | true =>
    rw [contextAfter_error _ _ _ _ he]
    obtain ⟨hx, hy⟩ := hc.failed he
    rcases hx with hx | ⟨q, hx, hlast⟩
    · rw [hx, hy, hm]
      exact ⟨.failed he rfl (.inl rfl), hz⟩
    · have hyn : copies k ys = [] := by
        rcases hz with h | h
        · rw [h] at hlast; cases hlast
        · exact h
      rw [hyn, List.append_nil] at hm
      rw [hm] at hlast
      have hq : r.mark = q := by simpa using hlast
      rw [hx, hy, hyn, ← hq]
      exact ⟨.failed he rfl (.inr rfl), .inr rfl⟩
  | false =>
    obtain ⟨⟨old', new, hx, hold, hna, hv⟩, hy⟩ := hc.written he
    have hs : st = .success := by
      cases st <;> first | rfl | cases he
    rw [hx, hy, List.append_nil, hs]
    exact ⟨.written hd hold hna hv, .inr rfl⟩

/-- A new record with no old copy. -/
theorem outcome_of_creates_absent {c : Context} {xs ys xs' ys' : List Record} {st : EfiStatus}
    {atRuntime full : Bool} {u : Option Record} (hc : Creates atRuntime k (attributes, data) st full u xs ys xs' ys')
    (hx : copies k xs = []) (hy : copies k ys = []) (hd : isDelete attributes data = false) :
    Outcome k attributes data c [] st (contextAfter k attributes data st c) (copies k xs' ++ copies k ys') ∧
      (copies k xs' = [] ∨ copies k ys' = []) := by
  cases he : st.isError with
  | true =>
    rw [contextAfter_error _ _ _ _ he]
    obtain ⟨hx', hy'⟩ := hc.failed he
    rw [hx, hy] at *
    rcases hx' with hx' | ⟨q, -, hlast⟩
    · rw [hx', hy']; exact ⟨.refused he, .inl rfl⟩
    · cases hlast
  | false =>
    obtain ⟨⟨old', new, hx', hold, hna, hv⟩, hy'⟩ := hc.written he
    have hs : st = .success := by
      cases st <;> first | rfl | cases he
    rw [hx', hy', List.append_nil, hs]
    exact ⟨.written hd hold hna hv, .inr rfl⟩

/-- The other variables stay in their stores. -/
theorem apart_of_keeps {vol' nv' : List Record} {b : Bool} (h : ∀ j, copies j vol = [] ∨ copies j nv = [])
    (hk : copies k vol' = [] ∨ copies k nv' = [])
    (ho : ∀ j ≠ k, Keeps b j vol vol' ∧ KeepsBoth b j nv nv') : ∀ j, copies j vol' = [] ∨ copies j nv' = [] := by
  intro j
  by_cases hj : j = k
  · rw [hj]; exact hk
  · exact (h j).imp (ho j hj).1.copies_eq_nil (ho j hj).2.now.copies_eq_nil

/-! ## The function part -/

theorem storable_of_varSize (ha : attributes < 0xffffffff) (hsz : varSize k.1 data ≤ P.scratchSize) :
    Storable k.1 attributes data := by
  have := P.volatile_size.2.2
  rw [varSize_eq] at hsz
  unfold sizeofVariableHeader Platform.scratchSize at hsz
  exact ⟨ha, by omega⟩

/-- The function part, where the old copy is marked and `Reclaim` does no harm. -/
theorem createVariable_spec (env : Environment) {u : Option Record} {l : List Record} (h : Holding P s vol nv)
    (hr : P.RoomBehind)
    (hn : k.1.chars ≠ []) (ha : attributes < 0xffffffff) (hsz : varSize k.1 data ≤ P.scratchSize)
    (hd : isDelete attributes data = false)
    (ho : if isNonVolatile attributes then Old P k false v nv vol u else Old P k true v vol nv u)
    (hz : copies k vol = [] ∨ copies k nv = [])
    (hl : (allCopies k vol nv = [] ∧ l = []) ∨
      ∃ old r, allCopies k vol nv = old ++ [r.mark] ∧ l = old ++ [r])
    (hrec : isFull P k.1 attributes data s = true → (isNonVolatile attributes && s.atRuntime) = false →
      (∀ x, u = some x → x ∈ if isNonVolatile attributes then nv else vol) ∧
        KeepsFound s.atRuntime k (if isNonVolatile attributes then nv else vol) ∧
        (isNonVolatile attributes = true →
          env.allocatePool s.reclaims (maximumBufferSize s.mem P.nonVolatileVariableBase) = true ∧
            (env.ftwWrite s.reclaims).isError = false) ∧
        (isNonVolatile attributes = false → WalkStops P s k.1)) :
    ∃ st s' vol' nv', createVariable P env k.1 k.2 data attributes v s = (st, s') ∧ Holding P s' vol' nv' ∧
      (∀ j ≠ k, Keeps s.atRuntime j vol vol' ∧ KeepsBoth s.atRuntime j nv nv') ∧
      Outcome k attributes data s.context l st s'.context (allCopies k vol' nv') ∧
      (copies k vol' = [] ∨ copies k nv' = []) ∧ Traces (Snapshot P k nv nv') s s' ∧
      ((isFull P k.1 attributes data s && !(isNonVolatile attributes && s.atRuntime)) = false →
        ∀ j ≠ k, SamePlace s.atRuntime j vol vol' ∧ SamePlace s.atRuntime j nv nv') ∧
      (st.isError = false → Placed k attributes data vol' nv') ∧ (Whole nv → Whole nv') := by
  have hst := storable_of_varSize ha hsz
  have hne : data ≠ [] := by
    rintro rfl; simp [isDelete] at hd
  have hout : ∀ {xs ys xs' ys' : List Record} {st : EfiStatus} {c : Context} {full : Bool},
      Creates s.atRuntime k (attributes, data) st full u xs ys xs' ys' → copies k xs = [] ∨ copies k ys = [] →
      allCopies k vol nv = copies k xs ++ copies k ys → c = contextAfter k attributes data st s.context →
      Outcome k attributes data s.context l st c (copies k xs' ++ copies k ys') ∧
        (copies k xs' = [] ∨ copies k ys' = []) := by
    rintro xs ys xs' ys' st c full hc hz' he rfl
    rcases hl with ⟨hl, rfl⟩ | ⟨old, r, hl, rfl⟩
    · rw [he, List.append_eq_nil_iff] at hl
      exact outcome_of_creates_absent hc hl.1 hl.2 hd
    · exact outcome_of_creates hc (he ▸ hl) hz' hd
  cases hattr : isNonVolatile attributes with
  | true =>
    simp only [hattr, if_true, Bool.true_and] at ho hrec
    obtain ⟨st, s', vol', nv', he, hh, hc, hctx, ht⟩ := createVariable_nonVolatile env h hr ho hst hsz hn
      hne hattr fun hq hrt => by
        obtain ⟨h1, h2, h3, -⟩ := hrec (by simpa [isFull, hattr] using hq) hrt
        rw [hrt] at h2
        exact ⟨h1, h2, h3 trivial⟩
    obtain ⟨ho', ha'⟩ := hout (hc _ id) hz.symm (append_comm_of_nil hz) hctx
    refine ⟨st, s', vol', nv', he, hh,
      fun j hj => ⟨.same ((hc _ id).other j hj).2, fun b hb => ((hc b hb).other j hj).1⟩,
      ?_, ha'.symm, ht, ?_, ?_, (hc _ id).whole.1⟩
    · rwa [allCopies, append_comm_of_nil ha'.symm]
    · intro hfull j hj
      rw [isFull, hattr, if_pos rfl] at hfull
      exact ((hc _ id).steady hfull j hj).symm
    · intro hs
      obtain ⟨⟨old, new, hx, -, -, hv⟩, hy⟩ := (hc _ id).written hs
      unfold Placed
      rw [hattr]
      exact ⟨hy, old, new, hx, hv⟩
  | false =>
    simp only [hattr, if_false, Bool.false_and, Bool.false_eq_true] at ho hrec
    obtain ⟨st, s', vol', nv', he, hh, hc, hctx, ht⟩ := createVariable_volatile env h hr ho hst hsz hn
      hne hattr fun hq => by
        obtain ⟨h1, h2, -, h4⟩ := hrec (by simpa [isFull, hattr] using hq) trivial
        exact ⟨h1, h2, h4 trivial⟩
    obtain ⟨ho', ha'⟩ := hout hc hz rfl hctx
    refine ⟨st, s', vol', nv', he, hh, fun j hj => ⟨(hc.other j hj).1, .same (hc.other j hj).2⟩, ho', ha', ht, ?_, ?_,
      hc.whole.2⟩
    · intro hfull j hj
      rw [isFull, hattr, if_neg (by simp), Bool.false_and, Bool.not_false, Bool.and_true] at hfull
      exact hc.steady hfull j hj
    · intro hs
      obtain ⟨⟨old, new, hx, -, -, hv⟩, hy⟩ := hc.written hs
      unfold Placed
      rw [hattr]
      exact ⟨hy, old, new, hx, hv⟩

/-! ## The old copy is marked -/

theorem IsFound.copies_post {atRuntime : Bool} {recs pre post : List Record} {r : Record}
    (h : IsFound atRuntime k recs pre r post) (hv : ∀ x ∈ copies k recs, x.isVisible atRuntime = true) :
    copies k post = [] := by
  refine copies_eq_nil.mpr fun q hq hl => ?_
  by_contra hk
  simp only [Bool.not_eq_false] at hk
  have hmem : q ∈ copies k recs := mem_copies.mpr ⟨by rw [h.split]; simp [hq], hl, hk⟩
  rw [h.last q hq hl (hv q hmem)] at hk
  cases hk

theorem keepsFound_mark {atRuntime : Bool} {pre post : List Record} {r : Record} (hk : r.has k = true)
    (h : KeepsFound atRuntime k (pre ++ r :: post)) : KeepsFound atRuntime k (pre ++ r.mark :: post) := by
  intro j hj
  have hc : copies j (pre ++ r.mark :: post) = copies j (pre ++ r :: post) := copies_mark_other hk hj
  rw [foundValue_congr hc, hc]
  exact h j hj

theorem weight_live_mark {pre post : List Record} {r : Record} (hl : r.isLive = true) :
    weight Record.claimed ((pre ++ r.mark :: post).filter Record.isLive) =
      weight Record.claimed ((pre ++ r :: post).filter Record.isLive) := by
  rw [List.filter_append, List.filter_append, List.filter_cons_of_pos hl, List.filter_cons_of_pos (mark_live hl)]
  simp [Record.mark]

theorem maximumBufferSize_nonVolatile (h : Holding P s vol nv) :
    maximumBufferSize s.mem P.nonVolatileVariableBase =
      sizeofVariableStoreHeader + weight Record.claimed (nv.filter Record.isLive) + 1 :=
  have hwalk := h.nonVolatile.holds.allHeaders_eq_of_guard P.nonVolatileArea h.nonVolatile.guard
  maximumBufferSize_eq h.nonVolatile.holds P.nonVolatileArea (hwalk.trans (List.append_nil _).symm) (by simp)

variable (k attributes data) in
/-- Marking a record moves no store and no total. -/
theorem isFull_congr {s' : State} {vol' nv' : List Record} (h : Holding P s vol nv) (h' : Holding P s' vol' nv')
    (ht : total vol' = total vol) (hc : s'.commonVariableTotalSize = s.commonVariableTotalSize)
    (hh : s'.hwErrVariableTotalSize = s.hwErrVariableTotalSize) :
    isFull P k.1 attributes data s' = isFull P k.1 attributes data s ∧
      s'.volatileLastVariableOffset = s.volatileLastVariableOffset := by
  have hlast : s'.volatileLastVariableOffset = s.volatileLastVariableOffset := by
    rw [h'.volatileLast, h.volatileLast, ht]
  refine ⟨?_, hlast⟩
  unfold isFull
  rw [overQuota_congr _ _ (by rw [h'.nonVolatile.holds.size_eq, h.nonVolatile.holds.size_eq]) hc hh]
  unfold overVolatileSize
  rw [h'.volatile.size_eq, h.volatile.size_eq, hlast]

end

section
variable {P : Platform} {env : Environment} {s s1 : State} {vol nv vol1 nv1 : List Record} {k : Key}
  {attributes : Nat} {data : List UInt8} {v : VariablePointerTrack}

/-- What a safe call tells about the state in which the old copy is marked. -/
theorem UpdateSafe.after_mark {u : Option Record} (hsafe : UpdateSafe P env k attributes data v s)
    (h : Holding P s vol nv) (h1 : Holding P s1 vol1 nv1) (hc : createsRecord attributes data v s = true)
    (ht : total vol1 = total vol) (hrt : s1.atRuntime = s.atRuntime) (hrec : s1.reclaims = s.reclaims)
    (hcommon : s1.commonVariableTotalSize = s.commonVariableTotalSize)
    (hhw : s1.hwErrVariableTotalSize = s.hwErrVariableTotalSize)
    (hw : weight Record.claimed (nv1.filter Record.isLive) = weight Record.claimed (nv.filter Record.isLive))
    (hkv : KeepsFound s.atRuntime k vol → KeepsFound s.atRuntime k vol1)
    (hkn : KeepsFound s.atRuntime k nv → KeepsFound s.atRuntime k nv1)
    (hmem : (v.currPtr ≠ 0 → v.isVolatile = !isNonVolatile attributes) →
      ∀ x, u = some x → x ∈ if isNonVolatile attributes then nv1 else vol1)
    (hfull : isFull P k.1 attributes data s1 = true) (hnr : (isNonVolatile attributes && s1.atRuntime) = false) :
    (∀ x, u = some x → x ∈ if isNonVolatile attributes then nv1 else vol1) ∧
      KeepsFound s1.atRuntime k (if isNonVolatile attributes then nv1 else vol1) ∧
      (isNonVolatile attributes = true →
        env.allocatePool s1.reclaims (maximumBufferSize s1.mem P.nonVolatileVariableBase) = true ∧
          (env.ftwWrite s1.reclaims).isError = false) ∧
      (isNonVolatile attributes = false → WalkStops P s1 k.1) := by
  obtain ⟨hf, hlast⟩ := isFull_congr k attributes data h h1 ht hcommon hhw
  have hruns : runsReclaim P k.1 attributes data v s = true := by
    rw [hf] at hfull
    rw [hrt] at hnr
    unfold runsReclaim
    rw [hc, hfull, hnr]; rfl
  refine ⟨hmem fun hp => hsafe.stays hruns hp, ?_, fun hattr => ?_, fun hattr => ?_⟩
  · rw [hrt]
    have ho := hsafe.others hruns
    cases hattr : isNonVolatile attributes with
    | true =>
      rw [hattr] at ho
      exact hkn (keepsFound_of_reclaimKeeps h.nonVolatile.holds P.nonVolatileArea h.nonVolatile.good ho)
    | false =>
      rw [hattr] at ho
      exact hkv (keepsFound_of_reclaimKeeps h.volatile P.volatileArea h.volatile_good ho)
  · rw [maximumBufferSize_nonVolatile h1, hw, ← maximumBufferSize_nonVolatile h, hrec]
    exact hsafe.services hruns hattr
  · unfold WalkStops
    rw [hlast]
    exact hsafe.stops hruns hattr

end

end Udk.Variable
