import Udk.Variable.PeiSpec
import Mathlib.Data.List.Nodup

/-! # The index table of the PEI variable driver -/

open Udk.Bytes

namespace Udk.Variable.Pei

/-! ## Lookups with and without the table -/

/-- The answers of one lookup after the other. The table is `none` before the first one. -/
def lookups (base : Nat) (m : Memory) : List (Name × Guid) → Option VariableIndexTable → List (EfiStatus × Option Nat)
  | [], _ => []
  | k :: ks, hob =>
    match findVariable base m k.1 k.2 hob with
    | (status, p, table) => (status, p) :: lookups base m ks (some table)

/-- The `VAR_ADDED` headers of the store. -/
def addedHeaders (base : Nat) (m : Memory) : List Nat := (storeHeaders m base).filter (isAdded m)

/-- The first of the headers that matches. -/
def firstMatch (m : Memory) (k : Name × Guid) (ps : List Nat) : EfiStatus × Option Nat :=
  match ps.find? fun p => compareWithValidVariable m p k.1 k.2 with
  | some p => (.success, some p)
  | none => (.notFound, none)

/-- A lookup that walks the store. -/
def walkStore (base : Nat) (m : Memory) (k : Name × Guid) : EfiStatus × Option Nat :=
  if getVariableStoreStatus m base ≠ .efiValid then (.unsupported, none)
  else if storeSizeOf m base = 0xffffffff then (.notFound, none)
  else firstMatch m k (addedHeaders base m)

/-- The headers up to the first one that lies 64 KB or more behind the one before. -/
def within64K : Nat → List Nat → List Nat
  | _, [] => []
  | last, p :: ps => if p - last < 2 ^ 16 then p :: within64K p ps else []

/-- The headers that the table has room for. -/
def recordable (base : Nat) (m : Memory) : List Nat :=
  (within64K (getStartPointer base) (addedHeaders base m)).take variableIndexTableVolume

/-- A name and GUID match one of the headers. -/
def MatchesOne (m : Memory) (k : Name × Guid) (ps : List Nat) : Prop :=
  ∃ p ∈ ps, compareWithValidVariable m p k.1 k.2 = true

theorem firstMatch_eq_notFound {m : Memory} {k : Name × Guid} {ps : List Nat} :
    firstMatch m k ps = (.notFound, none) ↔ ¬MatchesOne m k ps := by
  unfold firstMatch MatchesOne
  split
  · rename_i p hp
    exact ⟨nofun, fun h => absurd ⟨p, List.mem_of_find?_eq_some hp, by simpa using List.find?_some hp⟩ h⟩
  · rename_i hnone
    rw [List.find?_eq_none] at hnone
    exact ⟨fun _ ⟨p, hp, hm⟩ => hnone p hp hm, fun _ => rfl⟩

theorem firstMatch_append {m : Memory} {k : Name × Guid} {ps qs : List Nat} :
    firstMatch m k (ps ++ qs) = if (firstMatch m k ps).2 = none then firstMatch m k qs else firstMatch m k ps := by
  unfold firstMatch
  rw [List.find?_append]
  cases ps.find? fun p => compareWithValidVariable m p k.1 k.2 <;> rfl

/-! ## Walks from later headers -/

section
variable {m : Memory} {endPtr fuel p q : Nat}

theorem headerAlign_ge (n : Nat) : n ≤ headerAlign n := by
  unfold headerAlign
  omega

theorem next_gt (h : isValidVariableHeader m p = true) : p < getNextVariablePtr m p := by
  rw [getNextVariablePtr, if_pos h]
  refine Nat.lt_of_lt_of_le ?_ (headerAlign_ge _)
  have : 0 < sizeofVariableHeader := by decide
  rw [getVariableDataPtr, getVariableNamePtr]
  omega

/-- Only the headers in front of the end count. -/
theorem walk_fuel {fuel' : Nat} (h : endPtr ≤ p + fuel) (h' : endPtr ≤ p + fuel') :
    walk m endPtr fuel p = walk m endPtr fuel' p := by
  induction fuel generalizing p fuel' with
  | zero =>
    cases fuel' with
    | zero => rfl
    | succ fuel' => rw [walk, walk, if_neg (by omega)]
  | succ fuel ih =>
    cases fuel' with
    | zero => rw [walk, walk, if_neg (by omega)]
    | succ fuel' =>
      rw [walk, walk]
      split
      · rename_i hgo
        have := next_gt hgo.2
        rw [@ih (getNextVariablePtr m p) fuel' (by omega) (by omega)]
      · rfl

theorem walk_step (h : endPtr ≤ p + fuel) (hgo : p < endPtr ∧ isValidVariableHeader m p = true) :
    walk m endPtr fuel p = p :: walk m endPtr fuel (getNextVariablePtr m p) := by
  have := next_gt hgo.2
  cases fuel with
  | zero => omega
  | succ fuel =>
    rw [walk, if_pos hgo, walk_fuel (by omega) (by omega : endPtr ≤ getNextVariablePtr m p + (fuel + 1))]

theorem walk_mem (h : q ∈ walk m endPtr fuel p) : p ≤ q ∧ q < endPtr := by
  induction fuel generalizing p with
  | zero => cases h
  | succ fuel ih =>
    rw [walk] at h
    split at h
    · rename_i hgo
      rcases List.mem_cons.mp h with rfl | h
      · exact ⟨Nat.le_refl _, hgo.1⟩
      · have := next_gt hgo.2
        have := ih h
        omega
    · cases h

theorem walk_pairwise (m : Memory) (endPtr fuel p : Nat) : (walk m endPtr fuel p).Pairwise (· < ·) := by
  induction fuel generalizing p with
  | zero => exact List.Pairwise.nil
  | succ fuel ih =>
    rw [walk]
    split
    · rename_i hgo
      refine List.pairwise_cons.mpr ⟨fun q hq => ?_, ih _⟩
      have := next_gt hgo.2
      have := walk_mem hq
      omega
    · exact List.Pairwise.nil

theorem walk_length_le (m : Memory) (endPtr fuel p : Nat) : (walk m endPtr fuel p).length ≤ fuel := by
  induction fuel generalizing p with
  | zero => exact Nat.le_refl _
  | succ fuel ih =>
    rw [walk]
    split
    · exact Nat.succ_le_succ (ih _)
    · exact Nat.zero_le _

/-- Behind a `VAR_ADDED` header come the `VAR_ADDED` headers of the walk from the next one. -/
theorem filter_walk_behind {xs ys : List Nat} (h : endPtr ≤ p + fuel)
    (hl : (walk m endPtr fuel p).filter (isAdded m) = xs ++ q :: ys) :
    (walk m endPtr fuel (getNextVariablePtr m q)).filter (isAdded m) = ys := by
  obtain ⟨l₁, l₂, hwalk, -, hl₂⟩ := List.filter_eq_append_iff.mp hl
  obtain ⟨l₃, l₄, rfl, -, -, hys⟩ := List.filter_eq_cons_iff.mp hl₂
  rw [← List.append_assoc] at hwalk
  rw [← hys]
  congr 1
  clear hl hl₂ hys
  generalize l₁ ++ l₃ = pre at hwalk
  induction pre generalizing p with
  | nil =>
    have hgo : p < endPtr ∧ isValidVariableHeader m p = true := by
      by_contra hstop
      cases fuel with
      | zero => cases hwalk
      | succ fuel => rw [walk, if_neg hstop] at hwalk; cases hwalk
    rw [walk_step h hgo, List.nil_append, List.cons.injEq] at hwalk
    obtain ⟨rfl, htail⟩ := hwalk
    exact htail
  | cons x pre ih =>
    have hgo : p < endPtr ∧ isValidVariableHeader m p = true := by
      by_contra hstop
      cases fuel with
      | zero => cases hwalk
      | succ fuel => rw [walk, if_neg hstop] at hwalk; cases hwalk
    rw [walk_step h hgo, List.cons_append, List.cons.injEq] at hwalk
    have := next_gt hgo.2
    exact ih (by omega) hwalk.2

end

/-! ## Distances below 64 KB -/

theorem within64K_isPrefix (last : Nat) (ps : List Nat) : within64K last ps <+: ps := by
  induction ps generalizing last with
  | nil => exact List.prefix_rfl
  | cons p ps ih =>
    rw [within64K]
    split
    · exact List.cons_prefix_cons.mpr ⟨rfl, ih p⟩
    · exact List.nil_prefix

theorem within64K_take (last n : Nat) (ps : List Nat) : within64K last (ps.take n) = (within64K last ps).take n := by
  induction ps generalizing last n with
  | nil => rw [List.take_nil, within64K, List.take_nil]
  | cons p ps ih =>
    cases n with
    | zero => rfl
    | succ n =>
      rw [List.take_succ_cons, within64K, within64K]
      split
      · rw [ih, List.take_succ_cons]
      · rfl

theorem within64K_drop {last n : Nat} {ps : List Nat} (h : n ≤ (within64K last ps).length) :
    within64K ((ps.take n).getLastD last) (ps.drop n) = (within64K last ps).drop n := by
  induction ps generalizing last n with
  | nil => rw [List.drop_nil, within64K, within64K, List.drop_nil]
  | cons p ps ih =>
    cases n with
    | zero => rfl
    | succ n =>
      rw [within64K] at h ⊢
      split at h
      · rename_i hnear
        rw [if_pos hnear, List.drop_succ_cons, List.drop_succ_cons, List.take_succ_cons, List.getLastD_cons]
        exact ih (Nat.le_of_succ_le_succ h)
      · exact absurd h (Nat.not_succ_le_zero n)

/-! ## What the walk records -/

theorem indexedRecords_append (startPtr offset d : Nat) (ds : List Nat) :
    indexedRecords startPtr offset (ds ++ [d]) =
      indexedRecords startPtr offset ds ++ [startPtr + (offset + (ds.sum + d))] := by
  induction ds generalizing offset with
  | nil => simp [indexedRecords]
  | cons e ds ih =>
    rw [List.cons_append, indexedRecords, indexedRecords, ih, List.sum_cons, List.cons_append,
      show offset + e + (ds.sum + d) = offset + (e + ds.sum + d) by omega]

theorem indexedRecords_length (startPtr offset : Nat) (ds : List Nat) :
    (indexedRecords startPtr offset ds).length = ds.length := by
  induction ds generalizing offset with
  | nil => rfl
  | cons d ds ih => rw [indexedRecords, List.length_cons, List.length_cons, ih]

theorem indexedRecords_getLastD (startPtr offset : Nat) (ds : List Nat) :
    (indexedRecords startPtr offset ds).getLastD (startPtr + offset) = startPtr + (offset + ds.sum) := by
  induction ds generalizing offset with
  | nil => rfl
  | cons d ds ih => rw [indexedRecords, List.getLastD_cons, ih, List.sum_cons, Nat.add_assoc]

/-- The headers in the table. -/
def VariableIndexTable.indexed (t : VariableIndexTable) : List Nat := indexedRecords t.startPtr 0 t.index

/-- The entries of the table that are left. -/
def Recorder.room (r : Recorder) : Nat := if r.stopRecord then 0 else variableIndexTableVolume - r.table.index.length

/-- While the walk records, `LastVariable` is the last header in the table. -/
def Recorder.Sound (r : Recorder) : Prop :=
  r.stopRecord = false → r.table.index.length < variableIndexTableVolume →
    r.lastVariable = r.table.startPtr + r.table.index.sum

theorem room_eq_zero {r : Recorder} (h : ¬(r.table.index.length < variableIndexTableVolume ∧ r.stopRecord = false)) :
    r.room = 0 := by
  unfold Recorder.room
  split
  · rfl
  · rename_i hstop
    have : ¬r.table.index.length < variableIndexTableVolume := fun hlt => h ⟨hlt, by simpa using hstop⟩
    omega

/-- What recording some headers in their order leaves in the table. -/
theorem foldl_record {ps : List Nat} {r : Recorder} (hr : r.Sound) (hsorted : ps.Pairwise (· < ·))
    (hlast : ∀ p ∈ ps, r.lastVariable ≤ p) (hnear : ∀ p ∈ ps, p < r.lastVariable + 2 ^ 32) :
    (ps.foldl Recorder.record r).table.indexed = r.table.indexed ++ (within64K r.lastVariable ps).take r.room ∧
    (ps.foldl Recorder.record r).table.startPtr = r.table.startPtr ∧
    (ps.foldl Recorder.record r).table.endPtr = r.table.endPtr ∧
    (ps.foldl Recorder.record r).table.goneThrough = r.table.goneThrough := by
  induction ps generalizing r with
  | nil => exact ⟨by rw [within64K, List.take_nil, List.append_nil]; rfl, rfl, rfl, rfl⟩
  | cons p ps ih =>
    obtain ⟨hp, hsorted⟩ := List.pairwise_cons.mp hsorted
    have hle := hlast p List.mem_cons_self
    have hlt := hnear p List.mem_cons_self
    rw [List.foldl_cons]
    by_cases hroom : r.table.index.length < variableIndexTableVolume ∧ r.stopRecord = false
    · have hlastEq := hr hroom.2 hroom.1
      have hmod : (p - r.lastVariable) % 2 ^ 32 = p - r.lastVariable := Nat.mod_eq_of_lt (by omega)
      have hroomEq : r.room = variableIndexTableVolume - r.table.index.length := by
        rw [Recorder.room, hroom.2, if_neg Bool.false_ne_true]
      by_cases hgap : 2 ^ 16 ≤ p - r.lastVariable
      · have hrec : r.record p = { r with stopRecord := true, lastVariable := p } := by
          rw [Recorder.record, if_pos hroom]
          simp only [hmod]
          rw [if_pos hgap]
        have hnext := @ih (r.record p) (by rw [hrec]; exact nofun) hsorted
          (by rw [hrec]; exact fun q hq => Nat.le_of_lt (hp q hq))
          (by rw [hrec]; exact fun q hq => by have := hnear q (List.mem_cons_of_mem _ hq); show q < p + 2 ^ 32; omega)
        rw [hrec] at hnext ⊢
        refine ⟨?_, hnext.2.1, hnext.2.2.1, hnext.2.2.2⟩
        rw [hnext.1, within64K, if_neg (by omega)]
        simp [Recorder.room]
      · have hrec : r.record p = ⟨{ r.table with index := r.table.index ++ [p - r.lastVariable] }, p, r.stopRecord⟩ := by
          rw [Recorder.record, if_pos hroom]
          simp only [hmod]
          rw [if_neg hgap]
        have hindexed : (r.record p).table.indexed = r.table.indexed ++ [p] := by
          rw [hrec, VariableIndexTable.indexed, indexedRecords_append, VariableIndexTable.indexed]
          have hpos : r.table.startPtr + (0 + (r.table.index.sum + (p - r.lastVariable))) = p := by omega
          exact congrArg (fun q => indexedRecords r.table.startPtr 0 r.table.index ++ [q]) hpos
        have hnext := @ih (r.record p)
          (by
            rw [hrec]
            intro _ _
            show p = r.table.startPtr + (r.table.index ++ [p - r.lastVariable]).sum
            rw [List.sum_append, List.sum_singleton]
            omega) hsorted
          (by rw [hrec]; exact fun q hq => Nat.le_of_lt (hp q hq))
          (by rw [hrec]; exact fun q hq => by have := hnear q (List.mem_cons_of_mem _ hq); show q < p + 2 ^ 32; omega)
        have hroom' : r.room = (r.record p).room + 1 := by
          rw [hroomEq, hrec, Recorder.room, hroom.2, if_neg Bool.false_ne_true, List.length_append,
            List.length_singleton]
          omega
        have hlastP : (r.record p).lastVariable = p := by rw [hrec]
        have hsame : (r.record p).table.startPtr = r.table.startPtr ∧ (r.record p).table.endPtr = r.table.endPtr ∧
            (r.record p).table.goneThrough = r.table.goneThrough := by rw [hrec]; exact ⟨rfl, rfl, rfl⟩
        refine ⟨?_, hnext.2.1.trans hsame.1, hnext.2.2.1.trans hsame.2.1, hnext.2.2.2.trans hsame.2.2⟩
        rw [hnext.1, hindexed, hlastP, within64K, if_pos (by omega), hroom', List.take_succ_cons, List.append_assoc]
        rfl
    · have hrec : r.record p = r := by rw [Recorder.record, if_neg hroom]
      rw [hrec]
      obtain ⟨h1, h2⟩ := ih hr hsorted (fun q hq => hlast q (List.mem_cons_of_mem _ hq))
        (fun q hq => hnear q (List.mem_cons_of_mem _ hq))
      refine ⟨?_, h2⟩
      rw [h1, room_eq_zero hroom, List.take_zero, List.take_zero]

theorem searchStore_find (m : Memory) (n : Name) (g : Guid) (ps : List Nat) (r : Recorder) :
    (searchStore m n g ps r).1 = (ps.filter (isAdded m)).find? fun p => compareWithValidVariable m p n g := by
  rw [searchStore_eq, List.find?_filter]
  congr 1
  funext p
  cases isAdded m p <;> cases compareWithValidVariable m p n g <;> rfl

/-- The walk records the headers that it passes. -/
theorem searchStore_recorder (m : Memory) (n : Name) (g : Guid) (ps : List Nat) (r : Recorder) :
    ∃ i, (searchStore m n g ps r).2 = ((ps.filter (isAdded m)).take i).foldl Recorder.record r ∧
      ((searchStore m n g ps r).1 = none → (ps.filter (isAdded m)).length ≤ i) := by
  induction ps generalizing r with
  | nil => exact ⟨0, rfl, fun _ => Nat.le_refl _⟩
  | cons p ps ih =>
    rw [searchStore, List.filter_cons]
    by_cases hadded : isAdded m p = true
    · rw [if_pos hadded, if_pos hadded]
      by_cases hmatch : compareWithValidVariable m p n g = true
      · rw [if_pos hmatch]
        exact ⟨1, rfl, fun h => absurd h (Option.some_ne_none p)⟩
      · rw [if_neg hmatch]
        obtain ⟨i, hrec, hnone⟩ := ih (r.record p)
        exact ⟨i + 1, hrec, fun h => Nat.succ_le_succ (hnone h)⟩
    · rw [if_neg hadded, if_neg hadded]
      exact ih r

/-! ## The table of a boot -/

/-- A table that some lookups of the boot have left, once the store was found. -/
structure TableInv (base : Nat) (m : Memory) (t : VariableIndexTable) : Prop where
  startPtr_eq : t.startPtr = getStartPointer base
  endPtr_eq : t.endPtr = getEndPointer m base
  indexed_eq : t.indexed = (within64K (getStartPointer base) (addedHeaders base m)).take t.index.length
  length_le : t.index.length ≤ variableIndexTableVolume
  gone : t.goneThrough = true → t.indexed = recordable base m ∧ (recordable base m).length < variableIndexTableVolume

section
variable {base : Nat} {m : Memory} {t : VariableIndexTable}

theorem endPtr_le (base : Nat) (m : Memory) : getEndPointer m base ≤ getStartPointer base + 2 ^ 32 := by
  have hsize : storeSizeOf m base < 256 ^ 4 := readLE_lt m (base + 16) 4
  have hstart : base + 28 ≤ getStartPointer base := headerAlign_ge (base + sizeofVariableStoreHeader)
  have hend : getEndPointer m base ≤ base + storeSizeOf m base + 3 := by
    rw [getEndPointer, headerAlign]
    omega
  omega

theorem addedHeaders_pairwise (base : Nat) (m : Memory) : (addedHeaders base m).Pairwise (· < ·) :=
  (walk_pairwise _ _ _ _).filter _

theorem addedHeaders_mem {p : Nat} (h : p ∈ addedHeaders base m) :
    getStartPointer base ≤ p ∧ p < getStartPointer base + 2 ^ 32 := by
  have hmem := walk_mem (List.mem_filter.mp h).1
  have := endPtr_le base m
  omega

theorem indexed_length (t : VariableIndexTable) : t.indexed.length = t.index.length := indexedRecords_length _ _ _

/-- The table holds the first `VAR_ADDED` headers. -/
theorem TableInv.indexed_eq_take (h : TableInv base m t) : t.indexed = (addedHeaders base m).take t.index.length ∧
    t.index.length ≤ (within64K (getStartPointer base) (addedHeaders base m)).length := by
  have hle : t.index.length ≤ (within64K (getStartPointer base) (addedHeaders base m)).length := by
    have := congrArg List.length h.indexed_eq
    rw [indexed_length, List.length_take] at this
    omega
  refine ⟨?_, hle⟩
  have hstarts := within64K_isPrefix (getStartPointer base) (addedHeaders base m)
  rw [h.indexed_eq]
  conv_lhs => rw [List.prefix_iff_eq_take.mp hstarts, List.take_take, Nat.min_eq_left hle]

theorem TableInv.split (h : TableInv base m t) :
    addedHeaders base m = t.indexed ++ (addedHeaders base m).drop t.index.length := by
  rw [h.indexed_eq_take.1, List.take_append_drop]

/-- The table holds the first headers of those that fit. -/
theorem tableInv_of_take {n : Nat} (hstart : t.startPtr = getStartPointer base) (hend : t.endPtr = getEndPointer m base)
    (hindexed : t.indexed = (within64K (getStartPointer base) (addedHeaders base m)).take n)
    (hn : n ≤ variableIndexTableVolume)
    (hgone : t.goneThrough = true → t.indexed = recordable base m ∧
      (recordable base m).length < variableIndexTableVolume) : TableInv base m t := by
  have hlen : t.index.length = min n (within64K (getStartPointer base) (addedHeaders base m)).length := by
    rw [← indexed_length, hindexed, List.length_take]
  refine ⟨hstart, hend, ?_, by omega, hgone⟩
  rw [hlen, hindexed, List.take_eq_take_iff]
  omega

/-- What the walk behind the table finds and leaves. -/
theorem searchFrom_spec {k : Name × Guid} {p : Nat} (h : TableInv base m t) (hgone : t.goneThrough = false)
    (hbehind : (walk m t.endPtr maxAddress p).filter (isAdded m) = (addedHeaders base m).drop t.index.length) :
    ∃ t', searchFrom m k.1 k.2 p (t.indexed.getLastD (getStartPointer base)) t =
        ((firstMatch m k ((addedHeaders base m).drop t.index.length)).1,
          (firstMatch m k ((addedHeaders base m).drop t.index.length)).2, t') ∧
      TableInv base m t' ∧
      (firstMatch m k ((addedHeaders base m).drop t.index.length) = (.notFound, none) →
        (recordable base m).length < variableIndexTableVolume → t'.goneThrough = true) := by
  obtain ⟨htake, hle⟩ := h.indexed_eq_take
  have hidx := h.indexed_eq
  have hvolume := h.length_le
  generalize hA : addedHeaders base m = A at *
  generalize hW : within64K (getStartPointer base) A = W at *
  let r : Recorder := ⟨t, t.indexed.getLastD (getStartPointer base), false⟩
  have hlast : r.lastVariable = (A.take t.index.length).getLastD (getStartPointer base) := by rw [← htake]
  -- the recorder goes on where the table ends
  have hsound : r.Sound := by
    intro _ _
    have := indexedRecords_getLastD t.startPtr 0 t.index
    rw [Nat.add_zero, h.startPtr_eq, Nat.zero_add, ← h.startPtr_eq] at this
    rw [show r.lastVariable = t.indexed.getLastD t.startPtr by rw [h.startPtr_eq], VariableIndexTable.indexed, this]
  have hbetween (p : Nat) (hp : p ∈ A.drop t.index.length) :
      r.lastVariable ≤ p ∧ p < r.lastVariable + 2 ^ 32 := by
    have hpA := addedHeaders_mem (hA ▸ List.mem_of_mem_drop hp)
    have hpair : (A.take t.index.length ++ A.drop t.index.length).Pairwise (· < ·) := by
      rw [List.take_append_drop, ← hA]
      exact addedHeaders_pairwise base m
    have hmem : r.lastVariable ∈ getStartPointer base :: A.take t.index.length := hlast ▸ List.getLastD_mem_cons
    rcases List.mem_cons.mp hmem with hstart | hmem
    · rw [hstart]
      exact hpA
    · have := (List.pairwise_append.mp hpair).2.2 _ hmem p hp
      have := addedHeaders_mem (hA ▸ List.mem_of_mem_take hmem)
      omega
  obtain ⟨i, hrec, hnone⟩ := searchStore_recorder m k.1 k.2 (walk m t.endPtr maxAddress p) r
  have hfind := searchStore_find m k.1 k.2 (walk m t.endPtr maxAddress p) r
  rw [hbehind] at hrec hnone hfind
  obtain ⟨hindexed, hstart', hend', hgone'⟩ := @foldl_record ((A.drop t.index.length).take i) r hsound
    ((((hA ▸ addedHeaders_pairwise base m : A.Pairwise (· < ·)).drop).take))
    (fun p hp => (hbetween p (List.mem_of_mem_take hp)).1) (fun p hp => (hbetween p (List.mem_of_mem_take hp)).2)
  rw [← hrec] at hindexed hstart' hend' hgone'
  have hroom : r.room = variableIndexTableVolume - t.index.length := rfl
  have hwithin : within64K r.lastVariable (A.drop t.index.length) = W.drop t.index.length := by
    rw [hlast, ← hW]
    exact within64K_drop (hW ▸ hle)
  -- the table now holds a longer prefix of what it can hold
  have hindexed' : (searchStore m k.1 k.2 (walk m t.endPtr maxAddress p) r).2.table.indexed =
      W.take (t.index.length + min (variableIndexTableVolume - t.index.length) i) := by
    rw [hindexed, within64K_take, hwithin, hroom, List.take_take, List.take_add, ← hidx]
  have hinv (gone : Bool) (hgone : gone = true → (searchStore m k.1 k.2 (walk m t.endPtr maxAddress p) r).2.table.indexed =
      recordable base m ∧ (recordable base m).length < variableIndexTableVolume) :
      TableInv base m { (searchStore m k.1 k.2 (walk m t.endPtr maxAddress p) r).2.table with goneThrough := gone } := by
    refine @tableInv_of_take base m _ (t.index.length + min (variableIndexTableVolume - t.index.length) i)
      (hstart'.trans h.startPtr_eq) (hend'.trans h.endPtr_eq) ?_ (by omega) hgone
    rw [hA, hW]
    exact hindexed'
  have hlen := indexed_length (searchStore m k.1 k.2 (walk m t.endPtr maxAddress p) r).2.table
  unfold searchFrom firstMatch
  rw [show (⟨t, t.indexed.getLastD (getStartPointer base), false⟩ : Recorder) = r from rfl]
  generalize searchStore m k.1 k.2 (walk m t.endPtr maxAddress p) r = result at *
  obtain ⟨found, r'⟩ := result
  simp only at hfind hnone hstart' hend' hgone' hindexed' hinv hlen
  rw [← hfind]
  cases found with
  | some q =>
    refine ⟨r'.table, rfl, ?_, nofun⟩
    have := hinv r'.table.goneThrough (by rw [hgone', show r.table.goneThrough = false from hgone]; exact nofun)
    exact this
  | none =>
    have hall : r'.table.indexed = recordable base m := by
      rw [hindexed', recordable, hA, hW]
      have := hnone rfl
      rw [List.length_drop] at this
      have hAW : W.length ≤ A.length := hW ▸ (within64K_isPrefix (getStartPointer base) A).length_le
      rw [List.take_eq_take_iff]
      omega
    rw [hall] at hlen
    refine ⟨_, rfl, ?_, fun _ hlt => ?_⟩
    · dsimp only
      split
      · rename_i hroom'
        exact hinv true fun _ => ⟨hall, by omega⟩
      · exact hinv r'.table.goneThrough (by rw [hgone', show r.table.goneThrough = false from hgone]; exact nofun)
    · dsimp only
      rw [if_pos (by omega)]

theorem firstMatch_of_find {k : Name × Guid} {ps : List Nat} {p : Nat}
    (h : (ps.find? fun p => compareWithValidVariable m p k.1 k.2) = some p) : firstMatch m k ps = (.success, some p) := by
  rw [firstMatch, h]

theorem firstMatch_of_none {k : Name × Guid} {ps : List Nat}
    (h : (ps.find? fun p => compareWithValidVariable m p k.1 k.2) = none) : firstMatch m k ps = (.notFound, none) := by
  rw [firstMatch, h]

/-- The walk that goes on behind the table goes on behind its headers. -/
theorem TableInv.behind (h : TableInv base m t) (p : Nat)
    (hp : p = match t.indexed.getLast? with
      | some maxIndex => getNextVariablePtr m maxIndex
      | none => t.startPtr) :
    (walk m t.endPtr maxAddress p).filter (isAdded m) = (addedHeaders base m).drop t.index.length := by
  have hfuel : getEndPointer m base ≤ getStartPointer base + maxAddress := by
    have := endPtr_le base m
    have : 2 ^ 32 ≤ maxAddress := by decide
    omega
  rw [h.endPtr_eq]
  have hlen := indexed_length t
  cases hlast : t.indexed.getLast? with
  | none =>
    rw [List.getLast?_eq_none_iff] at hlast
    rw [hlast] at hlen
    rw [hp, List.getLast?_eq_none_iff.mpr hlast, h.startPtr_eq, ← hlen]
    rfl
  | some maxIndex =>
    rw [hp, hlast]
    obtain ⟨init, hinit⟩ := List.getLast?_eq_some_iff.mp hlast
    have hsplit := h.split
    rw [hinit, List.append_assoc] at hsplit
    exact filter_walk_behind hfuel hsplit

/-- A lookup with a table of the boot. -/
theorem findVariable_spec (h : TableInv base m t) (k : Name × Guid) :
    ∃ t', findVariable base m k.1 k.2 (some t) =
        ((firstMatch m k (if t.goneThrough then recordable base m else addedHeaders base m)).1,
          (firstMatch m k (if t.goneThrough then recordable base m else addedHeaders base m)).2, t') ∧
      TableInv base m t' ∧
      (firstMatch m k (addedHeaders base m) = (.notFound, none) →
        (recordable base m).length < variableIndexTableVolume → t'.goneThrough = true) := by
  unfold findVariable
  simp only [Option.getD_some]
  have hsplit := h.split
  have hindexed : indexedRecords t.startPtr 0 t.index = t.indexed := rfl
  rw [hindexed]
  cases hfind : t.indexed.find? fun p => compareWithValidVariable m p k.1 k.2 with
  | some p =>
    have hsome := firstMatch_of_find hfind
    have hall : firstMatch m k (addedHeaders base m) = (.success, some p) := by
      rw [hsplit, firstMatch_append, hsome, if_neg (by simp)]
    have hanswer : firstMatch m k (if t.goneThrough then recordable base m else addedHeaders base m) =
        (.success, some p) := by
      split
      · rename_i hgone
        rw [← (h.gone hgone).1, hsome]
      · exact hall
    exact ⟨t, by rw [hanswer], h, fun hnone => by rw [hall] at hnone; cases hnone⟩
  | none =>
    have hnone := firstMatch_of_none hfind
    have hrest : firstMatch m k (addedHeaders base m) =
        firstMatch m k ((addedHeaders base m).drop t.index.length) := by
      conv_lhs => rw [hsplit, firstMatch_append, hnone, if_pos rfl]
    cases hgone : t.goneThrough with
    | true =>
      refine ⟨t, ?_, h, fun _ _ => hgone⟩
      simp only [if_true]
      rw [← (h.gone hgone).1, hnone]
    | false =>
      simp only [Bool.false_eq_true, if_false]
      rw [hrest]
      cases hlast : t.indexed.getLast? with
      | some maxIndex =>
        have hlastD : t.indexed.getLastD (getStartPointer base) = maxIndex := by
          rw [List.getLastD_eq_getLast?, hlast]
          rfl
        have := searchFrom_spec (k := k) h hgone (h.behind (getNextVariablePtr m maxIndex) (by rw [hlast]))
        rw [hlastD] at this
        exact this
      | none =>
        have hlastD : t.indexed.getLastD (getStartPointer base) = t.startPtr := by
          rw [List.getLastD_eq_getLast?, hlast, h.startPtr_eq]
          rfl
        have hpos : t.startPtr ≠ 0 := by
          have : base + 28 ≤ getStartPointer base := headerAlign_ge (base + sizeofVariableStoreHeader)
          rw [h.startPtr_eq]
          omega
        rw [if_pos (.inl hpos)]
        have := searchFrom_spec (k := k) h hgone (h.behind t.startPtr (by rw [hlast]))
        rw [hlastD] at this
        exact this

/-- The first lookup makes a table. -/
theorem findVariable_first (hvalid : getVariableStoreStatus m base = .efiValid) (hsize : storeSizeOf m base ≠ 0xffffffff)
    (k : Name × Guid) :
    ∃ t', findVariable base m k.1 k.2 none =
        ((firstMatch m k (addedHeaders base m)).1, (firstMatch m k (addedHeaders base m)).2, t') ∧
      TableInv base m t' ∧
      (firstMatch m k (addedHeaders base m) = (.notFound, none) →
        (recordable base m).length < variableIndexTableVolume → t'.goneThrough = true) := by
  let t : VariableIndexTable := ⟨getStartPointer base, getEndPointer m base, [], false⟩
  have ht : TableInv base m t := ⟨rfl, rfl, rfl, Nat.zero_le _, nofun⟩
  have := @searchFrom_spec base m t k (getStartPointer base) ht rfl (ht.behind _ rfl)
  unfold findVariable
  simp only [Option.getD_none, newIndexTable, indexedRecords, List.find?_nil, Bool.false_eq_true, if_false,
    List.getLast?_nil, ne_eq, not_true_eq_false, or_self, hvalid, hsize]
  exact this

theorem findVariable_invalid (h : ¬(getVariableStoreStatus m base = .efiValid ∧ storeSizeOf m base ≠ 0xffffffff))
    (k : Name × Guid) {hob : Option VariableIndexTable} (hhob : hob.getD newIndexTable = newIndexTable) :
    findVariable base m k.1 k.2 hob = ((walkStore base m k).1, (walkStore base m k).2, newIndexTable) := by
  unfold findVariable walkStore
  rw [hhob]
  simp only [newIndexTable, indexedRecords, List.find?_nil, Bool.false_eq_true, if_false, List.getLast?_nil, ne_eq,
    not_true_eq_false, or_self]
  by_cases hvalid : getVariableStoreStatus m base = .efiValid
  · have hsize : storeSizeOf m base = 0xffffffff := by
      by_contra hsize
      exact h ⟨hvalid, hsize⟩
    rw [if_neg (not_not.mpr hvalid), if_neg (not_not.mpr hvalid), if_pos hsize, if_pos hsize]
  · rw [if_pos hvalid, if_pos hvalid]

/-! ## Whole boots -/

/-- The table holds all headers that it needs. -/
def Sufficient (base : Nat) (m : Memory) : Prop :=
  (recordable base m).length = variableIndexTableVolume ∨
    ∀ k, MatchesOne m k (addedHeaders base m) → MatchesOne m k (recordable base m)

theorem firstMatch_recordable (h : ∀ k, MatchesOne m k (addedHeaders base m) → MatchesOne m k (recordable base m))
    (k : Name × Guid) : firstMatch m k (recordable base m) = firstMatch m k (addedHeaders base m) := by
  obtain ⟨rest, hrest⟩ : recordable base m <+: addedHeaders base m :=
    (List.take_prefix _ _).trans (within64K_isPrefix _ _)
  by_cases hk : MatchesOne m k (recordable base m)
  · have hne : (firstMatch m k (recordable base m)).2 ≠ none := by
      unfold firstMatch
      obtain ⟨p, hp, hm⟩ := hk
      cases hfind : (recordable base m).find? fun p => compareWithValidVariable m p k.1 k.2 with
      | some q => simp
      | none => exact absurd hm (List.find?_eq_none.mp hfind p hp)
    rw [← hrest, firstMatch_append, if_neg hne]
  · rw [firstMatch_eq_notFound.mpr hk, firstMatch_eq_notFound.mpr fun hadded => hk (h k hadded)]

/-- The answers with a table that suffices. -/
theorem lookups_eq (hvalid : getVariableStoreStatus m base = .efiValid) (hsize : storeSizeOf m base ≠ 0xffffffff)
    (hs : Sufficient base m) (ks : List (Name × Guid)) (hob : Option VariableIndexTable)
    (ht : ∀ t, hob = some t → TableInv base m t) : lookups base m ks hob = ks.map (walkStore base m) := by
  have hwalk (k : Name × Guid) : walkStore base m k = firstMatch m k (addedHeaders base m) := by
    rw [walkStore, if_neg (not_not.mpr hvalid), if_neg hsize]
  have hlookup (k : Name × Guid) (hob : Option VariableIndexTable) (ht : ∀ t, hob = some t → TableInv base m t) :
      ∃ t', findVariable base m k.1 k.2 hob = ((walkStore base m k).1, (walkStore base m k).2, t') ∧
        TableInv base m t' := by
    cases hob with
    | none =>
      obtain ⟨t', hfind, hinv, -⟩ := findVariable_first hvalid hsize k
      exact ⟨t', by rw [hfind, hwalk], hinv⟩
    | some t =>
      obtain ⟨t', hfind, hinv, -⟩ := findVariable_spec (ht t rfl) k
      refine ⟨t', ?_, hinv⟩
      rw [hfind, hwalk]
      cases hgone : t.goneThrough with
      | false => rfl
      | true =>
        have hall := hs.resolve_left fun hlen => by
          have := ((ht t rfl).gone hgone).2
          omega
        rw [if_pos rfl, firstMatch_recordable hall]
  induction ks generalizing hob with
  | nil => rfl
  | cons k ks ih =>
    obtain ⟨t', hfind, hinv⟩ := hlookup k hob ht
    rw [lookups, hfind, List.map_cons]
    exact congrArg _ (ih (some t') fun t h => Option.some.inj h ▸ hinv)

/-- There are more GUIDs than headers. -/
theorem exists_unmatched (base : Nat) (m : Memory) : ∃ k, ¬MatchesOne m k (addedHeaders base m) := by
  let name : Name := ⟨[1], by simp⟩
  let guid (i : Nat) : Guid := ⟨toLE 16 i, toLE_length 16 i⟩
  by_contra hall
  have hall (k : Name × Guid) : MatchesOne m k (addedHeaders base m) := by
    by_contra hk
    exact hall ⟨k, hk⟩
  have hmem (i : Nat) : toLE 16 i ∈ (addedHeaders base m).map (vendorGuidOf m) := by
    obtain ⟨p, hp, hm⟩ := hall (name, guid i)
    refine List.mem_map.mpr ⟨p, hp, ?_⟩
    have hempty : name.chars.isEmpty = false := rfl
    rw [compareWithValidVariable, hempty, Bool.false_or, Bool.and_eq_true, beq_iff_eq] at hm
    exact ((guidWords_inj (toLE_length 16 i) (read_length _ _ _)).mp hm.1).symm
  have hcount : (addedHeaders base m).length < 256 ^ 16 := by
    have hle : (addedHeaders base m).length ≤ maxAddress :=
      Nat.le_trans (List.length_filter_le _ _) (walk_length_le _ _ _ _)
    exact Nat.lt_of_le_of_lt hle (by decide)
  have hnodup : ((List.range ((addedHeaders base m).length + 1)).map (toLE 16)).Nodup := by
    refine List.nodup_range.map_on fun i hi j hj hij => ?_
    rw [List.mem_range] at hi hj
    rw [← fromLE_toLE 16 i (by omega), hij, fromLE_toLE 16 j (by omega)]
  have hsub : (List.range ((addedHeaders base m).length + 1)).map (toLE 16) ⊆
      (addedHeaders base m).map (vendorGuidOf m) := by
    intro g hg
    obtain ⟨i, -, rfl⟩ := List.mem_map.mp hg
    exact hmem i
  have := hnodup.length_le_of_subset hsub
  rw [List.length_map, List.length_map, List.length_range] at this
  omega

/-- The table is transparent in all boots if and only if the store is not searched at all, the table is full, or
all that match a `VAR_ADDED` header match one of those in the table. -/
theorem index_table_transparent_iff (base : Nat) (m : Memory) :
    (∀ ks, lookups base m ks none = ks.map (walkStore base m)) ↔
      ¬(getVariableStoreStatus m base = .efiValid ∧ storeSizeOf m base ≠ 0xffffffff) ∨ Sufficient base m := by
  by_cases hstore : getVariableStoreStatus m base = .efiValid ∧ storeSizeOf m base ≠ 0xffffffff
  · obtain ⟨hvalid, hsize⟩ := hstore
    have hwalk (k : Name × Guid) : walkStore base m k = firstMatch m k (addedHeaders base m) := by
      rw [walkStore, if_neg (not_not.mpr hvalid), if_neg hsize]
    constructor
    · intro h
      refine .inr (or_iff_not_imp_left.mpr fun hroom k hk => ?_)
      have hshort : (recordable base m).length < variableIndexTableVolume := by
        have : (recordable base m).length ≤ variableIndexTableVolume := List.length_take_le _ _
        omega
      -- after a lookup that finds nothing only the table counts
      obtain ⟨missing, hmissing⟩ := exists_unmatched base m
      obtain ⟨t, hfirst, hinv, hgone⟩ := findVariable_first hvalid hsize missing
      obtain ⟨t', hsecond, -, -⟩ := findVariable_spec hinv k
      have hanswers := h [missing, k]
      rw [lookups, hfirst] at hanswers
      simp only [lookups, hsecond, hgone (firstMatch_eq_notFound.mpr hmissing) hshort, if_true, List.map_cons, List.map_nil,
        List.cons.injEq, and_true, hwalk] at hanswers
      by_contra hnone
      have hsame : firstMatch m k (recordable base m) = firstMatch m k (addedHeaders base m) := hanswers.2
      rw [firstMatch_eq_notFound.mpr hnone, eq_comm, firstMatch_eq_notFound] at hsame
      exact hsame hk
    · rintro (hnot | hs)
      · exact absurd ⟨hvalid, hsize⟩ hnot
      · exact fun ks => lookups_eq hvalid hsize hs ks none nofun
  · refine ⟨fun _ => .inl hstore, fun _ ks => ?_⟩
    have hall (ks : List (Name × Guid)) (hob : Option VariableIndexTable)
        (hhob : hob.getD newIndexTable = newIndexTable) : lookups base m ks hob = ks.map (walkStore base m) := by
      induction ks generalizing hob with
      | nil => rfl
      | cons k ks ih =>
        rw [lookups, findVariable_invalid hstore k hhob, List.map_cons]
        exact congrArg _ (ih (some newIndexTable) rfl)
    exact hall ks none rfl

end

/-- A header at `p`, and a name of one character behind it. -/
def headerWithName (state : UInt8) (dataSize : Nat) (c : UInt8) : List UInt8 :=
  toLE 2 variableData ++ [state, 0] ++ toLE 4 7 ++ toLE 4 4 ++ toLE 4 dataSize ++
    gEfiGlobalVariableGuid.bytes ++ [c, 0, 0, 0]

/-- A store of 128 KB at 4096: a deleted variable of 64 KB, and a variable `B` behind it. -/
def distantStore : Memory :=
  write (write (write (fun _ => 0xff) 4096 (gEfiVariableGuid.bytes ++ toLE 4 0x20000 ++
    [variableStoreFormatted, variableStoreHealthy])) 4124 (headerWithName (varAdded &&& varDeleted) 0x10000 0x41))
    (4124 + 36 + 0x10000) (headerWithName varAdded 0 0x42)

/-- The variable is found if it is the first one looked for, and not after a lookup of `X`. -/
theorem distant_variable_lost :
    walkStore 4096 distantStore (⟨[0x42], by simp⟩, gEfiGlobalVariableGuid) = (.success, some (4124 + 36 + 0x10000)) ∧
    lookups 4096 distantStore [(⟨[0x58], by simp⟩, gEfiGlobalVariableGuid), (⟨[0x42], by simp⟩, gEfiGlobalVariableGuid)]
      none = [(.notFound, none), (.notFound, none)] := by
  decide +kernel

end Udk.Variable.Pei
