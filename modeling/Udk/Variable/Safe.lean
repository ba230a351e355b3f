import Udk.Variable.UpdateSpec

/-! # When an update is safe

The condition under which a call of `UpdateVariable` does what its callers expect, on the state before
the call.
-/

open Udk.Bytes

namespace Udk.Variable

/-! ## Copies in memory -/

/-- The records of `k` in a store that are `VAR_ADDED` or in delete transition. -/
def liveCopies (m : Memory) (base : Nat) (k : Key) : List Nat :=
  (storeHeaders m base).filter fun p => (isAdded m p || isInDeletedTransition m p) && nameMatches m k.1 k.2 p

/-- The ones that `Reclaim` keeps. -/
def keptCopies (m : Memory) (ps : List Nat) : List Nat :=
  if ps.filter (isAdded m) = [] then ps.head?.toList else ps.filter (isAdded m)

/-- Attributes and data of the last one that can be seen. -/
def shownValue (m : Memory) (atRuntime : Bool) (ps : List Nat) : Option (Nat × List UInt8) :=
  (ps.filter (isVisible m atRuntime)).getLast?.map fun p => (attributesOf m p, dataOf m p)

/-- Every copy in memory is a record of the store. -/
theorem liveCopies_eq {m : Memory} {base size : Nat} {recs : List Record} (k : Key)
    (h : StoreHolds m base size recs) (ha : StoreArea base size) (hg : Good recs) :
    ∃ z : List (Nat × Record), (∀ x ∈ z, At m x.1 x.2.bytes ∧ x.2.isLive = true) ∧
      liveCopies m base k = z.map Prod.fst ∧ copies k recs = z.map Prod.snd := by
  have hwalk : ∀ (recs : List Record) (a : Nat), Holds m a recs → (∀ r ∈ recs, r.isLive = true → r.Named) →
      ∃ z : List (Nat × Record), (∀ x ∈ z, At m x.1 x.2.bytes ∧ x.2.isLive = true) ∧
        ((addresses a recs).filter fun p => (isAdded m p || isInDeletedTransition m p) &&
          nameMatches m k.1 k.2 p) = z.map Prod.fst ∧ copies k recs = z.map Prod.snd := by
    intro recs
    induction recs with
    | nil => intro a _ _; exact ⟨[], by simp, rfl, rfl⟩
    | cons r rs ih =>
      intro a hh hn
      obtain ⟨z, hz, h1, h2⟩ := ih _ hh.2 fun q hq => hn q (by simp [hq])
      have hl : (isAdded m a || isInDeletedTransition m a) = r.isLive := by
        rw [isAdded_of_at hh.1, isInDeletedTransition_of_at hh.1]; rfl
      cases hr : r.isLive with
      | false =>
        refine ⟨z, hz, ?_, by rw [copies_cons_dead k r rs hr, h2]⟩
        rw [addresses, List.filter_cons_of_neg (by simp [hl, hr]), h1]
      | true =>
        have hm := nameMatches_of_at hh.1 (r.not_erased_of_live hr) (hn r (by simp) hr) k.1 k.2
        cases hk : r.has k with
        | false =>
          refine ⟨z, hz, ?_, by rw [copies_cons_other k r rs hk, h2]⟩
          rw [addresses, List.filter_cons_of_neg (by rw [hm, hk]; simp), h1]
        | true =>
          refine ⟨(a, r) :: z, ?_, ?_, by rw [copies_cons_pos k r rs hr hk, h2]; rfl⟩
          · intro x hx
            rcases List.mem_cons.mp hx with rfl | hx
            · exact ⟨hh.1, hr⟩
            · exact hz x hx
          · rw [addresses, List.filter_cons_of_pos (by rw [hm, hk, hl, hr]; rfl), h1]; rfl
  obtain ⟨z, hz, h1, h2⟩ := hwalk recs _ h.records hg.named
  exact ⟨z, hz, by rw [liveCopies, h.storeHeaders_eq ha, h1], h2⟩

section
variable {m : Memory} {base size : Nat} {recs : List Record} {z : List (Nat × Record)}

theorem filter_map_fst {f : Nat → Bool} {g : Record → Bool} (h : ∀ x ∈ z, f x.1 = g x.2) :
    (z.map Prod.fst).filter f = (z.filter fun x => g x.2).map Prod.fst := by
  induction z with
  | nil => rfl
  | cons x z ih =>
    have ih := ih fun y hy => h y (by simp [hy])
    have hx := h x (by simp)
    rw [List.map_cons, List.filter_cons, List.filter_cons, hx]
    split <;> simp [ih]

theorem filter_map_snd {g : Record → Bool} : (z.map Prod.snd).filter g = (z.filter fun x => g x.2).map Prod.snd := by
  rw [List.filter_map]; rfl

theorem shownValue_map (atRuntime : Bool) (hz : ∀ x ∈ z, At m x.1 x.2.bytes ∧ x.2.isLive = true) :
    shownValue m atRuntime (z.map Prod.fst) = (lastVisible atRuntime (z.map Prod.snd)).map Record.value := by
  rw [shownValue, lastVisible, filter_map_fst (g := fun r => r.isVisible atRuntime)
    fun x hx => isVisible_of_at (hz x hx).1 atRuntime, filter_map_snd, List.getLast?_map, List.getLast?_map,
    Option.map_map, Option.map_map]
  cases hl : (z.filter fun x => x.2.isVisible atRuntime).getLast? with
  | none => rfl
  | some x =>
    obtain ⟨hx, hl⟩ := hz x (List.mem_filter.mp (List.mem_of_getLast? hl)).1
    simp only [Option.map_some, Function.comp_apply, Record.value, attributesOf_of_at hx,
      dataOf_of_at hx (x.2.not_erased_of_live hl)]

theorem shownValue_keptCopies (atRuntime : Bool) (hz : ∀ x ∈ z, At m x.1 x.2.bytes ∧ x.2.isLive = true) :
    shownValue m atRuntime (keptCopies m (z.map Prod.fst)) =
      (lastVisible atRuntime (kept (z.map Prod.snd))).map Record.value := by
  unfold keptCopies kept
  rw [filter_map_fst (g := Record.isAdded) fun x hx => isAdded_of_at (hz x hx).1, filter_map_snd]
  simp only [List.map_eq_nil_iff]
  split
  · cases z with
    | nil => rfl
    | cons x z =>
      have := shownValue_map (z := [x]) atRuntime fun y hy => hz y (by simp at hy; simp [hy])
      simp only [List.map_cons, List.head?_cons, Option.toList_some, Option.map_some, List.map_nil] at this ⊢
      rw [this]
      cases hv : x.2.isVisible atRuntime <;> simp [lastVisible, hv]
  · exact shownValue_map atRuntime fun x hx => hz x (List.mem_filter.mp hx).1

theorem liveCopies_length (k : Key) (h : StoreHolds m base size recs) (ha : StoreArea base size) (hg : Good recs) :
    (liveCopies m base k).length = (copies k recs).length := by
  obtain ⟨z, -, h1, h2⟩ := liveCopies_eq k h ha hg
  rw [h1, h2, List.length_map, List.length_map]

theorem shownValue_liveCopies (atRuntime : Bool) (k : Key) (h : StoreHolds m base size recs)
    (ha : StoreArea base size) (hg : Good recs) :
    shownValue m atRuntime (liveCopies m base k) = foundValue atRuntime k recs := by
  obtain ⟨z, hz, h1, h2⟩ := liveCopies_eq k h ha hg
  rw [h1, shownValue_map atRuntime hz, foundValue, found_eq, h2]

theorem shownValue_kept (atRuntime : Bool) (k : Key) (h : StoreHolds m base size recs)
    (ha : StoreArea base size) (hg : Good recs) :
    shownValue m atRuntime (keptCopies m (liveCopies m base k)) =
      (lastVisible atRuntime (kept (copies k recs))).map Record.value := by
  obtain ⟨z, hz, h1, h2⟩ := liveCopies_eq k h ha hg
  rw [h1, shownValue_keptCopies atRuntime hz, h2]

theorem visible_liveCopies (atRuntime : Bool) (k : Key) (h : StoreHolds m base size recs)
    (ha : StoreArea base size) (hg : Good recs) :
    (∀ p ∈ liveCopies m base k, isVisible m atRuntime p = true) ↔ ∀ r ∈ copies k recs, r.isVisible atRuntime = true := by
  obtain ⟨z, hz, h1, h2⟩ := liveCopies_eq k h ha hg
  rw [h1, h2]
  simp only [List.mem_map, forall_exists_index, and_imp, forall_apply_eq_imp_iff₂]
  constructor
  · intro hv x hx
    rw [← isVisible_of_at (hz x hx).1]; exact hv x hx
  · intro hv x hx
    rw [isVisible_of_at (hz x hx).1]; exact hv x hx

end

/-! ## The condition -/

/-- `DataSize == 0` or no access attributes. -/
def isDelete (attributes : Nat) (data : List UInt8) : Bool := data.length = 0 || !hasAccess attributes

/-- `UpdateVariable` reaches its function part. -/
def createsRecord (attributes : Nat) (data : List UInt8) (v : VariablePointerTrack) (s : State) : Bool :=
  !isDelete attributes data &&
    if v.currPtr = 0 then
      !(s.atRuntime && (attributes &&& efiVariableRuntimeAccess == 0 || !isNonVolatile attributes))
    else
      !(s.atRuntime && v.isVolatile) && !(s.atRuntime && !isNonVolatile (attributesOf s.mem v.currPtr)) &&
        !(dataSizeOfVariable s.mem v.currPtr == data.length &&
          Bytes.read s.mem (getVariableDataPtr s.mem v.currPtr) data.length == data)

/-- The store that gets the new record has no room for it. -/
def isFull (P : Platform) (variableName : Name) (attributes : Nat) (data : List UInt8) (s : State) : Bool :=
  if isNonVolatile attributes then overQuota P attributes (varSize variableName data) s
  else overVolatileSize P (varSize variableName data) s

def runsReclaim (P : Platform) (variableName : Name) (attributes : Nat) (data : List UInt8)
    (v : VariablePointerTrack) (s : State) : Bool :=
  createsRecord attributes data v s && isFull P variableName attributes data s &&
    !(isNonVolatile attributes && s.atRuntime)

/-- `Reclaim` of the store at `base` keeps the value of every variable but `k`. -/
def ReclaimKeeps (base : Nat) (k : Option Key) (s : State) : Prop :=
  ∀ j, k ≠ some j → shownValue s.mem s.atRuntime (keptCopies s.mem (liveCopies s.mem base j)) =
    shownValue s.mem s.atRuntime (liveCopies s.mem base j)

/-- The condition on a call of `UpdateVariable` for the variable `k`. -/
structure UpdateSafe (P : Platform) (env : Environment) (k : Key) (attributes : Nat) (data : List UInt8)
    (v : VariablePointerTrack) (s : State) : Prop where
  /-- `v` is what `FindVariable` finds in this state. -/
  current : (findVariable P k.1 k.2 s).2 = v
  /-- The services that `Reclaim` needs for the non-volatile store succeed. -/
  services : runsReclaim P k.1 attributes data v s = true → isNonVolatile attributes = true →
    env.allocatePool s.reclaims (maximumBufferSize s.mem P.nonVolatileVariableBase) = true ∧
      (env.ftwWrite s.reclaims).isError = false
  /-- A variable does not move to the other store when that store is compacted. -/
  stays : runsReclaim P k.1 attributes data v s = true → v.currPtr ≠ 0 → v.isVolatile = !isNonVolatile attributes
  /-- A variable that moves to the other store has one copy. -/
  moves : createsRecord attributes data v s = true → v.currPtr ≠ 0 → v.isVolatile ≠ (!isNonVolatile attributes) →
    (liveCopies s.mem P.volatileVariableBase k).length + (liveCopies s.mem P.nonVolatileVariableBase k).length = 1
  others : runsReclaim P k.1 attributes data v s = true →
    ReclaimKeeps (P.base !isNonVolatile attributes) (some k) s
  /-- The walk over a full volatile store does not take the name in the scratch area for a header. -/
  stops : runsReclaim P k.1 attributes data v s = true → isNonVolatile attributes = false → WalkStops P s k.1
  /-- No copy of the variable is hidden at runtime. -/
  visible : createsRecord attributes data v s = true →
    (∀ p ∈ liveCopies s.mem P.volatileVariableBase k, isVisible s.mem s.atRuntime p = true) ∧
      ∀ p ∈ liveCopies s.mem P.nonVolatileVariableBase k, isVisible s.mem s.atRuntime p = true

theorem keepsFound_of_reclaimKeeps {s : State} {base size : Nat} {recs : List Record} {k : Key}
    (h : StoreHolds s.mem base size recs) (ha : StoreArea base size) (hg : Good recs)
    (hk : ReclaimKeeps base (some k) s) : KeepsFound s.atRuntime k recs := by
  intro j hj
  have := hk j (by simpa using fun h => hj h.symm)
  rwa [shownValue_kept _ _ h ha hg, shownValue_liveCopies _ _ h ha hg] at this

end Udk.Variable
