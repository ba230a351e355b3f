import Udk.Variable.Listing
import Udk.Variable.Room

/-! # The enumeration of the variables -/

open Udk.Bytes

namespace Udk.Variable

def guidOfBytes (bs : List UInt8) : Option Guid := if h : bs.length = 16 then some ⟨bs, h⟩ else none

/-- The names and GUIDs that the calls give back, one call after the other, until one answers
`EFI_NOT_FOUND`. The number bounds the calls. -/
def enumerateFrom (P : Platform) (size : Nat) (s : State) : Nat → Name → Guid → Option (List (Name × Guid))
  | 0, _, _ => none
  | calls + 1, n, g =>
    match runtimeServiceGetNextVariableName P (some size) (some n) (some g) s with
    | ⟨.success, _, some (nameBytes, guidBytes)⟩ => do
      let n' := Name.ofBytes nameBytes
      let g' ← guidOfBytes guidBytes
      let rest ← enumerateFrom P size s calls n' g'
      some ((n', g') :: rest)
    | ⟨.notFound, _, _⟩ => some []
    | _ => none

def emptyName : Name := ⟨[], by simp⟩

/-- The enumeration ends, and gives back each variable that a lookup finds, once. -/
structure Enumerates (P : Platform) (s : State) (size : Nat) (g : Guid) (ks : List (Name × Guid)) : Prop where
  ends : ∃ calls, enumerateFrom P size s calls emptyName g = some ks
  once : ks.Nodup
  found : ∀ k, k ∈ ks ↔ k.1.chars ≠ [] ∧ (findVariable P k.1 k.2 s).1 = .success

section
variable {P : Platform} {env : Environment} {s : State} {vol nv : List Record} {size : Nat} {g : Guid}

theorem guidOfBytes_bytes (g : Guid) : guidOfBytes g.bytes = some g := by
  unfold guidOfBytes
  rw [dif_pos g.length_eq]

/-- One call, and the ones after it. -/
theorem enumerateFrom_next {n : Name} {r : Record} {calls : Nat} {ks : List (Name × Guid)}
    (h : runtimeServiceGetNextVariableName P (some size) (some n) (some g) s = nextResult size (some r))
    (hks : enumerateFrom P size s calls r.key.1 r.key.2 = some ks) :
    enumerateFrom P size s (calls + 1) n g = some (r.key :: ks) := by
  have hks' : enumerateFrom P size s calls (Name.ofBytes r.nameBytes) r.guid = some ks := hks
  rw [enumerateFrom, h]
  simp only [nextResult, guidOfBytes_bytes, Option.bind_eq_bind, Option.bind_some, hks']
  rfl

theorem enumerateFrom_stop {n : Name} (calls : Nat)
    (h : runtimeServiceGetNextVariableName P (some size) (some n) (some g) s = nextResult size none) :
    enumerateFrom P size s (calls + 1) n g = some [] := by
  rw [enumerateFrom, h]
  rfl

/-- The calls go through the listed records. -/
theorem enumerateFrom_listed (h : Settled P s vol nv) (hsize : LargeEnough size vol) (hsize' : LargeEnough size nv)
    (before after : List Record) {r : Record}
    (hl : listing s.atRuntime vol nv = before ++ r :: after) :
    enumerateFrom P size s (after.length + 1) r.key.1 r.key.2 = some (after.map Record.key) := by
  induction after generalizing before r with
  | nil => exact enumerateFrom_stop _ (getNext_listed h hsize hsize' before hl)
  | cons q qs ih =>
    have hq := ih (before ++ [r]) (r := q) (by rw [hl]; simp)
    exact enumerateFrom_next (getNext_listed h hsize hsize' before hl) hq

theorem enumerateFrom_empty (h : Settled P s vol nv) (hsize : LargeEnough size vol) (hsize' : LargeEnough size nv)
    (g : Guid) : enumerateFrom P size s ((listing s.atRuntime vol nv).length + 1) emptyName g =
      some ((listing s.atRuntime vol nv).map Record.key) := by
  have hstart := getNext_empty (n := emptyName) (g := g) h rfl hsize hsize'
  cases hl : listing s.atRuntime vol nv with
  | nil =>
    rw [hl] at hstart
    exact enumerateFrom_stop _ hstart
  | cons r rs =>
    rw [hl] at hstart
    exact enumerateFrom_next hstart (enumerateFrom_listed h hsize hsize' [] rs hl)

theorem enumerateFrom_succ {calls : Nat} {n : Name} {ks : List (Name × Guid)}
    (h : enumerateFrom P size s calls n g = some ks) : enumerateFrom P size s (calls + 1) n g = some ks := by
  induction calls generalizing n g ks with
  | zero => cases h
  | succ calls ih =>
    rw [enumerateFrom] at h ⊢
    split at h
    · simp only [Option.bind_eq_bind, Option.bind_eq_some_iff] at h ⊢
      obtain ⟨g', hg, rest, hrest, hks⟩ := h
      exact ⟨g', hg, rest, ih hrest, hks⟩
    · exact h
    · cases h

/-- The number of calls does not matter once the enumeration ends. -/
theorem enumerateFrom_unique {c c' : Nat} {n : Name} {ks ks' : List (Name × Guid)}
    (h : enumerateFrom P size s c n g = some ks) (h' : enumerateFrom P size s c' n g = some ks') : ks = ks' := by
  have hle : ∀ {c} d {ks}, enumerateFrom P size s c n g = some ks → enumerateFrom P size s (c + d) n g = some ks := by
    intro c d ks h
    induction d with
    | zero => exact h
    | succ d ih => exact enumerateFrom_succ ih
  have h1 := hle c' h
  have h2 := hle c h'
  rw [Nat.add_comm] at h2
  exact Option.some.inj (h1.symm.trans h2)

/-! ## The listed variables -/

theorem key_of_has {r : Record} {k : Key} (hn : r.Named) (hk : r.has k = true) : r.key = k :=
  Record.has_unique hn.has_key.1 hk

theorem Settled.listed_named (h : Settled P s vol nv) {r : Record} {b : Bool} (hr : r ∈ listing b vol nv) :
    r.Named ∧ r.isAdded = true ∧ r.isVisible b = true := by
  unfold listing at hr
  rw [List.mem_append, mem_listed, mem_listed] at hr
  rcases hr with ⟨hm, ha, hv⟩ | ⟨hm, ha, hv⟩
  · exact ⟨h.holding.volatile_good.named r hm (isLive_of_added ha), ha, hv⟩
  · exact ⟨h.holding.nonVolatile.good.named r hm (isLive_of_added ha), ha, hv⟩

/-- A store lists a variable once. -/
theorem listed_keys_nodup {recs : List Record} (hg : Good recs) (b : Bool) : ((listed b recs).map Record.key).Nodup := by
  rw [List.nodup_iff_pairwise_ne, List.pairwise_map]
  refine (hg.newest.sublist List.filter_sublist).imp_of_mem fun {r q} hr hq h hkey => ?_
  obtain ⟨hrm, ha, -⟩ := mem_listed.mp hr
  obtain ⟨hqm, ha', -⟩ := mem_listed.mp hq
  have hsame := h ha (isLive_of_added ha')
  have hr := (hg.named r hrm (isLive_of_added ha)).has_key.1
  have hq := (hg.named q hqm (isLive_of_added ha')).has_key.1
  rw [Record.sameAs_of_has hr, hkey, hq] at hsame
  cases hsame

theorem Settled.listing_nodup (h : Settled P s vol nv) (b : Bool) : ((listing b vol nv).map Record.key).Nodup := by
  unfold listing
  rw [List.map_append, List.nodup_append]
  refine ⟨listed_keys_nodup h.holding.volatile_good b, listed_keys_nodup h.holding.nonVolatile.good b, ?_⟩
  rintro k hk k' hk' rfl
  obtain ⟨r, hr, rfl⟩ := List.mem_map.mp hk
  obtain ⟨q, hq, hkey⟩ := List.mem_map.mp hk'
  obtain ⟨hrm, ha, -⟩ := mem_listed.mp hr
  obtain ⟨hqm, ha', -⟩ := mem_listed.mp hq
  have hr := (h.holding.volatile_good.named r hrm (isLive_of_added ha)).has_key.1
  have hq := (h.holding.nonVolatile.good.named q hqm (isLive_of_added ha')).has_key.1
  rw [hkey] at hq
  rcases h.apart r.key with h0 | h0
  · have := mem_copies.mpr ⟨hrm, isLive_of_added ha, hr⟩
    rw [h0] at this; cases this
  · have := mem_copies.mpr ⟨hqm, isLive_of_added ha', hq⟩
    rw [h0] at this; cases this

/-- `FindVariable` finds `k` in state `VAR_ADDED`. -/
def FoundAdded (P : Platform) (s : State) (k : Name × Guid) : Prop :=
  (findVariable P k.1 k.2 s).1 = .success ∧ isAdded s.mem (findVariable P k.1 k.2 s).2.currPtr = true

/-- A variable is listed exactly if it is found in state `VAR_ADDED`. -/
theorem mem_listing_keys (h : Settled P s vol nv) {k : Key} (hk : k.1.chars ≠ []) :
    k ∈ (listing s.atRuntime vol nv).map Record.key ↔ FoundAdded P s k := by
  obtain ⟨hst, hf⟩ := findVariable_spec (s := s) h.holding.stores hk
  have hadded : ∀ {base st : Nat} {recs pre post : List Record} {r : Record}, StoreHolds s.mem base st recs →
      IsFound s.atRuntime k recs pre r post → isAdded s.mem (recordAt base pre) = r.isAdded := fun hs hf =>
    isAdded_of_at (isFound_at hs hf)
  have hlisted : (∃ r ∈ listing s.atRuntime vol nv, r.has k = true) ↔
      k ∈ (listing s.atRuntime vol nv).map Record.key := by
    rw [List.mem_map]
    constructor
    · rintro ⟨r, hr, hk⟩
      exact ⟨r, hr, key_of_has (h.listed_named hr).1 hk⟩
    · rintro ⟨r, hr, rfl⟩
      exact ⟨r, hr, (h.listed_named hr).1.has_key.1⟩
  rw [← hlisted]
  unfold FoundAdded
  generalize findVariable P k.1 k.2 s = x at hst hf
  obtain ⟨st, v⟩ := x
  simp only at hst hf ⊢
  cases hf with
  | @volatile pre r post hf hp hv =>
    rw [hp, if_neg (recordAt_mod P.volatileArea pre).1] at hst
    rw [hp, hadded h.holding.volatile hf]
    refine ⟨fun ⟨q, hq, hqk⟩ => ⟨hst, ?_⟩, fun ⟨_, ha⟩ => ⟨r, ?_, hf.has⟩⟩
    · obtain ⟨-, ha, hvis⟩ := h.listed_named hq
      unfold listing at hq
      rw [List.mem_append, mem_listed, mem_listed] at hq
      rcases hq with ⟨hm, -⟩ | ⟨hm, -⟩
      · obtain ⟨pre', post', hs⟩ := List.append_of_mem hm
        obtain ⟨-, rfl, -⟩ := hf.unique h.holding.volatile_good hs ha hvis hqk
        exact ha
      · exfalso
        rcases h.apart k with h0 | h0
        · rw [hf.split, copies_mid hf.live hf.has] at h0; simp at h0
        · have := mem_copies.mpr ⟨hm, isLive_of_added ha, hqk⟩
          rw [h0] at this; cases this
    · unfold listing
      rw [List.mem_append, mem_listed]
      exact .inl ⟨by rw [hf.split]; simp, ha, hf.visible⟩
  | @nonVolatile pre r post hf hno hp hv =>
    rw [hp, if_neg (recordAt_mod P.nonVolatileArea pre).1] at hst
    rw [hp, hadded h.holding.nonVolatile.holds hf]
    refine ⟨fun ⟨q, hq, hqk⟩ => ⟨hst, ?_⟩, fun ⟨_, ha⟩ => ⟨r, ?_, hf.has⟩⟩
    · obtain ⟨-, ha, hvis⟩ := h.listed_named hq
      unfold listing at hq
      rw [List.mem_append, mem_listed, mem_listed] at hq
      rcases hq with ⟨hm, -⟩ | ⟨hm, -⟩
      · have := hno q hm (isLive_of_added ha) hvis
        rw [hqk] at this; cases this
      · obtain ⟨pre', post', hs⟩ := List.append_of_mem hm
        obtain ⟨-, rfl, -⟩ := hf.unique h.holding.nonVolatile.good hs ha hvis hqk
        exact ha
    · unfold listing
      rw [List.mem_append, mem_listed, mem_listed]
      exact .inr ⟨by rw [hf.split]; simp, ha, hf.visible⟩
  | none hv hn hp =>
    rw [if_pos hp] at hst
    rw [hst]
    refine ⟨fun ⟨q, hq, hqk⟩ => ?_, fun ⟨hc, _⟩ => by cases hc⟩
    unfold listing at hq
    rw [List.mem_append, mem_listed, mem_listed] at hq
    rcases hq with ⟨hm, ha, hvis⟩ | ⟨hm, ha, hvis⟩
    · have := hv q hm (isLive_of_added ha) hvis
      rw [hqk] at this; cases this
    · have := hn q hm (isLive_of_added ha) hvis
      rw [hqk] at this; cases this

/-! ## The enumeration in a reachable state -/

/-- The enumeration is right exactly if every variable is found in state `VAR_ADDED`. -/
theorem enumerates_iff (hr : P.RoomBehind) (hs : Reachable P env (SafeEvent P env) s)
    (hsize : P.pcdVariableStoreSize ≤ size) (hsize' : P.nonVolatileStoreSize ≤ size) (g : Guid) :
    (∃ ks, Enumerates P s size g ks) ↔ ∀ k : Name × Guid, k.1.chars ≠ [] → (findVariable P k.1 k.2 s).1 = .success →
      isAdded s.mem (findVariable P k.1 k.2 s).2.currPtr = true := by
  obtain ⟨vol, nv, h⟩ := hs.invariant hr
  have hset := h.settled
  have hends := enumerateFrom_empty hset (largeEnough_of_size hset.holding.volatile hsize)
    (largeEnough_of_size hset.holding.nonVolatile.holds hsize') g
  constructor
  · rintro ⟨ks, he⟩ k hk hfound
    obtain ⟨calls, hcalls⟩ := he.ends
    obtain rfl := enumerateFrom_unique hends hcalls
    exact ((mem_listing_keys hset hk).mp ((he.found k).mpr ⟨hk, hfound⟩)).2
  · intro hadded
    refine ⟨_, ⟨_, hends⟩, hset.listing_nodup _, fun k => ⟨fun hmem => ?_, fun ⟨hk, hfound⟩ => ?_⟩⟩
    · have hk : k.1.chars ≠ [] := by
        obtain ⟨r, hr, rfl⟩ := List.mem_map.mp hmem
        exact (hset.listed_named hr).1.has_key.2
      exact ⟨hk, ((mem_listing_keys hset hk).mp hmem).1⟩
    · exact (mem_listing_keys hset hk).mpr ⟨hfound, hadded k hk hfound⟩

end

theorem enumerates_iff_sample :
    (∃ ks, Enumerates smallPlatform mixedState 1024 sampleGuid ks) ↔ ∀ k : Name × Guid, k.1.chars ≠ [] →
      (findVariable smallPlatform k.1 k.2 mixedState).1 = .success →
        isAdded mixedState.mem (findVariable smallPlatform k.1 k.2 mixedState).2.currPtr = true :=
  enumerates_iff smallPlatform_room reachable_mixedState (by decide) (by decide) sampleGuid

example : (enumerateFrom smallPlatform 1024 mixedState 4 emptyName sampleGuid).map (·.map Prod.fst) =
    some [otherName, sampleName, thirdName] := by
  decide +kernel

/-- A variable in delete transition is found and not enumerated. -/
theorem hidden_not_enumerated :
    Reachable smallPlatform .ideal (SafeEvent smallPlatform .ideal) hiddenState ∧
      ∀ ks, ¬ Enumerates smallPlatform hiddenState 1024 sampleGuid ks := by
  refine ⟨reachable_hiddenState, fun ks he => ?_⟩
  obtain ⟨calls, hends⟩ := he.ends
  have hnone : enumerateFrom smallPlatform 1024 hiddenState 1 emptyName sampleGuid = some [] := by decide +kernel
  obtain rfl := enumerateFrom_unique hnone hends
  have hfound : (findVariable smallPlatform sampleName sampleGuid hiddenState).1 = .success := by decide +kernel
  cases (he.found (sampleName, sampleGuid)).mpr ⟨by decide, hfound⟩

end Udk.Variable
