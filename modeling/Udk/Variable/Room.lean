import Udk.Variable.CacheSpec

/-! # Calls that need no `Reclaim`

Where the stores have room, a call moves no record, so the pointer that it took before the language
update still points to the record.
-/

open Udk.Bytes

namespace Udk.Variable

section
variable {P : Platform} {env : Environment} {s s' : State} {vol nv vol' nv' : List Record} {k : Key}
  {attributes : Nat} {data : List UInt8} {v : VariablePointerTrack} {c : SetCall}

/-! ## A lookup finds the same pointer -/

/-- A record is in one place only. -/
theorem isFound_place {b : Bool} {recs pre post pre' post' : List Record} {r r' : Record}
    (h : IsFound b k recs pre r post) (h' : IsFound b k recs pre' r' post') : pre = pre' := by
  have hlast : ∀ {pre post pre' post' zs : List Record} {r r' z : Record}, IsFound b k recs pre r post →
      IsFound b k recs pre' r' post' → post = zs ++ r' :: post' → False := by
    intro pre post pre' post' zs r r' z h h' hp
    have := h.last r' (by rw [hp]; simp) h'.live h'.visible
    rw [h'.has] at this; cases this
  rcases List.append_eq_append_iff.mp (h.split.symm.trans h'.split) with ⟨zs, hz, hz'⟩ | ⟨zs, hz, hz'⟩
  · cases zs with
    | nil => simpa using hz.symm
    | cons z zs => exact (hlast (z := r) h h' (List.cons.inj hz').2).elim
  · cases zs with
    | nil => simpa using hz
    | cons z zs => exact (hlast (z := r) h' h (List.cons.inj hz').2).elim

theorem findInStore_samePlace {m m' : Memory} {b : Bool} {recs recs' : List Record} {a : Nat} (hh : Holds m a recs)
    (hh' : Holds m' a recs') (hg : Good recs) (hg' : Good recs') (hk : k.1.chars ≠ [])
    (h : SamePlace b k recs recs') :
    findInStore m' b k.1 k.2 (addresses a recs') none = findInStore m b k.1 k.2 (addresses a recs) none := by
  rcases findInStore_spec b none hh hg hk with ⟨hno, he⟩ | ⟨pre, r, post, hf, he⟩
  · rcases findInStore_spec b none hh' hg' hk with ⟨-, he'⟩ | ⟨pre', r', post', hf', -⟩
    · rw [he, he']
    · have := h.notFound hno r' (by rw [hf'.split]; simp) hf'.live hf'.visible
      rw [hf'.has] at this; cases this
  · obtain ⟨pre', post', hf', ht⟩ := h.found _ _ _ hf
    rcases findInStore_spec b none hh' hg' hk with ⟨hno, -⟩ | ⟨pre'', r'', post'', hf'', he'⟩
    · have := hno r (by rw [hf'.split]; simp) hf'.live hf'.visible
      rw [hf'.has] at this; cases this
    · rw [he, he', ← isFound_place hf' hf'', ht]

theorem findVariable_samePlace (h : Stores P s.mem vol nv) (h' : Stores P s'.mem vol' nv') (hk : k.1.chars ≠ [])
    (hrt : s'.atRuntime = s.atRuntime) (hv : SamePlace s.atRuntime k vol vol')
    (hn : SamePlace s.atRuntime k nv nv') : findVariable P k.1 k.2 s' = findVariable P k.1 k.2 s := by
  unfold findVariable
  rw [h.volatile.storeHeaders_eq P.volatileArea, h.nonVolatile.storeHeaders_eq P.nonVolatileArea,
    h'.volatile.storeHeaders_eq P.volatileArea, h'.nonVolatile.storeHeaders_eq P.nonVolatileArea, hrt,
    findInStore_samePlace h.volatile.records h'.volatile.records h.volatile_good h'.volatile_good hk hv,
    findInStore_samePlace h.nonVolatile.records h'.nonVolatile.records h.nonVolatile_good h'.nonVolatile_good hk hn]
  unfold pointerTrack
  rw [h.volatile.getEndPointer_eq P.volatileArea, h'.volatile.getEndPointer_eq P.volatileArea,
    h.nonVolatile.getEndPointer_eq P.nonVolatileArea, h'.nonVolatile.getEndPointer_eq P.nonVolatileArea]

/-! ## The condition on such a call -/

/-- What is left of the condition on an update that needs no `Reclaim`. -/
structure MoveSafe (P : Platform) (k : Key) (attributes : Nat) (data : List UInt8) (v : VariablePointerTrack)
    (s : State) : Prop where
  moves : createsRecord attributes data v s = true → v.currPtr ≠ 0 → v.isVolatile ≠ (!isNonVolatile attributes) →
    (liveCopies s.mem P.volatileVariableBase k).length + (liveCopies s.mem P.nonVolatileVariableBase k).length = 1
  visible : createsRecord attributes data v s = true →
    (∀ p ∈ liveCopies s.mem P.volatileVariableBase k, isVisible s.mem s.atRuntime p = true) ∧
      ∀ p ∈ liveCopies s.mem P.nonVolatileVariableBase k, isVisible s.mem s.atRuntime p = true

theorem UpdateSafe.of_room (hcur : (findVariable P k.1 k.2 s).2 = v)
    (hno : runsReclaim P k.1 attributes data v s = false) (h : MoveSafe P k attributes data v s) :
    UpdateSafe P env k attributes data v s := by
  refine ⟨hcur, ?_, ?_, h.moves, ?_, ?_, h.visible⟩ <;> intro hr <;> rw [hno] at hr <;> cases hr

/-- At boot time a variable that stays in its store meets the condition. -/
theorem MoveSafe.of_boot (hrt : s.atRuntime = false) (hm : v.currPtr ≠ 0 → v.isVolatile = !isNonVolatile attributes) :
    MoveSafe P k attributes data v s := by
  have hvis : ∀ p, isVisible s.mem s.atRuntime p = true := fun p => by rw [hrt]; rfl
  exact ⟨fun _ hp hne => absurd (hm hp) hne, fun _ => ⟨fun p _ => hvis p, fun p _ => hvis p⟩⟩

/-- The stores have room for what the call writes. -/
structure SetRoom (P : Platform) (env : Environment) (c : SetCall) (s : State) : Prop where
  companion : ∀ n g data nc d s0, checkedParameters P c = some (n, g, data) →
    companionUpdate P n data (enterReentrant P s) = (some (nc, d), s0) →
    runsReclaim P nc langAttributes d (findVariable P nc gEfiGlobalVariableGuid s0).2 s0 = false ∧
      MoveSafe P (nc, gEfiGlobalVariableGuid) langAttributes d (findVariable P nc gEfiGlobalVariableGuid s0).2 s0
  main : ∀ n g data, checkedParameters P c = some (n, g, data) →
    runsReclaim P n c.attributes data (findVariable P n g (enterReentrant P s)).2
        (autoUpdateLangVariable P env n data (enterReentrant P s)) = false ∧
      MoveSafe P (n, g) c.attributes data (findVariable P n g (enterReentrant P s)).2
        (autoUpdateLangVariable P env n data (enterReentrant P s))

/-- With room in the stores the language update leaves the variable where it is. -/
theorem SetRoom.setSafe (h : Invariant P s vol nv) (hr : P.RoomBehind) (hroom : SetRoom P env c s) :
    SetSafe P env c s := by
  have henter : enterReentrant P s = { s with reentrantState := 1 } := by
    unfold enterReentrant
    simp [h.reentrant]
  have hset : Settled P { s with reentrantState := 1 } vol nv := h.settled.congr rfl rfl rfl rfl rfl
  have hcomp : ∀ n g data nc d s0, checkedParameters P c = some (n, g, data) →
      companionUpdate P n data (enterReentrant P s) = (some (nc, d), s0) →
      UpdateSafe P env (nc, gEfiGlobalVariableGuid) langAttributes d
        (findVariable P nc gEfiGlobalVariableGuid s0).2 s0 := fun n g data nc d s0 hchk hc =>
    have hr := hroom.companion n g data nc d s0 hchk hc
    .of_room rfl hr.1 hr.2
  refine ⟨hcomp, fun n g data hchk => ?_⟩
  obtain ⟨hno, hmove⟩ := hroom.main n g data hchk
  refine .of_room ?_ hno hmove
  have hn : n.chars ≠ [] := (checkedParameters_spec hchk).1
  rw [henter] at hcomp ⊢
  obtain ⟨h0, hrt0, -, -, -⟩ := companionUpdate_state n data hset
  unfold autoUpdateLangVariable
  cases hc : companionUpdate P n data { s with reentrantState := 1 } with
  | mk o s0 =>
    rw [hc] at h0 hrt0
    have hsame : findVariable P n g s0 = findVariable P n g { s with reentrantState := 1 } :=
      findVariable_samePlace (k := (n, g)) hset.holding.stores h0.holding.stores hn hrt0 .refl .refl
    cases o with
    | none => exact congrArg Prod.snd hsame
    | some x =>
      obtain ⟨nc, d⟩ := x
      have hname := companionUpdate_name hc
      have hnc : nc.chars ≠ [] := by rcases hname.1 with rfl | rfl <;> decide
      have hc0 : CodesFit P s0 := by
        have := companionUpdate_codes (P := P) (s := { s with reentrantState := 1 })
          (fun codes hcd => h.codes codes hcd) (checkedParameters_spec hchk).2.2.2.1
        rwa [hc] at this
      have hsafe := hcomp n g data nc d s0 hchk hc
      obtain ⟨st, s1, vol1, nv1, he, heff⟩ := updateVariable_spec (k := (nc, gEfiGlobalVariableGuid)) h0 hr hnc
        (by decide) (fun _ => (companionUpdate_data hc hc0).2) hsafe
      have hne : (n, g) ≠ (nc, gEfiGlobalVariableGuid) := fun hne => hname.2.1 (congrArg Prod.fst hne).symm
      obtain ⟨hv1, hn1⟩ := heff.steady (hroom.companion n g data nc d s0 hchk (by rw [henter]; exact hc)).1 _ hne
      simp only [he]
      refine congrArg Prod.snd (Eq.trans ?_ hsame)
      exact findVariable_samePlace (k := (n, g)) h0.holding.stores heff.settled.holding.stores hn
        heff.outcome.context_eq.1 hv1 hn1

/-! ## Variables that are no language variables -/

theorem companionUpdate_other {n : Name} (data : List UInt8) (s : State) (hn : n ∉ languageNames) :
    companionUpdate P n data s = (none, s) := by
  have hnc : ∀ nc d s0, companionUpdate P n data s ≠ (some (nc, d), s0) := fun nc d s0 hc => by
    have := (companionUpdate_name hc).2.2
    exact hn (by simpa [languageNames] using this)
  simp only [languageNames, List.mem_cons, List.not_mem_nil, or_false, not_or] at hn
  cases hc : companionUpdate P n data s with
  | mk o s0 =>
    cases o with
    | some x => exact absurd hc (hnc x.1 x.2 s0)
    | none =>
      have hs : (companionUpdate P n data s).2 = s := by
        unfold companionUpdate storeLangCodes
        rw [if_neg hn.2.2.2, if_neg hn.2.2.1]
        split <;> rfl
      rw [hc] at hs
      exact congrArg (Prod.mk _) hs

theorem autoUpdateLangVariable_other {n : Name} (data : List UInt8) (s : State) (hn : n ∉ languageNames) :
    autoUpdateLangVariable P env n data s = s := by
  unfold autoUpdateLangVariable
  rw [companionUpdate_other data s hn]

/-- A call for such a variable is safe if its update is. -/
theorem setSafe_of_update {n : Name} {g : Guid} (h : Invariant P s vol nv) (hn : c.variableName = some n)
    (hg : c.vendorGuid = some g) (hlang : n ∉ languageNames)
    (hsafe : UpdateSafe P env (n, g) c.attributes (c.data.getD []) (findVariable P n g s).2 s) :
    SetSafe P env c s := by
  have henter : enterReentrant P s = { s with reentrantState := 1 } := by
    unfold enterReentrant
    simp [h.reentrant]
  refine ⟨fun n' g' data nc d s0 hchk hc => ?_, fun n' g' data hchk => ?_⟩
  all_goals
    obtain ⟨-, -, -, -, hn', hg'⟩ := checkedParameters_spec hchk
    obtain rfl := Option.some.inj (hn.symm.trans hn')
    obtain rfl := Option.some.inj (hg.symm.trans hg')
  · rw [companionUpdate_other _ _ hlang] at hc
    cases hc
  · obtain rfl := checkedParameters_data hchk
    rw [autoUpdateLangVariable_other _ _ hlang, henter]
    exact ⟨rfl, hsafe.services, hsafe.stays, hsafe.moves, hsafe.others, hsafe.stops, hsafe.visible⟩

/-- `Reclaim` of a store with one record changes nothing. -/
theorem ReclaimKeeps.of_one {base : Nat} {k : Option Key} (h : (storeHeaders s.mem base).length ≤ 1) :
    ReclaimKeeps base k s := by
  intro j _
  have hlen : (liveCopies s.mem base j).length ≤ 1 := Nat.le_trans (List.length_filter_le _ _) h
  generalize liveCopies s.mem base j = l at hlen
  have hkept : keptCopies s.mem l = l := by
    match l, hlen with
    | [], _ => rfl
    | [p], _ => unfold keptCopies; cases hp : isAdded s.mem p <;> simp [hp]
  rw [hkept]

/-- Neither does one of a store with no copy in delete transition. -/
theorem ReclaimKeeps.of_added {base : Nat} {k : Option Key}
    (h : (storeHeaders s.mem base).all fun p => !isInDeletedTransition s.mem p) : ReclaimKeeps base k s := by
  intro j _
  have hadded : ∀ p ∈ liveCopies s.mem base j, isAdded s.mem p = true := by
    intro p hp
    obtain ⟨hin, hlive⟩ := List.mem_filter.mp hp
    have hnot := List.all_eq_true.mp h p hin
    simp only [Bool.not_eq_true'] at hnot
    simp only [hnot, Bool.or_false, Bool.and_eq_true] at hlive
    exact hlive.1
  have hkept : keptCopies s.mem (liveCopies s.mem base j) = liveCopies s.mem base j := by
    unfold keptCopies
    rw [List.filter_eq_self.mpr hadded]
    split
    · rename_i hnil
      rw [hnil]
      rfl
    · rfl
  rw [hkept]

/-! ## Room that is checked -/

/-- At boot time there is room for an update of a variable that stays in its store. -/
def updateRoom (P : Platform) (n : Name) (attributes : Nat) (data : List UInt8) (v : VariablePointerTrack)
    (s : State) : Bool :=
  !s.atRuntime && !runsReclaim P n attributes data v s && (v.currPtr == 0 || v.isVolatile == !isNonVolatile attributes)

theorem MoveSafe.of_updateRoom (h : updateRoom P k.1 attributes data v s = true) :
    runsReclaim P k.1 attributes data v s = false ∧ MoveSafe P k attributes data v s := by
  unfold updateRoom at h
  simp only [Bool.and_eq_true, Bool.not_eq_true', Bool.or_eq_true, beq_iff_eq] at h
  exact ⟨h.1.2, .of_boot h.1.1 fun hp => h.2.resolve_left hp⟩

/-- There is room for a call and for its language update. -/
def setRoom (P : Platform) (env : Environment) (c : SetCall) (s : State) : Bool :=
  match checkedParameters P c with
  | none => true
  | some (n, g, data) =>
    updateRoom P n c.attributes data (findVariable P n g (enterReentrant P s)).2
        (autoUpdateLangVariable P env n data (enterReentrant P s)) &&
      match companionUpdate P n data (enterReentrant P s) with
      | (none, _) => true
      | (some (nc, d), s0) => updateRoom P nc langAttributes d (findVariable P nc gEfiGlobalVariableGuid s0).2 s0

theorem SetRoom.of_setRoom (h : setRoom P env c s = true) : SetRoom P env c s := by
  refine ⟨fun n g data nc d s0 hchk hc => ?_, fun n g data hchk => ?_⟩
  · simp only [setRoom, hchk, hc, Bool.and_eq_true] at h
    exact MoveSafe.of_updateRoom (k := (nc, gEfiGlobalVariableGuid)) h.2
  · simp only [setRoom, hchk, Bool.and_eq_true] at h
    exact MoveSafe.of_updateRoom (k := (n, g)) h.1

/-- The stores have room for a call, or `ReclaimForOS` succeeds and has no copy in delete transition to drop. -/
def eventRoom (P : Platform) (env : Environment) (s : State) : Event → Bool
  | .setVariable c => setRoom P env c s && (hasAccess c.attributes || c.dataSize == 0)
  | .getVariable _ => true
  | .reclaimForOS => env.allocatePool s.reclaims (maximumBufferSize s.mem P.nonVolatileVariableBase) &&
      !(env.ftwWrite s.reclaims).isError &&
      (storeHeaders s.mem P.nonVolatileVariableBase).all fun p => !isInDeletedTransition s.mem p
  | _ => false

theorem SafeForCache.of_eventRoom {e : Event} (hr : P.RoomBehind) (h : Invariant P s vol nv)
    (he : eventRoom P env s e = true) : SafeForCache P env s e := by
  cases e with
  | setVariable c =>
    simp only [eventRoom, Bool.and_eq_true, Bool.or_eq_true, beq_iff_eq] at he
    refine ⟨(SetRoom.of_setRoom he.1).setSafe h hr, fun n g _ _ hacc hsize => ?_⟩
    rcases he.2 with h' | h'
    · rw [hacc] at h'
      cases h'
    · exact absurd h' hsize
  | getVariable c => exact ⟨trivial, trivial⟩
  | reclaimForOS =>
    simp only [eventRoom, Bool.and_eq_true, Bool.not_eq_true'] at he
    exact ⟨⟨fun _ => he.1, fun _ => .of_added he.2⟩, trivial⟩
  | exitBootServices => cases he
  | restart => cases he
  | powerLoss c writes => cases he

/-- The events one after the other. -/
def events (P : Platform) (env : Environment) (es : List Event) (s : State) : State :=
  es.foldl (fun s e => (step P env s e).getD s) s

/-- There is room for each of them. -/
def roomForAll (P : Platform) (env : Environment) : List Event → State → Bool
  | [], _ => true
  | e :: es, s => eventRoom P env s e && (step P env s e).isSome && roomForAll P env es ((step P env s e).getD s)

theorem run_of_roomForAll {es : List Event} (h : roomForAll P env es s = true) :
    Run (step P env) (fun s e => eventRoom P env s e = true) s es (events P env es s) := by
  refine (Run.of_guarded ?_).2
  induction es generalizing s with
  | nil => rfl
  | cons e es ih =>
    simp only [roomForAll, Bool.and_eq_true] at h
    obtain ⟨⟨he, hs⟩, hes⟩ := h
    obtain ⟨s', hs'⟩ := Option.isSome_iff_exists.mp hs
    rw [hs', Option.getD_some] at hes
    rw [List.foldlM_cons, if_pos he, hs', events, List.foldl_cons, hs']
    exact ih hes

/-- A run with room is safe. -/
theorem Reachable.safe_of_room {es : List Event} (hr : P.RoomBehind) (h : Reachable P env (SafeForCache P env) s)
    (hroom : roomForAll P env es s = true) : Run (Variable.step P env) (SafeForCache P env) s es (events P env es s) := by
  have hrun := run_of_roomForAll hroom
  clear hroom
  generalize events P env es s = s' at hrun
  induction hrun with
  | nil => exact .nil
  | snoc _ he hs ih =>
    obtain ⟨vol, nv, hi, -⟩ := (h.run ih).cacheOk hr
    exact .snoc ih (.of_eventRoom hr hi he) hs

theorem Reachable.events_room {es : List Event} (hr : P.RoomBehind) (h : Reachable P env (SafeForCache P env) s)
    (hroom : roomForAll P env es s = true) : Reachable P env (SafeForCache P env) (events P env es s) :=
  h.run (h.safe_of_room hr hroom)

end

/-! ## Where the next record goes -/

/-- The records of the non-volatile store end before the last offset, and the store is erased behind it. -/
structure FreeBehind (P : Platform) (s : State) : Prop where
  records : ∀ p ∈ storeHeaders s.mem P.nonVolatileVariableBase,
    getNextVariablePtr s.mem p ≤ P.nonVolatileVariableBase + s.nonVolatileLastVariableOffset
  erased : ∀ i, P.nonVolatileVariableBase + s.nonVolatileLastVariableOffset ≤ i →
    i < P.nonVolatileVariableBase + P.nonVolatileStoreSize → s.mem i = 0xff

theorem addresses_next {m : Memory} {a : Nat} {recs : List Record} (h : Holds m a recs) (ha : a ≠ 0)
    (h4 : a % 4 = 0) : ∀ p ∈ addresses a recs, getNextVariablePtr m p ≤ a + total recs := by
  induction recs generalizing a with
  | nil => simp [addresses]
  | cons r rs ih =>
    have := r.size_mod
    intro p hp
    rw [addresses, List.mem_cons] at hp
    rw [total_cons]
    rcases hp with rfl | hp
    · rw [getNextVariablePtr_of_at ha h4 h.1]; omega
    · have := ih h.2 (by omega) (by omega) p hp
      omega

theorem Holding.freeBehind {P : Platform} {s : State} {vol nv : List Record} (h : Holding P s vol nv) : FreeBehind P s := by
  have hnv := h.nonVolatile.holds
  have hlast := h.nonVolatileLast
  have hpos := P.nonVolatile_pos
  have hmod := P.nonVolatile_aligned
  refine ⟨fun p hp => ?_, fun i h1 h2 => hnv.free i (by omega) h2⟩
  rw [hnv.storeHeaders_eq P.nonVolatileArea] at hp
  have := addresses_next hnv.records (by omega) (by unfold sizeofVariableStoreHeader; omega) p hp
  omega

/-! ## The first calls -/

theorem setSafe_of_setRoom {s : State} {c : SetCall}
    (h : Reachable smallPlatform .ideal (SafeEvent smallPlatform .ideal) s)
    (hroom : setRoom smallPlatform .ideal c s = true) : SetSafe smallPlatform .ideal c s := by
  obtain ⟨vol, nv, h⟩ := h.invariant smallPlatform_room
  exact (SetRoom.of_setRoom hroom).setSafe h smallPlatform_room

/-- The first call for a variable. -/
theorem setSafe_sample : SetSafe smallPlatform .ideal (setSample 7 4 1) smallStart :=
  setSafe_of_setRoom (reachable_smallStart _) (by decide +kernel)

/-- The state after the first call. -/
def sampleState : State := (runtimeServiceSetVariable smallPlatform .ideal (setSample 7 4 1) smallStart).2

theorem reachable_sampleState : Reachable smallPlatform .ideal (SafeEvent smallPlatform .ideal) sampleState :=
  (reachable_smallStart _).step (e := .setVariable (setSample 7 4 1)) setSafe_sample rfl

/-- A variable of which the store holds one value, but not two. -/
def largeState : State := (runtimeServiceSetVariable smallPlatform .ideal (setSample 7 476 1) smallStart).2

/-- The second value does not fit, and the copy of the first one stays in delete transition. -/
def hiddenState : State := (runtimeServiceSetVariable smallPlatform .ideal (setSample 7 476 2) largeState).2

theorem reachable_largeState : Reachable smallPlatform .ideal (SafeEvent smallPlatform .ideal) largeState :=
  (reachable_smallStart _).step (e := .setVariable (setSample 7 476 1))
    (setSafe_of_setRoom (reachable_smallStart _) (by decide +kernel)) rfl

theorem reachable_hiddenState : Reachable smallPlatform .ideal (SafeEvent smallPlatform .ideal) hiddenState := by
  obtain ⟨vol, nv, h⟩ := reachable_largeState.invariant smallPlatform_room
  refine reachable_largeState.step (e := .setVariable (setSample 7 476 2)) ?_ rfl
  have hboot : largeState.atRuntime = false := by decide +kernel
  have hplace : (findVariable smallPlatform sampleName sampleGuid largeState).2.isVolatile = false := by decide +kernel
  refine setSafe_of_update h rfl rfl (by decide) ⟨rfl, fun _ _ => ⟨rfl, rfl⟩, fun _ _ => hplace,
    fun _ _ hne => absurd hplace hne, fun _ => .of_one (by decide +kernel), fun _ hv => (by cases hv), fun _ => ?_⟩
  rw [hboot]
  exact ⟨fun _ _ => rfl, fun _ _ => rfl⟩

example : (runtimeServiceSetVariable smallPlatform .ideal (setSample 7 476 2) largeState).1 = .outOfResources := by
  decide +kernel

/-- `A` is written twice, with `B` in the volatile store, and `C` goes behind it. -/
def mixedState : State :=
  events smallPlatform .ideal
    [.setVariable (setSample 7 4 1), .setVariable (.of otherName sampleGuid 6 [5]), .setVariable (setSample 7 4 2),
      .setVariable (.of thirdName sampleGuid 7 [3])] smallStart

theorem safeForCache_mixedState : Reachable smallPlatform .ideal (SafeForCache smallPlatform .ideal) mixedState :=
  (reachable_smallStart _).events_room smallPlatform_room (by decide +kernel)

theorem reachable_mixedState : Reachable smallPlatform .ideal (SafeEvent smallPlatform .ideal) mixedState :=
  safeForCache_mixedState.mono fun _ _ h => h.1

/-- `A` is written again. -/
theorem setRoom_mixedState : SetRoom smallPlatform .ideal (setSample 7 4 9) mixedState :=
  .of_setRoom (by decide +kernel)

theorem setSafe_mixedState : SetSafe smallPlatform .ideal (setSample 7 4 9) mixedState := by
  obtain ⟨vol, nv, h⟩ := reachable_mixedState.invariant smallPlatform_room
  exact setRoom_mixedState.setSafe h smallPlatform_room

end Udk.Variable
