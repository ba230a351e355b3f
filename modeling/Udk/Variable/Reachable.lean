import Udk.Variable.InitSpec
import Udk.Variable.System

/-! # What holds in every state that the driver reaches -/

open Udk.Bytes

namespace Udk.Variable

/-- The condition on an event. -/
def SafeEvent (P : Platform) (env : Environment) (s : State) : Event → Prop
  | .setVariable c => SetSafe P env c s
  | .reclaimForOS => ReclaimSafe P env s
  | .powerLoss c _ => SetSafe P env c s
  | _ => True

/-! ## A variable that a call does not write -/

theorem kept_kept (l : List Record) : kept (kept l) = kept l := by
  unfold kept
  by_cases h : l.filter Record.isAdded = []
  · rw [if_pos h]
    cases l with
    | nil => rfl
    | cons r rs => simp
  · rw [if_neg h]
    rw [List.filter_filter]
    simp only [Bool.and_self]
    rw [if_neg h]

theorem Keeps.trans {b : Bool} {j : Key} {xs ys zs : List Record} (h : Keeps b j xs ys) (h' : Keeps b j ys zs) :
    Keeps b j xs zs := by
  cases h with
  | same h => exact h'.after_copies h
  | compacted h hv =>
    cases h' with
    | same h' => exact .compacted (h'.trans h) ((foundValue_congr h').trans hv)
    | compacted h' hv' => exact .compacted (by rw [h', h, kept_kept]) (hv'.trans hv)

theorem KeepsBoth.trans {b : Bool} {j : Key} {xs ys zs : List Record} (h : KeepsBoth b j xs ys)
    (h' : KeepsBoth b j ys zs) : KeepsBoth b j xs zs := fun c hc => (h c hc).trans (h' c hc)

/-- What becomes of a variable that a call does not write. -/
structure Stays (atRuntime : Bool) (j : Key) (vol nv vol' nv' : List Record) : Prop where
  volatile : Keeps atRuntime j vol vol'
  nonVolatile : KeepsBoth atRuntime j nv nv'

namespace Stays
variable {b : Bool} {j : Key} {vol nv vol' nv' vol'' nv'' : List Record}

theorem refl : Stays b j vol nv vol nv := ⟨.refl, .refl⟩

theorem trans (h : Stays b j vol nv vol' nv') (h' : Stays b j vol' nv' vol'' nv'') : Stays b j vol nv vol'' nv'' :=
  ⟨h.volatile.trans h'.volatile, h.nonVolatile.trans h'.nonVolatile⟩

end Stays

/-- Attributes and data of the variable, as `FindVariable` finds it. -/
def storedValue (P : Platform) (s : State) (k : Name × Guid) : Option (Nat × List UInt8) :=
  match findVariable P k.1 k.2 s with
  | (.success, v) => some (attributesOf s.mem v.currPtr, dataOf s.mem v.currPtr)
  | _ => none

/-- What a lookup of `k` returns. The volatile store comes first. -/
def heldValue (atRuntime : Bool) (k : Key) (vol nv : List Record) : Option (Nat × List UInt8) :=
  (foundValue atRuntime k vol).or (foundValue atRuntime k nv)

theorem Stays.heldValue_eq {b : Bool} {j : Key} {vol nv vol' nv' : List Record} (h : Stays b j vol nv vol' nv') :
    heldValue b j vol' nv' = heldValue b j vol nv := by
  unfold heldValue
  rw [h.volatile.foundValue_eq, h.nonVolatile.now.foundValue_eq]

/-! ## A call of `SetVariable` -/

theorem touches_main {P : Platform} {c : SetCall} {n : Name} {g : Guid} {data : List UInt8}
    (h : checkedParameters P c = some (n, g, data)) : c.Touches (n, g) := by
  obtain ⟨-, -, -, -, hn, hg⟩ := checkedParameters_spec h
  exact .inl ⟨hn, hg⟩

theorem touches_companion {P : Platform} {c : SetCall} {n nc : Name} {g : Guid} {data d : List UInt8}
    {s s0 : State} (h : checkedParameters P c = some (n, g, data))
    (hc : companionUpdate P n data s = (some (nc, d), s0)) : c.Touches (nc, gEfiGlobalVariableGuid) := by
  obtain ⟨-, -, -, -, hn, -⟩ := checkedParameters_spec h
  obtain ⟨hnc, -, hln⟩ := companionUpdate_name hc
  refine .inr ⟨?_, n, by simpa [languageNames] using hln, hn⟩
  rcases hnc with rfl | rfl
  · exact .inl rfl
  · exact .inr rfl

section
variable {P : Platform} {env : Environment} {s s' : State} {vol nv vol' nv' : List Record}

/-- What the flash holds in a call: every variable that the call does not write keeps its value. -/
def HoldsOthers (P : Platform) (c : SetCall) (nv : List Record) (m : Memory) : Prop :=
  ∃ x, NonVolatile P m x ∧ ∀ j, ¬ c.Touches j → Keeps false j nv x

theorem Effect.stays {c : SetCall} {k : Key} {attributes : Nat} {data : List UInt8} {st : EfiStatus}
    (h : Effect P k attributes data s vol nv st s' vol' nv') (hk : c.Touches k) {j : Key} (hj : ¬ c.Touches j) :
    Stays s.atRuntime j vol nv vol' nv' := by
  have hne : j ≠ k := fun he => hj (he ▸ hk)
  exact ⟨(h.other j hne).1, (h.other j hne).2⟩

theorem Effect.holdsOthers {c : SetCall} {k : Key} {attributes : Nat} {data : List UInt8} {st : EfiStatus}
    (h : Effect P k attributes data s vol nv st s' vol' nv') (hk : c.Touches k) :
    Traces (HoldsOthers P c nv) s s' :=
  h.trace.mono fun _ ⟨x, hx, ho, _⟩ => ⟨x, hx, fun j hj => ho j fun he => hj (he ▸ hk)⟩

/-- `AutoUpdateLangVariable` leaves every variable but the companion. -/
theorem AutoUpdate.stays {n : Name} {data : List UInt8} (h : AutoUpdate P n data s vol nv s' vol' nv')
    (hset : Settled P s vol nv) {j : Key}
    (hj : ∀ nc d s0, companionUpdate P n data s = (some (nc, d), s0) → j ≠ (nc, gEfiGlobalVariableGuid)) :
    Stays s.atRuntime j vol nv vol' nv' := by
  obtain ⟨-, hrt, -⟩ := companionUpdate_state n data hset
  cases h with
  | none h => exact .refl
  | companion h he =>
    rw [h] at hrt
    obtain ⟨hv, hn⟩ := he.other j (hj _ _ _ h)
    exact hrt ▸ ⟨hv, hn⟩

theorem AutoUpdate.holdsOthers {c : SetCall} {n : Name} {g : Guid} {data : List UInt8}
    (h : AutoUpdate P n data s vol nv s' vol' nv') (hset : Settled P s vol nv)
    (hchk : checkedParameters P c = some (n, g, data)) : Traces (HoldsOthers P c nv) s s' := by
  obtain ⟨-, -, -, -, ht⟩ := companionUpdate_state n data hset
  cases h with
  | none h =>
    rw [h] at ht
    exact .of_eq ht
  | companion h he =>
    rw [h] at ht
    exact (Traces.of_eq ht).trans (he.holdsOthers (touches_companion hchk h))

/-- A safe call keeps the invariant and leaves the variables that it does not write. -/
theorem setVariable_stays {c : SetCall} (h : Invariant P s vol nv) (hr : P.RoomBehind)
    (hsafe : SetSafe P env c s) :
    ∃ vol' nv', Invariant P (runtimeServiceSetVariable P env c s).2 vol' nv' ∧
      (runtimeServiceSetVariable P env c s).2.atRuntime = s.atRuntime ∧
      (∀ j, ¬ c.Touches j → Stays s.atRuntime j vol nv vol' nv') ∧
      Traces (HoldsOthers P c nv) s (runtimeServiceSetVariable P env c s).2 := by
  cases hchk : checkedParameters P c with
  | none =>
    rw [setVariable_unchecked hchk]
    exact ⟨vol, nv, h, rfl, fun _ _ => .refl, .refl _ _⟩
  | some x =>
    obtain ⟨n, g, data⟩ := x
    obtain ⟨s1, vol1, nv1, st, s2, vol2, nv2, hauto, -, hrt1, heff, he, hinv⟩ := setVariable_spec h hr hchk hsafe
    rw [he]
    have hset : Settled P { s with reentrantState := 1 } vol nv := h.settled.congr rfl rfl rfl rfl rfl
    have hst1 : ∀ j, ¬ c.Touches j → Stays s.atRuntime j vol nv vol1 nv1 := fun j hj =>
      hauto.stays hset fun nc d s0 hc he => hj (he ▸ touches_companion hchk hc)
    have hk := touches_main hchk
    have hst2 : ∀ j, ¬ c.Touches j → Stays s.atRuntime j vol1 nv1 vol2 nv2 := fun j hj => hrt1 ▸ heff.stays hk hj
    refine ⟨vol2, nv2, hinv, heff.outcome.context_eq.1.trans hrt1, fun j hj => (hst1 j hj).trans (hst2 j hj), ?_⟩
    have ht1 : Traces (HoldsOthers P c nv) s s1 := hauto.holdsOthers hset hchk
    refine ht1.trans ((heff.holdsOthers hk).mono fun m ⟨x, hx, ho⟩ => ⟨x, hx, fun j hj => ?_⟩)
    exact (hst1 j hj).nonVolatile.boot.trans (ho j hj)

theorem flashWrites_of_traces {Q : Memory → Prop} (h : Traces Q s s') : ∀ m ∈ flashWrites s s', Q m := by
  obtain ⟨ms, ht, hm⟩ := h
  intro m hmem
  unfold flashWrites at hmem
  rw [ht, List.mem_reverse, List.length_append, Nat.add_sub_cancel, List.take_left] at hmem
  exact hm m hmem

/-- The store is well-formed wherever a safe call is cut off. -/
theorem memoryAfterLoss_spec {c : SetCall} (writes : Nat) (h : Invariant P s vol nv) (hr : P.RoomBehind)
    (hsafe : SetSafe P env c s) : HoldsOthers P c nv (memoryAfterLoss P env c writes s) := by
  obtain ⟨vol', nv', hinv, -, hst, ht⟩ := setVariable_stays h hr hsafe
  have hend : HoldsOthers P c nv (runtimeServiceSetVariable P env c s).2.mem :=
    ⟨nv', hinv.settled.holding.nonVolatile, fun j hj => (hst j hj).nonVolatile.boot⟩
  have hstart : HoldsOthers P c nv s.mem := ⟨nv, h.settled.holding.nonVolatile, fun _ _ => .refl⟩
  unfold memoryAfterLoss
  simp only [List.getD_eq_getElem?_getD]
  cases hg : (s.mem :: flashWrites s (runtimeServiceSetVariable P env c s).2)[writes]? with
  | none => exact hend
  | some m =>
    rcases List.mem_cons.mp (List.mem_of_getElem? hg) with rfl | hm
    · exact hstart
    · exact flashWrites_of_traces ht m hm

end

/-! ## Steps -/

section
variable {P : Platform} {env : Environment} {s s' : State} {vol nv : List Record}

/-- The driver starts on a well-formed store. -/
theorem start_spec (env : Environment) (reclaims : Nat) {mem : Memory} (hr : P.RoomBehind)
    (h : NonVolatile P mem nv) :
    ∃ s, start P env reclaims mem = some s ∧ Invariant P s [] nv ∧ s.atRuntime = false ∧
      s.cache = mVariableCache := by
  obtain ⟨s, he, hinv, hrt, hc, -⟩ := @variableCommonInitialize_spec P mem nv reclaims env hr h
  refine ⟨s, ?_, hinv, hrt, hc⟩
  unfold start
  rw [he]

theorem start_eq {reclaims : Nat} {mem : Memory}
    (h : (variableCommonInitialize P env reclaims mem).1 = .success) :
    start P env reclaims mem = some (variableCommonInitialize P env reclaims mem).2 := by
  unfold start
  generalize variableCommonInitialize P env reclaims mem = x at h
  obtain ⟨st, s⟩ := x
  obtain rfl : st = .success := h
  rfl

/-- A call of `GetVariable` changes the cache at most: it keeps what it found in the stores. -/
theorem getVariable_cases (P : Platform) (q : GetCall) (s : State) :
    (runtimeServiceGetVariable P q s).2 = s ∨ ∃ k a d, storedValue P s k = some (a, d) ∧
      (runtimeServiceGetVariable P q s).2 = updateVariableCache k.1 k.2 a d s := by
  have hstore : ∀ k w n b, (getVariableFromStore P k.1 k.2 w n b s).2 = s ∨ ∃ a d, storedValue P s k = some (a, d) ∧
      (getVariableFromStore P k.1 k.2 w n b s).2 = updateVariableCache k.1 k.2 a d s := by
    intro k w n b
    unfold getVariableFromStore
    split
    · rename_i v hf
      dsimp only
      split
      · split
        · exact .inl rfl
        · exact .inr ⟨_, _, by unfold storedValue; rw [hf], rfl⟩
      · exact .inl rfl
    · exact .inl rfl
  unfold runtimeServiceGetVariable
  split
  · rename_i n g size _ _ _
    dsimp only
    split
    · exact .inl rfl
    · exact (hstore (n, g) _ _ _).imp_right fun ⟨a, d, h⟩ => ⟨(n, g), a, d, h⟩
  · exact .inl rfl

theorem getVariable_state (P : Platform) (q : GetCall) (s : State) :
    ∃ cache, (runtimeServiceGetVariable P q s).2 = { s with cache := cache } := by
  rcases getVariable_cases P q s with h | ⟨k, a, d, -, h⟩
  · exact ⟨s.cache, h⟩
  · rw [h]
    unfold updateVariableCache
    split
    · exact ⟨s.cache, rfl⟩
    · exact ⟨_, rfl⟩

theorem Invariant.cache (h : Invariant P s vol nv) (cache : List CacheEntry) :
    Invariant P { s with cache := cache } vol nv :=
  ⟨h.settled.congr rfl rfl rfl rfl rfl, h.reentrant, h.codes⟩

/-- A call keeps the invariant, the phase and the variables that it does not write. -/
theorem step_call {e : Event} (hr : P.RoomBehind) (h : Invariant P s vol nv) (hsafe : SafeEvent P env s e)
    (hc : e.IsCall) (hs : step P env s e = some s') :
    ∃ vol' nv', Invariant P s' vol' nv' ∧ s'.atRuntime = s.atRuntime ∧
      ∀ j, ¬ e.Touches j → Stays s.atRuntime j vol nv vol' nv' := by
  cases e with
  | setVariable c =>
    obtain rfl := Option.some.inj hs
    obtain ⟨vol', nv', hinv, hrt, hst, -⟩ := setVariable_stays h hr hsafe
    exact ⟨vol', nv', hinv, hrt, hst⟩
  | getVariable c =>
    obtain rfl := Option.some.inj hs
    obtain ⟨cache, he⟩ := getVariable_state P c s
    rw [he]
    exact ⟨vol, nv, h.cache cache, rfl, fun _ _ => .refl⟩
  | reclaimForOS =>
    rw [step] at hs
    cases hrt : s.atRuntime with
    | true => rw [hrt] at hs; cases hs
    | false =>
      rw [hrt] at hs
      obtain rfl := Option.some.inj hs
      obtain ⟨nv', hinv, hk, hctx, -⟩ := reclaimForOS_spec h hrt hsafe
      refine ⟨vol, nv', hinv, (context_atRuntime hctx).trans hrt, fun j _ => ⟨.refl, fun b hb => ?_⟩⟩
      rw [hb rfl]
      exact hk j
  | exitBootServices => cases hc
  | restart => cases hc
  | powerLoss c writes => cases hc

/-- After a restart the volatile store is empty. -/
theorem step_start {e : Event} (hr : P.RoomBehind) (h : Invariant P s vol nv) (hsafe : SafeEvent P env s e)
    (he : e = .restart ∨ ∃ c writes, e = .powerLoss c writes) (hs : step P env s e = some s') :
    ∃ nv', Invariant P s' [] nv' ∧ s'.atRuntime = false ∧ s'.cache = mVariableCache ∧
      ∀ j, ¬ e.Touches j → Keeps false j nv nv' := by
  have hmem : ∃ m x, start P env s.reclaims m = some s' ∧ NonVolatile P m x ∧
      ∀ j, ¬ e.Touches j → Keeps false j nv x := by
    rcases he with rfl | ⟨c, writes, rfl⟩
    · exact ⟨_, nv, hs, h.settled.holding.nonVolatile, fun _ _ => .refl⟩
    · obtain ⟨x, hx, ho⟩ := memoryAfterLoss_spec writes h hr hsafe
      exact ⟨_, x, hs, hx, ho⟩
  obtain ⟨m, x, hst, hx, ho⟩ := hmem
  obtain ⟨s'', he', hinv, hrt, hcache⟩ := start_spec env s.reclaims hr hx
  obtain rfl := Option.some.inj (hst.symm.trans he')
  exact ⟨x, hinv, hrt, hcache, ho⟩

theorem step_exitBootServices (h : Invariant P s vol nv) (hs : step P env s .exitBootServices = some s') :
    Invariant P s' vol nv ∧ s' = { s with atRuntime := true } := by
  obtain rfl := Option.some.inj hs
  exact ⟨⟨h.settled.congr rfl rfl rfl rfl rfl, h.reentrant, h.codes⟩, rfl⟩

/-- Every safe step keeps the invariant, and makes no copy of a variable that it does not write. -/
theorem step_spec {e : Event} (hr : P.RoomBehind) (h : Invariant P s vol nv) (hsafe : SafeEvent P env s e)
    (hs : step P env s e = some s') :
    ∃ vol' nv', Invariant P s' vol' nv' ∧ ∀ j, ¬ e.Touches j →
      (copies j vol = [] → copies j vol' = []) ∧ (copies j nv = [] → copies j nv' = []) := by
  have hcall : e.IsCall → ∃ vol' nv', Invariant P s' vol' nv' ∧ ∀ j, ¬ e.Touches j →
      (copies j vol = [] → copies j vol' = []) ∧ (copies j nv = [] → copies j nv' = []) := fun hc => by
    obtain ⟨vol', nv', hinv, -, hst⟩ := step_call hr h hsafe hc hs
    exact ⟨vol', nv', hinv, fun j hj => ⟨(hst j hj).volatile.copies_eq_nil, (hst j hj).nonVolatile.now.copies_eq_nil⟩⟩
  have hstart : (e = .restart ∨ ∃ c writes, e = .powerLoss c writes) → ∃ vol' nv', Invariant P s' vol' nv' ∧
      ∀ j, ¬ e.Touches j → (copies j vol = [] → copies j vol' = []) ∧ (copies j nv = [] → copies j nv' = []) :=
    fun he => by
      obtain ⟨nv', hinv, -, -, hk⟩ := step_start hr h hsafe he hs
      exact ⟨[], nv', hinv, fun j hj => ⟨fun _ => rfl, (hk j hj).copies_eq_nil⟩⟩
  cases e with
  | setVariable c => exact hcall trivial
  | getVariable c => exact hcall trivial
  | reclaimForOS => exact hcall trivial
  | exitBootServices => exact ⟨vol, nv, (step_exitBootServices h hs).1, fun _ _ => ⟨id, id⟩⟩
  | restart => exact hstart (.inl rfl)
  | powerLoss c writes => exact hstart (.inr ⟨c, writes, rfl⟩)

end

/-! ## Reachable states -/

/-- The driver started on a well-formed store, and every step since then met the condition `ok`. -/
def Reachable (P : Platform) (env : Environment) (ok : State → Event → Prop) (s : State) : Prop :=
  ∃ reclaims mem nv s₀ es, NonVolatile P mem nv ∧ start P env reclaims mem = some s₀ ∧ Run (step P env) ok s₀ es s

/-- The stores are well-formed in every state that is reached by safe steps. -/
theorem Reachable.invariant {P : Platform} {env : Environment} {s : State} (hr : P.RoomBehind)
    (h : Reachable P env (SafeEvent P env) s) : ∃ vol nv, Invariant P s vol nv := by
  obtain ⟨reclaims, mem, nv, s₀, es, hnv, hst, hrun⟩ := h
  obtain ⟨s₁, he, hinv, -⟩ := start_spec env reclaims hr hnv
  obtain rfl := Option.some.inj (hst.symm.trans he)
  refine hrun.invariant (fun s => ∃ vol nv, Invariant P s vol nv) ⟨[], nv, hinv⟩ fun s e s' hi hok hs => ?_
  obtain ⟨vol, nv, hi⟩ := hi
  obtain ⟨vol', nv', hi', -⟩ := step_spec hr hi hok hs
  exact ⟨vol', nv', hi'⟩

theorem Reachable.step {P : Platform} {env : Environment} {ok : State → Event → Prop} {s s' : State} {e : Event}
    (h : Reachable P env ok s) (he : ok s e) (hs : step P env s e = some s') : Reachable P env ok s' := by
  obtain ⟨reclaims, mem, nv, s₀, es, hnv, hst, hrun⟩ := h
  exact ⟨reclaims, mem, nv, s₀, es ++ [e], hnv, hst, hrun.snoc he hs⟩

theorem Reachable.run {P : Platform} {env : Environment} {ok : State → Event → Prop} {s s' : State} {es : List Event}
    (h : Reachable P env ok s) (hrun : Run (Variable.step P env) ok s es s') : Reachable P env ok s' := by
  induction hrun with
  | nil => exact h
  | snoc _ he hs ih => exact ih.step he hs

theorem Reachable.mono {P : Platform} {env : Environment} {ok ok' : State → Event → Prop} {s : State}
    (h : Reachable P env ok s) (hok : ∀ s e, ok s e → ok' s e) : Reachable P env ok' s := by
  obtain ⟨reclaims, mem, nv, s₀, es, hnv, hst, hrun⟩ := h
  exact ⟨reclaims, mem, nv, s₀, es, hnv, hst, hrun.mono hok⟩

/-! ## A small platform -/

/-- Both stores have a kilobyte. The flash is four blocks, and half of it is behind the store. -/
def smallPlatform : Platform where
  pcdMaxVariableSize := 512
  pcdMaxHardwareErrorVariableSize := 0
  pcdHwErrStorageSize := 0
  pcdVariableStoreSize := 1024
  volatileVariableBase := 4096
  nonVolatileVariableBase := 8192
  nonVolatileStoreSize := 1024
  fvBase := 8192
  fvLength := 2048
  blockMap := [(4, 512)]
  stickyWrite := true
  volatile_pos := by decide
  volatile_aligned := rfl
  volatile_size := by decide
  nonVolatile_pos := by decide
  nonVolatile_aligned := rfl
  nonVolatile_size := by decide
  in_volume := by decide
  volume_aligned := by decide
  blocks_cover := rfl
  disjoint := by decide
  addressable := by decide

theorem smallPlatform_room : smallPlatform.RoomBehind := by
  unfold Platform.RoomBehind smallPlatform; decide

/-- The driver, started on the flash as it is built. -/
def smallStart : State := (variableCommonInitialize smallPlatform .ideal 0 (formattedFlash smallPlatform)).2

theorem reachable_smallStart (ok : State → Event → Prop) : Reachable smallPlatform .ideal ok smallStart := by
  obtain ⟨s, hs, -⟩ := start_spec .ideal 0 smallPlatform_room (formattedFlash_nonVolatile smallPlatform)
  refine ⟨0, _, [], smallStart, [], formattedFlash_nonVolatile _, ?_, .nil⟩
  unfold start at hs ⊢
  unfold smallStart
  split at hs
  · rename_i h; rw [h]
  · cases hs

example : storeHeaders smallStart.mem smallPlatform.nonVolatileVariableBase = [] := by decide +kernel

/-- The calls one after the other. -/
def setVariables (P : Platform) (env : Environment) (cs : List SetCall) (s : State) : State :=
  cs.foldl (fun s c => (runtimeServiceSetVariable P env c s).2) s

/-- Each of the calls succeeds. -/
def allSucceed (P : Platform) (env : Environment) : List SetCall → State → Bool
  | [], _ => true
  | c :: cs, s =>
    let r := runtimeServiceSetVariable P env c s
    r.1 == .success && allSucceed P env cs r.2

theorem Reachable.setVariables {P : Platform} {env : Environment} {s : State} (cs : List SetCall)
    (h : Reachable P env (fun _ _ => True) s) : Reachable P env (fun _ _ => True) (setVariables P env cs s) := by
  induction cs generalizing s with
  | nil => exact h
  | cons c cs ih => exact ih (h.step (e := .setVariable c) trivial rfl)

/-- Variables of the platform, which the driver knows nothing about. -/
def sampleName : Name := ⟨Name.ofChars ['A'], Name.ofChars_nonzero (by decide)⟩
def sampleGuid : Guid := ⟨List.replicate 16 1, rfl⟩

def otherName : Name := ⟨Name.ofChars ['B'], Name.ofChars_nonzero (by decide)⟩
def thirdName : Name := ⟨Name.ofChars ['C'], Name.ofChars_nonzero (by decide)⟩

/-- `size` bytes `x`. -/
def setSample (attributes : Fin (2 ^ 32)) (size : Nat) (x : UInt8) : SetCall :=
  .of sampleName sampleGuid attributes (List.replicate size x)

def getSample : GetCall := .of sampleName sampleGuid 512

/-- A string with its terminator. -/
def asciiString (cs : List Char) : List UInt8 := (cs.map fun c => UInt8.ofNat c.toNat) ++ [0]

instance neZeroUint32 : NeZero (2 ^ 32) := ⟨by decide⟩

def setPlatformLangCodes : SetCall :=
  .of platformLangCodesName gEfiGlobalVariableGuid 6 (asciiString ['e', 'n', ';', 'f', 'r'])
def setLangCodes : SetCall :=
  .of langCodesName gEfiGlobalVariableGuid 6 (asciiString ['e', 'n', 'g', 'f', 'r', 'a'])

/-- The driver knows two languages. -/
def languageState : State := setVariables smallPlatform .ideal [setPlatformLangCodes, setLangCodes] smallStart

def setPlatformLang : SetCall := .of platformLangName gEfiGlobalVariableGuid 7 (asciiString ['e', 'n'])
def setLang : SetCall := .of langName gEfiGlobalVariableGuid 7 (asciiString ['f', 'r', 'a'])
def getPlatformLang : GetCall := .of platformLangName gEfiGlobalVariableGuid 512

end Udk.Variable
