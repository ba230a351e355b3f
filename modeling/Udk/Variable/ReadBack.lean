import Udk.Variable.Room

/-! # What was set is read back, and what was deleted stays deleted -/

open Udk.Bytes

namespace Udk.Variable

section
variable {P : Platform} {env : Environment} {s s' s₂ : State} {vol nv vol' nv' : List Record} {k : Key}
  {c : SetCall} {q : GetCall} {n : Name} {g : Guid} {data : List UInt8} {size : Nat} {es : List Event}

theorem checkedParameters_of_success (h : (runtimeServiceSetVariable P env c s).1 = .success)
    (hn : c.variableName = some n) (hg : c.vendorGuid = some g) :
    ∃ data, checkedParameters P c = some (n, g, data) := by
  cases hchk : checkedParameters P c with
  | none =>
    rw [setVariable_unchecked hchk] at h
    cases h
  | some x =>
    obtain ⟨n', g', data⟩ := x
    obtain ⟨-, -, -, -, hn', hg'⟩ := checkedParameters_spec hchk
    obtain rfl := Option.some.inj (hn.symm.trans hn')
    obtain rfl := Option.some.inj (hg.symm.trans hg')
    exact ⟨data, rfl⟩

/-! ## Write, then read -/

/-- A variable that was set is read back, whatever is called for other variables in between. -/
theorem setVariable_getVariable (hr : P.RoomBehind) (hs : Reachable P env (SafeForCache P env) s)
    (hboot : s.atRuntime = false) (hn : c.variableName = some n) (hg : c.vendorGuid = some g)
    (hdata : c.data = some data) (hne : data ≠ []) (hacc : hasAccess c.attributes = true)
    (hsafe : SetSafe P env c s) (hsame : ∀ a, storedValue P s (n, g) = some (a, data) → a = c.attributes)
    (hst : (runtimeServiceSetVariable P env c s).1 = .success)
    (hrun : Run (step P env) (fun s e => SafeForCache P env s e ∧ e.IsCall ∧ ¬ e.Touches (n, g))
      (runtimeServiceSetVariable P env c s).2 es s₂)
    (hq : q.For (n, g) size) (hsize : data.length ≤ size) (hbuf : q.hasData = true) :
    (runtimeServiceGetVariable P q s₂).1 =
      ⟨.success, data.length, data, if q.wantAttributes then some c.attributes else none⟩ := by
  obtain ⟨vol, nv, h, hok⟩ := hs.cacheOk hr
  obtain ⟨data', hchk⟩ := checkedParameters_of_success hst hn hg
  obtain rfl : data' = data := by rw [checkedParameters_data hchk, hdata]; rfl
  have hname : n.chars ≠ [] := (checkedParameters_spec hchk).1
  have hdel : isDelete c.attributes data' = false := by
    unfold isDelete
    rw [hacc]
    simpa using hne
  have hval : storedValue P (runtimeServiceSetVariable P env c s).2 (n, g) = some (c.attributes, data') := by
    rcases setVariable_value hr h hsafe hboot hchk hdel hst with hv | ⟨a, ha, hv⟩
    · exact hv
    · rwa [hsame a ha] at hv
  obtain ⟨vol1, nv1, h1, hrt1, -⟩ := setVariable_stays h hr hsafe
  have hok1 := setVariable_cacheOk hr h hsafe (fun _ _ _ _ ha => by rw [hacc] at ha; cases ha) hok
  obtain ⟨⟨vol2, nv2, h2⟩, hok2, hrt2, hv2⟩ := hrun.invariant
    (fun s => (∃ vol nv, Invariant P s vol nv) ∧ CacheOk P s ∧ s.atRuntime = false ∧
      storedValue P s (n, g) = some (c.attributes, data'))
    ⟨⟨vol1, nv1, h1⟩, hok1, hrt1.trans hboot, hval⟩ fun s e s' ⟨⟨vol, nv, h⟩, hok, hrt, hv⟩ ⟨hsafe, hcall, hto⟩ hs => by
      obtain ⟨vol', nv', h', hrt', -⟩ := step_call hr h hsafe.1 hcall hs
      exact ⟨⟨vol', nv', h'⟩, step_cacheOk hr h hsafe.1 hsafe.2 hs hok, hrt'.trans hrt,
        (call_storedValue hr h hsafe.1 hcall hs hto hname).trans hv⟩
  rw [getVariable_eq hq (fun _ => .inl hbuf) (fun hrt => hok2.values hrt _ hname), hv2]
  unfold answer
  simp only [hsize, if_true, hbuf, Bool.not_true, Bool.false_eq_true, if_false]

end

/-- `C` gets so large that `ReclaimForOS` has something to do. -/
def otherEvents : List Event :=
  [.setVariable (.of thirdName sampleGuid 7 (List.replicate 220 4)), .getVariable (.of otherName sampleGuid 512),
    .setVariable (.of thirdName sampleGuid 7 (List.replicate 220 5)), .reclaimForOS]

theorem not_touches_of_ne {n n' : Name} {g g' : Guid} (attributes : Fin (2 ^ 32)) (data : List UInt8) (hne : n' ≠ n)
    (hlang : n ∉ languageNames) : ¬ (SetCall.of n' g' attributes data).Touches (n, g) := by
  rintro (⟨hname, -⟩ | ⟨hk | hk, -⟩)
  · exact hne (Option.some.inj hname)
  · obtain ⟨rfl, -⟩ := Prod.mk.inj hk
    exact hlang (by decide)
  · obtain ⟨rfl, -⟩ := Prod.mk.inj hk
    exact hlang (by decide)

theorem setVariable_getVariable_sample :
    let s := (runtimeServiceSetVariable smallPlatform .ideal (setSample 7 4 9) mixedState).2
    (events smallPlatform .ideal otherEvents s).reclaims = 1 ∧
      (runtimeServiceGetVariable smallPlatform getSample (events smallPlatform .ideal otherEvents s)).1 =
        ⟨.success, 4, [9, 9, 9, 9], some 7⟩ := by
  have hs := safeForCache_mixedState.step (e := .setVariable (setSample 7 4 9))
    ⟨setSafe_mixedState, fun _ _ _ _ hacc => absurd hacc (by decide)⟩ rfl
  obtain ⟨hrt, hstored, hsuccess, hroom, hreclaims⟩ : mixedState.atRuntime = false ∧
      storedValue smallPlatform mixedState (sampleName, sampleGuid) = some (7, [2, 2, 2, 2]) ∧
      (runtimeServiceSetVariable smallPlatform .ideal (setSample 7 4 9) mixedState).1 = .success ∧
      roomForAll smallPlatform .ideal otherEvents
        (runtimeServiceSetVariable smallPlatform .ideal (setSample 7 4 9) mixedState).2 = true ∧
      (events smallPlatform .ideal otherEvents
        (runtimeServiceSetVariable smallPlatform .ideal (setSample 7 4 9) mixedState).2).reclaims = 1 := by
    decide +kernel
  have hrun := @Reachable.safe_of_room _ _ _ otherEvents smallPlatform_room hs hroom
  have hothers : ∀ e ∈ otherEvents, e.IsCall ∧ ¬ e.Touches (sampleName, sampleGuid) := by
    intro e he
    simp only [otherEvents, List.mem_cons, List.not_mem_nil, or_false] at he
    rcases he with rfl | rfl | rfl | rfl
    · exact ⟨trivial, not_touches_of_ne _ _ (by decide) (by decide)⟩
    · exact ⟨trivial, id⟩
    · exact ⟨trivial, not_touches_of_ne _ _ (by decide) (by decide)⟩
    · exact ⟨trivial, id⟩
  exact ⟨hreclaims, setVariable_getVariable (c := setSample 7 4 9) (q := getSample) smallPlatform_room
    safeForCache_mixedState hrt rfl rfl rfl (by decide) (by decide) setSafe_mixedState
    (fun a ha => absurd (show [2, 2, 2, 2] = List.replicate 4 (9 : UInt8) from
      congrArg Prod.snd (Option.some.inj (hstored.symm.trans ha))) (by decide))
    hsuccess (hrun.and_of_mem hothers) ⟨rfl, rfl, rfl⟩ (by decide) rfl⟩

/-- Another language variable writes `PlatformLang` too. -/
theorem platformLang_overwritten :
    let s := languageState
    let s₁ := runtimeServiceSetVariable smallPlatform .ideal setPlatformLang s
    let s₂ := runtimeServiceSetVariable smallPlatform .ideal setLang s₁.2
    Reachable smallPlatform .ideal (fun _ _ => True) s ∧ s.atRuntime = false ∧ s₁.1 = .success ∧
      Run (step smallPlatform .ideal) (fun _ e => e = .setVariable setLang) s₁.2 [.setVariable setLang] s₂.2 ∧
      (setLang.variableName, setLang.vendorGuid) ≠ (setPlatformLang.variableName, setPlatformLang.vendorGuid) ∧
      (runtimeServiceGetVariable smallPlatform getPlatformLang s₂.2).1 ≠
        ⟨.success, 3, asciiString ['e', 'n'], some 7⟩ :=
  ⟨(reachable_smallStart _).setVariables _, by decide +kernel, by decide +kernel, .single rfl rfl, by decide,
    by decide +kernel⟩

/-! ## Delete, then read -/

section
variable {P : Platform} {env : Environment} {s s' s₂ : State} {vol nv vol' nv' : List Record} {k : Key}
  {c : SetCall} {q : GetCall} {n : Name} {g : Guid} {data : List UInt8} {size : Nat} {es : List Event}

theorem keeps_length {b : Bool} {j : Key} {xs ys : List Record} (h : Keeps b j xs ys) :
    (copies j ys).length ≤ (copies j xs).length := by
  cases h with
  | same h => exact Nat.le_of_eq (congrArg List.length h)
  | compacted h =>
    rw [h]
    unfold kept
    split
    · cases copies j xs <;> simp
    · exact List.length_filter_le _ _

/-- A deletion of a variable with one copy leaves no copy, and no entry in the cache. -/
theorem setVariable_delete (hr : P.RoomBehind) (h : Invariant P s vol nv) (hsafe : SetSafe P env c s)
    (hcs : CacheSafe P s (.setVariable c)) (hchk : checkedParameters P c = some (n, g, data))
    (hdel : isDelete c.attributes data = true) (hone : (allCopies (n, g) vol nv).length ≤ 1)
    (hst : (runtimeServiceSetVariable P env c s).1 = .success) :
    ∃ vol' nv', Invariant P (runtimeServiceSetVariable P env c s).2 vol' nv' ∧
      allCopies (n, g) vol' nv' = [] ∧ ((runtimeServiceSetVariable P env c s).2.atRuntime = false →
        CacheHolds (runtimeServiceSetVariable P env c s).2.cache (n, g) none) := by
  obtain ⟨s1, vol1, nv1, st, s2, vol2, nv2, hauto, h1, hrt1, heff, he, hinv⟩ := setVariable_spec h hr hchk hsafe
  obtain ⟨hn, -, hlen, -, hname, hguid⟩ := checkedParameters_spec hchk
  have hset : Settled P { s with reentrantState := 1 } vol nv := h.settled.congr rfl rfl rfl rfl rfl
  have hstays : Stays s.atRuntime (n, g) vol nv vol1 nv1 := hauto.stays hset fun nc d s0 hc hne =>
    (companionUpdate_name hc).2.1 (congrArg Prod.fst hne).symm
  have hone1 : (allCopies (n, g) vol1 nv1).length ≤ 1 := by
    have h1 := keeps_length hstays.volatile
    have h2 := keeps_length hstays.nonVolatile.now
    unfold allCopies at hone ⊢
    rw [List.length_append] at hone ⊢
    omega
  rw [he] at hst ⊢
  obtain rfl : st = .success := hst
  refine ⟨vol2, nv2, hinv, ?_⟩
  have hfound : s1.atRuntime = false → (storedValue P s1 (n, g)).isSome := fun hrt => by
    rcases heff.value_cases h1 hn hrt with ⟨herr, -⟩ | ⟨hd, -⟩ | ⟨hd, -⟩ | ⟨-, hsome, -⟩
    · cases herr
    · rw [hdel] at hd; cases hd
    · rw [hdel] at hd; cases hd
    · exact hsome
  have hout := heff.outcome
  have hcache : (leaveReentrant s2).cache = s2.context.cache := rfl
  have hphase : (leaveReentrant s2).atRuntime = s1.atRuntime := hout.context_eq.1
  rw [hcache, hphase]
  generalize s2.context = c' at hout
  generalize allCopies (n, g) vol1 nv1 = l at hout hone1
  generalize allCopies (n, g) vol2 nv2 = l' at hout ⊢
  cases hout with
  | refused herr => cases herr
  | unchanged hd => rw [hdel] at hd; cases hd
  | @deleted pre r post _ hl =>
    subst hl
    simp only [List.length_append, List.length_cons] at hone1
    refine ⟨?_, fun hrt => ?_⟩
    · rw [List.length_eq_zero_iff.mp (show pre.length = 0 by omega),
        List.length_eq_zero_iff.mp (show post.length = 0 by omega)]
      rfl
    · unfold contextAfter
      rw [if_neg (by simp [EfiStatus.isError, State.context, hrt])]
      by_cases hd : data = []
      · exact cacheHolds_map _ _ _ _ _ fun hne => absurd hd hne
      · have hd0 : data.length ≠ 0 := fun h0 => hd (List.length_eq_zero_iff.mp h0)
        have hacc : hasAccess c.attributes = false := by
          unfold isDelete at hdel
          simpa [hd0] using hdel
        have hsome := hfound hrt
        rw [h.settled.storedValue_stays h1 hn hrt1 hstays] at hsome
        have hnone := hcs n g hname hguid hacc (hlen ▸ hd0) (hrt1.symm.trans hrt) (findVariable_of_storedValue hsome)
        refine cacheHolds_absent _ ?_
        have hnone1 := cacheEntry_none_autoUpdate hauto hset hnone
        rw [cacheEntry_map]
        exact congrArg _ hnone1
  | failed herr => cases herr
  | written hd => rw [hdel] at hd; cases hd

theorem cacheHolds_congr {cache cache' : List CacheEntry} {value : Option (Nat × List UInt8)}
    (h : cacheEntry cache' k = cacheEntry cache k) (hc : CacheHolds cache k value) : CacheHolds cache' k value := by
  intro e he
  exact hc e (h ▸ he)

/-- The cache stays empty for a variable that is not there and not written. -/
theorem step_cacheEmpty {e : Event} (hr : P.RoomBehind) (h : Invariant P s vol nv) (hsafe : SafeEvent P env s e)
    (hs : step P env s e = some s') (hto : ¬ e.Touches k) (hv : storedValue P s k = none)
    (hc : s.atRuntime = false → CacheHolds s.cache k none) (hrt : s'.atRuntime = false) :
    CacheHolds s'.cache k none := by
  cases e with
  | setVariable c =>
    obtain rfl := Option.some.inj hs
    obtain ⟨-, -, -, hrt', -⟩ := setVariable_stays h hr hsafe
    exact cacheHolds_congr (setVariable_cacheEntry hr h hsafe hto) (hc (hrt'.symm.trans hrt))
  | getVariable q =>
    obtain rfl := Option.some.inj hs
    obtain ⟨cache, he⟩ := getVariable_state P q s
    have hrt0 : s.atRuntime = false := by rw [he] at hrt; exact hrt
    rcases getVariable_cases P q s with he | ⟨j, a, d, hj, he⟩
    · rw [he]; exact hc hrt0
    · have hne : k ≠ j := fun hkj => by rw [hkj, hj] at hv; cases hv
      rw [he]
      unfold updateVariableCache
      rw [if_neg (by simp [hrt0])]
      exact cacheHolds_congr (cacheEntry_map_other _ _ _ hne) (hc hrt0)
  | reclaimForOS =>
    rw [step] at hs
    split at hs
    · cases hs
    · rename_i hboot
      have hboot : s.atRuntime = false := by simpa using hboot
      obtain rfl := Option.some.inj hs
      obtain ⟨-, -, -, hctx, -⟩ := reclaimForOS_spec h hboot hsafe
      rw [cache_of_context hctx]
      exact hc hboot
  | exitBootServices =>
    obtain rfl := Option.some.inj hs
    cases hrt
  | restart =>
    obtain ⟨-, -, -, he, -⟩ := step_start hr h hsafe (.inl rfl) hs
    exact he ▸ cacheHolds_loaded k none
  | powerLoss c writes =>
    obtain ⟨-, -, -, he, -⟩ := step_start hr h hsafe (.inr ⟨c, writes, rfl⟩) hs
    exact he ▸ cacheHolds_loaded k none

theorem storedValue_of_allCopies_nil (h : Settled P s vol nv) (hk : k.1.chars ≠ []) (hn : allCopies k vol nv = []) :
    storedValue P s k = none := by
  rw [h.storedValue_eq hk, heldValue_allCopies _ (h.apart k), hn]
  rfl

/-- A variable that was deleted is not found again until it is set again, whatever happens to the driver. -/
theorem deleted_not_found (hr : P.RoomBehind) (hs : Reachable P env (SafeEvent P env) s)
    (hn : c.variableName = some n) (hg : c.vendorGuid = some g)
    (hdel : c.dataSize = 0 ∨ hasAccess c.attributes = false) (hsafe : SetSafe P env c s)
    (hcs : CacheSafe P s (.setVariable c))
    (hone : (liveCopies s.mem P.volatileVariableBase (n, g)).length +
      (liveCopies s.mem P.nonVolatileVariableBase (n, g)).length = 1)
    (hst : (runtimeServiceSetVariable P env c s).1 = .success)
    (hrun : Run (step P env) (fun s e => SafeEvent P env s e ∧ ¬ e.Touches (n, g))
      (runtimeServiceSetVariable P env c s).2 es s₂) (hq : q.For (n, g) size) :
    (runtimeServiceGetVariable P q s₂).1 = .unchanged .notFound size := by
  obtain ⟨vol, nv, h⟩ := hs.invariant hr
  obtain ⟨data, hchk⟩ := checkedParameters_of_success hst hn hg
  obtain ⟨hname, -, hlen, -⟩ := checkedParameters_spec hchk
  have hisDelete : isDelete c.attributes data = true := by
    unfold isDelete
    rw [hlen]
    simpa using hdel
  have hh := h.settled.holding
  have hcopies : (allCopies (n, g) vol nv).length ≤ 1 := by
    rw [liveCopies_length _ hh.volatile P.volatileArea hh.volatile_good,
      liveCopies_length _ hh.nonVolatile.holds P.nonVolatileArea hh.nonVolatile.good] at hone
    unfold allCopies
    rw [List.length_append]
    omega
  obtain ⟨vol1, nv1, h1, hnone, hcache⟩ := setVariable_delete hr h hsafe hcs hchk hisDelete hcopies hst
  obtain ⟨vol2, nv2, h2, hnone2, hcache2⟩ := hrun.invariant
    (fun s => ∃ vol nv, Invariant P s vol nv ∧ allCopies (n, g) vol nv = [] ∧
      (s.atRuntime = false → CacheHolds s.cache (n, g) none))
    ⟨vol1, nv1, h1, hnone, hcache⟩ fun s e s' ⟨vol, nv, h, hnone, hcache⟩ ⟨hsafe, hto⟩ hs => by
      obtain ⟨vol', nv', h', habsent⟩ := step_spec hr h hsafe hs
      obtain ⟨hv, hn⟩ := habsent _ hto
      have hval := storedValue_of_allCopies_nil h.settled hname hnone
      unfold allCopies at hnone
      rw [List.append_eq_nil_iff] at hnone
      refine ⟨vol', nv', h', ?_, step_cacheEmpty hr h hsafe hs hto hval hcache⟩
      unfold allCopies
      rw [hv hnone.1, hn hnone.2]
      rfl
  have hval := storedValue_of_allCopies_nil h2.settled hname hnone2
  rw [getVariable_eq hq (fun hrt => .inr fun e he => ?_) (fun hrt => hval.symm ▸ hcache2 hrt), hval]
  · rfl
  · refine .inl ?_
    by_contra hne
    obtain ⟨-, hv⟩ := hcache2 hrt e he hne
    cases hv

end

def deleteSample : SetCall := .of sampleName sampleGuid 7 []

theorem setSafe_deleteSample : SetSafe smallPlatform .ideal deleteSample sampleState :=
  setSafe_of_setRoom reachable_sampleState (by decide +kernel)

theorem deleted_not_found_sample : (runtimeServiceGetVariable smallPlatform getSample
      { (runtimeServiceSetVariable smallPlatform .ideal deleteSample sampleState).2 with atRuntime := true }).1 =
    .unchanged .notFound 512 :=
  deleted_not_found (c := deleteSample) (q := getSample) smallPlatform_room reachable_sampleState rfl rfl
    (.inl rfl) setSafe_deleteSample (fun _ _ _ _ _ h => absurd rfl h)
    (by decide +kernel) (by decide +kernel) (.single (e := Event.exitBootServices) ⟨trivial, fun h => h⟩ rfl) ⟨rfl, rfl, rfl⟩

example : (runtimeServiceGetVariable smallPlatform getSample sampleState).1 = ⟨.success, 4, [1, 1, 1, 1], some 7⟩ := by
  decide +kernel

/-- Four values, the last one written after `Reclaim`: the copy that `Reclaim` kept is found again. -/
theorem deleted_found_again :
    let calls := [1, 2, 3, 4].map (setSample 7 220)
    let s := setVariables smallPlatform .ideal calls smallStart
    Reachable smallPlatform .ideal (fun _ _ => True) s ∧ allSucceed smallPlatform .ideal calls smallStart = true ∧
      deleteSample.dataSize = 0 ∧
      (runtimeServiceSetVariable smallPlatform .ideal deleteSample s).1 = .success ∧
      (runtimeServiceGetVariable smallPlatform getSample
        (runtimeServiceSetVariable smallPlatform .ideal deleteSample s).2).1.status = .success :=
  ⟨(reachable_smallStart _).setVariables _, by decide +kernel⟩

end Udk.Variable
