import Udk.Variable.Frame
import Udk.Variable.ReadBack

/-! # Power loss in a call -/

open Udk.Bytes

namespace Udk.Variable

section
variable {P : Platform} {env : Environment} {s s' : State} {c : SetCall} {vol nv vol' nv' nv₁ nv₂ : List Record}
  {k : Key} {n : Name} {g : Guid} {data : List UInt8}

/-! ## What the flash goes through -/

/-- Every variable has its value in `nv` or its value in `nv'`. -/
def Between (P : Platform) (nv nv' : List Record) (m : Memory) : Prop :=
  ∃ x, NonVolatile P m x ∧
    ∀ j, foundValue false j x = foundValue false j nv ∨ foundValue false j x = foundValue false j nv'

theorem Effect.between {attributes : Nat} {st : EfiStatus}
    (h : Effect P k attributes data s vol nv st s' vol' nv') : Traces (Between P nv nv') s s' := by
  refine h.trace.mono fun m ⟨x, hx, ho, hk⟩ => ⟨x, hx, fun j => ?_⟩
  by_cases hj : j = k
  · exact hj ▸ hk
  · exact .inl (ho j hj).foundValue_eq

theorem Between.left {m : Memory} (h : Between P nv nv₁ m)
    (hj : ∀ j, foundValue false j nv₁ = foundValue false j nv ∨ foundValue false j nv₂ = foundValue false j nv₁) :
    Between P nv nv₂ m := by
  obtain ⟨x, hx, ho⟩ := h
  refine ⟨x, hx, fun j => ?_⟩
  rcases ho j with h | h
  · exact .inl h
  · exact (hj j).imp h.trans fun h' => h.trans h'.symm

theorem Between.right {m : Memory} (h : Between P nv₁ nv₂ m)
    (hj : ∀ j, foundValue false j nv₁ = foundValue false j nv ∨ foundValue false j nv₂ = foundValue false j nv₁) :
    Between P nv nv₂ m := by
  obtain ⟨x, hx, ho⟩ := h
  refine ⟨x, hx, fun j => ?_⟩
  rcases ho j with h | h
  · exact (hj j).imp h.trans fun h' => h.trans h'.symm
  · exact .inr h

/-- What a call that succeeds leaves in the flash for its variable. -/
structure NewValue (P : Platform) (s : State) (vol nv : List Record) (k : Key) (attributes : Nat)
    (data : List UInt8) (nv' : List Record) : Prop where
  written : isDelete attributes data = false → isNonVolatile attributes = true →
    foundValue false k nv' = some (attributes, data) ∨
      (foundValue false k nv' = foundValue false k nv ∧ ∃ a, storedValue P s k = some (a, data))
  deleted : isDelete attributes data = true → (allCopies k vol nv).length ≤ 1 → foundValue false k nv' = none

theorem Stays.allCopies_length {b : Bool} (h : Stays b k vol nv vol' nv') :
    (allCopies k vol' nv').length ≤ (allCopies k vol nv).length := by
  have h1 := keeps_length h.volatile
  have h2 := keeps_length h.nonVolatile.now
  unfold allCopies
  rw [List.length_append, List.length_append]
  omega

theorem Effect.newValue {attributes : Nat} (h : Settled P s vol nv) (hk : k.1.chars ≠ [])
    (he : Effect P k attributes data s vol nv .success s' vol' nv') : NewValue P s vol nv k attributes data nv' := by
  refine ⟨fun hd hattr => ?_, fun hd hlen => ?_⟩
  · rcases he.placed with herr | hd' | ⟨-, rfl, r, hr, hdata⟩ | ⟨-, old, new, hnew, hv⟩
    · cases herr
    · rw [hd] at hd'; cases hd'
    · refine .inr ⟨rfl, r.attributes, ?_⟩
      rw [h.storedValue_eq hk, heldValue_allCopies _ (h.apart k), hr, ← hdata]
      rfl
    · rw [hattr, if_pos rfl] at hnew
      refine .inl ?_
      rw [foundValue, found_eq, hnew, lastVisible_boot, List.getLast?_concat, Option.map_some, hv]
  · have hout := he.outcome
    generalize s'.context = c' at hout
    generalize hl : allCopies k vol nv = l at hout hlen
    generalize hl' : allCopies k vol' nv' = l' at hout
    have hnil : l' = [] := by
      cases hout with
      | refused herr => cases herr
      | unchanged hd' => rw [hd] at hd'; cases hd'
      | @deleted pre r post _ hs =>
        subst hs
        simp only [List.length_append, List.length_cons] at hlen
        rw [List.length_eq_zero_iff.mp (show pre.length = 0 by omega),
          List.length_eq_zero_iff.mp (show post.length = 0 by omega)]
        rfl
      | failed herr => cases herr
      | written hd' => rw [hd] at hd'; cases hd'
    subst hl'
    rw [foundValue, found_eq, (List.append_eq_nil_iff.mp hnil).2]
    rfl

/-- What a call that passes the checks does to the flash. -/
theorem setVariable_between (h : Invariant P s vol nv) (hr : P.RoomBehind)
    (hchk : checkedParameters P c = some (n, g, data)) (hsafe : SetSafe P env c s) :
    ∃ vol' nv', Invariant P (runtimeServiceSetVariable P env c s).2 vol' nv' ∧
      Traces (Between P nv nv') s (runtimeServiceSetVariable P env c s).2 ∧
      ((runtimeServiceSetVariable P env c s).1 = .success → NewValue P s vol nv (n, g) c.attributes data nv') := by
  obtain ⟨s1, vol1, nv1, st, s2, vol2, nv2, hauto, h1, hrt1, heff, he, hinv⟩ := setVariable_spec h hr hchk hsafe
  have hset : Settled P { s with reentrantState := 1 } vol nv := h.settled.congr rfl rfl rfl rfl rfl
  have hn : n.chars ≠ [] := (checkedParameters_spec hchk).1
  rw [he]
  refine ⟨vol2, nv2, hinv, ?_, fun hst => ?_⟩
  · obtain ⟨-, -, -, -, ht⟩ := companionUpdate_state n data hset
    cases hauto with
    | none hc =>
      rw [hc] at ht
      exact (Traces.of_eq ht).trans heff.between
    | @companion nc d s0 st1 _ _ _ hc hcomp =>
      rw [hc] at ht
      -- the companion and the variable are two variables
      have hj : ∀ j, foundValue false j nv1 = foundValue false j nv ∨
          foundValue false j nv2 = foundValue false j nv1 := fun j => by
        by_cases hjn : j = (n, g)
        · refine .inl (hcomp.other j fun hjc => ?_).2.boot.foundValue_eq
          exact (companionUpdate_name hc).2.1 (congrArg Prod.fst (hjc.symm.trans hjn))
        · exact .inr (heff.other j hjn).2.boot.foundValue_eq
      exact (Traces.of_eq ht).trans ((hcomp.between.mono fun _ hm => hm.left hj).trans
        (heff.between.mono fun _ hm => hm.right hj))
  · obtain rfl : st = .success := hst
    have hstays : Stays s.atRuntime (n, g) vol nv vol1 nv1 := hauto.stays hset fun nc d s0 hc hne =>
      (companionUpdate_name hc).2.1 (congrArg Prod.fst hne).symm
    have hnew := heff.newValue h1 hn
    have hval := h.settled.storedValue_stays h1 hn hrt1 hstays
    refine ⟨fun hd hattr => (hnew.written hd hattr).imp_right fun ⟨hf, a, ha⟩ => ⟨?_, a, hval ▸ ha⟩,
      fun hd hlen => hnew.deleted hd (Nat.le_trans hstays.allCopies_length hlen)⟩
    exact hf.trans hstays.nonVolatile.boot.foundValue_eq

/-- Where a safe call is cut off, every variable has its value before the call or after it. -/
theorem memoryAfterLoss_between (h : Invariant P s vol nv) (hr : P.RoomBehind) (hsafe : SetSafe P env c s)
    (writes : Nat) : ∃ vol' nv', Invariant P (runtimeServiceSetVariable P env c s).2 vol' nv' ∧
      Between P nv nv' (memoryAfterLoss P env c writes s) ∧
      (∀ n g data, checkedParameters P c = some (n, g, data) → (runtimeServiceSetVariable P env c s).1 = .success →
        NewValue P s vol nv (n, g) c.attributes data nv') := by
  have hstart : ∀ nv', Between P nv nv' s.mem := fun nv' => ⟨nv, h.settled.holding.nonVolatile, fun _ => .inl rfl⟩
  obtain ⟨vol', nv', hinv, ht, hnew⟩ : ∃ vol' nv', Invariant P (runtimeServiceSetVariable P env c s).2 vol' nv' ∧
      Traces (Between P nv nv') s (runtimeServiceSetVariable P env c s).2 ∧
      (∀ n g data, checkedParameters P c = some (n, g, data) → (runtimeServiceSetVariable P env c s).1 = .success →
        NewValue P s vol nv (n, g) c.attributes data nv') := by
    cases hchk : checkedParameters P c with
    | none =>
      rw [setVariable_unchecked hchk]
      exact ⟨vol, nv, h, .refl _ _, by simp⟩
    | some x =>
      obtain ⟨vol', nv', hinv, ht, hnew⟩ := setVariable_between h hr hchk hsafe
      refine ⟨vol', nv', hinv, ht, fun n g data he => ?_⟩
      obtain rfl := Option.some.inj he
      exact hnew
  refine ⟨vol', nv', hinv, ?_, hnew⟩
  unfold memoryAfterLoss
  simp only [List.getD_eq_getElem?_getD]
  cases hg : (s.mem :: flashWrites s (runtimeServiceSetVariable P env c s).2)[writes]? with
  | none => exact ⟨nv', hinv.settled.holding.nonVolatile, fun _ => .inr rfl⟩
  | some m =>
    rcases List.mem_cons.mp (List.mem_of_getElem? hg) with rfl | hm
    · exact hstart nv'
    · exact flashWrites_of_traces ht m hm

/-! ## The store after a restart -/

theorem Invariant.storedValue_started (h : Invariant P s [] nv) (hrt : s.atRuntime = false)
    (hk : k.1.chars ≠ []) : storedValue P s k = foundValue false k nv := by
  rw [h.settled.storedValue_eq hk, hrt]
  rfl

/-- A variable that is not in the volatile store has the same value after a restart. -/
theorem Invariant.storedValue_restart (h : Invariant P s vol nv) (hr : P.RoomBehind) (hrt : s.atRuntime = false)
    (hk : k.1.chars ≠ []) (hvol : liveCopies s.mem P.volatileVariableBase k = []) {reclaims : Nat}
    (hs : start P env reclaims s.mem = some s') : storedValue P s' k = storedValue P s k := by
  have hh := h.settled.holding
  obtain ⟨s'', hs'', hi, hrt'', -⟩ := start_spec env reclaims hr hh.nonVolatile
  obtain rfl := Option.some.inj (hs.symm.trans hs'')
  have hcopies : copies k vol = [] := by
    rw [← List.length_eq_zero_iff, ← liveCopies_length k hh.volatile P.volatileArea hh.volatile_good, hvol]
    rfl
  have hnone : foundValue false k vol = none := by
    rw [foundValue, found_eq, hcopies]
    rfl
  rw [hi.storedValue_started hrt'' hk, h.settled.storedValue_eq hk, hrt, heldValue, hnone, Option.none_or]

/-! ## Atomicity -/

/-- Where a call that needs no `Reclaim` is cut off, a restart finds every variable with its old or its new
value, and the variables that the call does not write with their old one. -/
theorem power_loss_atomic (hr : P.RoomBehind) (hs : Reachable P env (SafeEvent P env) s) (hroom : SetRoom P env c s)
    (writes reclaims : Nat) :
    ∃ old new s', start P env reclaims s.mem = some old ∧
      start P env reclaims (runtimeServiceSetVariable P env c s).2.mem = some new ∧
      start P env reclaims (memoryAfterLoss P env c writes s) = some s' ∧
      (∀ k, k.1.chars ≠ [] → storedValue P s' k = storedValue P old k ∨ storedValue P s' k = storedValue P new k) ∧
      (∀ k, k.1.chars ≠ [] → ¬ c.Touches k → storedValue P s' k = storedValue P old k) ∧
      (∀ n g data, checkedParameters P c = some (n, g, data) → (runtimeServiceSetVariable P env c s).1 = .success →
        (isDelete c.attributes data = false → isNonVolatile c.attributes = true →
          storedValue P new (n, g) = some (c.attributes, data) ∨
            (storedValue P new (n, g) = storedValue P old (n, g) ∧ ∃ a, storedValue P s (n, g) = some (a, data))) ∧
        (isDelete c.attributes data = true → (liveCopies s.mem P.volatileVariableBase (n, g)).length +
            (liveCopies s.mem P.nonVolatileVariableBase (n, g)).length ≤ 1 → storedValue P new (n, g) = none)) ∧
      FreeBehind P s' := by
  obtain ⟨vol, nv, h⟩ := hs.invariant hr
  have hsafe := hroom.setSafe h hr
  obtain ⟨vol', nv', hinv, ⟨x, hx, hbetween⟩, hnew⟩ := memoryAfterLoss_between h hr hsafe writes
  obtain ⟨old, hold, hiold, hrold, -⟩ := start_spec env reclaims hr h.settled.holding.nonVolatile
  obtain ⟨new, hnews, hinew, hrnew, -⟩ := start_spec env reclaims hr hinv.settled.holding.nonVolatile
  obtain ⟨s', hs', hi', hr', -⟩ := start_spec env reclaims hr hx
  refine ⟨old, new, s', hold, hnews, hs', fun k hk => ?_, fun k hk hto => ?_, fun n g data hchk hst => ?_,
    hi'.settled.holding.freeBehind⟩
  · rw [hi'.storedValue_started hr' hk, hiold.storedValue_started hrold hk, hinew.storedValue_started hrnew hk]
    exact hbetween k
  · obtain ⟨y, hy, hkeeps⟩ := memoryAfterLoss_spec writes h hr hsafe
    obtain ⟨s'', hs'', hi'', hr'', -⟩ := start_spec env reclaims hr hy
    obtain rfl := Option.some.inj (hs'.symm.trans hs'')
    rw [hi''.storedValue_started hr' hk, hiold.storedValue_started hrold hk]
    exact (hkeeps k hto).foundValue_eq
  · obtain ⟨hw, hd⟩ := hnew n g data hchk hst
    have hn : n.chars ≠ [] := (checkedParameters_spec hchk).1
    rw [hinew.storedValue_started hrnew hn, hiold.storedValue_started hrold hn]
    refine ⟨hw, fun hdel hlen => hd hdel ?_⟩
    have hh := h.settled.holding
    rw [liveCopies_length _ hh.volatile P.volatileArea hh.volatile_good,
      liveCopies_length _ hh.nonVolatile.holds P.nonVolatileArea hh.nonVolatile.good] at hlen
    unfold allCopies
    rwa [List.length_append]

end

/-- Power is lost while `A` is written again. -/
theorem power_loss_atomic_sample :
    ∃ s', start smallPlatform .ideal 0 (memoryAfterLoss smallPlatform .ideal (setSample 7 4 9) 3 mixedState) =
        some s' ∧
      (storedValue smallPlatform s' (sampleName, sampleGuid) = some (7, List.replicate 4 2) ∨
        storedValue smallPlatform s' (sampleName, sampleGuid) = some (7, List.replicate 4 9)) ∧
      storedValue smallPlatform s' (thirdName, sampleGuid) = some (7, [3]) ∧ FreeBehind smallPlatform s' := by
  obtain ⟨old, new, s', hold, -, hs', hbetween, hother, hwritten, hfree⟩ :=
    power_loss_atomic smallPlatform_room reachable_mixedState setRoom_mixedState 3 0
  obtain ⟨vol, nv, h⟩ := reachable_mixedState.invariant smallPlatform_room
  obtain ⟨hrt, ha, hva, hc, hvc⟩ : mixedState.atRuntime = false ∧
      storedValue smallPlatform mixedState (sampleName, sampleGuid) = some (7, List.replicate 4 2) ∧
      liveCopies mixedState.mem smallPlatform.volatileVariableBase (sampleName, sampleGuid) = [] ∧
      storedValue smallPlatform mixedState (thirdName, sampleGuid) = some (7, [3]) ∧
      liveCopies mixedState.mem smallPlatform.volatileVariableBase (thirdName, sampleGuid) = [] := by decide +kernel
  have hsuccess : (runtimeServiceSetVariable smallPlatform .ideal (setSample 7 4 9) mixedState).1 = .success := by
    decide +kernel
  have hnew : storedValue smallPlatform new (sampleName, sampleGuid) = some (7, List.replicate 4 9) := by
    refine ((hwritten sampleName sampleGuid (List.replicate 4 9) (by decide +kernel) hsuccess).1 (by decide)
      (by decide)).resolve_right ?_
    rintro ⟨-, a, hsame⟩
    have hdata : List.replicate 4 (2 : UInt8) = List.replicate 4 9 :=
      congrArg Prod.snd (Option.some.inj (ha.symm.trans hsame))
    exact absurd hdata (by decide)
  refine ⟨s', hs', ?_, ?_, hfree⟩
  · refine (hbetween (sampleName, sampleGuid) (by decide)).imp (fun hv => hv.trans ?_) fun hv => hv.trans hnew
    exact (h.storedValue_restart smallPlatform_room hrt (by decide) hva hold).trans ha
  · refine (hother (thirdName, sampleGuid) (by decide) (not_touches_of_ne _ _ (by decide) (by decide))).trans ?_
    exact (h.storedValue_restart smallPlatform_room hrt (by decide) hvc hold).trans hc

/-- The two languages, and the first one is set. -/
def englishState : State :=
  setVariables tinyPlatform .ideal [setPlatformLangCodes, setLangCodes, setPlatformLang] tinyStart

/-- After six of the writes of a call for `Lang`, `PlatformLang` has changed. -/
theorem platformLang_after_power_loss :
    let m := memoryAfterLoss tinyPlatform .ideal setLang 6 englishState
    Reachable tinyPlatform .ideal (fun _ _ => True) englishState ∧ isNonVolatile setLang.attributes = true ∧
      (runtimeServiceSetVariable tinyPlatform .ideal setLang englishState).2.reclaims = englishState.reclaims ∧
      6 < (flashWrites englishState (runtimeServiceSetVariable tinyPlatform .ideal setLang englishState).2).length ∧
      storedValue tinyPlatform englishState (platformLangName, gEfiGlobalVariableGuid) =
        some (7, asciiString ['e', 'n']) ∧
      ∃ s', start tinyPlatform .ideal 0 m = some s' ∧
        storedValue tinyPlatform s' (platformLangName, gEfiGlobalVariableGuid) = some (7, asciiString ['f', 'r']) :=
  ⟨(reachable_tinyStart _).setVariables _, by decide +kernel, by decide +kernel, by decide +kernel, by decide +kernel,
    _, start_eq (by decide +kernel), by decide +kernel⟩

end Udk.Variable
