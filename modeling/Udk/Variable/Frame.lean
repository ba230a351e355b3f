import Udk.Variable.Transparent

/-! # A call leaves the other variables -/

open Udk.Bytes

namespace Udk.Variable

section
variable {P : Platform} {env : Environment} {s : State} {c : SetCall} {q : GetCall} {k : Name × Guid} {size : Nat}

/-- A safe call leaves every variable that it does not write. -/
theorem setVariable_getVariable_other (hr : P.RoomBehind) (hs : Reachable P env (SafeEvent P env) s)
    (hsafe : SetSafe P env c s) (hk : k.1.chars ≠ []) (hto : ¬ c.Touches k) (hq : q.For k size) :
    (runtimeServiceGetVariable P q (runtimeServiceSetVariable P env c s).2).1 =
      (runtimeServiceGetVariable P q s).1 := by
  obtain ⟨vol, nv, h⟩ := hs.invariant hr
  obtain ⟨vol', nv', hinv, hrt, hst, -⟩ := setVariable_stays h hr hsafe
  exact getVariable_congr hq hrt (setVariable_cacheEntry hr h hsafe hto)
    (h.settled.storedValue_stays hinv.settled hk hrt (hst k hto))

/-- A call leaves all variables but its own and the two that follow the language variables, if a language
variable is only set under its own GUID. -/
theorem setVariable_frame (hr : P.RoomBehind) (hs : Reachable P env (SafeEvent P env) s) (hsafe : SetSafe P env c s)
    (hguid : ∀ n ∈ languageNames, c.variableName = some n → c.vendorGuid = some gEfiGlobalVariableGuid)
    (_hst : (runtimeServiceSetVariable P env c s).1 = .success) (hk : k.1.chars ≠ [])
    (hne : ¬ (c.variableName = some k.1 ∧ c.vendorGuid = some k.2))
    (hlang : ¬ ((k = (langName, gEfiGlobalVariableGuid) ∨ k = (platformLangName, gEfiGlobalVariableGuid)) ∧
      ∃ n ∈ languageNames, c.variableName = some n ∧ c.vendorGuid = some gEfiGlobalVariableGuid))
    (hq : q.For k size) :
    (runtimeServiceGetVariable P q (runtimeServiceSetVariable P env c s).2).1 =
      (runtimeServiceGetVariable P q s).1 := by
  refine setVariable_getVariable_other hr hs hsafe hk ?_ hq
  rintro (h | ⟨hk, n, hn, hname⟩)
  · exact hne h
  · exact hlang ⟨hk, n, hn, hname, hguid n hn hname⟩

end

/-- `A` is written again, and `C` is read. -/
theorem setVariable_frame_sample :
    (runtimeServiceGetVariable smallPlatform (.of thirdName sampleGuid 512) mixedState).1 =
        ⟨.success, 1, [3], some 7⟩ ∧
      (runtimeServiceGetVariable smallPlatform (.of thirdName sampleGuid 512)
          (runtimeServiceSetVariable smallPlatform .ideal (setSample 7 4 9) mixedState).2).1 =
        (runtimeServiceGetVariable smallPlatform (.of thirdName sampleGuid 512) mixedState).1 :=
  ⟨by decide +kernel, setVariable_frame (k := (thirdName, sampleGuid)) smallPlatform_room reachable_mixedState
    setSafe_mixedState (fun n hn h => absurd (Option.some.inj h ▸ hn) (by decide)) (by decide +kernel) (by decide)
    (by decide) (fun ⟨h, _⟩ => absurd h (by decide)) ⟨rfl, rfl, rfl⟩⟩

/-! ## A pointer that is out of date -/

/-- The flash has room for a few variables only. -/
def tinyPlatform : Platform :=
  { smallPlatform with
    nonVolatileStoreSize := 328
    nonVolatile_size := by decide
    in_volume := by decide }

def tinyStart : State := (variableCommonInitialize tinyPlatform .ideal 0 (formattedFlash tinyPlatform)).2

theorem reachable_tinyStart (ok : State → Event → Prop) : Reachable tinyPlatform .ideal ok tinyStart :=
  ⟨0, _, [], tinyStart, [], formattedFlash_nonVolatile _, start_eq (by decide +kernel), .nil⟩

example : tinyStart.nonVolatileLastVariableOffset = sizeofVariableStoreHeader := by decide +kernel

/-- After these calls a language update needs `Reclaim`, which moves `B` to where `PlatformLang` was. -/
def crowdedState : State :=
  setVariables tinyPlatform .ideal
    [setPlatformLangCodes, setLangCodes, .of sampleName sampleGuid 7 [1],
      .of platformLangName gEfiGlobalVariableGuid 7 (asciiString ['e', 'n'] ++ List.replicate 25 0),
      .of otherName sampleGuid 7 [2], .of thirdName sampleGuid 7 [3], .of sampleName sampleGuid 7 [],
      .of thirdName sampleGuid 7 []] tinyStart

/-- The language update compacts the store, and the call then deletes the record at the old place. -/
theorem other_variable_lost :
    let s := crowdedState
    let s₁ := runtimeServiceSetVariable tinyPlatform .ideal
      (.of platformLangName gEfiGlobalVariableGuid 7 (asciiString ['f', 'r'])) s
    Reachable tinyPlatform .ideal (fun _ _ => True) s ∧
      s₁.1 = .success ∧
        (runtimeServiceGetVariable tinyPlatform (.of otherName sampleGuid 512) s).1 = ⟨.success, 1, [2], some 7⟩ ∧
        (runtimeServiceGetVariable tinyPlatform (.of otherName sampleGuid 512) s₁.2).1 = .unchanged .notFound 512 :=
  ⟨(reachable_tinyStart _).setVariables _, by decide +kernel⟩

end Udk.Variable
