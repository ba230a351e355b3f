import Udk.Variable.Room

/-! # The cache cannot be seen -/

open Udk.Bytes

namespace Udk.Variable

section
variable {P : Platform} {env : Environment} {s : State} {q : GetCall}

/-- The cache holds what the stores have, also for the empty name. -/
theorem CacheOk.holds (h : CacheOk P s) (hrt : s.atRuntime = false) (k : Key) :
    CacheHolds s.cache k (storedValue P s k) := by
  by_cases hk : k.1.chars = []
  · refine cacheHolds_absent _ ?_
    cases hc : cacheEntry s.cache k with
    | none => rfl
    | some e =>
      have hname := h.names e (List.mem_of_find?_eq_some hc)
      rw [← (cacheEntry_name hc).2] at hname
      exact absurd hk hname
  · exact h.values hrt k hk

/-- In every run that is safe for the cache, `GetVariable` returns what it would return without the cache. -/
theorem getVariable_uncached (hr : P.RoomBehind) (hs : Reachable P env (SafeForCache P env) s)
    (hd : ∀ k size, q.For k size → s.atRuntime = false → HitHasData q k size s) :
    (runtimeServiceGetVariable P q s).1 = getVariableUncached P q s := by
  obtain ⟨vol, nv, -, hok⟩ := hs.cacheOk hr
  unfold getVariableUncached
  split
  · rename_i n g size hn hg hsize
    have hq : q.For (n, g) size := ⟨hn, hg, hsize⟩
    rw [getVariable_eq hq (hd _ _ hq) fun hrt => hok.holds hrt _]
    exact (getVariableFromStore_eq P (n, g) s _ _ _).symm
  · rename_i dataSize hno
    unfold runtimeServiceGetVariable
    split
    · rename_i n g size hn hg hsize
      exact (hno n g size hn hg hsize).elim
    · rfl

end

theorem reachable_languageState : Reachable smallPlatform .ideal (SafeForCache smallPlatform .ideal) languageState :=
  @Reachable.events_room _ _ _ [.setVariable setPlatformLangCodes, .setVariable setLangCodes] smallPlatform_room
    (reachable_smallStart _) (by decide +kernel)

/-- The languages are set, and then `PlatformLang`, which the cache holds. -/
theorem getVariable_uncached_sample :
    let s := events smallPlatform .ideal [.setVariable setPlatformLang, .getVariable getPlatformLang] languageState
    (cacheEntry s.cache (platformLangName, gEfiGlobalVariableGuid)).map CacheEntry.data =
        some (asciiString ['e', 'n']) ∧
      (runtimeServiceGetVariable smallPlatform getPlatformLang s).1 =
        getVariableUncached smallPlatform getPlatformLang s :=
  ⟨by decide +kernel, getVariable_uncached smallPlatform_room
    (reachable_languageState.events_room smallPlatform_room (by decide +kernel)) fun _ _ _ _ => .inl rfl⟩

/-- `PlatformLang` with data, but no access. -/
def deletePlatformLang : SetCall := .of platformLangName gEfiGlobalVariableGuid 0 (asciiString ['e', 'n'])

/-- The variable is deleted, and the cache still answers. -/
theorem deleted_in_cache :
    let calls := [setPlatformLang, deletePlatformLang]
    let s := setVariables smallPlatform .ideal calls smallStart
    Reachable smallPlatform .ideal (fun _ _ => True) s ∧ allSucceed smallPlatform .ideal calls smallStart = true ∧
      s.atRuntime = false ∧ (runtimeServiceGetVariable smallPlatform getPlatformLang s).1.status = .success ∧
      (getVariableUncached smallPlatform getPlatformLang s).status = .notFound :=
  ⟨(reachable_smallStart _).setVariables _, by decide +kernel, by decide +kernel, by decide +kernel, by decide +kernel⟩

end Udk.Variable
