import Udk.Variable.Read

/-! # What a call does to the values of the variables -/

open Udk.Bytes

namespace Udk.Variable

section
variable {P : Platform} {env : Environment} {s s' : State} {vol nv vol' nv' : List Record} {k j : Key}

theorem Invariant.stores (h : Invariant P s vol nv) : Stores P s.mem vol nv := h.settled.holding.stores

theorem Settled.storedValue_eq (h : Settled P s vol nv) (hk : k.1.chars ≠ []) :
    storedValue P s k = heldValue s.atRuntime k vol nv := Variable.storedValue_eq h.holding.stores hk

theorem Settled.storedValue_stays (h : Settled P s vol nv) (h' : Settled P s' vol' nv') (hj : j.1.chars ≠ [])
    (hrt : s'.atRuntime = s.atRuntime) (hst : Stays s.atRuntime j vol nv vol' nv') :
    storedValue P s' j = storedValue P s j := by
  rw [h.storedValue_eq hj, h'.storedValue_eq hj, hrt, hst.heldValue_eq]

/-- A call leaves the value of a variable that it does not write. -/
theorem call_storedValue {e : Event} (hr : P.RoomBehind) (h : Invariant P s vol nv) (hsafe : SafeEvent P env s e)
    (hc : e.IsCall) (hs : step P env s e = some s') (hj : ¬ e.Touches j) (hn : j.1.chars ≠ []) :
    storedValue P s' j = storedValue P s j := by
  obtain ⟨vol', nv', hinv, hrt, hst⟩ := step_call hr h hsafe hc hs
  exact h.settled.storedValue_stays hinv.settled hn hrt (hst j hj)

/-- The copies lie in one store, so a lookup takes the last of them that can be seen. -/
theorem heldValue_allCopies (b : Bool) (h : copies k vol = [] ∨ copies k nv = []) :
    heldValue b k vol nv = (lastVisible b (allCopies k vol nv)).map Record.value := by
  unfold heldValue foundValue allCopies
  rw [found_eq, found_eq]
  rcases h with h | h
  · simp [h]
  · simp [h]

theorem Settled.storedValue_boot (h : Settled P s vol nv) (hk : k.1.chars ≠ []) (hrt : s.atRuntime = false) :
    storedValue P s k = (allCopies k vol nv).getLast?.map Record.value := by
  rw [h.storedValue_eq hk, hrt, heldValue_allCopies false (h.apart k), lastVisible_boot]

/-! ## The variable that is written -/

/-- What a call does to the value, at boot time. -/
theorem Effect.value_cases {attributes : Nat} {data : List UInt8} {st : EfiStatus} (h : Settled P s vol nv)
    (he : Effect P k attributes data s vol nv st s' vol' nv') (hk : k.1.chars ≠ []) (hrt : s.atRuntime = false) :
    (st.isError = true ∧ storedValue P s' k = storedValue P s k ∧ s'.cache = s.cache) ∨
    (isDelete attributes data = false ∧ storedValue P s' k = storedValue P s k ∧ s'.cache = s.cache ∧
      ∃ a, storedValue P s k = some (a, data)) ∨
    (isDelete attributes data = false ∧ storedValue P s' k = some (attributes, data) ∧
      s'.cache = s.cache.map (updateCacheEntry k.1 k.2 attributes data)) ∨
    (isDelete attributes data = true ∧ (storedValue P s k).isSome ∧
      s'.cache = s.cache.map (updateCacheEntry k.1 k.2 attributes data)) := by
  have hrt' : s'.atRuntime = false := he.outcome.context_eq.1.trans hrt
  rw [h.storedValue_boot hk hrt, he.settled.storedValue_boot hk hrt']
  have hafter : (contextAfter k attributes data .success s.context).cache =
      s.cache.map (updateCacheEntry k.1 k.2 attributes data) := by
    unfold contextAfter
    rw [if_neg (by simp [EfiStatus.isError, State.context, hrt])]
    rfl
  have hout := he.outcome
  generalize hc : s'.context = c' at hout
  have hcache : s'.cache = c'.cache := congrArg Context.cache hc
  rw [hcache]
  generalize allCopies k vol nv = l at hout
  generalize allCopies k vol' nv' = l' at hout
  cases hout with
  | refused he => exact .inl ⟨he, rfl, rfl⟩
  | unchanged hd hl hr =>
    rw [show s.context.atRuntime = false from hrt, lastVisible_boot] at hl
    exact .inr (.inl ⟨hd, rfl, rfl, _, by rw [hl, ← hr]; rfl⟩)
  | deleted hd hl =>
    refine .inr (.inr (.inr ⟨hd, ?_, hafter⟩))
    rw [hl]; simp
  | failed he hl hl' =>
    refine .inl ⟨he, ?_, rfl⟩
    rw [hl]
    rcases hl' with rfl | rfl
    · simp [mark_value]
    · simp [mark_value]
  | written hd hold hn hv =>
    refine .inr (.inr (.inl ⟨hd, ?_, hafter⟩))
    simp [hv]

/-- A call that writes the variable gives it the value, unless the same data is there already. -/
theorem setVariable_value {c : SetCall} {n : Name} {g : Guid} {data : List UInt8} (hr : P.RoomBehind)
    (h : Invariant P s vol nv) (hsafe : SetSafe P env c s) (hrt : s.atRuntime = false)
    (hchk : checkedParameters P c = some (n, g, data)) (hd : isDelete c.attributes data = false)
    (hst : (runtimeServiceSetVariable P env c s).1 = .success) :
    storedValue P (runtimeServiceSetVariable P env c s).2 (n, g) = some (c.attributes, data) ∨
      ∃ a, storedValue P s (n, g) = some (a, data) ∧
        storedValue P (runtimeServiceSetVariable P env c s).2 (n, g) = some (a, data) := by
  obtain ⟨s1, vol1, nv1, st, s2, vol2, nv2, hauto, h1, hrt1, heff, he, hinv⟩ := setVariable_spec h hr hchk hsafe
  have hset : Settled P { s with reentrantState := 1 } vol nv := h.settled.congr rfl rfl rfl rfl rfl
  have hn : n.chars ≠ [] := (checkedParameters_spec hchk).1
  have hsame : storedValue P s1 (n, g) = storedValue P s (n, g) :=
    h.settled.storedValue_stays h1 hn hrt1 (hauto.stays hset fun nc d s0 hc hne =>
      (companionUpdate_name hc).2.1 (congrArg Prod.fst hne).symm)
  rw [he] at hst ⊢
  have hst : st = .success := hst
  have hleave : storedValue P (leaveReentrant s2) (n, g) = storedValue P s2 (n, g) := rfl
  rw [hleave]
  rcases heff.value_cases h1 hn (hrt1.trans hrt) with ⟨herr, -⟩ | ⟨-, hv, -, a, ha⟩ | ⟨-, hv, -⟩ | ⟨hd', -⟩
  · rw [hst] at herr; cases herr
  · exact .inr ⟨a, hsame ▸ ha, hv.trans ha⟩
  · exact .inl hv
  · rw [hd] at hd'; cases hd'

end

end Udk.Variable
