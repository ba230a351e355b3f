import Udk.Variable.Values

/-! # The cache follows the stores -/

open Udk.Bytes

namespace Udk.Variable

/-- At boot time every entry that is not empty has the value that the stores have. -/
structure CacheOk (P : Platform) (s : State) : Prop where
  names : ∀ e ∈ s.cache, e.name.chars ≠ []
  values : s.atRuntime = false → ∀ k, k.1.chars ≠ [] → CacheHolds s.cache k (storedValue P s k)

/-- The condition on an event: a cached variable is not deleted by missing access attributes with a
`DataSize` other than 0. -/
def CacheSafe (P : Platform) (s : State) : Event → Prop
  | .setVariable c => ∀ n g, c.variableName = some n → c.vendorGuid = some g → hasAccess c.attributes = false →
      c.dataSize ≠ 0 → s.atRuntime = false → (findVariable P n g s).1 = .success → cacheEntry s.cache (n, g) = none
  | _ => True

section
variable {P : Platform} {env : Environment} {s s' : State} {vol nv vol' nv' : List Record} {k j : Key}

theorem cache_of_context (h : s'.context = s.context) : s'.cache = s.cache := congrArg Context.cache h

theorem findVariable_of_storedValue (h : (storedValue P s k).isSome) : (findVariable P k.1 k.2 s).1 = .success := by
  unfold storedValue at h
  split at h
  · rename_i he; rw [he]
  · cases h

theorem names_map {cache : List CacheEntry} (attributes : Nat) (data : List UInt8)
    (h : ∀ e ∈ cache, e.name.chars ≠ []) :
    ∀ e ∈ cache.map (updateCacheEntry k.1 k.2 attributes data), e.name.chars ≠ [] := by
  intro e he
  obtain ⟨e', he', rfl⟩ := List.mem_map.mp he
  rw [(updateCacheEntry_key k attributes data e').1]
  exact h e' he'

theorem CacheOk.congr (h : CacheOk P s) (hc : s'.cache = s.cache) (hrt : s'.atRuntime = s.atRuntime)
    (hv : ∀ k : Key, k.1.chars ≠ [] → s.atRuntime = false → storedValue P s' k = storedValue P s k) :
    CacheOk P s' := by
  refine ⟨hc ▸ h.names, fun hrt' k hk => ?_⟩
  rw [hrt] at hrt'
  rw [hc, hv k hk hrt']
  exact h.values hrt' k hk

/-- The cache is right after an entry was written, if the stores have what was written. -/
theorem CacheOk.map {attributes : Nat} {data : List UInt8} (h : CacheOk P s)
    (hc : s'.cache = s.cache.map (updateCacheEntry k.1 k.2 attributes data)) (hrt : s'.atRuntime = s.atRuntime)
    (ho : ∀ j : Key, j.1.chars ≠ [] → j ≠ k → s.atRuntime = false → storedValue P s' j = storedValue P s j)
    (hk : s.atRuntime = false → data = [] ∨ storedValue P s' k = some (attributes, data) ∨
      cacheEntry s.cache k = none) : CacheOk P s' := by
  refine ⟨hc ▸ names_map attributes data h.names, fun hrt' j hj => ?_⟩
  rw [hrt] at hrt'
  rw [hc]
  by_cases hjk : j = k
  · subst hjk
    rcases hk hrt' with hd | hv | hn
    · exact cacheHolds_map _ _ _ _ _ fun hne => absurd hd hne
    · exact cacheHolds_map _ _ _ _ _ fun _ => hv
    · refine cacheHolds_absent _ ?_
      rw [cacheEntry_map, hn]; rfl
  · intro e he
    rw [cacheEntry_map_other _ _ _ hjk] at he
    rw [ho j hj hjk hrt']
    exact h.values hrt' j hj e he

/-- An entry is filled with what the stores have. -/
theorem CacheOk.update {attributes : Nat} {data : List UInt8} (h : CacheOk P s)
    (hv : storedValue P s k = some (attributes, data)) : CacheOk P (updateVariableCache k.1 k.2 attributes data s) := by
  unfold updateVariableCache
  split
  · exact h
  · exact h.map rfl rfl (fun _ _ _ _ => rfl) fun _ => .inr (.inl hv)

theorem CacheOk.loaded (hc : s.cache = mVariableCache) : CacheOk P s := by
  refine ⟨fun e he => ?_, fun _ k _ => hc ▸ cacheHolds_loaded k _⟩
  rw [hc] at he
  simp only [mVariableCache, List.mem_cons, List.not_mem_nil, or_false] at he
  rcases he with rfl | rfl
  · exact List.cons_ne_nil _ _
  · exact List.cons_ne_nil _ _

/-! ## One update -/

theorem Outcome.cache_runtime {attributes : Nat} {data : List UInt8} {c c' : Context} {l l' : List Record}
    {st : EfiStatus} (h : Outcome k attributes data c l st c' l') (hrt : c.atRuntime = true) : c'.cache = c.cache := by
  have hafter : contextAfter k attributes data .success c = c := by
    unfold contextAfter
    rw [if_pos (by simp [hrt])]
  cases h with
  | refused => rfl
  | unchanged => rfl
  | deleted => rw [hafter]
  | failed => rfl
  | written => rw [hafter]

theorem contextAfter_cacheEntry_other {attributes : Nat} {data : List UInt8} {st : EfiStatus} {c : Context}
    (hj : j ≠ k) : cacheEntry (contextAfter k attributes data st c).cache j = cacheEntry c.cache j := by
  unfold contextAfter
  split
  · rfl
  · exact cacheEntry_map_other _ _ _ hj

/-- A call leaves the entries of other variables. -/
theorem Outcome.cacheEntry_other {attributes : Nat} {data : List UInt8} {c c' : Context} {l l' : List Record}
    {st : EfiStatus} (h : Outcome k attributes data c l st c' l') (hj : j ≠ k) :
    cacheEntry c'.cache j = cacheEntry c.cache j := by
  cases h with
  | refused => rfl
  | unchanged => rfl
  | deleted => exact contextAfter_cacheEntry_other hj
  | failed => rfl
  | written => exact contextAfter_cacheEntry_other hj

/-- No call makes an entry. -/
theorem Outcome.cacheEntry_none {attributes : Nat} {data : List UInt8} {c c' : Context} {l l' : List Record}
    {st : EfiStatus} (h : Outcome k attributes data c l st c' l') (hn : cacheEntry c.cache j = none) :
    cacheEntry c'.cache j = none := by
  have hafter : cacheEntry (contextAfter k attributes data .success c).cache j = none := by
    unfold contextAfter
    split
    · exact hn
    · rw [cacheEntry_map, hn]; rfl
  cases h with
  | refused => exact hn
  | unchanged => exact hn
  | deleted => exact hafter
  | failed => exact hn
  | written => exact hafter

theorem Effect.cacheOk {attributes : Nat} {data : List UInt8} {st : EfiStatus} (h : Settled P s vol nv)
    (he : Effect P k attributes data s vol nv st s' vol' nv') (hk : k.1.chars ≠ []) (hok : CacheOk P s)
    (hdel : s.atRuntime = false → isDelete attributes data = true → data ≠ [] → (storedValue P s k).isSome →
      cacheEntry s.cache k = none) : CacheOk P s' := by
  have hrt' : s'.atRuntime = s.atRuntime := he.outcome.context_eq.1
  have ho : ∀ j : Key, j.1.chars ≠ [] → j ≠ k → storedValue P s' j = storedValue P s j := fun j hj hne =>
    h.storedValue_stays he.settled hj hrt' ⟨(he.other j hne).1, (he.other j hne).2⟩
  cases hrt : s.atRuntime with
  | true =>
    have hc : s'.cache = s.cache := he.outcome.cache_runtime hrt
    exact ⟨hc ▸ hok.names, fun h0 => by rw [hrt', hrt] at h0; cases h0⟩
  | false =>
    have hkeep : storedValue P s' k = storedValue P s k → s'.cache = s.cache → CacheOk P s' := fun hv hc => by
      refine hok.congr hc hrt' fun j hj _ => ?_
      by_cases hjk : j = k
      · rw [hjk, hv]
      · exact ho j hj hjk
    rcases he.value_cases h hk hrt with ⟨-, hv, hc⟩ | ⟨-, hv, hc, -⟩ | ⟨-, hv, hc⟩ | ⟨hd, hsome, hc⟩
    · exact hkeep hv hc
    · exact hkeep hv hc
    · exact hok.map hc hrt' (fun j hj hne _ => ho j hj hne) fun _ => .inr (.inl hv)
    · refine hok.map hc hrt' (fun j hj hne _ => ho j hj hne) fun _ => ?_
      by_cases hdata : data = []
      · exact .inl hdata
      · exact .inr (.inr (hdel hrt hd hdata hsome))

/-! ## The services -/

theorem AutoUpdate.cacheOk {n : Name} {data : List UInt8} (h : AutoUpdate P n data s vol nv s' vol' nv')
    (hset : Settled P s vol nv) (hc : CodesFit P (companionUpdate P n data s).2) (hok : CacheOk P s) :
    CacheOk P s' := by
  obtain ⟨h0, hrt, -, hcache, -⟩ := companionUpdate_state n data hset
  have hok0 : CacheOk P (companionUpdate P n data s).2 := hok.congr hcache hrt fun k hk _ =>
    hset.storedValue_stays h0 hk hrt .refl
  cases h with
  | none h => rwa [h] at hok0
  | companion h he =>
    rw [h] at h0 hok0 hc
    have hne := (companionUpdate_name h).1
    refine he.cacheOk h0 ?_ hok0 fun _ hd => ?_
    · rcases hne with rfl | rfl <;> simp only [] <;> decide
    · rw [(companionUpdate_data h hc).1] at hd; cases hd

theorem cacheEntry_none_autoUpdate {n : Name} {data : List UInt8} (h : AutoUpdate P n data s vol nv s' vol' nv')
    (hset : Settled P s vol nv) (hn : cacheEntry s.cache k = none) : cacheEntry s'.cache k = none := by
  obtain ⟨-, -, -, hcache, -⟩ := companionUpdate_state n data hset
  rw [← hcache] at hn
  cases h with
  | none h => rwa [h] at hn
  | companion h he =>
    rw [h] at hn
    exact he.outcome.cacheEntry_none hn

/-- A call leaves the entry of a variable that it does not write. -/
theorem setVariable_cacheEntry {c : SetCall} (hr : P.RoomBehind) (h : Invariant P s vol nv)
    (hsafe : SetSafe P env c s) (hj : ¬ c.Touches j) :
    cacheEntry (runtimeServiceSetVariable P env c s).2.cache j = cacheEntry s.cache j := by
  cases hchk : checkedParameters P c with
  | none => rw [setVariable_unchecked hchk]
  | some x =>
    obtain ⟨n, g, data⟩ := x
    obtain ⟨s1, vol1, nv1, st, s2, vol2, nv2, hauto, h1, hrt1, heff, he, hinv⟩ := setVariable_spec h hr hchk hsafe
    rw [he]
    have hset : Settled P { s with reentrantState := 1 } vol nv := h.settled.congr rfl rfl rfl rfl rfl
    have hmain : cacheEntry s2.cache j = cacheEntry s1.cache j :=
      heff.outcome.cacheEntry_other fun hne => hj (hne ▸ touches_main hchk)
    refine hmain.trans ?_
    obtain ⟨-, -, -, hcache, -⟩ := companionUpdate_state n data hset
    have hcache : (companionUpdate P n data { s with reentrantState := 1 }).2.cache = s.cache := hcache
    cases hauto with
    | none hc => rw [← hcache, hc]
    | companion hc heff' =>
      rw [hc] at hcache
      have hne : j ≠ (_, gEfiGlobalVariableGuid) := fun hne => hj (hne ▸ touches_companion hchk hc)
      exact (heff'.outcome.cacheEntry_other hne).trans (congrArg (cacheEntry · j) hcache)

theorem setVariable_cacheOk {c : SetCall} (hr : P.RoomBehind) (h : Invariant P s vol nv) (hsafe : SetSafe P env c s)
    (hcs : CacheSafe P s (.setVariable c)) (hok : CacheOk P s) : CacheOk P (runtimeServiceSetVariable P env c s).2 := by
  cases hchk : checkedParameters P c with
  | none => rw [setVariable_unchecked hchk]; exact hok
  | some x =>
    obtain ⟨n, g, data⟩ := x
    obtain ⟨s1, vol1, nv1, st, s2, vol2, nv2, hauto, h1, hrt1, heff, he, hinv⟩ := setVariable_spec h hr hchk hsafe
    rw [he]
    obtain ⟨hn, -, hlen, hsz, hname, hguid⟩ := checkedParameters_spec hchk
    have hset : Settled P { s with reentrantState := 1 } vol nv := h.settled.congr rfl rfl rfl rfl rfl
    have hok0 : CacheOk P { s with reentrantState := 1 } := hok.congr rfl rfl fun _ _ _ => rfl
    have hcodes : CodesFit P { s with reentrantState := 1 } := h.codes
    have hok1 : CacheOk P s1 := hauto.cacheOk hset (companionUpdate_codes hcodes hsz) hok0
    have hsame : storedValue P s1 (n, g) = storedValue P s (n, g) :=
      h.settled.storedValue_stays h1 hn hrt1 (hauto.stays hset fun nc d s0 hc hne =>
        (companionUpdate_name hc).2.1 (congrArg Prod.fst hne).symm)
    have hok2 : CacheOk P s2 := heff.cacheOk h1 hn hok1 fun hrt hd hne hsome => by
      rw [hsame] at hsome
      have hacc : hasAccess c.attributes = false := by
        unfold isDelete at hd
        have : data.length ≠ 0 := fun h0 => hne (List.length_eq_zero_iff.mp h0)
        simpa [this] using hd
      refine cacheEntry_none_autoUpdate hauto hset ?_
      exact hcs n g hname hguid hacc (fun h0 => hne (List.length_eq_zero_iff.mp (hlen.trans h0)))
        (hrt1.symm.trans hrt) (findVariable_of_storedValue hsome)
    exact hok2.congr rfl rfl fun _ _ _ => rfl

theorem getVariable_cacheOk {q : GetCall} (hok : CacheOk P s) : CacheOk P (runtimeServiceGetVariable P q s).2 := by
  rcases getVariable_cases P q s with h | ⟨k, a, d, hv, h⟩
  · rwa [h]
  · rw [h]
    exact hok.update hv

/-- Every step that is safe for the stores and for the cache keeps the cache right. -/
theorem step_cacheOk {e : Event} (hr : P.RoomBehind) (h : Invariant P s vol nv) (hsafe : SafeEvent P env s e)
    (hcs : CacheSafe P s e) (hs : step P env s e = some s') (hok : CacheOk P s) : CacheOk P s' := by
  cases e with
  | setVariable c => obtain rfl := Option.some.inj hs; exact setVariable_cacheOk hr h hsafe hcs hok
  | getVariable q => obtain rfl := Option.some.inj hs; exact getVariable_cacheOk hok
  | reclaimForOS =>
    obtain ⟨vol', nv', hinv, hrt, hst⟩ := step_call hr h hsafe trivial hs
    rw [step] at hs
    split at hs
    · cases hs
    · rename_i hboot
      obtain rfl := Option.some.inj hs
      obtain ⟨-, -, -, hctx, -⟩ := reclaimForOS_spec h (by simpa using hboot) hsafe
      exact hok.congr (cache_of_context hctx) hrt fun k hk _ =>
        h.settled.storedValue_stays hinv.settled hk hrt (hst k fun ht => ht)
  | exitBootServices =>
    obtain rfl := Option.some.inj hs
    exact ⟨hok.names, fun h0 => by cases h0⟩
  | restart =>
    obtain ⟨-, -, -, hc, -⟩ := step_start hr h hsafe (.inl rfl) hs
    exact .loaded hc
  | powerLoss c writes =>
    obtain ⟨-, -, -, hc, -⟩ := step_start hr h hsafe (.inr ⟨c, writes, rfl⟩) hs
    exact .loaded hc

/-- The condition under which both the stores and the cache stay right. -/
def SafeForCache (P : Platform) (env : Environment) (s : State) (e : Event) : Prop :=
  SafeEvent P env s e ∧ CacheSafe P s e

theorem Reachable.cacheOk (hr : P.RoomBehind) (h : Reachable P env (SafeForCache P env) s) :
    ∃ vol nv, Invariant P s vol nv ∧ CacheOk P s := by
  obtain ⟨reclaims, mem, nv, s₀, es, hnv, hst, hrun⟩ := h
  obtain ⟨s₁, he, hinv, -, hc⟩ := start_spec env reclaims hr hnv
  obtain rfl := Option.some.inj (hst.symm.trans he)
  refine hrun.invariant (fun s => ∃ vol nv, Invariant P s vol nv ∧ CacheOk P s)
    ⟨[], nv, hinv, .loaded hc⟩ fun s e s' hi hok hs => ?_
  obtain ⟨vol, nv, hi, hcache⟩ := hi
  obtain ⟨vol', nv', hi', -⟩ := step_spec hr hi hok.1 hs
  exact ⟨vol', nv', hi', step_cacheOk hr hi hok.1 hok.2 hs hcache⟩

end

end Udk.Variable
