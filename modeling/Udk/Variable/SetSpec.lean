import Udk.Variable.UpdateEffect
import Udk.Variable.Service

/-! # What `SetVariable` does -/

open Udk.Bytes

namespace Udk.Variable

/-! ## The companion of a language variable -/

/-- The language codes leave room for the name of the language variable. -/
def CodesFit (P : Platform) (s : State) : Prop :=
  ∀ codes, s.platformLangCodes = some codes →
    codes.length + (sizeofVariableHeader + strSize platformLangCodesName) ≤ P.pcdMaxVariableSize

theorem cString_length (bs : List UInt8) : (cString bs).length ≤ bs.length := by
  unfold cString
  exact (List.takeWhile_prefix _).length_le

theorem codeAtIndex_length (index fuel : Nat) (supported : List UInt8) (subIndex : Nat) (code : List UInt8)
    (h : codeAtIndex index fuel supported subIndex = some code) : code.length ≤ supported.length := by
  induction fuel generalizing supported subIndex with
  | zero => simp [codeAtIndex] at h
  | succ fuel ih =>
    rw [codeAtIndex] at h
    split at h
    · cases h
    · split at h
      · obtain rfl := Option.some.inj h
        exact List.length_take_le' _ _
      · have := ih _ _ h
        have h1 : (skipSemicolons (supported.drop (codeLength supported))).length ≤
            (supported.drop (codeLength supported)).length := (List.dropWhile_suffix _).length_le
        rw [List.length_drop] at h1
        omega

theorem companion_cases {n nc : Name} {data d : List UInt8} {s : State} (h : companion n data s = some (nc, d)) :
    (n = platformLangName ∧ nc = langName ∧ d.length = 4 ∧ s.platformLangCodes.isSome) ∨
      (n = langName ∧ nc = platformLangName ∧ ∃ codes, s.platformLangCodes = some codes ∧
        0 < d.length ∧ d.length ≤ codes.length + 1) := by
  unfold companion at h
  cases hp : s.platformLangCodes with
  | none => rw [hp] at h; cases h
  | some codes =>
    cases hl : s.langCodes with
    | none => rw [hp, hl] at h; cases h
    | some langCodes =>
      rw [hp, hl] at h
      simp only at h
      split at h
      · rename_i hn
        simp only [getLangFromSupportedLangCodes, if_true, Option.bind_eq_bind, Option.bind_some,
          Option.bind_eq_some_iff, Option.some.injEq, Prod.mk.injEq] at h
        obtain ⟨a, -, rfl, rfl⟩ := h
        left
        refine ⟨hn, rfl, ?_, rfl⟩
        simp [iso6392EntrySize]
      · split at h
        · rename_i hn
          simp only [getLangFromSupportedLangCodes, Bool.false_eq_true, if_false, Option.bind_eq_bind,
            Option.bind_eq_some_iff, Option.some.injEq, Prod.mk.injEq] at h
          obtain ⟨a, -, code, hcode, rfl, rfl⟩ := h
          right
          have h1 := codeAtIndex_length _ _ _ _ _ hcode
          have h2 := cString_length codes
          refine ⟨hn, rfl, codes, rfl, by simp, ?_⟩
          rw [List.length_append, List.length_singleton]
          omega
        · cases h

/-- What the language codes become. -/
theorem storeLangCodes_cases {n : Name} {data : List UInt8} {s s1 : State} {b : Bool}
    (h : storeLangCodes n data s = some (b, s1)) :
    (n = platformLangCodesName ∧ b = true ∧ s1 = { s with platformLangCodes := some data }) ∨
      (n = langCodesName ∧ b = true ∧ s1 = { s with langCodes := some data }) ∨
      (n ≠ platformLangCodesName ∧ n ≠ langCodesName ∧ b = false ∧ s1 = s) := by
  unfold storeLangCodes at h
  split at h
  · rename_i hn
    split at h
    · cases h
    · simp only [Option.some.injEq, Prod.mk.injEq] at h
      exact .inl ⟨hn, h.1.symm, h.2.symm⟩
  · rename_i hn
    split at h
    · rename_i hn'
      split at h
      · cases h
      · simp only [Option.some.injEq, Prod.mk.injEq] at h
        exact .inr (.inl ⟨hn', h.1.symm, h.2.symm⟩)
    · rename_i hn'
      simp only [Option.some.injEq, Prod.mk.injEq] at h
      exact .inr (.inr ⟨hn, hn', h.1.symm, h.2.symm⟩)

/-- The companion is one of the two language variables, and not the variable that is set. -/
theorem companionUpdate_name {P : Platform} {n nc : Name} {data d : List UInt8} {s s0 : State}
    (h : companionUpdate P n data s = (some (nc, d), s0)) :
    (nc = langName ∨ nc = platformLangName) ∧ nc ≠ n ∧
      (n = langName ∨ n = platformLangName ∨ n = langCodesName ∨ n = platformLangCodesName) := by
  unfold companionUpdate at h
  split at h
  · simp at h
  · cases hs : storeLangCodes n data s with
    | none => rw [hs] at h; simp at h
    | some x =>
      obtain ⟨b, s1⟩ := x
      rw [hs] at h
      simp only [Prod.mk.injEq, Option.bind_eq_some_iff, Prod.exists] at h
      obtain ⟨⟨n', d', hsrc, hcomp⟩, -⟩ := h
      have hn : n' = n ∨ n = langCodesName ∨ n = platformLangCodesName := by
        rcases storeLangCodes_cases hs with ⟨hn, -⟩ | ⟨hn, -⟩ | ⟨-, -, rfl, -⟩
        · exact .inr (.inr hn)
        · exact .inr (.inl hn)
        · simp only [langSource, Bool.false_and, Bool.false_eq_true, if_false, Option.some.injEq,
            Prod.mk.injEq] at hsrc
          exact .inl hsrc.1.symm
      rcases companion_cases hcomp with ⟨rfl, rfl, -⟩ | ⟨rfl, rfl, -⟩
      · refine ⟨.inl rfl, ?_, ?_⟩ <;> rcases hn with rfl | rfl | rfl <;> decide
      · refine ⟨.inr rfl, ?_, ?_⟩ <;> rcases hn with rfl | rfl | rfl <;> decide

theorem companionUpdate_data {P : Platform} {n nc : Name} {data d : List UInt8} {s s0 : State}
    (h : companionUpdate P n data s = (some (nc, d), s0)) (hc : CodesFit P s0) :
    isDelete langAttributes d = false ∧ varSize nc d ≤ P.scratchSize := by
  unfold companionUpdate at h
  split at h
  · simp at h
  · cases hs : storeLangCodes n data s with
    | none => rw [hs] at h; simp at h
    | some x =>
      obtain ⟨b, s1⟩ := x
      rw [hs] at h
      simp only [Prod.mk.injEq, Option.bind_eq_some_iff, Prod.exists] at h
      obtain ⟨⟨n', d', -, hcomp⟩, rfl⟩ := h
      have hacc : hasAccess langAttributes = true := by decide
      have h1 : strSize platformLangCodesName = 36 := by decide
      have h2 : strSize platformLangName = 26 := by decide
      have h3 : strSize langName = 10 := by decide
      have hmax : P.pcdMaxVariableSize ≤ P.scratchSize := Nat.le_max_left _ _
      rw [varSize_eq]
      unfold isDelete
      rw [hacc]
      rcases companion_cases hcomp with ⟨-, rfl, hd, hsome⟩ | ⟨-, rfl, codes, hcodes, hd, hle⟩
      · obtain ⟨codes, hcodes⟩ := Option.isSome_iff_exists.mp hsome
        have := hc codes hcodes
        rw [h1] at this
        rw [hd, h3]
        exact ⟨rfl, by omega⟩
      · have := hc codes hcodes
        rw [h1] at this
        rw [h2]
        refine ⟨?_, by omega⟩
        simp only [Bool.not_true, Bool.or_false, decide_eq_false_iff_not]
        omega

/-! ## The state of the driver between two calls -/

structure Invariant (P : Platform) (s : State) (vol nv : List Record) : Prop where
  settled : Settled P s vol nv
  reentrant : s.reentrantState = 0
  codes : CodesFit P s

/-- What the stores hold depends on the memory, the offsets and the totals. -/
theorem Settled.congr {P : Platform} {s s' : State} {vol nv : List Record} (h : Settled P s vol nv)
    (hm : s'.mem = s.mem) (hv : s'.volatileLastVariableOffset = s.volatileLastVariableOffset)
    (hn : s'.nonVolatileLastVariableOffset = s.nonVolatileLastVariableOffset)
    (hc : s'.commonVariableTotalSize = s.commonVariableTotalSize)
    (hh : s'.hwErrVariableTotalSize = s.hwErrVariableTotalSize) : Settled P s' vol nv := by
  have hh' := h.holding
  refine ⟨⟨by rw [hm]; exact hh'.volatile, hh'.volatile_good, by rw [hm]; exact hh'.nonVolatile,
    hv.trans hh'.volatileLast, hn.trans hh'.nonVolatileLast, ?_⟩, h.apart⟩
  rw [hc, hh]; exact hh'.accounts

/-- The condition on a call of `SetVariable`: it holds of each `UpdateVariable` that the call makes, in
the state in which it starts. -/
structure SetSafe (P : Platform) (env : Environment) (c : SetCall) (s : State) : Prop where
  companion : ∀ n g data nc d s0, checkedParameters P c = some (n, g, data) →
    companionUpdate P n data (enterReentrant P s) = (some (nc, d), s0) →
    UpdateSafe P env (nc, gEfiGlobalVariableGuid) langAttributes d
      (findVariable P nc gEfiGlobalVariableGuid s0).2 s0
  main : ∀ n g data, checkedParameters P c = some (n, g, data) →
    UpdateSafe P env (n, g) c.attributes data (findVariable P n g (enterReentrant P s)).2
      (autoUpdateLangVariable P env n data (enterReentrant P s))

/-- What `AutoUpdateLangVariable` does: nothing to the stores, or one update of the companion. -/
inductive AutoUpdate (P : Platform) (n : Name) (data : List UInt8) (s : State) (vol nv : List Record) :
    State → List Record → List Record → Prop
  | none {s0} (h : companionUpdate P n data s = (none, s0)) : AutoUpdate P n data s vol nv s0 vol nv
  | companion {nc d s0 st s1 vol1 nv1} (h : companionUpdate P n data s = (some (nc, d), s0))
      (he : Effect P (nc, gEfiGlobalVariableGuid) langAttributes d s0 vol nv st s1 vol1 nv1) :
      AutoUpdate P n data s vol nv s1 vol1 nv1

theorem checkedParameters_spec {P : Platform} {c : SetCall} {n : Name} {g : Guid} {data : List UInt8}
    (h : checkedParameters P c = some (n, g, data)) :
    n.chars ≠ [] ∧ c.attributes < 0xffffffff ∧ data.length = c.dataSize ∧
      sizeAndNameOk P n c.attributes data.length = true ∧ c.variableName = some n ∧ c.vendorGuid = some g := by
  unfold checkedParameters at h
  split at h
  · rename_i n' g' hn hg
    split at h
    · cases h
    · rename_i hne
      split at h
      · cases h
      · rename_i hdata
        split at h
        · cases h
        · rename_i hauth
          split at h
          · cases h
          · split at h
            · rename_i hok
              simp only [Option.some.injEq, Prod.mk.injEq] at h
              obtain ⟨rfl, rfl, rfl⟩ := h
              have hlen : (c.data.getD []).length = c.dataSize := by
                cases hd : c.data with
                | none =>
                  simp only [hd, and_true, not_not] at hdata
                  simp [hdata]
                | some bs => exact c.data_length bs hd
              refine ⟨by simpa using hne, ?_, hlen, by rw [hlen]; exact hok, hn, hg⟩
              have := c.attributes_lt
              by_contra hx
              have hall : c.attributes = 0xffffffff := by omega
              rw [hall] at hauth
              exact hauth (by decide)
            · cases h
  · cases h

theorem checkedParameters_data {P : Platform} {c : SetCall} {n : Name} {g : Guid} {data : List UInt8}
    (h : checkedParameters P c = some (n, g, data)) : data = c.data.getD [] := by
  unfold checkedParameters at h
  grind

theorem varSize_of_sizeAndNameOk {P : Platform} {n : Name} {attributes : Nat} {data : List UInt8}
    (h : sizeAndNameOk P n attributes data.length = true) : varSize n data ≤ P.scratchSize := by
  have h1 : P.pcdMaxVariableSize ≤ P.scratchSize := Nat.le_max_left _ _
  have h2 : P.pcdMaxHardwareErrorVariableSize ≤ P.scratchSize := Nat.le_max_right _ _
  rw [varSize_eq]
  unfold sizeAndNameOk at h
  split at h
  · simp only [Bool.and_eq_true, Bool.not_eq_true', Bool.or_eq_false_iff, decide_eq_false_iff_not] at h
    omega
  · simp only [Bool.not_eq_true', Bool.or_eq_false_iff, decide_eq_false_iff_not] at h
    omega

/-- `PlatformLangCodes` is no hardware error record. -/
theorem platformLangCodes_fit {P : Platform} {attributes : Nat} {data : List UInt8}
    (h : sizeAndNameOk P platformLangCodesName attributes data.length = true) :
    data.length + (sizeofVariableHeader + strSize platformLangCodesName) ≤ P.pcdMaxVariableSize := by
  unfold sizeAndNameOk at h
  split at h
  · rw [Bool.and_eq_true] at h
    exact absurd h.2 (by decide)
  · simp only [Bool.not_eq_true', Bool.or_eq_false_iff, decide_eq_false_iff_not] at h
    omega

section
variable {P : Platform} {env : Environment} {s : State} {vol nv : List Record}

theorem companionUpdate_state (n : Name) (data : List UInt8) (h : Settled P s vol nv) :
    Settled P (companionUpdate P n data s).2 vol nv ∧
      (companionUpdate P n data s).2.atRuntime = s.atRuntime ∧
      (companionUpdate P n data s).2.reentrantState = s.reentrantState ∧
      (companionUpdate P n data s).2.cache = s.cache ∧
      (companionUpdate P n data s).2.flashTrace = s.flashTrace := by
  unfold companionUpdate
  split
  · exact ⟨h, rfl, rfl, rfl, rfl⟩
  · cases hs : storeLangCodes n data s with
    | none => exact ⟨h, rfl, rfl, rfl, rfl⟩
    | some x =>
      obtain ⟨b, s1⟩ := x
      rcases storeLangCodes_cases hs with ⟨-, -, rfl⟩ | ⟨-, -, rfl⟩ | ⟨-, -, -, rfl⟩
      · exact ⟨h.congr rfl rfl rfl rfl rfl, rfl, rfl, rfl, rfl⟩
      · exact ⟨h.congr rfl rfl rfl rfl rfl, rfl, rfl, rfl, rfl⟩
      · exact ⟨h, rfl, rfl, rfl, rfl⟩

theorem companionUpdate_codes {n : Name} {data : List UInt8} {attributes : Nat} (hc : CodesFit P s)
    (hok : sizeAndNameOk P n attributes data.length = true) : CodesFit P (companionUpdate P n data s).2 := by
  unfold companionUpdate
  split
  · exact hc
  · cases hs : storeLangCodes n data s with
    | none => exact hc
    | some x =>
      obtain ⟨b, s1⟩ := x
      rcases storeLangCodes_cases hs with ⟨rfl, -, rfl⟩ | ⟨-, -, rfl⟩ | ⟨-, -, -, rfl⟩
      · rintro codes ⟨⟩
        exact platformLangCodes_fit hok
      · exact hc
      · exact hc

/-- The outcome of a call leaves the phase and the codes. -/
theorem Outcome.context_eq {k : Key} {attributes : Nat} {data : List UInt8} {c c' : Context} {l l' : List Record}
    {st : EfiStatus} (h : Outcome k attributes data c l st c' l') :
    c'.atRuntime = c.atRuntime ∧ c'.platformLangCodes = c.platformLangCodes ∧
      c'.reentrantState = c.reentrantState := by
  have hafter : ∀ st, (contextAfter k attributes data st c).atRuntime = c.atRuntime ∧
      (contextAfter k attributes data st c).platformLangCodes = c.platformLangCodes ∧
      (contextAfter k attributes data st c).reentrantState = c.reentrantState := by
    intro st; unfold contextAfter; split <;> exact ⟨rfl, rfl, rfl⟩
  cases h with
  | refused => exact ⟨rfl, rfl, rfl⟩
  | unchanged => exact ⟨rfl, rfl, rfl⟩
  | deleted => exact hafter _
  | failed => exact ⟨rfl, rfl, rfl⟩
  | written => exact hafter _

/-- `AutoUpdateLangVariable` in a safe call. -/
theorem autoUpdateLangVariable_spec (env : Environment) {n : Name} {data : List UInt8} {attributes : Nat}
    (h : Settled P s vol nv)
    (hc : CodesFit P s) (hr : P.RoomBehind) (hok : sizeAndNameOk P n attributes data.length = true)
    (hsafe : ∀ nc d s0, companionUpdate P n data s = (some (nc, d), s0) →
      UpdateSafe P env (nc, gEfiGlobalVariableGuid) langAttributes d
        (findVariable P nc gEfiGlobalVariableGuid s0).2 s0) :
    ∃ vol1 nv1, AutoUpdate P n data s vol nv (autoUpdateLangVariable P env n data s) vol1 nv1 ∧
      Settled P (autoUpdateLangVariable P env n data s) vol1 nv1 ∧
      CodesFit P (autoUpdateLangVariable P env n data s) ∧
      (autoUpdateLangVariable P env n data s).atRuntime = s.atRuntime ∧
      (autoUpdateLangVariable P env n data s).reentrantState = s.reentrantState := by
  obtain ⟨h0, hrt0, hre0, -, -⟩ := companionUpdate_state n data h
  have hc0 := companionUpdate_codes hc hok
  unfold autoUpdateLangVariable
  cases hcomp : companionUpdate P n data s with
  | mk o s0 =>
    rw [hcomp] at h0 hrt0 hre0 hc0
    cases o with
    | none => exact ⟨vol, nv, .none hcomp, h0, hc0, hrt0, hre0⟩
    | some x =>
      obtain ⟨nc, d⟩ := x
      have hname := (companionUpdate_name hcomp).1
      have hne : nc.chars ≠ [] := by rcases hname with rfl | rfl <;> decide
      obtain ⟨hdel, hsz⟩ := companionUpdate_data hcomp hc0
      obtain ⟨st, s1, vol1, nv1, he, heff⟩ := updateVariable_spec (k := (nc, gEfiGlobalVariableGuid))
        h0 hr hne (by decide) (fun _ => hsz) (hsafe nc d s0 hcomp)
      obtain ⟨hrt1, hcodes1, hre1⟩ := heff.outcome.context_eq
      simp only [he]
      refine ⟨vol1, nv1, .companion hcomp heff, heff.settled, ?_, hrt1.trans hrt0, hre1.trans hre0⟩
      intro codes hcd
      exact hc0 codes (hcodes1.symm.trans hcd)

/-- A safe call that passes the checks: perhaps an update of the companion, then one of the variable. -/
theorem setVariable_spec {c : SetCall} {n : Name} {g : Guid} {data : List UInt8} (h : Invariant P s vol nv)
    (hr : P.RoomBehind) (hchk : checkedParameters P c = some (n, g, data)) (hsafe : SetSafe P env c s) :
    ∃ s1 vol1 nv1 st s2 vol2 nv2,
      AutoUpdate P n data { s with reentrantState := 1 } vol nv s1 vol1 nv1 ∧ Settled P s1 vol1 nv1 ∧
      s1.atRuntime = s.atRuntime ∧
      Effect P (n, g) c.attributes data s1 vol1 nv1 st s2 vol2 nv2 ∧
      runtimeServiceSetVariable P env c s = (st, leaveReentrant s2) ∧
      Invariant P (leaveReentrant s2) vol2 nv2 := by
  obtain ⟨hn, ha, -, hok, -, -⟩ := checkedParameters_spec hchk
  have henter : enterReentrant P s = { s with reentrantState := 1 } := by
    unfold enterReentrant
    simp [h.reentrant]
  have hset : Settled P { s with reentrantState := 1 } vol nv := h.settled.congr rfl rfl rfl rfl rfl
  obtain ⟨vol1, nv1, hauto, h1, hc1, hrt1, hre1⟩ := autoUpdateLangVariable_spec env hset
    (fun codes hcd => h.codes codes hcd) hr hok
    (fun nc d s0 hcomp => hsafe.companion n g data nc d s0 hchk (by rw [henter]; exact hcomp))
  have hmain := hsafe.main n g data hchk
  rw [henter] at hmain
  obtain ⟨st, s2, vol2, nv2, he, heff⟩ := updateVariable_spec (k := (n, g)) h1 hr hn ha
    (fun _ => varSize_of_sizeAndNameOk hok) hmain
  obtain ⟨-, hcodes2, hre2⟩ := heff.outcome.context_eq
  refine ⟨_, vol1, nv1, st, s2, vol2, nv2, hauto, h1, hrt1, heff, ?_, heff.settled.congr rfl rfl rfl rfl rfl, ?_, ?_⟩
  · unfold runtimeServiceSetVariable
    simp only [hchk, henter, he]
  · have : s2.reentrantState = 1 := hre2.trans hre1
    simp [leaveReentrant, this]
  · intro codes hcd
    exact hc1 codes (hcodes2.symm.trans hcd)

/-- A call that does not pass the checks. -/
theorem setVariable_unchecked {c : SetCall} (h : checkedParameters P c = none) :
    runtimeServiceSetVariable P env c s = (.invalidParameter, s) := by
  unfold runtimeServiceSetVariable
  simp only [h]

end

end Udk.Variable
