import Udk.Gcd.MapSpec
import Udk.Gcd.Service
import Mathlib.Data.List.TakeWhile

/-! # What a service does to a map in order -/

namespace Udk.Gcd

/-- The map after the conversion of a range in which every entry passes the check. -/
structure Converted (check : Space → EfiStatus) (convert : Space → Space) (hi baseAddress length : Nat)
    (map map' : List Entry) : Prop where
  nonempty : 0 < length
  inside : baseAddress + length ≤ hi
  passes : ∀ e ∈ map, e.baseAddress < baseAddress + length → baseAddress ≤ e.endAddress → check e.toSpace = .success
  tiled : Tiled 0 map' hi
  spaceAt_eq : ∀ a, spaceAt map' a =
    if baseAddress ≤ a ∧ a < baseAddress + length then (spaceAt map a).map convert else spaceAt map a

/-- A call that fails leaves the map. -/
inductive Outcome (check : Space → EfiStatus) (convert : Space → Space) (hi baseAddress length : Nat)
    (map : List Entry) : EfiStatus → List Entry → Prop
  | failed {status : EfiStatus} (h : status ≠ .success) :
      Outcome check convert hi baseAddress length map status map
  | converted {map' : List Entry} (h : Converted check convert hi baseAddress length map map') :
      Outcome check convert hi baseAddress length map .success map'

section
variable {map map' : List Entry} {found : Found} {lo hi baseAddress length s t : Nat} {check : Space → EfiStatus}
  {convert : Space → Space} {status : EfiStatus} {env : Environment} {request : Nat}

theorem Outcome.tiled (h : Outcome check convert hi baseAddress length map status map') (hm : Tiled 0 map hi) :
    Tiled 0 map' hi := by
  cases h with
  | failed => exact hm
  | converted hc => exact hc.tiled

theorem firstError_eq_success {links : List Entry} :
    firstError check links = .success ↔ ∀ e ∈ links, check e.toSpace = .success := by
  induction links with
  | nil => simp [firstError]
  | cons e rest ih =>
    rw [firstError, List.forall_mem_cons]
    split
    · rename_i h
      rw [ih]
      exact ⟨fun h' => ⟨h, h'⟩, And.right⟩
    · rename_i h
      exact ⟨fun h' => absurd h' h, fun h' => absurd h'.1 h⟩

theorem Finds.mem_links (hf : Finds lo map hi baseAddress length found s t) {e : Entry} (he : e ∈ map)
    (h1 : e.baseAddress < baseAddress + length) (h2 : baseAddress ≤ e.endAddress) : e ∈ found.links := by
  have hbase := hf.base_ge
  have hlast := hf.last_lt
  rw [hf.split, List.mem_append, List.mem_append] at he
  rcases he with (he | he) | he
  · have := hf.before.mem he
    omega
  · exact he
  · have := hf.after.mem he
    omega

/-- A range in which every entry passes the check does not wrap. -/
theorem search_unwrapped (h : Tiled lo map hi) (hb : baseAddress < 2 ^ 64) (hl : 0 < length) (hl' : length < 2 ^ 64)
    (hw : ¬ Wraps check map baseAddress length) (hs : coreSearchGcdMapEntry baseAddress length map = some found)
    (hcheck : ∀ e ∈ found.links, check e.toSpace = .success) :
    baseAddress + length ≤ 2 ^ 64 ∧ ∃ s t, Finds lo map hi baseAddress length found s t := by
  refine (search_spec h hb hl hl' hs).resolve_right ?_
  rintro ⟨hwrap, hmap, e, he, hbase, hlast⟩
  exact hw ⟨hwrap, e, by rw [hmap, he]; simp, hbase, hlast, hcheck e (by simp [he])⟩

/-- A range that was found, in which every entry passes the check, is converted. -/
theorem Finds.converted (hf : Finds 0 map hi baseAddress length found s t) (hl : 0 < length)
    (hw : baseAddress + length ≤ 2 ^ 64) (hi' : hi ≤ 2 ^ 64)
    (hcheck : ∀ e ∈ found.links, check e.toSpace = .success) :
    ∃ map', convertFound convert baseAddress length found = some map' ∧
      Converted check convert hi baseAddress length map map' := by
  obtain ⟨map', heq, htiled, hat⟩ := convertFound_spec convert hf hl hw hi'
  have := hf.after.le
  have := hf.last_lt
  exact ⟨map', heq, hl, by omega, fun e he h1 h2 => hcheck e (hf.mem_links he h1 h2), htiled, hat⟩

/-! ## `CoreConvertSpace` -/

theorem coreConvertSpace_spec (env : Environment) (request : Nat) (operation : Operation)
    (gcdMemoryType : GcdMemoryType) (gcdIoType : GcdIoType) (capabilities attributes : UInt64) (h : Tiled 0 map hi)
    (hi' : hi ≤ 2 ^ 64) (hb : baseAddress < 2 ^ 64) (hl : length < 2 ^ 64)
    (hw : ¬ Wraps (checkEntry operation baseAddress length attributes) map baseAddress length) :
    ∃ status map', coreConvertSpace env request operation gcdMemoryType gcdIoType baseAddress length capabilities
        attributes map = some (status, map') ∧
      Outcome (checkEntry operation baseAddress length attributes)
        (convertEntry operation gcdMemoryType gcdIoType capabilities attributes) hi baseAddress length map
        status map' ∧
      (status = .success → setCpuAttributes env operation baseAddress length attributes = .success) := by
  unfold coreConvertSpace
  split
  · exact ⟨_, _, rfl, .failed (by decide), nofun⟩
  · rename_i hlen
    split
    · exact ⟨_, _, rfl, .failed (by decide), nofun⟩
    · rename_i found hs
      split
      · rename_i hcheck
        obtain ⟨hw', s, t, hf⟩ := search_unwrapped h hb (by omega) hl hw hs (firstError_eq_success.mp hcheck)
        split
        · exact ⟨_, _, rfl, .failed (by decide), nofun⟩
        · split
          · rename_i hcpu
            obtain ⟨map', heq, hc⟩ := hf.converted (by omega) hw' hi' (firstError_eq_success.mp hcheck)
            exact ⟨_, _, by rw [heq]; rfl, .converted hc, fun _ => hcpu⟩
          · rename_i hcpu
            exact ⟨_, _, rfl, .failed hcpu, fun he => absurd he hcpu⟩
      · rename_i herr
        exact ⟨_, _, rfl, .failed herr, fun he => absurd he herr⟩

/-! ## `CoreAllocateSpace` -/

theorem alignDown_le (value alignment : Nat) : alignDown value alignment ≤ value := Nat.div_mul_le_self _ _

theorem lt_alignDown_add (value alignment : Nat) : value < alignDown value alignment + 2 ^ alignment := by
  have := Nat.div_add_mod value (2 ^ alignment)
  have := Nat.mod_lt value (Nat.two_pow_pos alignment)
  rw [Nat.mul_comm] at *
  unfold alignDown
  omega

theorem alignUp_lt (value alignment : Nat) : alignUp value alignment < 2 ^ 64 :=
  Nat.lt_of_le_of_lt (alignDown_le _ _) (Nat.mod_lt _ (by decide))

theorem le_alignUp {value alignment : Nat} (hv : value < 2 ^ 63) (ha : alignment < 64) :
    value ≤ alignUp value alignment := by
  have hp : 2 ^ alignment ≤ 2 ^ 63 := Nat.pow_le_pow_right (by decide) (by omega)
  have hpos := Nat.two_pow_pos alignment
  have := lt_alignDown_add (value + (2 ^ alignment - 1)) alignment
  unfold alignUp uint64
  rw [Nat.mod_eq_of_lt (by omega)]
  omega

theorem passing_spec {links ok rest : List Entry} (h : passing check links = (ok, rest)) :
    links = ok ++ rest ∧ (rest = [] → ∀ e ∈ links, check e.toSpace = .success) ∧
      ∀ e ∈ rest.head?, check e.toSpace ≠ .success := by
  unfold passing at h
  rw [Prod.mk.injEq] at h
  obtain ⟨rfl, rfl⟩ := h
  refine ⟨List.takeWhile_append_dropWhile.symm, fun h e he => ?_, fun e he => ?_⟩
  · simpa using List.dropWhile_eq_nil_iff.mp h e he
  · have := List.head?_dropWhile_not (fun e : Entry => decide (check e.toSpace = .success)) links
    rw [Option.mem_def.mp he] at this
    simpa using this

/-- The links that a walk has not looked at: up to the end of the map, or down to its start. -/
def Left (topDown : Bool) (map links : List Entry) : Prop :=
  if topDown then links.reverse <+: map else links <:+ map

/-- Where a candidate lies. -/
theorem candidate_look {gcdAllocateType : GcdAllocateType} {alignment maxAddress b : Nat} {e : Entry}
    (hi' : hi ≤ 2 ^ 63) (ha : alignment < 64) (hl : length < 2 ^ 64) (hmem : e.baseAddress ≤ e.endAddress)
    (he : e.endAddress < hi)
    (h : candidate gcdAllocateType alignment length maxAddress baseAddress e = .look b) :
    b < 2 ^ 64 ∧ (gcdAllocateType.isTopDown = true → b + length ≤ e.endAddress + 1) ∧
      (gcdAllocateType.isTopDown = false → b = alignUp e.baseAddress alignment ∧ e.baseAddress ≤ b) := by
  unfold candidate at h
  cases htd : gcdAllocateType.isTopDown with
  | true =>
    rw [htd, if_pos rfl] at h
    split at h
    · cases h
    · rename_i hmax
      split at h
      · cases h
      · rename_i hlen
        have hend : uint64 (e.endAddress + 1) = e.endAddress + 1 := Nat.mod_eq_of_lt (by omega)
        rw [hend] at hlen
        have hbase : uint64 (e.baseAddress + length) = e.baseAddress + length := Nat.mod_eq_of_lt (by omega)
        rw [hbase] at hmax
        injection h with h
        have hle := alignDown_le (uint64 (min e.endAddress maxAddress + 1 + (2 ^ 64 - length))) alignment
        have huint : uint64 (min e.endAddress maxAddress + 1 + (2 ^ 64 - length)) =
            min e.endAddress maxAddress + 1 - length := by
          unfold uint64
          rw [show min e.endAddress maxAddress + 1 + (2 ^ 64 - length) =
            min e.endAddress maxAddress + 1 - length + 2 ^ 64 by omega, Nat.add_mod_right,
            Nat.mod_eq_of_lt (by omega)]
        rw [h, huint] at hle
        exact ⟨by omega, fun _ => by omega, nofun⟩
  | false =>
    rw [htd, if_neg (by simp)] at h
    simp only at h
    split at h
    · cases h
    · injection h with h
      subst h
      exact ⟨alignUp_lt _ _, nofun, fun _ => ⟨rfl, le_alignUp (by omega) ha⟩⟩

/-- The search comes to an end, and a range that it finds is free. -/
theorem allocateLoop_spec {gcdAllocateType : GcdAllocateType} {alignment fuel : Nat} {links : List Entry}
    (baseAddress maxAddress : Nat) (h : Tiled 0 map hi) (hi' : hi ≤ 2 ^ 63) (ha : alignment < 64)
    (hl : 0 < length) (hl' : length < 2 ^ 64)
    (hw : gcdAllocateType.isTopDown = false →
      ∀ e ∈ map, check e.toSpace = .success → ¬ Wraps check map (alignUp e.baseAddress alignment) length)
    (hleft : Left gcdAllocateType.isTopDown map links) (hfuel : links.length < fuel) :
    ∃ b result, allocateLoop check gcdAllocateType alignment length maxAddress map fuel baseAddress links =
        some (b, result) ∧
      ∀ found, result = some found → b + length ≤ 2 ^ 64 ∧
        (∃ s t, Finds 0 map hi b length found s t) ∧ ∀ e ∈ found.links, check e.toSpace = .success := by
  induction fuel generalizing baseAddress links with
  | zero => omega
  | succ fuel ih =>
    cases links with
    | nil => exact ⟨_, _, rfl, nofun⟩
    | cons entry links =>
      have hfuel' : links.length < fuel := by simpa using hfuel
      obtain ⟨pre, post, hsplit, hlinks⟩ : ∃ pre post, map = pre ++ entry :: post ∧
          links = if gcdAllocateType.isTopDown then pre.reverse else post := by
        unfold Left at hleft
        split at hleft
        · obtain ⟨post, hpost⟩ := hleft
          exact ⟨links.reverse, post, by rw [← hpost]; simp, by simp [*]⟩
        · obtain ⟨pre, hpre⟩ := hleft
          exact ⟨pre, links, hpre.symm, by simp [*]⟩
      have hleft' : Left gcdAllocateType.isTopDown map links := by
        rw [hlinks, hsplit]
        unfold Left
        split
        · exact ⟨entry :: post, by simp⟩
        · exact ⟨pre ++ [entry], by simp⟩
      rw [allocateLoop]
      split
      · exact ih _ hleft' hfuel'
      · rename_i hcheck
        have hentry : entry ∈ map := by rw [hsplit]; simp
        obtain ⟨-, hle, hlt⟩ := h.mem hentry
        split
        · exact ih _ hleft' hfuel'
        · exact ⟨_, _, rfl, nofun⟩
        · rename_i b hcand
          obtain ⟨hb, htd, hbu⟩ := candidate_look hi' ha hl' hle hlt hcand
          have hnw : ¬ Wraps check map b length := by
            cases hd : gcdAllocateType.isTopDown with
            | true =>
              have := htd hd
              intro hwrap
              have := hwrap.1
              omega
            | false => rw [(hbu hd).1]; exact hw hd entry hentry (not_not.mp hcheck)
          split
          · exact ⟨_, _, rfl, nofun⟩
          · rename_i found hs
            split
            · rename_i hpass
              refine ⟨_, _, rfl, fun found' he => ?_⟩
              obtain rfl := Option.some.inj he
              have hall := (passing_spec hpass).2.1 rfl
              obtain ⟨hw', hf⟩ := search_unwrapped h hb hl hl' hnw hs hall
              exact ⟨hw', hf, hall⟩
            · rename_i ok subLink rest hpass
              obtain ⟨hok, -, hbad⟩ := passing_spec hpass
              have hne : subLink ≠ entry := fun he => hbad subLink rfl (he ▸ not_not.mp hcheck)
              obtain ⟨hfound, hov, hov'⟩ : map = found.before ++ found.links ++ found.after ∧
                  (b + length ≤ 2 ^ 64 → subLink.baseAddress < b + length) ∧ b ≤ subLink.endAddress := by
                have hmem : subLink ∈ found.links := by rw [hok]; simp
                rcases search_spec h hb hl hl' hs with ⟨-, s, t, hf⟩ | ⟨hwrap, hmap, e, he, hbase, -⟩
                · exact ⟨hf.split, fun _ => (hf.overlap subLink hmem).1, (hf.overlap subLink hmem).2⟩
                · rw [he, List.mem_singleton] at hmem
                  subst hmem
                  exact ⟨hmap, fun _ => by omega, (Entry.contains_iff.mp hbase).2⟩
              have hmap : pre ++ entry :: post = (found.before ++ ok) ++ subLink :: (rest ++ found.after) := by
                rw [← hsplit, hfound, hok]; simp
              -- the link that fails lies on the side that the walk goes to
              have horder := (hsplit ▸ h).order hmap hne
              cases hd : gcdAllocateType.isTopDown with
              | true =>
                have := htd hd
                rw [hd, if_pos rfl] at hlinks
                obtain ⟨z, hz⟩ := (horder.resolve_right fun hr => by have := hr.1; omega).2
                rw [if_pos rfl]
                refine ih _ ?_ ?_
                · rw [hd]
                  exact ⟨rest ++ found.after, by rw [List.reverse_reverse, hfound, hok]; simp⟩
                · rw [hlinks, hz] at hfuel'
                  simp only [List.length_reverse, List.length_append, List.length_cons, List.length_nil] at hfuel' ⊢
                  omega
              | false =>
                have := (hbu hd).2
                rw [hd, if_neg (by simp)] at hlinks
                obtain ⟨z, hz⟩ := (horder.resolve_left fun hr => by have := hr.1; omega).2
                rw [if_neg (by simp)]
                refine ih _ ?_ ?_
                · rw [hd]
                  exact ⟨found.before ++ ok, by rw [hfound, hok]; simp⟩
                · rw [hlinks, hz] at hfuel'
                  simp only [List.length_append, List.length_cons] at hfuel' ⊢
                  omega

/-- The range at an address that a call may allocate wraps. -/
def AllocateWraps (check : Space → EfiStatus) (gcdAllocateType : GcdAllocateType) (alignment length : Nat)
    (baseAddress : Option Nat) (map : List Entry) : Prop :=
  match gcdAllocateType with
  | .address => ∃ b, baseAddress = some b ∧ Wraps check map b length
  | .anySearchBottomUp | .maxAddressSearchBottomUp =>
    ∃ e ∈ map, check e.toSpace = .success ∧ Wraps check map (alignUp e.baseAddress alignment) length
  | _ => False

theorem allocateFound_spec (env : Environment) (request : Nat) (imageHandle deviceHandle : Handle)
    (hf : Finds 0 map hi baseAddress length found s t)
    (hl : 0 < length) (hw : baseAddress + length ≤ 2 ^ 64) (hi' : hi ≤ 2 ^ 64)
    (hcheck : ∀ e ∈ found.links, check e.toSpace = .success) :
    ∃ status map', allocateFound env request length baseAddress imageHandle deviceHandle map found =
        some (status, baseAddress, map') ∧
      Outcome check (fun e => { e with imageHandle, deviceHandle }) hi baseAddress length map status map' := by
  unfold allocateFound
  split
  · exact ⟨_, _, rfl, .failed (by decide)⟩
  · obtain ⟨map', heq, hc⟩ := hf.converted hl hw hi' hcheck
    exact ⟨_, _, by rw [heq]; rfl, .converted hc⟩

theorem coreAllocateSpace_spec {gcdAllocateType : GcdAllocateType} {alignment : Nat} {base : Option Nat}
    (env : Environment) (request : Nat) (operation : Operation) (gcdMemoryType : GcdMemoryType)
    (gcdIoType : GcdIoType) (imageHandle deviceHandle : Handle) (h : Tiled 0 map hi) (hi' : hi ≤ 2 ^ 63)
    (hl : length < 2 ^ 64) (hb : ∀ b ∈ base, b < 2 ^ 64)
    (hw : ¬ AllocateWraps (coreAllocateSpaceCheckEntry operation gcdMemoryType gcdIoType) gcdAllocateType alignment
      length base map) :
    ∃ status b map', coreAllocateSpace env request operation gcdAllocateType gcdMemoryType gcdIoType alignment length
        base imageHandle deviceHandle map = some (status, b, map') ∧
      Outcome (coreAllocateSpaceCheckEntry operation gcdMemoryType gcdIoType)
        (fun e => { e with imageHandle, deviceHandle }) hi b length map status map' ∧
      (gcdAllocateType = .address → status = .success → base = some b) := by
  unfold coreAllocateSpace
  split
  · exact ⟨_, _, _, rfl, .failed (by decide), nofun⟩
  · rename_i b
    split
    · exact ⟨_, _, _, rfl, .failed (by decide), nofun⟩
    split
    · exact ⟨_, _, _, rfl, .failed (by decide), nofun⟩
    rename_i ha
    split
    · exact ⟨_, _, _, rfl, .failed (by decide), nofun⟩
    rename_i hlen
    simp only
    split
    · rename_i htype
      subst htype
      split
      · exact ⟨_, _, _, rfl, .failed (by decide), nofun⟩
      split
      · exact ⟨_, _, _, rfl, .failed (by decide), nofun⟩
      · rename_i found hs
        have hnw : ¬ Wraps (coreAllocateSpaceCheckEntry operation gcdMemoryType gcdIoType) map b length :=
          fun hwrap => hw ⟨b, rfl, hwrap⟩
        split
        · rename_i hcheck
          obtain ⟨hw', s, t, hf⟩ :=
            search_unwrapped h (hb b rfl) (by omega) hl hnw hs (firstError_eq_success.mp hcheck)
          obtain ⟨status, map', heq, ho⟩ :=
            allocateFound_spec env request imageHandle deviceHandle hf (by omega) hw' (by omega)
              (firstError_eq_success.mp hcheck)
          exact ⟨_, _, _, heq, ho, fun _ _ => rfl⟩
        · rename_i herr
          exact ⟨_, _, _, rfl, .failed herr, fun _ he => absurd he herr⟩
    · rename_i htype
      have hbu : gcdAllocateType.isTopDown = false →
          ∀ e ∈ map, coreAllocateSpaceCheckEntry operation gcdMemoryType gcdIoType e.toSpace = .success →
            ¬ Wraps (coreAllocateSpaceCheckEntry operation gcdMemoryType gcdIoType) map
              (alignUp e.baseAddress alignment) length := by
        intro hd e he hcheck hwrap
        cases gcdAllocateType with
        | address => exact htype rfl
        | anySearchBottomUp => exact hw ⟨e, he, hcheck, hwrap⟩
        | maxAddressSearchBottomUp => exact hw ⟨e, he, hcheck, hwrap⟩
        | anySearchTopDown => cases hd
        | maxAddressSearchTopDown => cases hd
        | maxAllocateType => simp_all
      have hleft : Left gcdAllocateType.isTopDown map
          (if gcdAllocateType.isTopDown then map.reverse else map) := by
        unfold Left
        split
        · exact ⟨[], by simp⟩
        · exact List.suffix_refl map
      have hfuel : (if gcdAllocateType.isTopDown then map.reverse else map).length < map.length + 1 := by
        split <;> simp
      obtain ⟨b', result, heq, hres⟩ := allocateLoop_spec b
        (if gcdAllocateType.hasMaxAddress then b else (map.getLast?.map Entry.endAddress).getD 0)
        h hi' (by omega) (by omega) hl hbu hleft hfuel
      rw [heq]
      cases result with
      | none => exact ⟨_, _, _, rfl, .failed (by decide), nofun⟩
      | some found =>
        obtain ⟨hw', ⟨s, t, hf⟩, hcheck⟩ := hres found rfl
        obtain ⟨status, map', heq, ho⟩ :=
          allocateFound_spec env request imageHandle deviceHandle hf (by omega) hw' (by omega) hcheck
        exact ⟨_, _, _, heq, ho, fun he => absurd he htype⟩

end

end Udk.Gcd
