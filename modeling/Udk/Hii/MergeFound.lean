import Udk.Hii.MergeSpec

/-! # Responses are found

A search for an alternative finds the first response that is one, and a search for `&GUID` the next response.
-/

namespace Udk.Hii.Merge

open Separated

theorem rest_cons (r : Response) (rs : List Response) :
    rest (r :: rs) = amp :: (wide ['G', 'U', 'I', 'D', '='] ++ r.header.guid ++
      joined amp (r.others ++ rs.flatMap Response.items)) := rfl

theorem rest_append (rs rs' : List Response) : rest (rs ++ rs') = rest rs ++ rest rs' := by
  unfold rest
  rw [List.flatMap_append, joined_append]

theorem rest_items {rs : List Response} (h : ∀ r ∈ rs, r.WellFormed) : ∀ a ∈ rs.flatMap Response.items, Text a := by
  intro a ha
  obtain ⟨r, hr, ha⟩ := List.mem_flatMap.mp ha
  exact (h r hr).items a ha

theorem not_mem_joined {items : List EfiString} (h : ∀ a ∈ items, Text a) : 0 ∉ joined amp items := by
  intro hin
  obtain ⟨a, ha, hin⟩ := List.mem_flatMap.mp hin
  rcases List.mem_cons.mp hin with heq | hin
  · exact absurd heq (by decide)
  · exact (h a ha).2 hin

theorem rest_text {rs : List Response} (h : ∀ r ∈ rs, r.WellFormed) : 0 ∉ rest rs := not_mem_joined (rest_items h)

/-- The pattern for the alternatives of a header, or for one of them. -/
def pattern (hdr : Header) (y : EfiString) : EfiString := joined amp (hdr.items ++ [y])

theorem pattern_cons (hdr : Header) (y : EfiString) :
    ∃ u, pattern hdr y = amp :: u ∧ wide ['G', 'U', 'I', 'D', '='] <+: u :=
  ⟨wide ['G', 'U', 'I', 'D', '='] ++ (hdr.guid ++ joined amp (hdr.items.tail ++ [y])), rfl, List.prefix_append _ _⟩

/-- `y` is `ALTCFG=`, or goes on with an id. -/
theorem pattern_isPrefix {hdr : Header} {y : EfiString} {r : Response} (rs : List Response) (hhdr : hdr.WellFormed)
    (hy : Plain amp y) (halt : altItem [] <+: y) (hr : r.WellFormed) (hrs : ∀ r ∈ rs, r.WellFormed) :
    pattern hdr y <+: rest (r :: rs) ↔ ∃ id, r.alternative hdr = some id ∧ y <+: altItem id := by
  have hall : ∀ a ∈ (r :: rs).flatMap Response.items, Plain amp a := fun a ha =>
    (rest_items (List.forall_mem_cons.mpr ⟨hr, hrs⟩) a ha).1
  unfold pattern rest
  rw [joined_isPrefix (fun x hx => (hhdr.items x hx).1) hy hall, List.flatMap_cons, Response.items, List.append_assoc,
    List.append_assoc]
  constructor
  · rintro ⟨z, tail, heq, hz⟩
    obtain ⟨hitems, heq⟩ := List.append_inj heq rfl
    have hheader := Header.items_inj hitems
    have hz : altItem [] <+: z := halt.trans hz
    cases hcfg : r.altCfg with
    | some id =>
      rw [hcfg] at heq
      obtain ⟨rfl, -⟩ := List.cons.inj heq
      refine ⟨id, ?_, by assumption⟩
      rw [Response.alternative, if_pos hheader, hcfg]
    | none =>
      rw [hcfg, Option.toList_none, List.map_nil, List.nil_append] at heq
      exfalso
      cases helements : r.elements with
      | cons e es =>
        rw [helements] at heq
        obtain ⟨rfl, -⟩ := List.cons.inj heq
        exact (hr.elements e (helements ▸ List.mem_cons_self)).2.2 hz
      | nil =>
        rw [helements, List.nil_append] at heq
        cases rs with
        | nil => simp at heq
        | cons r' rs =>
          obtain ⟨rfl, -⟩ := List.cons.inj heq
          exact absurd (List.cons_prefix_cons.mp hz).1 (by decide)
  · rintro ⟨id, hid, hprefix⟩
    unfold Response.alternative at hid
    split at hid
    · rename_i hheader
      refine ⟨altItem id, r.elements ++ rs.flatMap Response.items, ?_, hprefix⟩
      rw [hheader, hid]
      rfl
    · cases hid

/-- No item but the first one of a response starts like the pattern. -/
theorem search_others {p u : EfiString} {r : Response} (rs : List Response) (hp : wide ['G', 'U', 'I', 'D'] <+: p)
    (hplain : amp ∉ p) (hu : p <+: u) (hr : r.WellFormed) (he : ∀ e ∈ r.elements, ¬p <+: e) :
    search (amp :: u) (rest (r :: rs)).tail = search (amp :: u) (rest rs) := by
  rw [rest_cons, List.tail_cons, search_skip (hr.items _ (r.items_eq ▸ List.mem_cons_self)).1,
    search_past hu hplain (hr.others hp he)]
  rfl

theorem search_tail {u : EfiString} {r : Response} (rs : List Response) (hu : wide ['G', 'U', 'I', 'D', '='] <+: u)
    (hr : r.WellFormed) : search (amp :: u) (rest (r :: rs)).tail = search (amp :: u) (rest rs) :=
  search_others rs (by decide) (by decide) hu hr fun e he => (hr.elements e he).2.1

theorem search_cons {u : EfiString} {r : Response} (rs : List Response) (hu : wide ['G', 'U', 'I', 'D', '='] <+: u)
    (hr : r.WellFormed) : search (amp :: u) (rest (r :: rs)) =
      if amp :: u <+: rest (r :: rs) then some (rest (r :: rs)) else search (amp :: u) (rest rs) := by
  rw [← search_tail rs hu hr, rest_cons, List.tail_cons, search.eq_2]
  simp only [List.isPrefixOf_iff_prefix]

/-- The next response is where the next `&GUID` is. -/
theorem search_guid {r : Response} (rs : List Response) (hr : r.WellFormed) (hd : r.Delimited) :
    search (wide ['&', 'G', 'U', 'I', 'D']) (rest (r :: rs)).tail = if rs = [] then none else some (rest rs) := by
  rw [show wide ['&', 'G', 'U', 'I', 'D'] = amp :: wide ['G', 'U', 'I', 'D'] from rfl,
    search_others rs (List.prefix_refl _) (by decide) (List.prefix_refl _) hr hd]
  cases rs with
  | nil => rfl
  | cons r' rs =>
    have hstart : (amp :: wide ['G', 'U', 'I', 'D']).isPrefixOf (rest (r' :: rs)) = true := by
      rw [List.isPrefixOf_iff_prefix, rest_cons]
      refine List.cons_prefix_cons.mpr ⟨rfl, ?_⟩
      exact (show wide ['G', 'U', 'I', 'D'] <+: wide ['G', 'U', 'I', 'D', '='] by decide).trans
        ⟨_, (List.append_assoc _ _ _).symm⟩
    rw [if_neg (List.cons_ne_nil _ _)]
    rw [rest_cons] at hstart ⊢
    rw [search.eq_2, if_pos hstart]

/-! ## Alternatives -/

theorem altItem_isPrefix {i id : EfiString} (h : i.length = id.length) : altItem i <+: altItem id ↔ i = id := by
  unfold altItem
  rw [List.prefix_append_right_inj]
  exact ⟨fun hp => hp.eq_of_length h, fun heq => heq ▸ List.prefix_refl _⟩

theorem alternative_some {hdr : Header} {r : Response} {id : EfiString} (h : r.alternative hdr = some id) :
    r.header = hdr ∧ r.altCfg = some id := by
  unfold Response.alternative at h
  split at h
  · exact ⟨by assumption, h⟩
  · cases h

theorem Response.WellFormed.alternative {hdr : Header} {r : Response} {id : EfiString} (hr : r.WellFormed)
    (h : r.alternative hdr = some id) : Text id ∧ id.length = 4 :=
  hr.id id (alternative_some h).2

/-- The first response found is the first alternative. -/
theorem search_alternative {hdr : Header} {r : Response} {rs : List Response} (hhdr : hdr.WellFormed)
    (hr : r.WellFormed) (hrs : ∀ r ∈ rs, r.WellFormed) :
    search (pattern hdr (altItem [])) (rest (r :: rs)) =
      if (r.alternative hdr).isSome then some (rest (r :: rs)) else search (pattern hdr (altItem [])) (rest rs) := by
  obtain ⟨u, hu, hguid⟩ := pattern_cons hdr (altItem [])
  have hprefix := pattern_isPrefix rs hhdr (show amp ∉ _ by decide) (List.prefix_refl _) hr hrs
  have hiff : (amp :: u <+: rest (r :: rs)) ↔ (r.alternative hdr).isSome = true := by
    rw [← hu, hprefix, Option.isSome_iff_exists]
    exact exists_congr fun id => and_iff_left (by unfold altItem; rw [List.append_nil]; exact List.prefix_append _ _)
  rw [hu, search_cons rs hguid hr]
  exact if_congr hiff rfl rfl

theorem has_cons {hdr : Header} {r : Response} {rs : List Response} {i : EfiString} (hhdr : hdr.WellFormed)
    (hi : Text i) (hlen : i.length = 4) (hr : r.WellFormed) (hrs : ∀ r ∈ rs, r.WellFormed) :
    Has hdr (rest (r :: rs)) i ↔ r.alternative hdr = some i ∨ Has hdr (rest rs) i := by
  obtain ⟨u, hu, hguid⟩ := pattern_cons hdr (altItem i)
  have hprefix := pattern_isPrefix rs hhdr (text_altItem hi).1
    (by unfold altItem; rw [List.append_nil]; exact List.prefix_append _ _) hr hrs
  have hiff : (amp :: u <+: rest (r :: rs)) ↔ r.alternative hdr = some i := by
    rw [← hu, hprefix]
    constructor
    · rintro ⟨id, hid, hp⟩
      rw [hid, (altItem_isPrefix (hlen.trans (hr.alternative hid).2.symm)).mp hp]
    · exact fun hid => ⟨i, hid, List.prefix_refl _⟩
  have hsearch := search_cons rs hguid hr
  unfold Has
  rw [show joined amp (hdr.items ++ [altItem i]) = amp :: u from hu, ← not_iff_not, not_or, ← search_eq_none,
    ← search_eq_none, hsearch]
  by_cases halt : r.alternative hdr = some i
  · rw [if_pos (hiff.mpr halt)]
    simp [halt]
  · rw [if_neg fun hp => halt (hiff.mp hp)]
    simp [halt]

/-- In a string of responses, an alternative is there when a response is it. -/
theorem has_rest {hdr : Header} {rs : List Response} {i : EfiString} (hhdr : hdr.WellFormed) (hi : Text i)
    (hlen : i.length = 4) (hrs : ∀ r ∈ rs, r.WellFormed) :
    Has hdr (rest rs) i ↔ ∃ r ∈ rs, r.alternative hdr = some i := by
  induction rs with
  | nil => simp [Has, rest, Header.items]
  | cons r rs ih =>
    obtain ⟨hr, hrs⟩ := List.forall_mem_cons.mp hrs
    rw [has_cons hhdr hi hlen hr hrs, ih hrs]
    simp

/-- An appended alternative is there, and it adds no other one. -/
theorem has_append {hdr : Header} {r : Response} {i id s : EfiString} (hhdr : hdr.WellFormed) (hr : r.WellFormed)
    (hid : r.alternative hdr = some id) (hi : Text i) (hlen : i.length = 4) :
    Has hdr (s ++ rest [r]) i ↔ i = id ∨ Has hdr s i := by
  have hone : Has hdr (rest [r]) i ↔ i = id := by
    rw [has_rest hhdr hi hlen (by simpa using hr)]
    simp [hid, eq_comm]
  have hpatterns : ∀ y ∈ hdr.items ++ [altItem i], Plain amp y := by
    intro y hy
    rcases List.mem_append.mp hy with hy | hy
    · exact (hhdr.items y hy).1
    · rw [List.mem_singleton.mp hy]
      exact (text_altItem hi).1
  rw [← hone, or_comm]
  refine infix_append (hpatterns _ List.mem_cons_self) (fun y hy => hpatterns y (List.mem_cons_of_mem _ hy))
    (fun a ha => (rest_items (by simpa using hr) a ha).1) ?_
  intro y hy a ha hp
  obtain rfl := Option.some.inj ha
  rcases List.mem_cons.mp hy with rfl | hy
  · exact absurd (List.cons_prefix_cons.mp hp).1 (by decide)
  rcases List.mem_cons.mp hy with rfl | hy
  · exact absurd (List.cons_prefix_cons.mp hp).1 (by decide)
  · obtain rfl := List.mem_singleton.mp hy
    exact absurd (List.cons_prefix_cons.mp hp).1 (by decide)

theorem missing_congr {hdr : Header} {has has' : EfiString → Bool} {rs : List Response}
    (hrs : ∀ r ∈ rs, r.WellFormed) (h : ∀ i, Text i → i.length = 4 → has i = has' i) :
    missing hdr has rs = missing hdr has' rs := by
  induction rs generalizing has has' with
  | nil => rfl
  | cons r rs ih =>
    obtain ⟨hr, hrs⟩ := List.forall_mem_cons.mp hrs
    unfold missing
    cases hid : r.alternative hdr with
    | none => exact ih hrs h
    | some id =>
      obtain ⟨hid, hlen⟩ := hr.alternative hid
      have hlater : missing hdr (fun i => i = id || has i) rs = missing hdr (fun i => i = id || has' i) rs :=
        ih hrs fun i hi hl => by rw [h i hi hl]
      simp only [h id hid hlen, ih hrs h, hlater]

end Udk.Hii.Merge
