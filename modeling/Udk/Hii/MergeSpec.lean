import Udk.Hii.Merge

/-! # What is merged

The responses of a configuration string, and which of the default ones are missing.
-/

namespace Udk.Hii.Merge

open Separated

def amp : UInt16 := char '&'

structure Header where
  guid : EfiString
  name : EfiString
  path : EfiString
  deriving DecidableEq

def Header.items (h : Header) : List EfiString :=
  [wide ['G', 'U', 'I', 'D', '='] ++ h.guid, wide ['N', 'A', 'M', 'E', '='] ++ h.name,
    wide ['P', 'A', 'T', 'H', '='] ++ h.path]

def altItem (id : EfiString) : EfiString := wide ['A', 'L', 'T', 'C', 'F', 'G', '='] ++ id

/-- A `<ConfigResp>`, or an `<AltResp>` with its id. -/
structure Response where
  header : Header
  altCfg : Option EfiString
  elements : List EfiString
  deriving DecidableEq

def Response.items (r : Response) : List EfiString :=
  r.header.items ++ (r.altCfg.toList.map altItem ++ r.elements)

/-- Neither the separator nor the null character. -/
def Text (s : EfiString) : Prop := Plain amp s ∧ 0 ∉ s

instance (s : EfiString) : Decidable (Text s) := inferInstanceAs (Decidable (amp ∉ s ∧ 0 ∉ s))

structure Header.WellFormed (h : Header) : Prop where
  guid : Text h.guid
  name : Text h.name
  path : Text h.path

structure Response.WellFormed (r : Response) : Prop where
  header : r.header.WellFormed
  id : ∀ id ∈ r.altCfg, Text id ∧ id.length = 4
  elements : ∀ e ∈ r.elements, Text e ∧ ¬wide ['G', 'U', 'I', 'D', '='] <+: e ∧
    ¬wide ['A', 'L', 'T', 'C', 'F', 'G', '='] <+: e

/-- No label starts with `GUID`. The end of a response is searched without the `=`. -/
def Response.Delimited (r : Response) : Prop := ∀ e ∈ r.elements, ¬wide ['G', 'U', 'I', 'D'] <+: e

/-- The responses, each behind an `&`. -/
def rest (rs : List Response) : EfiString := joined amp (rs.flatMap Response.items)

/-- The string of the responses. -/
def text (rs : List Response) : EfiString := (rest rs).tail

def Header.text (h : Header) : EfiString := (joined amp h.items).tail

/-- The response is an alternative for the header. -/
def Response.alternative (hdr : Header) (r : Response) : Option EfiString := if r.header = hdr then r.altCfg else none

/-- There is an alternative behind an `&`. -/
def Has (hdr : Header) (s : EfiString) (id : EfiString) : Prop := joined amp (hdr.items ++ [altItem id]) <:+: s

instance (hdr : Header) (s id : EfiString) : Decidable (Has hdr s id) :=
  inferInstanceAs (Decidable (joined amp (hdr.items ++ [altItem id]) <:+: s))

/-- The first alternative for each id that is not there yet. -/
def missing (hdr : Header) (has : EfiString → Bool) : List Response → List Response
  | [] => []
  | r :: rs =>
    match r.alternative hdr with
    | some id => if has id then missing hdr has rs else r :: missing hdr (fun i => i = id || has i) rs
    | none => missing hdr has rs

/-! ## Items -/

theorem text_wide {s : List Char} {t : EfiString} (hs : amp ∉ wide s ∧ 0 ∉ wide s) (ht : Text t) : Text (wide s ++ t) := by
  refine ⟨fun h => ?_, fun h => ?_⟩
  · exact (List.mem_append.mp h).elim hs.1 ht.1
  · exact (List.mem_append.mp h).elim hs.2 ht.2

theorem Header.WellFormed.items {h : Header} (hh : h.WellFormed) : ∀ a ∈ h.items, Text a := by
  intro a ha
  simp only [Header.items, List.mem_cons, List.not_mem_nil, or_false] at ha
  rcases ha with rfl | rfl | rfl
  · exact text_wide (by decide) hh.guid
  · exact text_wide (by decide) hh.name
  · exact text_wide (by decide) hh.path

theorem text_altItem {id : EfiString} (h : Text id) : Text (altItem id) := text_wide (by decide) h

theorem Response.WellFormed.items {r : Response} (h : r.WellFormed) : ∀ a ∈ r.items, Text a := by
  intro a ha
  rcases List.mem_append.mp ha with ha | ha
  · exact h.header.items a ha
  · rcases List.mem_append.mp ha with ha | ha
    · obtain ⟨id, hid, rfl⟩ := List.mem_map.mp ha
      exact text_altItem (h.id id (by simpa using hid)).1
    · exact (h.elements a ha).1

/-- The items of a response behind the first one. -/
def Response.others (r : Response) : List EfiString :=
  (wide ['N', 'A', 'M', 'E', '='] ++ r.header.name) :: (wide ['P', 'A', 'T', 'H', '='] ++ r.header.path) ::
    (r.altCfg.toList.map altItem ++ r.elements)

theorem Response.items_eq (r : Response) : r.items = (wide ['G', 'U', 'I', 'D', '='] ++ r.header.guid) :: r.others := rfl

/-- They do not start like `GUID=` when the elements do not. -/
theorem Response.WellFormed.others {r : Response} (h : r.WellFormed) {p : EfiString}
    (hp : wide ['G', 'U', 'I', 'D'] <+: p) (he : ∀ e ∈ r.elements, ¬p <+: e) :
    ∀ a ∈ r.others, Plain amp a ∧ ¬p <+: a := by
  intro a ha
  refine ⟨(h.items a (r.items_eq ▸ List.mem_cons_of_mem _ ha)).1, fun hpa => ?_⟩
  have hguid := hp.trans hpa
  simp only [Response.others, List.mem_cons] at ha
  rcases ha with rfl | rfl | ha
  · exact absurd (List.cons_prefix_cons.mp hguid).1 (by decide)
  · exact absurd (List.cons_prefix_cons.mp hguid).1 (by decide)
  · rcases List.mem_append.mp ha with ha | ha
    · obtain ⟨id, -, rfl⟩ := List.mem_map.mp ha
      exact absurd (List.cons_prefix_cons.mp hguid).1 (by decide)
    · exact he a ha hpa

theorem Header.items_inj {h h' : Header} (heq : h.items = h'.items) : h = h' := by
  simp only [Header.items, List.cons.injEq, List.append_cancel_left_eq, and_true] at heq
  cases h
  cases h'
  simp only [Header.mk.injEq]
  exact heq

end Udk.Hii.Merge
