import Udk.Hii.ConfigToBlock

/-! # The contract of HiiConfigToBlock

When a string is converted as it says, and when `*Progress` is where it should be.
-/

namespace Udk.Hii.Routing

open Separated Merge

/-! ## The header -/

/-- A string that is jumped over, up to the `&` behind its path. -/
structure IsHeader (pre : EfiString) : Prop where
  guid : guidEq <+: pre
  path : ∃ path, search pathEq pre = some (pathEq ++ path) ∧ Plain amp path

theorem dropWhile_header {path suffix : EfiString} (hpath : Plain amp path) (hsuffix : Follows amp suffix) :
    (pathEq ++ path ++ suffix).dropWhile (· ≠ char '&') = suffix := by
  have hplain : Plain amp (pathEq ++ path) := fun h =>
    (List.mem_append.mp h).elim (show amp ∉ pathEq by decide) hpath
  rw [List.dropWhile_append_of_pos]
  · rcases hsuffix with rfl | ⟨t, rfl⟩
    · rfl
    · exact List.dropWhile_cons_of_neg (by simp [amp])
  · exact fun c hc => decide_eq_true fun heq => hplain ((show c = amp from heq) ▸ hc)

theorem IsHeader.scan {pre suffix : EfiString} (h : IsHeader pre) (hsuffix : Follows amp suffix) :
    scanConfigHdr (pre ++ suffix) = match suffix with | [] => .noPath | _ :: stringPtr => .element stringPtr := by
  obtain ⟨path, hsearch, hpath⟩ := h.path
  have hguid : guidEq.isPrefixOf (pre ++ suffix) = true :=
    List.isPrefixOf_iff_prefix.mpr (h.guid.trans (List.prefix_append _ _))
  have hskip : skipTo pathEq (pre ++ suffix) = pathEq ++ path ++ suffix := by
    rw [skipTo, strStr, search_append hsearch, Option.getD_some]
  unfold scanConfigHdr
  simp only [hguid, not_true, if_false, hskip, dropWhile_header hpath hsuffix]
  cases suffix with
  | nil => rfl
  | cons c suffix => rfl

/-- Digits, as they stand in a header. -/
def Digits (s : EfiString) : Prop :=
  ∀ c ∈ s, char '0' ≤ c ∧ c ≤ char '9' ∨ char 'A' ≤ c ∧ c ≤ char 'F' ∨ char 'a' ≤ c ∧ c ≤ char 'f'

instance (s : EfiString) : Decidable (Digits s) :=
  List.decidableBAll (fun c => char '0' ≤ c ∧ c ≤ char '9' ∨ char 'A' ≤ c ∧ c ≤ char 'F' ∨ char 'a' ≤ c ∧ c ≤ char 'f') s

theorem Digits.not_mem {s : EfiString} (h : Digits s) {c : UInt16} (hc : c = char 'P' ∨ c = amp) : c ∉ s := by
  intro hin
  have := h c hin
  rcases hc with rfl | rfl
  · exact absurd this (by decide)
  · exact absurd this (by decide)

/-- A `<ConfigHdr>`, whose values are digits, is a header. -/
theorem isHeader_text {hdr : Header} (hguid : Digits hdr.guid) (hname : Digits hdr.name) (hpath : Digits hdr.path) :
    IsHeader hdr.text := by
  obtain ⟨start, hstart, hplain⟩ : ∃ start, hdr.text = start ++ (pathEq ++ hdr.path) ∧ char 'P' ∉ start := by
    refine ⟨wide ['G', 'U', 'I', 'D', '='] ++ hdr.guid ++
      (amp :: (wide ['N', 'A', 'M', 'E', '='] ++ hdr.name ++ [amp])), ?_, ?_⟩
    · simp [Header.text, Header.items, pathEq]
    · have h1 : char 'P' ∉ wide ['G', 'U', 'I', 'D', '='] := by decide
      have h2 : char 'P' ∉ wide ['N', 'A', 'M', 'E', '='] := by decide
      have h3 : char 'P' ≠ amp := by decide
      simp only [List.mem_append, List.mem_cons, List.not_mem_nil, h1, h2, h3, hguid.not_mem (.inl rfl),
        hname.not_mem (.inl rfl), or_self, not_false_eq_true]
  refine ⟨?_, hdr.path, ?_, hpath.not_mem (.inr rfl)⟩
  · simp [Header.text, Header.items, guidEq, List.append_assoc]
  · rw [hstart, show pathEq = char 'P' :: wide ['A', 'T', 'H', '='] from rfl, search_skip hplain, List.cons_append,
      search.eq_2, if_pos]
    exact List.isPrefixOf_iff_prefix.mpr (List.cons_prefix_cons.mpr ⟨rfl, List.prefix_append _ _⟩)

/-! ## What the contract says -/

/-- The element has a width, digits for all of its bytes, and room in a block of `n` bytes. -/
structure Element.Proper (n : Nat) (e : Element) : Prop where
  width : 1 ≤ hexValue e.width
  inside : hexValue e.offset + hexValue e.width ≤ n
  filled : hexValue e.width ≤ (e.value.length + 1) / 2

/-- Exactly the bytes of the elements are written, and a later element wins. -/
def Written (elements : List Element) (block block' : Block) : Prop :=
  block'.length = block.length ∧ ∀ i < block.length,
    (block'.getD i 0).toNat = match elements.reverse.find? (fun e => decide (e.Covers i)) with
      | some e => hexValue e.value / 256 ^ (i - e.start) % 256
      | none => (block.getD i 0).toNat

structure Converted (configResp : EfiString) (elements : List Element) (block : Block) (r : ToBlock) : Prop where
  status : r.status = .success
  progress : r.progress = some configResp.length
  written : Written elements block r.block
  highest : elements ≠ [] →
    (∃ e ∈ elements, r.blockSize + 1 = e.limit) ∧ ∀ e ∈ elements, e.limit ≤ r.blockSize + 1

/-- No element ends behind the last one. -/
def LastIsHighest (elements : List Element) : Prop := ∃ e ∈ elements.getLast?, ∀ f ∈ elements, f.limit ≤ e.limit

/-- An element without a value. -/
def NoValue (bad : List EfiString) : Prop := ∃ o w rest, bad = (offsetEq ++ o) :: (widthEq ++ w) :: rest

/-- The string ends here, or another `&GUID=` comes. -/
def EndsAt (bad : List EfiString) : Prop := ∃ rest, bad = [] :: rest ∧ ∀ g ∈ rest.head?, guidEq <+: g

/-- The calls of `AllocateZeroPool` before an element is found bad. -/
inductive BadNeeds : List EfiString → Nat → Prop
  | noOffset {a rest} : ¬offsetEq <+: a → BadNeeds (a :: rest) 0
  | noWidth {o rest} : (∀ a ∈ rest.head?, ¬widthEq <+: a) → BadNeeds ((offsetEq ++ o) :: rest) 2
  | noValue {o w rest} : (∀ a ∈ rest.head?, ¬valueEq <+: a) → BadNeeds ((offsetEq ++ o) :: (widthEq ++ w) :: rest) 4

theorem badNeeds {bad : List EfiString} (hne : bad ≠ [])
    (hbad : ¬∃ (e : Element) (rest : List EfiString), bad = e.items ++ rest) :
    ∃ n, BadNeeds bad n := by
  obtain ⟨a, rest, rfl⟩ := List.exists_cons_of_ne_nil hne
  by_cases ha : offsetEq <+: a
  · obtain ⟨o, rfl⟩ := ha
    cases rest with
    | nil => exact ⟨2, .noWidth nofun⟩
    | cons b rest =>
      by_cases hb : widthEq <+: b
      · obtain ⟨w, rfl⟩ := hb
        cases rest with
        | nil => exact ⟨4, .noValue nofun⟩
        | cons c rest =>
          refine ⟨4, .noValue fun c' hc' hp => ?_⟩
          obtain rfl := Option.some.inj hc'
          obtain ⟨v, rfl⟩ := hp
          exact hbad ⟨⟨o, w, v⟩, rest, rfl⟩
      · exact ⟨2, .noWidth fun b' hb' => Option.some.inj hb' ▸ hb⟩
  · exact ⟨0, .noOffset ha⟩

/-! ## All bytes -/

theorem Element.Proper.numbers {e : Element} {n : Nat} (h : e.Proper n) (hn : n < 2 ^ 64) :
    e.start = hexValue e.offset ∧ e.size = hexValue e.width := by
  have := h.inside
  exact ⟨Nat.mod_eq_of_lt (by omega), Nat.mod_eq_of_lt (by omega)⟩

theorem Element.Proper.fits {e : Element} {n : Nat} (h : e.Proper n) (hn : n < 2 ^ 64) : e.Fits n := by
  obtain ⟨hstart, hsize⟩ := h.numbers hn
  have hinside := h.inside
  have hfilled := h.filled
  exact ⟨by rw [Element.limit, hstart, hsize]; exact hinside, by rw [hsize]; omega⟩

theorem written_all {elements : List Element} {block : Block} (h : ∀ e ∈ elements, e.Fits block.length) :
    Written elements block (elements.foldl Element.write block) := by
  refine ⟨Element.write_fits h, fun i hi => ?_⟩
  -- by induction from the last element on
  induction elements using List.reverseRecOn with
  | nil => rfl
  | append_singleton elements e ih =>
    have hinit : ∀ f ∈ elements, f.Fits block.length := fun f hf => h f (List.mem_append_left _ hf)
    have he : e.Fits (elements.foldl Element.write block).length := by
      rw [Element.write_fits hinit]
      exact h e (by simp)
    rw [List.foldl_append, List.foldl_cons, List.foldl_nil, he.write_getD, List.reverse_append, List.reverse_singleton,
      List.singleton_append, List.find?_cons]
    by_cases hcovers : e.Covers i
    · rw [if_pos hcovers]
      simp only [hcovers, decide_true]
      exact valueBytes_toNat e.value _
    · rw [if_neg hcovers, ih hinit]
      simp only [hcovers, decide_false]

/-! ## The call -/

theorem length_joined (items : List EfiString) : items.length ≤ (joined amp items).length := by
  induction items with
  | nil => exact Nat.le_refl 0
  | cons a items ih =>
    rw [joined_cons, List.length_cons, List.length_cons, List.length_append]
    omega

theorem length_elements (elements : List Element) : elements.length ≤ (elements.flatMap Element.items).length := by
  induction elements with
  | nil => exact Nat.le_refl 0
  | cons e elements ih =>
    rw [List.flatMap_cons, List.length_append, List.length_cons]
    have : e.items.length = 3 := rfl
    omega

section

variable {allocates : Nat → Bool} {pre : EfiString} {block : Block} {elements : List Element} {others : List EfiString}

variable (allocates block elements) in
/-- The call is a loop with fuel for all elements. -/
theorem hiiConfigToBlock_loop (hpre : IsHeader pre) (hne : elements.flatMap Element.items ++ others ≠ []) :
    ∃ fuel, hiiConfigToBlock allocates (pre ++ joined amp (elements.flatMap Element.items ++ others)) block =
      configToBlockLoop allocates (pre ++ joined amp (elements.flatMap Element.items ++ others)) block.length
        (fuel + 1 + elements.length) (after (elements.flatMap Element.items ++ others)) block block.length ⟨0, []⟩ := by
  have hlength := length_joined (elements.flatMap Element.items ++ others)
  have helements := length_elements elements
  rw [List.length_append] at hlength
  obtain ⟨fuel, hfuel⟩ : ∃ fuel, (pre ++ joined amp (elements.flatMap Element.items ++ others)).length + 1 =
      fuel + 1 + elements.length := by
    rw [List.length_append]
    exact ⟨pre.length + (joined amp (elements.flatMap Element.items ++ others)).length - elements.length, by omega⟩
  refine ⟨fuel, ?_⟩
  rw [← hfuel]
  generalize elements.flatMap Element.items ++ others = items at *
  cases items with
  | nil => exact absurd rfl hne
  | cons a items =>
    unfold hiiConfigToBlock
    rw [hpre.scan (follows_joined _)]
    rfl

/-- When all elements are written and nothing is behind them, the call succeeds. -/
theorem hiiConfigToBlock_all {e : Element} (hpre : IsHeader pre) (hwf : ∀ f ∈ elements ++ [e], f.WellFormed)
    (hn : block.length < 2 ^ 64) (hfits : ∀ f ∈ elements ++ [e], f.Fits block.length)
    (halloc : Allocates allocates 0 (6 * (elements ++ [e]).length)) :
    hiiConfigToBlock allocates (pre ++ joined amp ((elements ++ [e]).flatMap Element.items)) block =
      some ⟨.success, some (pre ++ joined amp ((elements ++ [e]).flatMap Element.items)).length,
        (elements ++ [e]).foldl Element.write block, uintn (uintn e.limit + (2 ^ 64 - 1)),
        ⟨6 * (elements ++ [e]).length, []⟩⟩ := by
  have hinit : ∀ f ∈ elements, f.Fits block.length := fun f hf => hfits f (List.mem_append_left _ hf)
  have he : e.Fits (elements.foldl Element.write block).length := by
    rw [Element.write_fits hinit]
    exact hfits e (by simp)
  have hinside := he.inside
  have hlength := Element.write_fits hinit
  have hitems : (elements ++ [e]).flatMap Element.items = elements.flatMap Element.items ++ e.items := by simp
  rw [List.length_append, List.length_singleton, Nat.mul_add] at halloc
  obtain ⟨h1, h2⟩ := allocates_add.mp halloc
  obtain ⟨fuel, hloop⟩ := hiiConfigToBlock_loop allocates block elements hpre
    (show elements.flatMap Element.items ++ e.items ≠ [] by simp [Element.items])
  rw [hitems, hloop]
  obtain ⟨blockSize', hgood⟩ := configToBlockLoop_good (fuel + 1) block.length 0 []
    (fun f hf => hwf f (List.mem_append_left _ hf)) hn hinit h1 (show e.items ≠ [] from List.cons_ne_nil _ _)
  rw [hgood]
  rw [← List.append_nil e.items, configToBlockLoop_element (hwf e (by simp)) h2,
    if_neg (by rw [uintn_eq (by omega)]; omega), he.copy, List.append_nil]
  simp [configEnd, List.foldl_append, Nat.mul_add]

/-- What is behind the elements is read when all of them are written. -/
theorem hiiConfigToBlock_rest (hpre : IsHeader pre) (hwf : ∀ e ∈ elements, e.WellFormed) (hn : block.length < 2 ^ 64)
    (hfits : ∀ e ∈ elements, e.Fits block.length) (halloc : Allocates allocates 0 (6 * elements.length))
    (hothers : others ≠ []) :
    ∃ fuel blockSize', hiiConfigToBlock allocates (pre ++ joined amp (elements.flatMap Element.items ++ others)) block =
      configToBlockLoop allocates (pre ++ joined amp (elements.flatMap Element.items ++ others)) block.length (fuel + 1)
        (after others) (elements.foldl Element.write block) blockSize' ⟨6 * elements.length, []⟩ := by
  obtain ⟨fuel, hloop⟩ := hiiConfigToBlock_loop allocates block elements hpre
    (show elements.flatMap Element.items ++ others ≠ [] by simp [hothers])
  obtain ⟨blockSize', hgood⟩ := configToBlockLoop_good (fuel + 1) block.length 0 [] hwf hn hfits halloc hothers
  refine ⟨fuel, blockSize', ?_⟩
  rw [hloop, hgood, Nat.zero_add]

variable (others) in
theorem hiiConfigToBlock_stops (hpre : IsHeader pre) (hwf : ∀ e ∈ elements, e.WellFormed) (hn : block.length < 2 ^ 64)
    (h : ¬(Allocates allocates 0 (6 * elements.length) ∧ ∀ e ∈ elements, e.Fits block.length)) :
    Passes allocates block.length 0 elements ∧
        (∃ r, hiiConfigToBlock allocates (pre ++ joined amp (elements.flatMap Element.items ++ others)) block = some r ∧
          r.status = .outOfResources ∧ r.heap.live = []) ∨
      ¬Passes allocates block.length 0 elements ∧
        ∀ r, hiiConfigToBlock allocates (pre ++ joined amp (elements.flatMap Element.items ++ others)) block = some r →
          r.status = .deviceError ∧ ∃ value, r.heap.live = [value] := by
  have hne : elements.flatMap Element.items ++ others ≠ [] := by
    cases elements with
    | nil => exact absurd ⟨fun k hk => absurd hk (Nat.not_lt_zero k), nofun⟩ h
    | cons e elements => exact List.cons_ne_nil _ _
  obtain ⟨fuel, hloop⟩ := hiiConfigToBlock_loop allocates block elements hpre hne
  rw [hloop]
  exact configToBlockLoop_stops _ _ _ _ hwf hn h

/-! ## Strings of elements -/

variable (allocates) in
/-- A string of elements is converted when its last element is the highest one and no alternative is behind it. -/
theorem converted_iff (hpre : IsHeader pre) (hn : block.length < 2 ^ 64) (hwf : ∀ e ∈ elements, e.WellFormed)
    (hproper : ∀ e ∈ elements, e.Proper block.length) (hothers : ∀ a ∈ others.head?, guidEq <+: a) :
    (∃ r, hiiConfigToBlock allocates (pre ++ joined amp (elements.flatMap Element.items ++ others)) block = some r ∧
        Converted (pre ++ joined amp (elements.flatMap Element.items ++ others)) elements block r) ↔
      Allocates allocates 0 (6 * elements.length) ∧ others = [] ∧ LastIsHighest elements := by
  have hfits : ∀ e ∈ elements, e.Fits block.length := fun e he => (hproper e he).fits hn
  by_cases halloc : Allocates allocates 0 (6 * elements.length)
  · by_cases hnil : others = []
    · subst hnil
      rw [List.append_nil]
      rcases List.eq_nil_or_concat elements with rfl | ⟨init, e, rfl⟩
      · -- no `&` is behind the header
        have hscan := hpre.scan (show Follows amp [] from .inl rfl)
        rw [List.append_nil] at hscan
        have hresult : hiiConfigToBlock allocates (pre ++ joined amp ([].flatMap Element.items)) block =
            some ⟨.invalidParameter, some pre.length, block, block.length, ⟨0, []⟩⟩ := by
          simp [hiiConfigToBlock, hscan]
        rw [hresult]
        constructor
        · rintro ⟨r, hr, hconverted⟩
          obtain rfl := Option.some.inj hr
          exact absurd (show EfiStatus.invalidParameter = .success from hconverted.status) (by decide)
        · rintro ⟨-, -, e, he, -⟩
          exact nomatch he
      · rw [List.concat_eq_append] at *
        have he := hproper e (by simp)
        have hlimit := (he.fits hn).inside
        have hpos : 1 ≤ e.limit := by
          obtain ⟨-, hsize⟩ := he.numbers hn
          have hwidth := he.width
          rw [Element.limit, hsize]
          omega
        have hexact : uintn e.limit = e.limit := uintn_eq (by omega)
        have hblockSize : uintn (uintn e.limit + (2 ^ 64 - 1)) + 1 = e.limit := by
          rw [hexact, uintn, show e.limit + (2 ^ 64 - 1) = e.limit - 1 + 2 ^ 64 by omega, Nat.add_mod_right,
            Nat.mod_eq_of_lt (by omega)]
          omega
        rw [hiiConfigToBlock_all hpre hwf hn hfits halloc]
        constructor
        · rintro ⟨r, hr, hconverted⟩
          obtain rfl := Option.some.inj hr
          refine ⟨halloc, rfl, e, by simp, fun f hf => ?_⟩
          have hhighest := (hconverted.highest (by simp)).2 f hf
          rwa [hblockSize] at hhighest
        · rintro ⟨-, -, e', he', hlast⟩
          obtain rfl : e = e' := by simpa using he'
          refine ⟨_, rfl, rfl, rfl, written_all hfits, fun _ => ⟨⟨e, by simp, hblockSize⟩, fun f hf => ?_⟩⟩
          rw [hblockSize]
          exact hlast f hf
    · -- the `&` before the alternatives is skipped
      obtain ⟨a, rest, rfl⟩ := List.exists_cons_of_ne_nil hnil
      obtain ⟨g, rfl⟩ := hothers a rfl
      obtain ⟨fuel, blockSize', hrest⟩ := hiiConfigToBlock_rest hpre hwf hn hfits halloc hnil
      rw [hrest, configToBlockLoop_end (show ¬offsetEq <+: guidEq ++ g from
        fun h => absurd (List.cons_prefix_cons.mp h).1 (by decide))]
      constructor
      · rintro ⟨r, hr, hconverted⟩
        obtain rfl := Option.some.inj hr
        have hstatus := hconverted.status
        unfold configEnd at hstatus
        rw [if_pos] at hstatus
        · cases hstatus
        · exact ⟨List.cons_ne_nil _ _, fun h => absurd (List.cons_prefix_cons.mp (List.isPrefixOf_iff_prefix.mp h)).1
            (by decide)⟩
      · exact fun h => absurd h.2.1 hnil
  · refine iff_of_false ?_ fun h => halloc h.1
    rintro ⟨r, hr, hconverted⟩
    rcases hiiConfigToBlock_stops others hpre hwf hn fun h => halloc h.1 with ⟨-, r', hr', hstatus, -⟩ | ⟨-, hall⟩
    · obtain rfl := Option.some.inj (hr.symm.trans hr')
      exact absurd (hstatus.symm.trans hconverted.status) (by decide)
    · exact absurd ((hall r hr).1.symm.trans hconverted.status) (by decide)

/-! ## Bad elements -/

omit allocates pre block elements in
/-- No error is found at the end of the string, or ahead of an empty item and an alternative. -/
theorem endsAt_iff (hothers : ∀ a ∈ others, Plain amp a) (hne : others ≠ []) :
    EndsAt others ↔ ¬(after others ≠ [] ∧ ¬(char '&' :: guidEq).isPrefixOf (after others) = true) := by
  obtain ⟨a, rest, rfl⟩ := List.exists_cons_of_ne_nil hne
  rw [after_cons, not_and_not_right, EndsAt]
  cases a with
  | nil =>
    rw [List.nil_append]
    constructor
    · rintro ⟨rest', heq, hall⟩ hjoined
      obtain rfl : rest = rest' := by simpa using heq
      rw [isPrefixOf_joined plain_keys.2.2.2]
      cases rest with
      | nil => exact absurd rfl hjoined
      | cons g rest => exact ⟨g, rfl, hall g rfl⟩
    · refine fun h => ⟨rest, rfl, fun g hg => ?_⟩
      cases rest with
      | nil => exact nomatch hg
      | cons g' rest =>
        obtain ⟨g'', hg'', hp⟩ := (isPrefixOf_joined plain_keys.2.2.2).mp (h (List.cons_ne_nil _ _))
        obtain rfl := Option.some.inj hg''
        obtain rfl := Option.some.inj hg
        exact hp
  | cons c a =>
    refine iff_of_false (fun ⟨_, heq, _⟩ => nomatch heq) fun h => ?_
    have hp := List.isPrefixOf_iff_prefix.mp (h (List.cons_ne_nil _ _))
    exact (hothers (c :: a) List.mem_cons_self).ne (List.cons_prefix_cons.mp hp).1.symm

variable (pre elements) in
/-- The index of the `&` before what is behind the elements. -/
theorem index_of_rest (hne : others ≠ []) :
    (pre ++ joined amp (elements.flatMap Element.items ++ others)).length - (after others).length - 1 =
      (pre ++ joined amp (elements.flatMap Element.items)).length := by
  obtain ⟨a, rest, rfl⟩ := List.exists_cons_of_ne_nil hne
  rw [joined_append, ← List.append_assoc, List.length_append, joined_cons, List.length_cons]
  have : (after (a :: rest)).length = (a ++ joined amp rest).length := rfl
  omega

/-- The start of the string is no `&`. -/
theorem at_start (hpre : IsHeader pre) : some (pre ++ joined amp (elements.flatMap Element.items)).length =
    some (if elements = [] then 0 else (pre ++ joined amp (elements.flatMap Element.items)).length) ↔ elements ≠ [] := by
  have hpos : 0 < pre.length := Nat.lt_of_lt_of_le (by decide) hpre.guid.length_le
  rw [Option.some.injEq, List.length_append]
  split
  · rename_i hnil
    exact iff_of_false (by omega) fun h => h hnil
  · rename_i hnil
    exact iff_of_true rfl hnil

theorem not_endsAt_offset {o : EfiString} : ¬EndsAt ((offsetEq ++ o) :: others) := by
  rintro ⟨rest, heq, -⟩
  exact nomatch (List.cons.inj heq).1

variable (allocates) in
/-- `*Progress` is right unless the first element is bad, or one has no value. -/
theorem progress_iff (hpre : IsHeader pre) (hn : block.length < 2 ^ 64) (hwf : ∀ e ∈ elements, e.WellFormed)
    (hothers : ∀ a ∈ others, Plain amp a) (hne : others ≠ [])
    (hbad : ¬∃ (e : Element) (rest : List EfiString), others = e.items ++ rest) :
    ∃ n, BadNeeds others n ∧
      ((∀ r, hiiConfigToBlock allocates (pre ++ joined amp (elements.flatMap Element.items ++ others)) block = some r →
          r.status = .invalidParameter →
          r.progress = some (if elements = [] then 0 else (pre ++ joined amp (elements.flatMap Element.items)).length)) ↔
        (Allocates allocates 0 (6 * elements.length + n) → (∀ e ∈ elements, e.Fits block.length) →
          EndsAt others ∨ elements ≠ [] ∧ ¬NoValue others)) := by
  obtain ⟨n, hneeds⟩ := badNeeds hne hbad
  refine ⟨n, hneeds, ?_⟩
  by_cases hreach : Allocates allocates 0 (6 * elements.length) ∧ ∀ e ∈ elements, e.Fits block.length
  · obtain ⟨halloc, hfits⟩ := hreach
    obtain ⟨fuel, blockSize', hrest⟩ := hiiConfigToBlock_rest hpre hwf hn hfits halloc hne
    rw [hrest, allocates_add, Nat.zero_add]
    have hindex := index_of_rest pre elements hne
    cases hneeds with
    | @noOffset a rest ha =>
      have hvalue : ¬NoValue (a :: rest) := by
        rintro ⟨o, w, rest', heq⟩
        exact ha ((List.cons.inj heq).1 ▸ List.prefix_append _ _)
      rw [configToBlockLoop_end ha, configEnd]
      by_cases hends : EndsAt (a :: rest)
      · rw [if_neg ((endsAt_iff hothers hne).mp hends)]
        refine iff_of_true (fun r hr hstatus => ?_) fun _ _ => .inl hends
        obtain rfl := Option.some.inj hr
        cases hstatus
      · rw [if_pos (not_not.mp fun h => hends ((endsAt_iff hothers hne).mpr h)), hindex]
        constructor
        · exact fun h _ _ => .inr ⟨(at_start hpre).mp (h _ rfl rfl), hvalue⟩
        · rintro h r hr -
          obtain rfl := Option.some.inj hr
          have := h ⟨halloc, fun k hk => absurd hk (Nat.not_lt_zero k)⟩ hfits
          exact (at_start hpre).mpr (this.resolve_left hends).1
    | @noWidth o rest hwidth =>
      have ho : Plain amp o := fun h => hothers _ List.mem_cons_self (List.mem_append_right _ h)
      have hvalue : ¬NoValue ((offsetEq ++ o) :: rest) := by
        rintro ⟨o', w, rest', heq⟩
        obtain ⟨-, rfl⟩ := List.cons.inj heq
        exact hwidth _ rfl (List.prefix_append _ _)
      by_cases h2 : Allocates allocates (6 * elements.length) 2
      · rw [configToBlockLoop_noWidth ho hwidth h2, hindex]
        constructor
        · exact fun h _ _ => .inr ⟨(at_start hpre).mp (h _ rfl rfl), hvalue⟩
        · rintro h r hr -
          obtain rfl := Option.some.inj hr
          exact (at_start hpre).mpr ((h ⟨halloc, h2⟩ hfits).resolve_left not_endsAt_offset).1
      · refine iff_of_true (fun r hr hstatus => ?_) fun h => absurd h.2 h2
        obtain ⟨count', hout⟩ := configToBlockLoop_out ho (.inl h2)
        obtain rfl := Option.some.inj (hr.symm.trans hout)
        cases hstatus
    | @noValue o w rest hvalue =>
      have ho : Plain amp o := fun h => hothers _ List.mem_cons_self (List.mem_append_right _ h)
      have hw : Plain amp w := fun h => hothers _ (List.mem_cons_of_mem _ List.mem_cons_self) (List.mem_append_right _ h)
      by_cases h4 : Allocates allocates (6 * elements.length) 4
      · rw [configToBlockLoop_noValue ho hw hvalue h4]
        refine iff_of_false (fun h => ?_) fun h => (h ⟨halloc, h4⟩ hfits).elim not_endsAt_offset fun h => h.2 ⟨_, _, _, rfl⟩
        have hprogress := Option.some.inj (h _ rfl rfl)
        have hpos : 0 < pre.length := Nat.lt_of_lt_of_le (by decide) hpre.guid.length_le
        have hlength : (pre ++ joined amp
          (elements.flatMap Element.items ++ (offsetEq ++ o) :: (widthEq ++ w) :: rest)).length =
            (pre ++ joined amp (elements.flatMap Element.items)).length + (8 + o.length) +
              (joined amp ((widthEq ++ w) :: rest)).length := by
          have : offsetEq.length = 7 := rfl
          simp only [joined_append, joined_cons, List.length_append, List.length_cons]
          omega
        rw [hlength, Nat.add_sub_cancel] at hprogress
        split at hprogress
        · rw [List.length_append] at hprogress
          omega
        · omega
      · refine iff_of_true (fun r hr hstatus => ?_) fun h => absurd h.2 h4
        obtain ⟨count', hout⟩ := configToBlockLoop_out ho (.inr ⟨w, rest, rfl, hw, .inl h4⟩)
        obtain rfl := Option.some.inj (hr.symm.trans hout)
        cases hstatus
  · refine iff_of_true (fun r hr hstatus => ?_) fun h1 h2 => absurd ⟨(allocates_add.mp h1).1, h2⟩ hreach
    rcases hiiConfigToBlock_stops others hpre hwf hn hreach with ⟨-, r', hr', hout, -⟩ | ⟨-, hall⟩
    · obtain rfl := Option.some.inj (hr.symm.trans hr')
      exact absurd (hout.symm.trans hstatus) (by decide)
    · exact absurd ((hall r hr).1.symm.trans hstatus) (by decide)

variable (allocates) in
/-- The two parts of the contract. -/
theorem contract_iff (hpre : IsHeader pre) (hn : block.length < 2 ^ 64) (hwf : ∀ e ∈ elements, e.WellFormed)
    (hothers : ∀ a ∈ others, Plain amp a) :
    ((∀ e ∈ elements, e.Proper block.length) → (∀ a ∈ others.head?, guidEq <+: a) →
      ((∃ r, hiiConfigToBlock allocates (pre ++ joined amp (elements.flatMap Element.items ++ others)) block = some r ∧
          Converted (pre ++ joined amp (elements.flatMap Element.items ++ others)) elements block r) ↔
        Allocates allocates 0 (6 * elements.length) ∧ others = [] ∧ LastIsHighest elements)) ∧
    (others ≠ [] → (¬∃ (e : Element) (rest : List EfiString), others = e.items ++ rest) → ∃ n, BadNeeds others n ∧
      ((∀ r, hiiConfigToBlock allocates (pre ++ joined amp (elements.flatMap Element.items ++ others)) block = some r →
          r.status = .invalidParameter →
          r.progress = some (if elements = [] then 0 else (pre ++ joined amp (elements.flatMap Element.items)).length)) ↔
        (Allocates allocates 0 (6 * elements.length + n) → (∀ e ∈ elements, e.Fits block.length) →
          EndsAt others ∨ elements ≠ [] ∧ ¬NoValue others))) :=
  ⟨converted_iff allocates hpre hn hwf, progress_iff allocates hpre hn hwf hothers⟩

end

/-! ## Samples -/

def samplePre : EfiString := Header.text ⟨wide ['0', '1'], wide ['6', '1'], wide ['f', 'f']⟩

theorem samplePre_isHeader : IsHeader samplePre := isHeader_text (by decide) (by decide) (by decide)

def sampleElement (offset : Char) : Element := ⟨wide [offset], wide ['1'], wide ['f', 'f']⟩

def sampleElements : List Element := [sampleElement '0', sampleElement '2']

/-- Two elements and what follows them. -/
def sampleText (others : List EfiString) : EfiString :=
  samplePre ++ joined amp (sampleElements.flatMap Element.items ++ others)

theorem sampleElements_wellFormed : ∀ e ∈ sampleElements, e.WellFormed := by
  simp only [sampleElements, List.forall_mem_cons, List.not_mem_nil, false_imp_iff, implies_true, and_true]
  exact ⟨⟨show amp ∉ _ by decide, show amp ∉ _ by decide, show amp ∉ _ by decide⟩,
    ⟨show amp ∉ _ by decide, show amp ∉ _ by decide, show amp ∉ _ by decide⟩⟩

theorem sampleElements_proper : ∀ e ∈ sampleElements, e.Proper 4 := by
  simp only [sampleElements, List.forall_mem_cons, List.not_mem_nil, false_imp_iff, implies_true, and_true]
  exact ⟨⟨by decide, by decide, by decide⟩, ⟨by decide, by decide, by decide⟩⟩

/-- An alternative, and an element without a width. -/
def sampleAlternative : List EfiString := [guidEq ++ wide ['0', '2']]

def sampleBad : List EfiString := [offsetEq ++ wide ['3'], valueEq ++ wide ['f', 'f']]

/-- The two elements are converted, not so with an alternative behind them, and the bad element is reported where it is. -/
theorem contract_iff_sample :
    (∃ r, hiiConfigToBlock (fun _ => true) (sampleText []) (List.replicate 4 0) = some r ∧
        Converted (sampleText []) sampleElements (List.replicate 4 0) r) ∧
      (¬∃ r, hiiConfigToBlock (fun _ => true) (sampleText sampleAlternative) (List.replicate 4 0) = some r ∧
        Converted (sampleText sampleAlternative) sampleElements (List.replicate 4 0) r) ∧
      ∀ r, hiiConfigToBlock (fun _ => true) (sampleText sampleBad) (List.replicate 4 0) = some r →
        r.status = .invalidParameter → r.progress = some (sampleText []).length := by
  have hcontract := fun others => @contract_iff (fun _ => true) samplePre (List.replicate 4 0) sampleElements others
    samplePre_isHeader (by decide) sampleElements_wellFormed
  refine ⟨((hcontract [] nofun).1 sampleElements_proper nofun).mpr ⟨fun _ _ => rfl, rfl, ?_⟩, fun h => ?_, ?_⟩
  · exact ⟨sampleElement '2', rfl, by decide +kernel⟩
  · have halt : ∀ a ∈ sampleAlternative, Plain amp a := by
      simp only [sampleAlternative, List.forall_mem_cons, List.not_mem_nil, false_imp_iff, implies_true, and_true]
      exact show amp ∉ _ by decide
    have hguid : ∀ a ∈ sampleAlternative.head?, guidEq <+: a := fun a ha =>
      Option.some.inj ha ▸ List.prefix_append _ _
    exact absurd (((hcontract _ halt).1 sampleElements_proper hguid).mp h).2.1 (List.cons_ne_nil _ _)
  · have hplain : ∀ a ∈ sampleBad, Plain amp a := by
      simp only [sampleBad, List.forall_mem_cons, List.not_mem_nil, false_imp_iff, implies_true, and_true]
      exact ⟨show amp ∉ _ by decide, show amp ∉ _ by decide⟩
    have hwidth : ∀ w : EfiString, valueEq ++ wide ['f', 'f'] ≠ widthEq ++ w := fun w h =>
      (show ¬widthEq <+: valueEq ++ wide ['f', 'f'] by decide) ⟨w, h.symm⟩
    have hbad : ¬∃ (e : Element) (rest : List EfiString), sampleBad = e.items ++ rest := by
      rintro ⟨e, rest, h⟩
      exact hwidth _ (List.cons.inj (List.cons.inj h).2).1
    have hvalue : ¬NoValue sampleBad := by
      rintro ⟨o, w, rest, h⟩
      exact hwidth _ (List.cons.inj (List.cons.inj h).2).1
    obtain ⟨n, -, hprogress⟩ := (hcontract _ hplain).2 (List.cons_ne_nil _ _) hbad
    exact hprogress.mpr fun _ _ => .inr ⟨List.cons_ne_nil _ _, hvalue⟩

/-- A string with an alternative is refused, although its element is written. -/
theorem alternative_refused :
    hiiConfigToBlock (fun _ => true)
        (samplePre ++ joined amp ([sampleElement '2'].flatMap Element.items ++ (guidEq ++ wide ['0', '2']) :: []))
        (List.replicate 4 0) =
      some ⟨.invalidParameter, some (samplePre ++ joined amp ([sampleElement '2'].flatMap Element.items)).length,
        [0, 0, 0xff, 0], 2, ⟨6, []⟩⟩ := by
  decide +kernel

/-- The first byte is written last, and `*BlockSize` is its index. -/
example :
    (hiiConfigToBlock (fun _ => true)
        (samplePre ++ joined amp ([sampleElement '2', sampleElement '0'].flatMap Element.items))
        (List.replicate 4 0)).map (fun r => (r.status, r.block, r.blockSize)) =
      some (.success, [0xff, 0, 0xff, 0], 0) := by
  decide +kernel

end Udk.Hii.Routing
