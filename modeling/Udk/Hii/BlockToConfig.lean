import Udk.Hii.BlockContract

/-! # A configuration string from a block

What `HiiBlockToConfig` writes for a request, and that `HiiConfigToBlock` reads the same bytes from it.
-/

namespace Udk.Hii.Routing

open Separated Merge Bytes

/-! ## The string in lower case -/

def lowerDigit (c : UInt16) : UInt16 := if char 'A' ≤ c ∧ c ≤ char 'F' then c - char 'A' + char 'a' else c

def lowerDigits (digits : EfiString) : EfiString := digits.map lowerDigit

theorem upper_cases {c : UInt16} (h : char 'A' ≤ c ∧ c ≤ char 'F') :
    c = char 'A' ∨ c = char 'B' ∨ c = char 'C' ∨ c = char 'D' ∨ c = char 'E' ∨ c = char 'F' := by
  have h1 : 65 ≤ c.toNat := UInt16.le_iff_toNat_le.mp h.1
  have h2 : c.toNat ≤ 70 := UInt16.le_iff_toNat_le.mp h.2
  have hall : c.toNat = 65 ∨ c.toNat = 66 ∨ c.toNat = 67 ∨ c.toNat = 68 ∨ c.toNat = 69 ∨ c.toNat = 70 := by omega
  simp only [← UInt16.toNat_inj]
  exact hall

theorem strHexToUint64_lowerDigit (c : UInt16) : strHexToUint64 (lowerDigit c) = strHexToUint64 c := by
  unfold lowerDigit
  split
  · rename_i h
    rcases upper_cases h with rfl | rfl | rfl | rfl | rfl | rfl <;> decide
  · rfl

theorem lowerDigits_length (digits : EfiString) : (lowerDigits digits).length = digits.length := List.length_map _

theorem hexValue_lowerDigits (digits : EfiString) : hexValue (lowerDigits digits) = hexValue digits := by
  unfold hexValue lowerDigits
  rw [← List.map_reverse]
  induction digits.reverse with
  | nil => rfl
  | cons c digits ih => rw [List.map_cons, valueFrom, valueFrom, ih, strHexToUint64_lowerDigit]

theorem Digits.lower {digits : EfiString} (h : Digits digits) : Digits (lowerDigits digits) := by
  intro c hc
  obtain ⟨d, hd, rfl⟩ := List.mem_map.mp hc
  unfold lowerDigit
  split
  · rename_i hupper
    refine .inr (.inr ?_)
    rcases upper_cases hupper with rfl | rfl | rfl | rfl | rfl | rfl <;> decide
  · exact h d hd

theorem Digits.plain {digits : EfiString} (h : Digits digits) : Plain amp digits := h.not_mem (.inr rfl)

theorem Digits.ne_equals {digits : EfiString} (h : Digits digits) : char '=' ∉ digits :=
  fun hin => absurd (h _ hin) (by decide)

/-- A label, and the digits behind the `=`. -/
def labelled (i : EfiString × EfiString) : EfiString := i.1 ++ char '=' :: i.2

/-- The label is left as it is. -/
def Label (s : EfiString) : Prop := char '=' ∉ s ∧ amp ∉ s

instance (s : EfiString) : Decidable (Label s) := inferInstanceAs (Decidable (char '=' ∉ s ∧ amp ∉ s))

theorem lowerFrom_amp (lower : Bool) (s : EfiString) : lowerFrom lower (amp :: s) = amp :: lowerFrom false s := by
  rw [lowerFrom, if_neg (by decide), if_pos (show amp = char '&' from rfl)]

theorem lowerFrom_label {l : EfiString} (hl : Label l) (s : EfiString) :
    lowerFrom false (l ++ char '=' :: s) = l ++ char '=' :: lowerFrom true s := by
  induction l with
  | nil => rw [List.nil_append, List.nil_append, lowerFrom, if_pos rfl]
  | cons c l ih =>
    obtain ⟨h1, h2⟩ := hl
    rw [List.mem_cons, not_or] at h1 h2
    rw [List.cons_append, lowerFrom, if_neg fun h => h1.1 h.symm, if_neg fun h => h2.1 h.symm,
      if_neg fun h => Bool.false_ne_true h.1, ih ⟨h1.2, h2.2⟩, List.cons_append]

theorem lowerFrom_digits {digits : EfiString} (h : Digits digits) (s : EfiString) :
    lowerFrom true (digits ++ s) = lowerDigits digits ++ lowerFrom true s := by
  induction digits with
  | nil => rfl
  | cons c digits ih =>
    have hequals := h.ne_equals
    have hamp := h.plain
    rw [List.mem_cons, not_or] at hequals
    have hamp : c ≠ char '&' := fun hc => hamp (hc ▸ List.mem_cons_self)
    have ih := ih fun d hd => h d (List.mem_cons_of_mem _ hd)
    rw [List.cons_append, lowerFrom, if_neg fun h => hequals.1 h.symm, if_neg hamp]
    unfold lowerDigits lowerDigit at *
    rw [List.map_cons, List.cons_append]
    split
    · rename_i hupper
      rw [if_pos hupper.2, ih]
    · rename_i hupper
      rw [if_neg fun h => hupper ⟨rfl, h⟩, ih]

theorem lowerFrom_joined (lower : Bool) {items : List (EfiString × EfiString)}
    (h : ∀ i ∈ items, Label i.1 ∧ Digits i.2) :
    lowerFrom lower (joined amp (items.map labelled)) =
      joined amp (items.map fun i => labelled (i.1, lowerDigits i.2)) := by
  induction items generalizing lower with
  | nil => rfl
  | cons i items ih =>
    obtain ⟨hi, hitems⟩ := List.forall_mem_cons.mp h
    rw [List.map_cons, List.map_cons, joined_cons, joined_cons, lowerFrom_amp, labelled, List.append_assoc,
      List.cons_append, lowerFrom_label hi.1, lowerFrom_digits hi.2, ih true hitems]
    simp [labelled]

theorem hiiToLower_items {items : List (EfiString × EfiString)} (h : ∀ i ∈ items, Label i.1 ∧ Digits i.2) :
    hiiToLower (after (items.map labelled)) = after (items.map fun i => labelled (i.1, lowerDigits i.2)) := by
  have hjoined := lowerFrom_joined false h
  cases items with
  | nil => rfl
  | cons i items =>
    rw [List.map_cons, List.map_cons, joined_cons, joined_cons, lowerFrom_amp] at hjoined
    exact (List.cons.inj hjoined).2

/-! ## The digits of bytes -/

theorem valueFrom_append (xs ys : EfiString) : valueFrom (xs ++ ys) = valueFrom xs + 16 ^ xs.length * valueFrom ys := by
  induction xs with
  | nil => simp [valueFrom]
  | cons c xs ih =>
    rw [List.cons_append, valueFrom, valueFrom, ih, List.length_cons, Nat.pow_succ, Nat.mul_add, Nat.mul_comm _ 16,
      Nat.mul_assoc, Nat.add_assoc]

theorem hexValue_append (xs ys : EfiString) : hexValue (xs ++ ys) = hexValue ys + 16 ^ ys.length * hexValue xs := by
  unfold hexValue
  rw [List.reverse_append, valueFrom_append, List.length_reverse]

/-- A byte has two digits. -/
theorem byteString_spec : ∀ n < 256, (unicodeValueToString n 2).length = 2 ∧ Digits (unicodeValueToString n 2) ∧
    hexValue (unicodeValueToString n 2) = n := by
  decide +kernel

theorem valueString_cons (b : UInt8) (bytes : List UInt8) :
    valueString (b :: bytes) = valueString bytes ++ unicodeValueToString b.toNat 2 := by
  simp [valueString]

/-- The digits of bytes, the last byte first. -/
theorem valueString_spec (bytes : List UInt8) : (valueString bytes).length = 2 * bytes.length ∧
    Digits (valueString bytes) ∧ hexValue (valueString bytes) = fromLE bytes := by
  induction bytes with
  | nil => exact ⟨rfl, fun c hc => (List.not_mem_nil hc).elim, rfl⟩
  | cons b bytes ih =>
    obtain ⟨h1, h2, h3⟩ := byteString_spec b.toNat b.toNat_lt
    obtain ⟨ih1, ih2, ih3⟩ := ih
    rw [valueString_cons]
    refine ⟨by rw [List.length_append, List.length_cons, h1, ih1]; omega, fun c hc => ?_, ?_⟩
    · exact (List.mem_append.mp hc).elim (ih2 c) (h2 c)
    · rw [hexValue_append, h1, h3, ih3]
      rfl

/-! ## Requests -/

/-- A `<BlockName>`, with the digits of its numbers. -/
structure BlockName where
  offset : EfiString
  width : EfiString
  deriving DecidableEq

namespace BlockName

def items (n : BlockName) : List EfiString := [offsetEq ++ n.offset, widthEq ++ n.width]

/-- Digits of a range that is not empty and is in a block of `size` bytes. -/
structure WellFormed (size : Nat) (n : BlockName) : Prop where
  offset : Digits n.offset
  width : Digits n.width
  positive : 1 ≤ hexValue n.width
  inside : hexValue n.offset + hexValue n.width ≤ size

def Covers (i : Nat) (n : BlockName) : Prop := hexValue n.offset ≤ i ∧ i < hexValue n.offset + hexValue n.width

instance (i : Nat) (n : BlockName) : Decidable (n.Covers i) :=
  inferInstanceAs (Decidable (hexValue n.offset ≤ i ∧ i < hexValue n.offset + hexValue n.width))

def bytes (block : Block) (n : BlockName) : List UInt8 := (block.drop (hexValue n.offset)).take (hexValue n.width)

/-- The element of the block. -/
def element (block : Block) (n : BlockName) : Element := ⟨n.offset, n.width, valueString (n.bytes block)⟩

end BlockName

/-- What is written for an element, and for a header. -/
def Element.lower (e : Element) : Element := ⟨lowerDigits e.offset, lowerDigits e.width, lowerDigits e.value⟩

def lowerHeader (hdr : Header) : Header := ⟨lowerDigits hdr.guid, lowerDigits hdr.name, lowerDigits hdr.path⟩

/-- The string of a request. -/
def request (hdr : Header) (names : List BlockName) : EfiString :=
  hdr.text ++ joined amp (names.flatMap BlockName.items)

section
variable {allocates : Nat → Bool} {configRequest : EfiString} {block : Block} {names : List BlockName} {n : BlockName}
  {config config' : StringBuffer} {heap heap' : Heap} {fuel count : Nat} {live : List Nat} {items : List EfiString}

theorem appendToMultiString_string {s : EfiString}
    (h : appendToMultiString allocates heap config s = some (config', heap')) : config'.string = config.string ++ s := by
  unfold appendToMultiString at h
  split at h
  · cases h
  · dsimp only at h
    split at h
    · split at h
      · cases h
      · split at h
        · cases h
        · obtain ⟨rfl, -⟩ := Prod.mk.inj (Option.some.inj h)
          rfl
    · split at h
      · cases h
      · obtain ⟨rfl, -⟩ := Prod.mk.inj (Option.some.inj h)
        rfl

/-- A result of `appendElement` is an error. -/
theorem appendElement_status {name : EfiString} {offset width : Nat} {r : ToConfig}
    (h : appendElement allocates block name offset width config heap = some (some r, config', heap')) :
    r.status = .outOfResources := by
  unfold appendElement configExit at h
  dsimp only at h
  split at h
  · obtain ⟨rfl, -⟩ := by simpa using h
    rfl
  · split at h
    · cases h
    · split at h
      · obtain ⟨rfl, -⟩ := by simpa using h
        rfl
      · split at h
        · cases h
        · split at h
          · obtain ⟨rfl, -⟩ := by simpa using h
            rfl
          · split at h
            · cases h
            · split at h
              · cases h
              · simp at h

theorem copyFromBlock_eq {offset width : Nat} (h : offset + width ≤ block.length) :
    copyFromBlock block offset width = some ((block.drop offset).take width) := by
  unfold copyFromBlock
  split
  · rename_i h0
    rw [h0, List.take_zero]
  · rw [if_neg (Nat.not_lt.mpr h)]

theorem appendElement_string {name : EfiString} {offset width : Nat} (hinside : offset + width ≤ block.length)
    (h : appendElement allocates block name offset width config heap = some (none, config', heap')) :
    config'.string = config.string ++ (name ++ amp :: valueEq ++ valueString ((block.drop offset).take width)) := by
  unfold appendElement configExit at h
  rw [copyFromBlock_eq hinside] at h
  dsimp only at h
  split at h
  · simp at h
  · split at h
    · simp at h
    · split at h
      · cases h
      · split at h
        · simp at h
        · split at h
          · cases h
          · split at h
            · cases h
            · rename_i happend
              obtain ⟨rfl, -⟩ := by simpa using h
              rw [appendToMultiString_string happend]
              simp [amp]

/-- An element that fits is appended with the same bytes as from another block. -/
theorem appendElement_congr {block' : Block} {name : EfiString} {offset width : Nat}
    (h : copyFromBlock block' offset width = copyFromBlock block offset width) :
    appendElement allocates block' name offset width config heap =
      appendElement allocates block name offset width config heap := by
  unfold appendElement
  rw [h]

theorem BlockName.WellFormed.numbers {size : Nat} (h : n.WellFormed size) (hsize : size < 2 ^ 64) :
    hexValue n.offset % 2 ^ 64 = hexValue n.offset ∧ hexValue n.width % 2 ^ 64 = hexValue n.width ∧
      uintn (hexValue n.offset + hexValue n.width) = hexValue n.offset + hexValue n.width := by
  have := h.inside
  exact ⟨Nat.mod_eq_of_lt (by omega), Nat.mod_eq_of_lt (by omega), Nat.mod_eq_of_lt (by omega)⟩

/-- The loop on a name, whose numbers are read. -/
theorem blockToConfigLoop_name (hn : n.WellFormed block.length) (hsize : block.length < 2 ^ 64)
    (halloc : Allocates allocates count 4) :
    blockToConfigLoop allocates configRequest block (fuel + 1) (after (n.items ++ items)) config ⟨count, live⟩ =
      match appendElement allocates block (after n.items) (hexValue n.offset) (hexValue n.width) config
        ⟨count + 4, live⟩ with
      | none => none
      | some (some result, _) => some result
      | some (none, config, heap) =>
        if items = [] then requestEnd configRequest [] config heap
        else
          match appendToMultiString allocates heap config [char '&'] with
          | none => none
          | some (config, heap) =>
            blockToConfigLoop allocates configRequest block fuel (after items) config heap := by
  obtain ⟨h1, h2⟩ := allocates_add.mp (show Allocates allocates count (2 + 2) from halloc)
  obtain ⟨hoffset, hwidth, hsum⟩ := hn.numbers hsize
  have hhead : ¬(joined amp items ≠ [] ∧ (joined amp items).head? ≠ some (char '&')) := by
    cases items with
    | nil => simp
    | cons a items => simp [amp]
  have hname : (after (n.items ++ items)).take ((after (n.items ++ items)).length - (joined amp items).length) =
      after n.items := by
    have hsplit : after (n.items ++ items) = after n.items ++ joined amp items := by
      simp [after, BlockName.items]
    rw [hsplit, List.length_append, Nat.add_sub_cancel, List.take_left]
  have hitems : after (n.items ++ items) = after ((offsetEq ++ n.offset) :: (widthEq ++ n.width) :: items) := rfl
  rw [hitems] at hname ⊢
  rw [blockToConfigLoop, show count + 4 = count + 2 + 2 from rfl]
  simp only [offset_isPrefixOf, drop_offset, read_number hn.offset.plain h1, freePool_cons, List.drop_left,
    width_isPrefixOf, drop_width, read_number hn.width.plain h2, hhead, hname, uintnOfNumber_eq, hoffset, hwidth, hsum,
    Nat.not_lt.mpr hn.inside, not_true, if_false]
  cases appendElement allocates block (after n.items) (hexValue n.offset) (hexValue n.width) config
    ⟨count + 2 + 2, live⟩ with
  | none => rfl
  | some x =>
    obtain ⟨r, config, heap⟩ := x
    cases r with
    | some r => rfl
    | none =>
      cases items with
      | nil => rfl
      | cons a items => rfl

/-- A call that succeeds has read the numbers. -/
theorem blockToConfigLoop_reads (ho : Plain amp n.offset) (hw : Plain amp n.width) {r : ToConfig}
    (hr : blockToConfigLoop allocates configRequest block (fuel + 1) (after (n.items ++ items)) config ⟨count, live⟩ =
      some r) (hs : r.status = .success) : Allocates allocates count 4 := by
  by_contra halloc
  have hitems : after (n.items ++ items) = after ((offsetEq ++ n.offset) :: (widthEq ++ n.width) :: items) := rfl
  rw [blockToConfigLoop, hitems] at hr
  by_cases h1 : Allocates allocates count 2
  · have h2 : ¬Allocates allocates (count + 2) 2 := fun h2 =>
      halloc (show Allocates allocates count (2 + 2) from allocates_add.mpr ⟨h1, h2⟩)
    obtain ⟨count', hnone⟩ := read_none live items hw h2
    simp only [offset_isPrefixOf, drop_offset, read_number ho h1, freePool_cons, List.drop_left, width_isPrefixOf,
      drop_width, hnone, not_true, if_false, configExit, Option.some.injEq] at hr
    obtain rfl := hr
    cases hs
  · obtain ⟨count', hnone⟩ := read_none live ((widthEq ++ n.width) :: items) ho h1
    simp only [offset_isPrefixOf, drop_offset, hnone, not_true, if_false, configExit, Option.some.injEq] at hr
    obtain rfl := hr
    cases hs

theorem requestEnd_string {r : ToConfig} (hr : requestEnd configRequest [] config heap = some r) :
    ∃ c, r.config = some c ∧ c.string = hiiToLower config.string := by
  unfold requestEnd at hr
  rw [if_neg (not_not_intro rfl)] at hr
  split at hr
  · cases hr
  · obtain rfl := Option.some.inj hr
    exact ⟨_, rfl, rfl⟩

theorem joined_eq_cons {items : List EfiString} (h : items ≠ []) : joined amp items = amp :: after items := by
  cases items with
  | nil => exact absurd rfl h
  | cons a items => rfl

theorem after_append {xs ys : List EfiString} (h : xs ≠ []) : after (xs ++ ys) = after xs ++ joined amp ys := by
  cases xs with
  | nil => exact absurd rfl h
  | cons a xs => simp [after]

theorem after_element (block : Block) (n : BlockName) :
    after (n.element block).items = after n.items ++ amp :: valueEq ++ valueString (n.bytes block) := by
  simp [after, Element.items, BlockName.items, BlockName.element]

/-- A call that succeeds appends the element of the first name, and ends there or goes on behind an `&`. -/
theorem blockToConfigLoop_step (hn : n.WellFormed block.length) (hsize : block.length < 2 ^ 64) {r : ToConfig}
    (hr : blockToConfigLoop allocates configRequest block (fuel + 1) (after (n.items ++ items)) config ⟨count, live⟩ =
      some r) (hs : r.status = .success) :
    Allocates allocates count 4 ∧ ∃ config' heap',
      appendElement allocates block (after n.items) (hexValue n.offset) (hexValue n.width) config ⟨count + 4, live⟩ =
        some (none, config', heap') ∧
      config'.string = config.string ++ after (n.element block).items ∧
      (items = [] ∧ requestEnd configRequest [] config' heap' = some r ∨
        items ≠ [] ∧ ∃ config'' heap'', appendToMultiString allocates heap' config' [char '&'] = some (config'', heap'') ∧
          blockToConfigLoop allocates configRequest block fuel (after items) config'' heap'' = some r) := by
  have halloc := blockToConfigLoop_reads hn.offset.plain hn.width.plain hr hs
  refine ⟨halloc, ?_⟩
  rw [blockToConfigLoop_name hn hsize halloc] at hr
  cases happend : appendElement allocates block (after n.items) (hexValue n.offset) (hexValue n.width) config
    ⟨count + 4, live⟩ with
  | none => rw [happend] at hr; cases hr
  | some x =>
    obtain ⟨result, config', heap'⟩ := x
    rw [happend] at hr
    cases result with
    | some result =>
      obtain rfl := Option.some.inj hr
      exact absurd ((appendElement_status happend).symm.trans hs) (by decide)
    | none =>
      have hstring := appendElement_string hn.inside happend
      rw [show (block.drop (hexValue n.offset)).take (hexValue n.width) = n.bytes block from rfl,
        ← after_element] at hstring
      refine ⟨config', heap', rfl, hstring, ?_⟩
      simp only at hr
      split at hr
      · rename_i hnil
        exact .inl ⟨hnil, hr⟩
      · rename_i hmore
        split at hr
        · cases hr
        · rename_i config'' heap'' hamp
          exact .inr ⟨hmore, config'', heap'', hamp, hr⟩

/-- The ranges of the names have the same bytes in both blocks. -/
def SameBytes (names : List BlockName) (block block' : Block) : Prop :=
  ∀ n ∈ names, copyFromBlock block' (hexValue n.offset) (hexValue n.width) =
    copyFromBlock block (hexValue n.offset) (hexValue n.width)

theorem items_eq_nil {f : BlockName → List EfiString} (hf : ∀ n, f n ≠ []) : names.flatMap f = [] ↔ names = [] := by
  cases names with
  | nil => exact iff_of_true rfl rfl
  | cons n names => exact iff_of_false (by simp [hf n]) (List.cons_ne_nil _ _)

/-- A call that succeeds has appended the element of each name, and does the same on another block with these bytes. -/
theorem blockToConfigLoop_success (hnames : ∀ n ∈ names, n.WellFormed block.length) (hsize : block.length < 2 ^ 64)
    {r : ToConfig} (hr : blockToConfigLoop allocates configRequest block fuel (after (names.flatMap BlockName.items))
      config heap = some r) (hs : r.status = .success) :
    (∃ c, r.config = some c ∧
      c.string = hiiToLower (config.string ++ after (names.flatMap fun n => (n.element block).items))) ∧
    ∀ block', block.length ≤ block'.length → block'.length < 2 ^ 64 → SameBytes names block block' →
      blockToConfigLoop allocates configRequest block' fuel (after (names.flatMap BlockName.items)) config heap =
        some r := by
  -- by induction on the names that are left
  induction names generalizing fuel config heap with
  | nil =>
    cases fuel with
    | zero => cases hr
    | succ fuel =>
      have hend : blockToConfigLoop allocates configRequest block (fuel + 1) [] config heap =
          requestEnd configRequest [] config heap := by
        rw [blockToConfigLoop, if_pos (by decide)]
      refine ⟨?_, fun block' _ _ _ => ?_⟩
      · obtain ⟨c, hc, hlower⟩ := requestEnd_string (hend.symm.trans hr)
        exact ⟨c, hc, by rw [hlower]; simp [after]⟩
      · rw [← hr]
        show blockToConfigLoop _ _ _ _ [] _ _ = blockToConfigLoop _ _ _ _ [] _ _
        rw [hend, blockToConfigLoop, if_pos (by decide)]
  | cons n names ih =>
    obtain ⟨hn, hrest⟩ := List.forall_mem_cons.mp hnames
    obtain ⟨count, live⟩ := heap
    rw [List.flatMap_cons] at hr
    cases fuel with
    | zero => cases hr
    | succ fuel =>
      obtain ⟨halloc, config', heap', happend, hstring, hend⟩ := blockToConfigLoop_step hn hsize hr hs
      have hother : ∀ block', block.length ≤ block'.length → block'.length < 2 ^ 64 →
          SameBytes (n :: names) block block' →
          blockToConfigLoop allocates configRequest block' (fuel + 1) (after (n.items ++ names.flatMap BlockName.items))
              config ⟨count, live⟩ = _ := fun block' hle hlt hsame => by
        have hn' : n.WellFormed block'.length := ⟨hn.offset, hn.width, hn.positive, Nat.le_trans hn.inside hle⟩
        rw [blockToConfigLoop_name hn' hlt halloc, appendElement_congr (hsame n List.mem_cons_self), happend]
      simp only [List.flatMap_cons]
      rcases hend with ⟨hnil, hlast⟩ | ⟨hmore, config'', heap'', hamp, hloop⟩
      · obtain rfl := (items_eq_nil fun _ => List.cons_ne_nil _ _).mp hnil
        obtain ⟨c, hc, hlower⟩ := requestEnd_string hlast
        refine ⟨⟨c, hc, by rw [hlower, hstring, List.flatMap_nil, List.append_nil]⟩, fun block' hle hlt hsame => ?_⟩
        rw [hother block' hle hlt hsame]
        simp only [hnil, if_true]
        exact hlast
      · obtain ⟨⟨c, hc, hlower⟩, hsameRun⟩ := ih hrest hloop
        have hne : names.flatMap (fun n => (n.element block).items) ≠ [] := fun hnil =>
          hmore ((items_eq_nil fun _ => List.cons_ne_nil _ _).mpr
            ((items_eq_nil fun _ => List.cons_ne_nil _ _).mp hnil))
        refine ⟨⟨c, hc, ?_⟩, fun block' hle hlt hsame => ?_⟩
        · have helement : (n.element block).items ≠ [] := List.cons_ne_nil _ _
          rw [hlower, appendToMultiString_string hamp, hstring, after_append helement, joined_eq_cons hne]
          simp [amp]
        · rw [hother block' hle hlt hsame]
          simp only [hmore, if_false, hamp]
          exact hsameRun block' hle hlt fun n hn => hsame n (List.mem_cons_of_mem _ hn)

end

/-! ## The call -/

/-- A `<ConfigHdr>` with digits for its values. -/
structure HeaderDigits (hdr : Header) : Prop where
  guid : Digits hdr.guid
  name : Digits hdr.name
  path : Digits hdr.path

theorem HeaderDigits.isHeader {hdr : Header} (h : HeaderDigits hdr) : IsHeader hdr.text :=
  isHeader_text h.guid h.name h.path

theorem HeaderDigits.lower {hdr : Header} (h : HeaderDigits hdr) : HeaderDigits (lowerHeader hdr) :=
  ⟨h.guid.lower, h.name.lower, h.path.lower⟩

def headerLabels (hdr : Header) : List (EfiString × EfiString) :=
  [(wide ['G', 'U', 'I', 'D'], hdr.guid), (wide ['N', 'A', 'M', 'E'], hdr.name), (wide ['P', 'A', 'T', 'H'], hdr.path)]

def Element.labels (e : Element) : List (EfiString × EfiString) :=
  [(wide ['O', 'F', 'F', 'S', 'E', 'T'], e.offset), (wide ['W', 'I', 'D', 'T', 'H'], e.width),
    (wide ['V', 'A', 'L', 'U', 'E'], e.value)]

section
variable {hdr : Header} {elements : List Element}

theorem HeaderDigits.labels (h : HeaderDigits hdr) : ∀ i ∈ headerLabels hdr, Label i.1 ∧ Digits i.2 := by
  simp only [headerLabels, List.forall_mem_cons, List.not_mem_nil, false_imp_iff, implies_true, and_true]
  exact ⟨⟨by decide, h.guid⟩, ⟨by decide, h.name⟩, ⟨by decide, h.path⟩⟩

theorem Element.labels_digits {e : Element} (ho : Digits e.offset) (hw : Digits e.width) (hv : Digits e.value) :
    ∀ i ∈ e.labels, Label i.1 ∧ Digits i.2 := by
  simp only [Element.labels, List.forall_mem_cons, List.not_mem_nil, false_imp_iff, implies_true, and_true]
  exact ⟨⟨by decide, ho⟩, ⟨by decide, hw⟩, ⟨by decide, hv⟩⟩

/-- Only digits are put in lower case. -/
theorem hiiToLower_config (hhdr : HeaderDigits hdr)
    (helements : ∀ e ∈ elements, Digits e.offset ∧ Digits e.width ∧ Digits e.value) :
    hiiToLower (after (hdr.items ++ elements.flatMap Element.items)) =
      (lowerHeader hdr).text ++ joined amp ((elements.map Element.lower).flatMap Element.items) := by
  have hlabels : hdr.items ++ elements.flatMap Element.items =
      (headerLabels hdr ++ elements.flatMap Element.labels).map labelled := by
    rw [List.map_append, List.map_flatMap]
    rfl
  have hlower : (lowerHeader hdr).items ++ (elements.map Element.lower).flatMap Element.items =
      (headerLabels hdr ++ elements.flatMap Element.labels).map fun i => labelled (i.1, lowerDigits i.2) := by
    rw [List.map_append, List.map_flatMap, List.flatMap_map]
    rfl
  have hheader : (lowerHeader hdr).items ≠ [] := List.cons_ne_nil _ _
  rw [hlabels, hiiToLower_items, ← hlower, after_append hheader]
  · rfl
  · intro i hi
    rcases List.mem_append.mp hi with hi | hi
    · exact hhdr.labels i hi
    · obtain ⟨e, he, hi⟩ := List.mem_flatMap.mp hi
      obtain ⟨ho, hw, hv⟩ := helements e he
      exact Element.labels_digits ho hw hv i hi

end

/-- The string that a call writes when it succeeds. -/
def written (hdr : Header) (names : List BlockName) (block : Block) : EfiString :=
  (lowerHeader hdr).text ++ joined amp ((names.map fun n => (n.element block).lower).flatMap Element.items)

section
variable {allocates : Nat → Bool} {hdr : Header} {names : List BlockName} {block : Block}

theorem element_digits {n : BlockName} {size : Nat} (hn : n.WellFormed size) (block : Block) :
    Digits (n.element block).offset ∧ Digits (n.element block).width ∧ Digits (n.element block).value :=
  ⟨hn.offset, hn.width, (valueString_spec _).2.1⟩

/-- The call is a loop over the names, from the header and its `&` on. -/
theorem hiiBlockToConfig_loop {pre : EfiString} {items : List EfiString} (hpre : IsHeader pre) (hne : items ≠ []) :
    hiiBlockToConfig allocates (pre ++ joined amp items) block =
      match allocateZeroPool allocates ⟨0, []⟩ with
      | (none, heap) => some ⟨.outOfResources, none, none, heap⟩
      | (some buffer, heap) =>
        if 1024 < 2 * (pre ++ [amp]).length then none
        else
          blockToConfigLoop allocates (pre ++ joined amp items) block ((pre ++ joined amp items).length + 1) (after items)
            ⟨buffer, 1024, pre ++ [amp]⟩ heap := by
  have hscan : scanConfigHdr (pre ++ joined amp items) = .element (after items) := by
    rw [hpre.scan (follows_joined _)]
    cases items with
    | nil => exact absurd rfl hne
    | cons a items => rfl
  have htake : (pre ++ joined amp items).take ((pre ++ joined amp items).length - (after items).length) =
      pre ++ [amp] := by
    rw [joined_eq_cons hne, List.append_cons, List.length_append, Nat.add_sub_cancel, List.take_left]
  unfold hiiBlockToConfig
  cases allocateZeroPool allocates ⟨0, []⟩ with
  | mk buffer heap =>
    cases buffer with
    | none => rfl
    | some buffer => simp only [hscan, htake]

/-- Without names there is no `&` behind the header. -/
theorem hiiBlockToConfig_header {pre : EfiString} (hpre : IsHeader pre) {r : ToConfig}
    (hr : hiiBlockToConfig allocates (pre ++ joined amp []) block = some r) : r.status ≠ .success := by
  have hscan : scanConfigHdr (pre ++ joined amp []) = .noPath := hpre.scan (follows_joined _)
  unfold hiiBlockToConfig at hr
  rw [hscan] at hr
  cases hheap : allocateZeroPool allocates ⟨0, []⟩ with
  | mk buffer heap =>
    rw [hheap] at hr
    intro hs
    cases buffer with
    | none =>
      obtain rfl := Option.some.inj hr
      cases hs
    | some buffer =>
      obtain rfl := Option.some.inj hr
      cases hs

theorem hiiBlockToConfig_success (hhdr : HeaderDigits hdr) (hnames : ∀ n ∈ names, n.WellFormed block.length)
    (hsize : block.length < 2 ^ 64) {r : ToConfig} (hr : hiiBlockToConfig allocates (request hdr names) block = some r)
    (hs : r.status = .success) :
    names ≠ [] ∧ (∃ c, r.config = some c ∧ c.string = written hdr names block) ∧
      ∀ block', block.length ≤ block'.length → block'.length < 2 ^ 64 → SameBytes names block block' →
        hiiBlockToConfig allocates (request hdr names) block' = some r := by
  cases names with
  | nil => exact absurd hs (hiiBlockToConfig_header hhdr.isHeader hr)
  | cons n names =>
    have hne : (n :: names).flatMap BlockName.items ≠ [] := List.cons_ne_nil _ _
    rw [request, hiiBlockToConfig_loop hhdr.isHeader hne] at hr
    cases hheap : allocateZeroPool allocates ⟨0, []⟩ with
    | mk buffer heap =>
      rw [hheap] at hr
      cases buffer with
      | none =>
        obtain rfl := Option.some.inj hr
        cases hs
      | some buffer =>
        simp only at hr
        split at hr
        · cases hr
        · rename_i hroom
          obtain ⟨⟨c, hc, hlower⟩, hsame⟩ := blockToConfigLoop_success hnames hsize hr hs
          refine ⟨List.cons_ne_nil _ _, ⟨c, hc, ?_⟩, fun block' hle hlt hbytes => ?_⟩
          · have helements : (n :: names).flatMap (fun n => (n.element block).items) ≠ [] := List.cons_ne_nil _ _
            have hitems : hdr.items ≠ [] := List.cons_ne_nil _ _
            have hfull : hdr.text ++ [amp] ++ after ((n :: names).flatMap fun n => (n.element block).items) =
                after (hdr.items ++ ((n :: names).map (BlockName.element block)).flatMap Element.items) := by
              rw [List.flatMap_map, after_append hitems, joined_eq_cons helements]
              simp [Header.text, after]
            rw [hlower, hfull, hiiToLower_config hhdr, List.map_map]
            · rfl
            · intro e he
              obtain ⟨n', hn', rfl⟩ := List.mem_map.mp he
              exact element_digits (hnames n' hn') block
          · rw [request, hiiBlockToConfig_loop hhdr.isHeader hne, hheap]
            simp only [hroom, if_false]
            exact hsame block' hle hlt hbytes

end

/-! ## What is read back -/

section
variable {allocates : Nat → Bool} {hdr : Header} {names : List BlockName} {n : BlockName} {block block' : Block} {i : Nat}

/-- What is written for a name. -/
def BlockName.written (block : Block) (n : BlockName) : Element := (n.element block).lower

theorem written_numbers (hn : n.WellFormed block.length) (hsize : block.length < 2 ^ 64) :
    (n.written block).start = hexValue n.offset ∧ (n.written block).size = hexValue n.width := by
  obtain ⟨hoffset, hwidth, -⟩ := hn.numbers hsize
  refine ⟨?_, ?_⟩
  · rw [← hoffset, ← hexValue_lowerDigits]
    rfl
  · rw [← hwidth, ← hexValue_lowerDigits]
    rfl

theorem written_covers (hn : n.WellFormed block.length) (hsize : block.length < 2 ^ 64) :
    (n.written block).Covers i ↔ n.Covers i := by
  obtain ⟨hstart, hwidth⟩ := written_numbers hn hsize
  unfold Element.Covers BlockName.Covers Element.limit
  rw [hstart, hwidth]

theorem BlockName.WellFormed.bytes_length (hn : n.WellFormed block.length) : (n.bytes block).length = hexValue n.width := by
  have := hn.inside
  rw [BlockName.bytes, List.length_take, List.length_drop]
  omega

theorem written_fits (hn : n.WellFormed block.length) (hsize : block.length < 2 ^ 64)
    (hle : block.length ≤ block'.length) : (n.written block).Fits block'.length := by
  obtain ⟨hstart, hwidth⟩ := written_numbers hn hsize
  have hlength : (n.written block).value.length = 2 * hexValue n.width := by
    rw [← hn.bytes_length, ← (valueString_spec (n.bytes block)).1]
    exact lowerDigits_length _
  have := hn.inside
  refine ⟨?_, ?_⟩
  · rw [Element.limit, hstart, hwidth]
    omega
  · rw [hwidth, hlength]
    omega

theorem written_wellFormed (hn : n.WellFormed block.length) : (n.written block).WellFormed :=
  ⟨hn.offset.lower.plain, hn.width.lower.plain, (valueString_spec _).2.1.lower.plain⟩

theorem BlockName.bytes_getD (block : Block) (h : n.Covers i) :
    (n.bytes block).getD (i - hexValue n.offset) 0 = block.getD i 0 := by
  obtain ⟨h1, h2⟩ := h
  rw [BlockName.bytes, List.getD_eq_getElem?_getD, List.getElem?_take_of_lt (by omega), List.getElem?_drop,
    Nat.add_sub_cancel' h1, List.getD_eq_getElem?_getD]

/-- The digits of a byte of the range are the byte of the block. -/
theorem written_byte (hn : n.WellFormed block.length) (hsize : block.length < 2 ^ 64) (h : n.Covers i) :
    hexValue (n.written block).value / 256 ^ (i - (n.written block).start) % 256 = (block.getD i 0).toNat := by
  have hvalue : hexValue (n.written block).value = fromLE (n.bytes block) :=
    (hexValue_lowerDigits _).trans (valueString_spec _).2.2
  rw [hvalue, (written_numbers hn hsize).1, ← fromLE_getD, BlockName.bytes_getD block h]

theorem passes_of_fits {elements : List Element} {size : Nat} (h : ∀ e ∈ elements, e.Fits size) (count : Nat) :
    Passes allocates size count elements := by
  induction elements generalizing count with
  | nil => trivial
  | cons e elements ih =>
    exact fun _ => ⟨h e List.mem_cons_self, ih (fun f hf => h f (List.mem_cons_of_mem _ hf)) _⟩

theorem sameBytes_of_covers (hnames : ∀ n ∈ names, n.WellFormed block.length) (hle : block.length ≤ block'.length)
    (h : ∀ n ∈ names, ∀ i, n.Covers i → block'.getD i 0 = block.getD i 0) : SameBytes names block block' := by
  intro n hn
  have hinside := (hnames n hn).inside
  rw [copyFromBlock_eq (Nat.le_trans hinside hle), copyFromBlock_eq hinside]
  refine congrArg some (List.ext_getElem ?_ fun j h1 h2 => ?_)
  · simp only [List.length_take, List.length_drop]
    omega
  · rw [List.length_take, List.length_drop] at h2
    have hbyte := h n hn (hexValue n.offset + j) ⟨by omega, by omega⟩
    rw [List.getD_eq_getElem _ _ (by omega), List.getD_eq_getElem _ _ (by omega)] at hbyte
    simpa using hbyte

/-- `t` has the ranges of `block`, and is `block'` elsewhere; its string is that of `block`. -/
structure ReadsBack (hdr : Header) (names : List BlockName) (block block' : Block) (t : ToBlock) : Prop where
  status : t.status = .success
  length : t.block.length = block'.length
  bytes : ∀ i < block'.length, t.block.getD i 0 = if ∃ n ∈ names, n.Covers i then block.getD i 0 else block'.getD i 0
  /-- With the same allocations the call does the same. -/
  again : ∀ allocates r, hiiBlockToConfig allocates (request hdr names) block = some r → r.status = .success →
    hiiBlockToConfig allocates (request hdr names) t.block = some r
  config : ∀ allocates r, hiiBlockToConfig allocates (request hdr names) t.block = some r → r.status = .success →
    ∃ c, r.config = some c ∧ c.string = written hdr names block

theorem written_congr (hnames : ∀ n ∈ names, n.WellFormed block.length) (hle : block.length ≤ block'.length)
    (h : SameBytes names block block') : written hdr names block' = written hdr names block := by
  have hmap : names.map (fun n => (n.element block').lower) = names.map fun n => (n.element block).lower := by
    refine List.map_congr_left fun n hn => ?_
    have hinside := (hnames n hn).inside
    have hbytes := h n hn
    rw [copyFromBlock_eq (Nat.le_trans hinside hle), copyFromBlock_eq hinside, Option.some.injEq] at hbytes
    rw [BlockName.element, BlockName.bytes, hbytes]
    rfl
  rw [written, hmap, written]

theorem hiiConfigToBlock_written (hhdr : HeaderDigits hdr) (hnames : ∀ n ∈ names, n.WellFormed block.length)
    (hne : names ≠ []) (hle : block.length ≤ block'.length) (hsize : block'.length < 2 ^ 64)
    (halloc : Allocates allocates 0 (6 * names.length)) :
    ∃ t, hiiConfigToBlock allocates (written hdr names block) block' = some t ∧ ReadsBack hdr names block block' t := by
  have hsize' : block.length < 2 ^ 64 := Nat.lt_of_le_of_lt hle hsize
  have hfits : ∀ e ∈ names.map (BlockName.written block), e.Fits block'.length := by
    intro e he
    obtain ⟨n, hn, rfl⟩ := List.mem_map.mp he
    exact written_fits (hnames n hn) hsize' hle
  have hwf : ∀ e ∈ names.map (BlockName.written block), e.WellFormed := by
    intro e he
    obtain ⟨n, hn, rfl⟩ := List.mem_map.mp he
    exact written_wellFormed (hnames n hn)
  obtain ⟨hlength, hbytes⟩ := written_all hfits
  have hblock : ∀ i < block'.length, ((names.map (BlockName.written block)).foldl Element.write block').getD i 0 =
      if ∃ n ∈ names, n.Covers i then block.getD i 0 else block'.getD i 0 := by
    intro i hi
    have hbyte := hbytes i hi
    rw [← UInt8.toNat_inj, hbyte]
    cases hfind : (names.map (BlockName.written block)).reverse.find? fun e => decide (e.Covers i) with
    | some e =>
      obtain ⟨n, hn, rfl⟩ := List.mem_map.mp (List.mem_reverse.mp (List.mem_of_find?_eq_some hfind))
      have hfound := List.find?_some hfind
      have hcovers : n.Covers i := (written_covers (hnames n hn) hsize').mp (of_decide_eq_true hfound)
      rw [if_pos ⟨n, hn, hcovers⟩]
      exact written_byte (hnames n hn) hsize' hcovers
    | none =>
      rw [if_neg]
      rintro ⟨n, hn, hcovers⟩
      exact List.find?_eq_none.mp hfind _ (List.mem_reverse.mpr (List.mem_map_of_mem hn))
        (decide_eq_true ((written_covers (hnames n hn) hsize').mpr hcovers))
  have hsame : SameBytes names block ((names.map (BlockName.written block)).foldl Element.write block') := by
    refine sameBytes_of_covers hnames (by rw [hlength]; exact hle) fun n hn i hi => ?_
    have := (hnames n hn).inside
    rw [hblock i (Nat.lt_of_lt_of_le hi.2 (by omega)), if_pos ⟨n, hn, hi⟩]
  obtain ⟨init, e, hsplit⟩ : ∃ init e, names.map (BlockName.written block) = init ++ [e] := by
    rcases List.eq_nil_or_concat (names.map (BlockName.written block)) with h | ⟨init, e, h⟩
    · exact absurd (List.map_eq_nil_iff.mp h) hne
    · exact ⟨init, e, by rw [h, List.concat_eq_append]⟩
  have halloc' : Allocates allocates 0 (6 * (init ++ [e]).length) := by
    rw [← hsplit, List.length_map]
    exact halloc
  have hrun := hiiConfigToBlock_all hhdr.lower.isHeader (hsplit ▸ hwf) hsize (hsplit ▸ hfits) halloc'
  rw [← hsplit] at hrun
  have hle' : block.length ≤ ((names.map (BlockName.written block)).foldl Element.write block').length := by
    rw [hlength]
    exact hle
  have hlt' : ((names.map (BlockName.written block)).foldl Element.write block').length < 2 ^ 64 := by
    rw [hlength]
    exact hsize
  refine ⟨_, hrun, rfl, hlength, hblock, fun allocates r hr hs => ?_, fun allocates r hr hs => ?_⟩
  · exact (hiiBlockToConfig_success hhdr hnames hsize' hr hs).2.2 _ hle' hlt' hsame
  · have hnames' : ∀ n ∈ names,
        n.WellFormed ((names.map (BlockName.written block)).foldl Element.write block').length := fun n hn =>
      ⟨(hnames n hn).offset, (hnames n hn).width, (hnames n hn).positive, Nat.le_trans (hnames n hn).inside hle'⟩
    obtain ⟨c, hc, hstring⟩ := (hiiBlockToConfig_success hhdr hnames' hlt' hr hs).2.1
    exact ⟨c, hc, hstring.trans (written_congr hnames hle' hsame)⟩

/-- A block that is written as a string is read back from it, if the allocations succeed. -/
theorem blockToConfig_round_trip (hhdr : HeaderDigits hdr) (hnames : ∀ n ∈ names, n.WellFormed block.length)
    (hle : block.length ≤ block'.length) (hsize : block'.length < 2 ^ 64) {r : ToConfig}
    (hr : hiiBlockToConfig allocates (request hdr names) block = some r) (hs : r.status = .success) :
    ∃ config, r.config = some config ∧ ∀ allocates',
      ∃ t, hiiConfigToBlock allocates' config.string block' = some t ∧
        (Allocates allocates' 0 (6 * names.length) → ReadsBack hdr names block block' t) ∧
        (¬Allocates allocates' 0 (6 * names.length) → t.status = .outOfResources) := by
  have hsize' : block.length < 2 ^ 64 := Nat.lt_of_le_of_lt hle hsize
  obtain ⟨hne, ⟨config, hconfig, hstring⟩, -⟩ := hiiBlockToConfig_success hhdr hnames hsize' hr hs
  refine ⟨config, hconfig, fun allocates' => ?_⟩
  rw [hstring]
  by_cases halloc : Allocates allocates' 0 (6 * names.length)
  · obtain ⟨t, ht, hback⟩ := hiiConfigToBlock_written hhdr hnames hne hle hsize halloc
    exact ⟨t, ht, fun _ => hback, fun h => absurd halloc h⟩
  · have hfits : ∀ e ∈ names.map (BlockName.written block), e.Fits block'.length := by
      intro e he
      obtain ⟨n, hn, rfl⟩ := List.mem_map.mp he
      exact written_fits (hnames n hn) hsize' hle
    have hwf : ∀ e ∈ names.map (BlockName.written block), e.WellFormed := by
      intro e he
      obtain ⟨n, hn, rfl⟩ := List.mem_map.mp he
      exact written_wellFormed (hnames n hn)
    have hnot : ¬(Allocates allocates' 0 (6 * (names.map (BlockName.written block)).length) ∧
        ∀ e ∈ names.map (BlockName.written block), e.Fits block'.length) := by
      rw [List.length_map]
      exact fun h => halloc h.1
    rcases hiiConfigToBlock_stops [] hhdr.lower.isHeader hwf hsize hnot with ⟨-, t, ht, hstatus, -⟩ | ⟨hpasses, -⟩
    · rw [List.append_nil] at ht
      exact ⟨t, ht, fun h => absurd h halloc, fun _ => hstatus⟩
    · exact absurd (passes_of_fits hfits 0) hpasses

end

/-! ## Samples -/

def sampleHeader : Header := ⟨wide ['0', '1'], wide ['6', '1'], wide ['F', 'f']⟩

theorem sampleHeader_digits : HeaderDigits sampleHeader := ⟨by decide, by decide, by decide⟩

/-- The last two of the ranges overlap. -/
def sampleNames : List BlockName :=
  [⟨wide ['0', 'A'], wide ['2']⟩, ⟨wide ['3'], wide ['0', '0', '2']⟩, ⟨wide ['4'], wide ['3']⟩]

theorem sampleNames_wellFormed : ∀ n ∈ sampleNames, n.WellFormed 12 := by
  simp only [sampleNames, List.forall_mem_cons, List.not_mem_nil, false_imp_iff, implies_true, and_true]
  exact ⟨⟨by decide, by decide, by decide, by decide⟩, ⟨by decide, by decide, by decide, by decide⟩,
    ⟨by decide, by decide, by decide, by decide⟩⟩

def sampleBlock : Block := [1, 2, 3, 4, 5, 6, 7, 8, 9, 10, 0xbc, 12]

theorem blockToConfig_round_trip_sample :
    ∃ r config t, hiiBlockToConfig (fun _ => true) (request sampleHeader sampleNames) sampleBlock = some r ∧
      r.config = some config ∧ hiiConfigToBlock (fun _ => true) config.string (List.replicate 14 0xee) = some t ∧
      ReadsBack sampleHeader sampleNames sampleBlock (List.replicate 14 0xee) t := by
  have hrun : (hiiBlockToConfig (fun _ => true) (request sampleHeader sampleNames) sampleBlock).map ToConfig.status =
      some .success := by
    decide +kernel
  obtain ⟨r, hr, hs⟩ := Option.map_eq_some_iff.mp hrun
  obtain ⟨config, hconfig, hall⟩ := @blockToConfig_round_trip _ _ _ _ (List.replicate 14 0xee) sampleHeader_digits
    sampleNames_wellFormed (by decide) (by decide) _ hr hs
  obtain ⟨t, ht, hback, -⟩ := hall fun _ => true
  exact ⟨r, config, t, hr, hconfig, ht, hback fun _ _ => rfl⟩

/-- The string is written, and then no memory is left to read it. -/
theorem config_not_read_back :
    (∀ n ∈ sampleNames, n.WellFormed sampleBlock.length) ∧
      ∃ r config, hiiBlockToConfig (fun _ => true) (request sampleHeader sampleNames) sampleBlock = some r ∧
        r.status = .success ∧ r.config = some config ∧
        ∀ t, hiiConfigToBlock (fun _ => false) config.string sampleBlock = some t → t.status ≠ .success := by
  have hrun : (hiiBlockToConfig (fun _ => true) (request sampleHeader sampleNames) sampleBlock).map
      (fun r => (r.status, r.config.map fun c =>
        (hiiConfigToBlock (fun _ => false) c.string sampleBlock).map ToBlock.status)) =
      some (.success, some (some .outOfResources)) := by
    decide +kernel
  obtain ⟨r, hr, hs⟩ := Option.map_eq_some_iff.mp hrun
  obtain ⟨hstatus, hconfig⟩ := Prod.mk.inj hs
  obtain ⟨config, hc, hread⟩ := Option.map_eq_some_iff.mp hconfig
  refine ⟨sampleNames_wellFormed, r, config, hr, hstatus, hc, fun t ht hsuccess => ?_⟩
  rw [ht, Option.map_some, hsuccess] at hread
  cases hread

end Udk.Hii.Routing
