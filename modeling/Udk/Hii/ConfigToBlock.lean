import Udk.Hii.MergeSpec
import Udk.Hii.Routing

/-! # A block from a configuration string

What `HiiConfigToBlock` does with one element, and from it with all elements of a string.
-/

namespace Udk.Hii.Routing

open Separated Merge

/-- A `<BlockConfig>`, with the digits of its numbers. -/
structure Element where
  offset : EfiString
  width : EfiString
  value : EfiString
  deriving DecidableEq

namespace Element

def items (e : Element) : List EfiString := [offsetEq ++ e.offset, widthEq ++ e.width, valueEq ++ e.value]

structure WellFormed (e : Element) : Prop where
  offset : Plain amp e.offset
  width : Plain amp e.width
  value : Plain amp e.value

/-- The numbers as the code has them. -/
def start (e : Element) : Nat := hexValue e.offset % 2 ^ 64

def size (e : Element) : Nat := hexValue e.width % 2 ^ 64

def limit (e : Element) : Nat := e.start + e.size

/-- The element is inside of a block, and its buffer has all of its bytes. -/
structure Fits (n : Nat) (e : Element) : Prop where
  inside : e.limit ≤ n
  filled : e.size ≤ (e.value.length + 2) / 2

def write (block : Block) (e : Element) : Block :=
  block.take e.start ++ (valueBytes e.value).take e.size ++ block.drop e.limit

end Element

/-- The items behind the `&` of the first one. -/
def after (items : List EfiString) : EfiString := (joined amp items).tail

theorem after_cons (a : EfiString) (items : List EfiString) : after (a :: items) = a ++ joined amp items := rfl

/-- What is read ahead of an item is in it. -/
theorem isPrefixOf_after {p a : EfiString} {items : List EfiString} (hp : Plain amp p) :
    p.isPrefixOf (after (a :: items)) = true ↔ p <+: a := by
  rw [List.isPrefixOf_iff_prefix, after_cons, prefix_last hp (follows_joined items)]

/-- Calls of `AllocateZeroPool` succeed. -/
def Allocates (allocates : Nat → Bool) (count n : Nat) : Prop := ∀ k < n, allocates (count + k) = true

theorem Allocates.mono {allocates : Nat → Bool} {count n m : Nat} (h : Allocates allocates count n) (hle : m ≤ n) :
    Allocates allocates count m := fun k hk => h k (Nat.lt_of_lt_of_le hk hle)

theorem allocates_add {allocates : Nat → Bool} {count n m : Nat} :
    Allocates allocates count (n + m) ↔ Allocates allocates count n ∧ Allocates allocates (count + n) m := by
  constructor
  · refine fun h => ⟨h.mono (Nat.le_add_right _ _), fun k hk => ?_⟩
    rw [Nat.add_assoc]
    exact h _ (Nat.add_lt_add_left hk _)
  · rintro ⟨h1, h2⟩ k hk
    by_cases hlt : k < n
    · exact h1 k hlt
    · have h := h2 (k - n) (by omega)
      rwa [Nat.add_assoc, Nat.add_sub_cancel' (Nat.le_of_not_lt hlt)] at h

theorem allocates_two {allocates : Nat → Bool} {count : Nat} :
    Allocates allocates count 2 ↔ allocates count = true ∧ allocates (count + 1) = true := by
  refine ⟨fun h => ⟨h 0 (by decide), h 1 (by decide)⟩, fun h k hk => ?_⟩
  obtain rfl | rfl : k = 0 ∨ k = 1 := by omega
  · exact h.1
  · exact h.2

theorem freePool_cons (count buffer : Nat) (live : List Nat) :
    freePool ⟨count, buffer :: live⟩ buffer = ⟨count, live⟩ := by
  simp [freePool]

/-! ## One element -/

theorem plain_keys : Plain amp offsetEq ∧ Plain amp widthEq ∧ Plain amp valueEq ∧ Plain amp guidEq :=
  ⟨show amp ∉ _ by decide, show amp ∉ _ by decide, show amp ∉ _ by decide, show amp ∉ _ by decide⟩

theorem isPrefixOf_joined {p : EfiString} {items : List EfiString} (hp : Plain amp p) :
    (char '&' :: p).isPrefixOf (joined amp items) = true ↔ ∃ a ∈ items.head?, p <+: a := by
  rw [List.isPrefixOf_iff_prefix]
  cases items with
  | nil => simp
  | cons a items =>
    rw [joined_cons, List.cons_prefix_cons, prefix_last hp (follows_joined items)]
    simp [amp]

/-- The loop reads a number and puts its buffer back. -/
theorem read_number {allocates : Nat → Bool} {count : Nat} {live : List Nat} {digits : EfiString}
    {items : List EfiString} (hdigits : Plain amp digits) (halloc : Allocates allocates count 2) :
    getValueOfNumber allocates ⟨count, live⟩ (digits ++ joined amp items) =
      some (some (count + 1, valueBytes digits), digits.length, ⟨count + 2, (count + 1) :: live⟩) :=
  getValueOfNumber_eq hdigits (follows_joined items) (allocates_two.mp halloc)

theorem read_none {allocates : Nat → Bool} {count : Nat} (live : List Nat) {digits : EfiString}
    (items : List EfiString) (hdigits : Plain amp digits) (halloc : ¬Allocates allocates count 2) :
    ∃ count', getValueOfNumber allocates ⟨count, live⟩ (digits ++ joined amp items) =
      some (none, digits.length, ⟨count', live⟩) :=
  getValueOfNumber_none hdigits (follows_joined items) fun h => halloc (allocates_two.mpr h)

section

variable {allocates : Nat → Bool} {configResp : EfiString} {bufferSize fuel blockSize count : Nat} {block : Block}
  {live : List Nat} {items : List EfiString} {o w v : EfiString}

/-- The loop ends at the first item that is no offset. -/
theorem configToBlockLoop_end {a : EfiString} {heap : Heap} (ha : ¬offsetEq <+: a) :
    configToBlockLoop allocates configResp bufferSize (fuel + 1) (after (a :: items)) block blockSize heap =
      some (configEnd configResp (after (a :: items)) block blockSize heap) := by
  unfold configToBlockLoop
  rw [if_pos]
  exact fun h => ha ((isPrefixOf_after plain_keys.1).mp h)

theorem offset_isPrefixOf : offsetEq.isPrefixOf (after ((offsetEq ++ o) :: items)) = true :=
  (isPrefixOf_after plain_keys.1).mpr (List.prefix_append _ _)

theorem width_isPrefixOf : (char '&' :: widthEq).isPrefixOf (joined amp ((widthEq ++ w) :: items)) = true :=
  (isPrefixOf_joined plain_keys.2.1).mpr ⟨_, rfl, List.prefix_append _ _⟩

theorem value_isPrefixOf : (char '&' :: valueEq).isPrefixOf (joined amp ((valueEq ++ v) :: items)) = true :=
  (isPrefixOf_joined plain_keys.2.2.1).mpr ⟨_, rfl, List.prefix_append _ _⟩

theorem drop_offset : (after ((offsetEq ++ o) :: items)).drop 7 = o ++ joined amp items := rfl

theorem drop_width : (joined amp ((widthEq ++ w) :: items)).drop 7 = w ++ joined amp items := rfl

theorem drop_value : (joined amp ((valueEq ++ v) :: items)).drop 7 = v ++ joined amp items := rfl

theorem configToBlockLoop_noWidth (ho : Plain amp o) (hitems : ∀ a ∈ items.head?, ¬widthEq <+: a)
    (halloc : Allocates allocates count 2) :
    configToBlockLoop allocates configResp bufferSize (fuel + 1) (after ((offsetEq ++ o) :: items)) block blockSize
        ⟨count, live⟩ =
      some ⟨.invalidParameter, some (configResp.length - (after ((offsetEq ++ o) :: items)).length - 1), block, blockSize,
        ⟨count + 2, live⟩⟩ := by
  have hwidth : ¬(char '&' :: widthEq).isPrefixOf (joined amp items) = true := fun h =>
    let ⟨a, ha, hp⟩ := (isPrefixOf_joined plain_keys.2.1).mp h
    hitems a ha hp
  have hindex : configResp.length - (joined amp items).length - o.length - 7 - 1 =
      configResp.length - (after ((offsetEq ++ o) :: items)).length - 1 := by
    have : (after ((offsetEq ++ o) :: items)).length = 7 + o.length + (joined amp items).length := by
      simp [after_cons, offsetEq, wide]
      omega
    omega
  unfold configToBlockLoop
  simp only [offset_isPrefixOf, drop_offset, read_number ho halloc, freePool_cons, List.drop_left, hwidth, hindex,
    not_true, if_false, Bool.false_eq_true, not_false_eq_true, if_true]

theorem configToBlockLoop_noValue (ho : Plain amp o) (hw : Plain amp w) (hitems : ∀ a ∈ items.head?, ¬valueEq <+: a)
    (halloc : Allocates allocates count 4) :
    configToBlockLoop allocates configResp bufferSize (fuel + 1) (after ((offsetEq ++ o) :: (widthEq ++ w) :: items))
        block blockSize ⟨count, live⟩ =
      some ⟨.invalidParameter, some (configResp.length - (joined amp ((widthEq ++ w) :: items)).length), block, blockSize,
        ⟨count + 4, live⟩⟩ := by
  have hvalue : ¬(char '&' :: valueEq).isPrefixOf (joined amp items) = true := fun h =>
    let ⟨a, ha, hp⟩ := (isPrefixOf_joined plain_keys.2.2.1).mp h
    hitems a ha hp
  have hindex : configResp.length - (joined amp items).length - w.length - 7 =
      configResp.length - (joined amp ((widthEq ++ w) :: items)).length := by
    have : (joined amp ((widthEq ++ w) :: items)).length = 7 + w.length + (joined amp items).length := by
      simp [widthEq, wide]
      omega
    omega
  obtain ⟨h1, h2⟩ := allocates_add.mp (show Allocates allocates count (2 + 2) from halloc)
  unfold configToBlockLoop
  simp only [offset_isPrefixOf, drop_offset, read_number ho h1, freePool_cons, List.drop_left, width_isPrefixOf,
    drop_width, read_number hw h2, hvalue, hindex, not_true, if_false, Bool.false_eq_true, not_false_eq_true, if_true]

/-- An element is copied, and the loop goes on behind the next `&`. -/
theorem configToBlockLoop_element {e : Element} (he : e.WellFormed) (halloc : Allocates allocates count 6) :
    configToBlockLoop allocates configResp bufferSize (fuel + 1) (after (e.items ++ items)) block blockSize ⟨count, live⟩ =
      if bufferSize < uintn e.limit then
        some ⟨.deviceError, none, block, blockSize, ⟨count + 6, (count + 5) :: live⟩⟩
      else
        match copyToBlock block e.start (valueBytes e.value) e.size with
        | none => none
        | some block =>
          if items = [] then
            some (configEnd configResp [] block (uintn (uintn e.limit + (2 ^ 64 - 1))) ⟨count + 6, live⟩)
          else
            configToBlockLoop allocates configResp bufferSize fuel (after items) block
              (uintn (uintn e.limit + (2 ^ 64 - 1))) ⟨count + 6, live⟩ := by
  obtain ⟨h1, h2⟩ := allocates_add.mp (show Allocates allocates count (2 + 4) from halloc)
  obtain ⟨h2, h3⟩ := allocates_add.mp (show Allocates allocates (count + 2) (2 + 2) from h2)
  have hhead : ¬(joined amp items ≠ [] ∧ (joined amp items).head? ≠ some (char '&')) := by
    cases items with
    | nil => simp
    | cons a items => simp [amp]
  rw [configToBlockLoop]
  simp only [Element.items, List.cons_append, List.nil_append, offset_isPrefixOf, drop_offset, read_number he.offset h1,
    freePool_cons, List.drop_left, width_isPrefixOf, drop_width, read_number he.width h2, value_isPrefixOf, drop_value,
    read_number he.value h3, hhead, uintnOfNumber_eq, not_true, if_false]
  rw [show hexValue e.offset % 2 ^ 64 + hexValue e.width % 2 ^ 64 = e.limit from rfl]
  split
  · rfl
  · rw [show hexValue e.offset % 2 ^ 64 = e.start from rfl, show hexValue e.width % 2 ^ 64 = e.size from rfl]
    cases copyToBlock block e.start (valueBytes e.value) e.size with
    | none => rfl
    | some block =>
      cases items with
      | nil => rfl
      | cons a items => rfl

/-- Nothing is left when a number is not read. -/
theorem configToBlockLoop_out (ho : Plain amp o)
    (h : ¬Allocates allocates count 2 ∨ ∃ w rest, items = (widthEq ++ w) :: rest ∧ Plain amp w ∧
      (¬Allocates allocates count 4 ∨ ∃ v rest', rest = (valueEq ++ v) :: rest' ∧ Plain amp v ∧
        ¬Allocates allocates count 6)) :
    ∃ count', configToBlockLoop allocates configResp bufferSize (fuel + 1) (after ((offsetEq ++ o) :: items)) block
        blockSize ⟨count, live⟩ = some ⟨.outOfResources, some 0, block, blockSize, ⟨count', live⟩⟩ := by
  by_cases h1 : Allocates allocates count 2
  · obtain ⟨w, rest, rfl, hw, h⟩ := h.resolve_left (not_not_intro h1)
    by_cases h2 : Allocates allocates (count + 2) 2
    · obtain ⟨v, rest', rfl, hv, h⟩ := h.resolve_left
        (not_not_intro (show Allocates allocates count (2 + 2) from allocates_add.mpr ⟨h1, h2⟩))
      have h3 : ¬Allocates allocates (count + 4) 2 := fun h3 =>
        h (show Allocates allocates count (2 + (2 + 2)) from allocates_add.mpr ⟨h1, allocates_add.mpr ⟨h2, h3⟩⟩)
      obtain ⟨count', hnone⟩ := read_none live rest' hv h3
      refine ⟨count', ?_⟩
      unfold configToBlockLoop
      simp only [offset_isPrefixOf, drop_offset, read_number ho h1, freePool_cons, List.drop_left, width_isPrefixOf,
        drop_width, read_number hw h2, value_isPrefixOf, drop_value, hnone, not_true, if_false]
    · obtain ⟨count', hnone⟩ := read_none live rest hw h2
      refine ⟨count', ?_⟩
      unfold configToBlockLoop
      simp only [offset_isPrefixOf, drop_offset, read_number ho h1, freePool_cons, List.drop_left, width_isPrefixOf,
        drop_width, hnone, not_true, if_false]
  · obtain ⟨count', hnone⟩ := read_none live items ho h1
    refine ⟨count', ?_⟩
    unfold configToBlockLoop
    simp only [offset_isPrefixOf, drop_offset, hnone, not_true, if_false]

end

/-! ## What an element writes -/

theorem uintn_eq {n : Nat} (h : n < 2 ^ 64) : uintn n = n := Nat.mod_eq_of_lt h

theorem Element.Fits.copy {e : Element} {block : Block} (h : e.Fits block.length) :
    copyToBlock block e.start (valueBytes e.value) e.size = some (e.write block) := by
  have hfilled := h.filled
  have hinside := h.inside
  unfold copyToBlock
  split
  · rename_i h0
    rw [Element.write, Element.limit, h0, List.take_zero, List.append_nil, Nat.add_zero, List.take_append_drop]
  · rw [if_neg]
    · rfl
    · rw [valueBytes_length]
      unfold Element.limit at hinside
      omega

/-- The block is too small, or a buffer is left. -/
theorem Element.stops {e : Element} {block : Block} (h : ¬e.Fits block.length) :
    block.length < uintn e.limit ∨ copyToBlock block e.start (valueBytes e.value) e.size = none := by
  refine or_iff_not_imp_left.mpr fun hle => ?_
  have hstart : e.start < 2 ^ 64 := Nat.mod_lt _ (Nat.two_pow_pos 64)
  have hsize : e.size ≠ 0 := by
    intro h0
    have hlimit : e.limit = e.start := by rw [Element.limit, h0, Nat.add_zero]
    rw [hlimit, uintn_eq hstart] at hle
    exact h ⟨by omega, by omega⟩
  unfold copyToBlock
  rw [if_neg hsize, if_pos]
  by_contra hnot
  rw [valueBytes_length] at hnot
  exact h ⟨by unfold Element.limit; omega, by omega⟩

theorem Element.Fits.length {e : Element} {block : Block} (h : e.Fits block.length) :
    (e.write block).length = block.length := by
  have hfilled := h.filled
  have hinside := h.inside
  unfold Element.limit at hinside
  unfold Element.write Element.limit
  simp only [List.length_append, List.length_take, List.length_drop, valueBytes_length]
  omega

/-- The byte of an element at an index of the block. -/
def Element.byte (e : Element) (i : Nat) : UInt8 := (valueBytes e.value).getD (i - e.start) 0

def Element.Covers (i : Nat) (e : Element) : Prop := e.start ≤ i ∧ i < e.limit

instance (i : Nat) (e : Element) : Decidable (e.Covers i) := inferInstanceAs (Decidable (e.start ≤ i ∧ i < e.limit))

theorem Element.Fits.write_getD {e : Element} {block : Block} (h : e.Fits block.length) (i : Nat) :
    (e.write block).getD i 0 = if e.Covers i then e.byte i else block.getD i 0 := by
  have hfilled := h.filled
  have hinside := h.inside
  unfold Element.limit at hinside
  have hstart : (block.take e.start).length = e.start := by rw [List.length_take]; omega
  have hvalue : ((valueBytes e.value).take e.size).length = e.size := by
    rw [List.length_take, valueBytes_length]
    omega
  unfold Element.write Element.Covers Element.byte Element.limit
  simp only [List.getD_eq_getElem?_getD]
  by_cases h1 : i < e.start
  · rw [List.append_assoc, List.getElem?_append_left (by omega), List.getElem?_take_of_lt h1, if_neg (by omega)]
  · by_cases h2 : i < e.start + e.size
    · rw [List.append_assoc, List.getElem?_append_right (by omega), hstart, List.getElem?_append_left (by omega),
        List.getElem?_take_of_lt (by omega), if_pos (by omega)]
    · rw [List.getElem?_append_right (by rw [List.length_append]; omega), List.length_append, hstart, hvalue,
        List.getElem?_drop, if_neg (by omega)]
      congr 2
      omega

/-! ## All elements -/

section

variable {allocates : Nat → Bool} {configResp : EfiString} {block : Block} {good : List Element} {rest : List EfiString}

theorem Element.write_fits (hfits : ∀ e ∈ good, e.Fits block.length) :
    (good.foldl Element.write block).length = block.length := by
  induction good generalizing block with
  | nil => rfl
  | cons e good ih =>
    obtain ⟨he, hgood⟩ := List.forall_mem_cons.mp hfits
    rw [List.foldl_cons, ih, he.length]
    rwa [he.length]

/-- The loop goes past elements that are in the block. -/
theorem configToBlockLoop_good (fuel blockSize count : Nat) (live : List Nat) (hwf : ∀ e ∈ good, e.WellFormed)
    (hn : block.length < 2 ^ 64)
    (hfits : ∀ e ∈ good, e.Fits block.length) (halloc : Allocates allocates count (6 * good.length)) (hrest : rest ≠ []) :
    ∃ blockSize', configToBlockLoop allocates configResp block.length (fuel + good.length)
        (after (good.flatMap Element.items ++ rest)) block blockSize ⟨count, live⟩ =
      configToBlockLoop allocates configResp block.length fuel (after rest) (good.foldl Element.write block) blockSize'
        ⟨count + 6 * good.length, live⟩ := by
  induction good generalizing block blockSize count with
  | nil => exact ⟨blockSize, rfl⟩
  | cons e good ih =>
    obtain ⟨hewf, hgoodwf⟩ := List.forall_mem_cons.mp hwf
    obtain ⟨he, hgood⟩ := List.forall_mem_cons.mp hfits
    have hinside := he.inside
    rw [List.length_cons, Nat.mul_succ, Nat.add_comm] at halloc
    obtain ⟨h1, h2⟩ := allocates_add.mp halloc
    have hne : good.flatMap Element.items ++ rest ≠ [] := by simp [hrest]
    obtain ⟨blockSize', hloop⟩ := ih (uintn (uintn e.limit + (2 ^ 64 - 1))) _ hgoodwf (he.length ▸ hn)
      (he.length ▸ hgood) h2
    refine ⟨blockSize', ?_⟩
    rw [List.length_cons, ← Nat.add_assoc, List.flatMap_cons, List.append_assoc, configToBlockLoop_element hewf h1,
      if_neg (by rw [uintn_eq (by omega)]; omega), he.copy]
    simp only [hne, if_false]
    rw [← he.length, hloop, List.foldl_cons]
    congr 2
    omega

/-- The loop does not get past all elements: an allocation fails, the block is too small, or a buffer is left. -/
def Passes (allocates : Nat → Bool) (n : Nat) : Nat → List Element → Prop
  | _, [] => True
  | count, e :: good => Allocates allocates count 6 → e.Fits n ∧ Passes allocates n (count + 6) good

theorem configToBlockLoop_stops (fuel blockSize count : Nat) (live : List Nat) (hwf : ∀ e ∈ good, e.WellFormed)
    (hn : block.length < 2 ^ 64)
    (h : ¬(Allocates allocates count (6 * good.length) ∧ ∀ e ∈ good, e.Fits block.length)) :
    Passes allocates block.length count good ∧
        (∃ r, configToBlockLoop allocates configResp block.length (fuel + good.length)
            (after (good.flatMap Element.items ++ rest)) block blockSize ⟨count, live⟩ = some r ∧
          r.status = .outOfResources ∧ r.heap.live = live) ∨
      ¬Passes allocates block.length count good ∧
        ∀ r, configToBlockLoop allocates configResp block.length (fuel + good.length)
            (after (good.flatMap Element.items ++ rest)) block blockSize ⟨count, live⟩ = some r →
          r.status = .deviceError ∧ ∃ value, r.heap.live = value :: live := by
  induction good generalizing block blockSize count with
  | nil => exact absurd ⟨fun k hk => absurd hk (Nat.not_lt_zero k), nofun⟩ h
  | cons e good ih =>
    obtain ⟨hewf, hgoodwf⟩ := List.forall_mem_cons.mp hwf
    rw [List.length_cons, ← Nat.add_assoc, List.flatMap_cons, List.append_assoc]
    by_cases h1 : Allocates allocates count 6
    · rw [configToBlockLoop_element hewf h1]
      by_cases he : e.Fits block.length
      · have hinside := he.inside
        have hnot : ¬(Allocates allocates (count + 6) (6 * good.length) ∧ ∀ f ∈ good, f.Fits (e.write block).length) := by
          rw [he.length]
          refine fun ⟨h2, hgood⟩ => h ⟨?_, List.forall_mem_cons.mpr ⟨he, hgood⟩⟩
          rw [List.length_cons, Nat.mul_succ, Nat.add_comm]
          exact allocates_add.mpr ⟨h1, h2⟩
        have hpasses : Passes allocates block.length count (e :: good) ↔ Passes allocates block.length (count + 6) good :=
          ⟨fun hp => (hp h1).2, fun hp _ => ⟨he, hp⟩⟩
        have hne : good.flatMap Element.items ++ rest ≠ [] := by
          cases good with
          | nil => exact absurd ⟨fun k hk => absurd hk (Nat.not_lt_zero k), nofun⟩ hnot
          | cons f good => exact List.cons_ne_nil _ _
        rw [if_neg (by rw [uintn_eq (by omega)]; omega), he.copy, hpasses, ← he.length]
        simp only [hne, if_false]
        exact ih _ _ hgoodwf (he.length ▸ hn) hnot
      · refine .inr ⟨fun hpass => he (hpass h1).1, fun r hr => ?_⟩
        split at hr
        · obtain rfl := Option.some.inj hr
          exact ⟨rfl, _, rfl⟩
        · rename_i hsmall
          rw [(Element.stops he).resolve_left hsmall] at hr
          cases hr
    · refine .inl ⟨fun h => absurd h h1, ?_⟩
      obtain ⟨count', hout⟩ := configToBlockLoop_out hewf.offset
        (.inr ⟨e.width, _, rfl, hewf.width, .inr ⟨e.value, _, rfl, hewf.value, h1⟩⟩)
      exact ⟨_, hout, rfl, rfl⟩

end

end Udk.Hii.Routing
