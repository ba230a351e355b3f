import Udk.Variable.Compaction

/-! # What a new record does to the copies of every variable -/

open Udk.Bytes

namespace Udk.Variable

/-- The copy of `l` that a lookup finds. -/
def lastVisible (atRuntime : Bool) (l : List Record) : Option Record := (l.filter (·.isVisible atRuntime)).getLast?

theorem found_eq (atRuntime : Bool) (k : Key) (recs : List Record) :
    found atRuntime k recs = lastVisible atRuntime (copies k recs) := rfl

@[simp] theorem lastVisible_nil (atRuntime : Bool) : lastVisible atRuntime [] = none := rfl

@[simp] theorem lastVisible_boot (l : List Record) : lastVisible false l = l.getLast? := by
  simp [lastVisible]

/-- What a lookup in a store returns. -/
def foundValue (atRuntime : Bool) (k : Key) (recs : List Record) : Option (Nat × List UInt8) :=
  (found atRuntime k recs).map Record.value

theorem foundValue_congr {atRuntime : Bool} {k : Key} {xs ys : List Record} (h : copies k ys = copies k xs) :
    foundValue atRuntime k ys = foundValue atRuntime k xs := by
  rw [foundValue, foundValue, found_eq, found_eq, h]

/-- From `xs` to `ys` nothing happened to `j`, or `Reclaim` kept its value. -/
inductive Keeps (atRuntime : Bool) (j : Key) (xs ys : List Record) : Prop
  | same (h : copies j ys = copies j xs)
  | compacted (h : copies j ys = kept (copies j xs))
      (hv : foundValue atRuntime j ys = foundValue atRuntime j xs)

namespace Keeps
variable {atRuntime : Bool} {j : Key} {xs ys zs : List Record}

theorem refl : Keeps atRuntime j xs xs := .same rfl

theorem foundValue_eq (h : Keeps atRuntime j xs ys) : foundValue atRuntime j ys = foundValue atRuntime j xs := by
  cases h with
  | same h => exact foundValue_congr h
  | compacted _ hv => exact hv

theorem of_copies (h : Keeps atRuntime j xs ys) (he : copies j zs = copies j ys) : Keeps atRuntime j xs zs := by
  cases h with
  | same h => exact .same (he.trans h)
  | compacted h hv => exact .compacted (he.trans h) ((foundValue_congr he).trans hv)

theorem after_copies (h : Keeps atRuntime j ys zs) (he : copies j ys = copies j xs) : Keeps atRuntime j xs zs := by
  cases h with
  | same h => exact .same (h.trans he)
  | compacted h hv => exact .compacted (h.trans (by rw [he])) (hv.trans (foundValue_congr he))

theorem copies_eq_nil (h : Keeps atRuntime j xs ys) (hx : copies j xs = []) : copies j ys = [] := by
  cases h with
  | same h => exact h.trans hx
  | compacted h _ => rw [h, hx]; rfl

end Keeps

/-- The non-volatile store is not compacted at runtime, so there a variable keeps its value for both phases. -/
def KeepsBoth (atRuntime : Bool) (j : Key) (xs ys : List Record) : Prop :=
  ∀ b, (atRuntime = false → b = false) → Keeps b j xs ys

namespace KeepsBoth
variable {atRuntime : Bool} {j : Key} {xs ys zs : List Record}

theorem same (h : copies j ys = copies j xs) : KeepsBoth atRuntime j xs ys := fun _ _ => .same h

theorem refl : KeepsBoth atRuntime j xs xs := .same rfl

theorem now (h : KeepsBoth atRuntime j xs ys) : Keeps atRuntime j xs ys := h atRuntime id

theorem boot (h : KeepsBoth atRuntime j xs ys) : Keeps false j xs ys := h false fun _ => rfl

theorem after_copies (h : KeepsBoth atRuntime j ys zs) (he : copies j ys = copies j xs) : KeepsBoth atRuntime j xs zs :=
  fun b hb => (h b hb).after_copies he

end KeepsBoth

/-! ## Copies around one record -/

section
variable {k j : Key} {pre post : List Record} {r : Record}

theorem copies_mid (hl : r.isLive = true) (hk : r.has k = true) :
    copies k (pre ++ r :: post) = copies k pre ++ r :: copies k post := by
  rw [copies_append, copies_cons_pos k r post hl hk]

theorem copies_mid_dead (hl : r.isLive = false) : copies k (pre ++ r :: post) = copies k pre ++ copies k post := by
  rw [copies_append, copies_cons_dead k r post hl]

theorem has_other (hk : r.has k = true) (hj : j ≠ k) : r.has j = false := by
  by_contra h
  simp only [Bool.not_eq_false] at h
  exact hj (Record.has_unique h hk)

theorem copies_mid_other (hk : r.has k = true) (hj : j ≠ k) :
    copies j (pre ++ r :: post) = copies j pre ++ copies j post := by
  rw [copies_append, copies_cons_other j r post (has_other hk hj)]

theorem mark_value : r.mark.value = r.value := rfl

theorem copies_erase (hl : r.isLive = true) :
    copies k (pre ++ r.erase :: post) = copies k pre ++ copies k post := copies_mid_dead (Record.erase_not_live hl)

theorem mark_live (hl : r.isLive = true) : r.mark.isLive = true := isLive_of_inDeleted (Record.mark_inDeleted hl)

/-- The copies of other variables do not see the mark. -/
theorem copies_mark_other (hk : r.has k = true) (hj : j ≠ k) :
    copies j (pre ++ r.mark :: post) = copies j (pre ++ r :: post) := by
  rw [copies_mid_other (r := r.mark) hk hj, copies_mid_other hk hj]

end

/-- No record is a header with nothing behind it. -/
def Whole (recs : List Record) : Prop := ∀ r ∈ recs, r.isErased = false

theorem Whole.snoc {xs : List Record} {new : Record} (h : Whole xs) (hn : new.isLive = true) : Whole (xs ++ [new]) := by
  intro r hr
  rcases List.mem_append.mp hr with hr | hr
  · exact h r hr
  · rw [List.mem_singleton.mp hr]
    exact new.not_erased_of_live hn

theorem Whole.setState {pre post : List Record} {r : Record} {st : UInt8} (h : Whole (pre ++ r :: post))
    (hst : st ≠ 0xff) : Whole (pre ++ r.setState st :: post) := by
  intro q hq
  rw [List.mem_append, List.mem_cons] at hq
  rcases hq with hq | rfl | hq
  · exact h q (by simp [hq])
  · simpa [Record.isErased] using hst
  · exact h q (by simp [hq])

theorem whole_reclaimed (u : Option Record) (recs : List Record) (hu : ∀ x, u = some x → x.isLive = true) :
    Whole (reclaimed u recs) := fun r hr => r.not_erased_of_live (reclaimed_live u hu r hr)

/-! ## Where a variable is found -/

/-- A lookup of `j` finds the same record at the same place in `ys` as in `xs`. -/
structure SamePlace (atRuntime : Bool) (j : Key) (xs ys : List Record) : Prop where
  found : ∀ pre r post, IsFound atRuntime j xs pre r post →
    ∃ pre' post', IsFound atRuntime j ys pre' r post' ∧ total pre' = total pre
  notFound : NotFound atRuntime j xs → NotFound atRuntime j ys

namespace SamePlace
variable {atRuntime : Bool} {j k : Key} {xs ys zs pre post : List Record} {r new : Record}

theorem refl : SamePlace atRuntime j xs xs := ⟨fun pre _ post h => ⟨pre, post, h, rfl⟩, id⟩

theorem trans (h : SamePlace atRuntime j xs ys) (h' : SamePlace atRuntime j ys zs) : SamePlace atRuntime j xs zs := by
  refine ⟨fun pre r post hf => ?_, h'.notFound ∘ h.notFound⟩
  obtain ⟨pre', post', hf', ht⟩ := h.found pre r post hf
  obtain ⟨pre'', post'', hf'', ht'⟩ := h'.found pre' r post' hf'
  exact ⟨pre'', post'', hf'', ht'.trans ht⟩

/-- A record of another variable changes its state. -/
theorem setState (st : UInt8) (hk : r.has k = true) (hj : j ≠ k) (he : r.isErased = false) (hst : st ≠ 0xff) :
    SamePlace atRuntime j (pre ++ r :: post) (pre ++ r.setState st :: post) := by
  have hrj : (r.setState st).has j = false := has_other hk hj
  refine ⟨fun p q t hf => ?_, fun hno q hq hl hv => ?_⟩
  · rcases List.append_eq_append_iff.mp hf.split with ⟨zs, hz, hz'⟩ | ⟨zs, hz, hz'⟩
    · cases zs with
      | nil =>
        obtain ⟨rfl, -⟩ := List.cons.inj hz'
        have := has_other hk hj
        rw [hf.has] at this; cases this
      | cons z zs =>
        -- found behind the record
        obtain ⟨rfl, rfl⟩ := List.cons.inj hz'
        refine ⟨pre ++ r.setState st :: zs, t, ⟨by simp, hf.live, hf.visible, hf.has, hf.last⟩, ?_⟩
        rw [hz]
        exact total_setState pre zs r st he hst
    · cases zs with
      | nil =>
        obtain ⟨rfl, -⟩ := List.cons.inj hz'
        have := has_other hk hj
        rw [hf.has] at this; cases this
      | cons z zs =>
        -- found before it
        obtain ⟨rfl, rfl⟩ := List.cons.inj hz'
        refine ⟨p, zs ++ r.setState st :: post, ⟨by simp [hz], hf.live, hf.visible, hf.has, ?_⟩, rfl⟩
        intro x hx hl hv
        rw [List.mem_append, List.mem_cons] at hx
        rcases hx with hx | rfl | hx
        · exact hf.last x (by simp [hx]) hl hv
        · exact hrj
        · exact hf.last x (by simp [hx]) hl hv
  · rw [List.mem_append, List.mem_cons] at hq
    rcases hq with hq | rfl | hq
    · exact hno q (by simp [hq]) hl hv
    · exact hrj
    · exact hno q (by simp [hq]) hl hv

/-- A record of another variable is written behind the others. -/
theorem snoc (hk : new.has k = true) (hj : j ≠ k) : SamePlace atRuntime j xs (xs ++ [new]) := by
  refine ⟨fun p q t hf => ⟨p, t ++ [new], ⟨by rw [hf.split]; simp, hf.live, hf.visible, hf.has, ?_⟩, rfl⟩, ?_⟩
  · intro x hx hl hv
    rcases List.mem_append.mp hx with hx | hx
    · exact hf.last x hx hl hv
    · rw [List.mem_singleton.mp hx]; exact has_other hk hj
  · intro hno x hx hl hv
    rcases List.mem_append.mp hx with hx | hx
    · exact hno x hx hl hv
    · rw [List.mem_singleton.mp hx]; exact has_other hk hj

end SamePlace

/-! ## The old copy -/

/-- The base of the volatile or of the non-volatile store. -/
def Platform.base (P : Platform) (isVolatile : Bool) : Nat :=
  if isVolatile then P.volatileVariableBase else P.nonVolatileVariableBase

/-- The old copy of `k` that `v` points to, in delete transition: in the store `xs` that gets the new
record, in the other store `ys`, or nowhere. -/
inductive Old (P : Platform) (k : Key) (isVolatile : Bool) (v : VariablePointerTrack) (xs ys : List Record) :
    Option Record → Prop
  | absent (hx : copies k xs = []) (hy : copies k ys = []) (hp : v.currPtr = 0) : Old P k isVolatile v xs ys none
  | here {pre r post} (hs : xs = pre ++ r :: post) (hd : r.isInDeleted = true) (hk : r.has k = true)
      (hpost : copies k post = []) (hy : copies k ys = []) (hp : v.currPtr = recordAt (P.base isVolatile) pre)
      (hv : v.isVolatile = isVolatile) : Old P k isVolatile v xs ys (some r)
  | there {pre r post} (hs : ys = pre ++ r :: post) (hd : r.isInDeleted = true) (hk : r.has k = true)
      (hpre : copies k pre = []) (hpost : copies k post = []) (hx : copies k xs = [])
      (hp : v.currPtr = recordAt (P.base !isVolatile) pre) (hv : v.isVolatile = !isVolatile) :
      Old P k isVolatile v xs ys (some r)

/-- What the function part of `UpdateVariable` does to the copies: `xs` is the store that gets the new
record, `ys` the other one. `full` says that the record needs `Reclaim`, and `u` is the old copy. -/
structure Creates (atRuntime : Bool) (k : Key) (value : Nat × List UInt8) (st : EfiStatus) (full : Bool)
    (u : Option Record) (xs ys xs' ys' : List Record) : Prop where
  other : ∀ j ≠ k, Keeps atRuntime j xs xs' ∧ copies j ys' = copies j ys
  failed : st.isError = true → (copies k xs' = copies k xs ∨ ∃ r, copies k xs' = [r] ∧
    (copies k xs).getLast? = some r) ∧ copies k ys' = copies k ys
  written : st.isError = false → (∃ old new, copies k xs' = old ++ [new] ∧ (∀ d ∈ old, d.isInDeleted = true) ∧
    new.isAdded = true ∧ new.value = value) ∧ copies k ys' = []
  /-- An error leaves the stores as they are, or compacted. -/
  lists : st.isError = true → ys' = ys ∧ (xs' = xs ∨ (full = true ∧ xs' = reclaimed u xs))
  steady : full = false → ∀ j ≠ k, SamePlace atRuntime j xs xs' ∧ SamePlace atRuntime j ys ys'
  whole : (Whole xs → Whole xs') ∧ (Whole ys → Whole ys')

/-- Of every variable but `k`, `Reclaim` keeps the value that a lookup finds. -/
def KeepsFound (atRuntime : Bool) (k : Key) (xs : List Record) : Prop :=
  ∀ j ≠ k, (lastVisible atRuntime (kept (copies j xs))).map Record.value = foundValue atRuntime j xs

section
variable {P : Platform} {isVolatile atRuntime full : Bool} {k : Key} {v : VariablePointerTrack}
  {xs ys pre post : List Record} {u : Option Record} {new r : Record}

theorem keeps_reclaimed {j : Key} (hl : ∀ x, u = some x → x.isLive = true) (hu : ∀ x, u = some x → x.has j = false)
    (hf : (lastVisible atRuntime (kept (copies j xs))).map Record.value = foundValue atRuntime j xs) :
    Keeps atRuntime j xs (reclaimed u xs) := by
  have hc := copies_reclaimed xs u hl hu
  refine .compacted hc ?_
  rw [← hf, foundValue, found_eq, hc]

theorem Old.live (ho : Old P k isVolatile v xs ys u) : ∀ x, u = some x → x.isLive = true := by
  cases ho with
  | absent => simp
  | here _ hd => rintro x ⟨⟩; exact isLive_of_inDeleted hd
  | there _ hd => rintro x ⟨⟩; exact isLive_of_inDeleted hd

/-- Every other variable keeps its value when the store of the old copy is compacted. -/
theorem Old.keeps_reclaimed (ho : Old P k isVolatile v xs ys u) (hf : KeepsFound atRuntime k xs) {j : Key} (hj : j ≠ k) :
    Keeps atRuntime j xs (reclaimed u xs) := by
  refine Variable.keeps_reclaimed ho.live ?_ (hf j hj)
  · cases ho with
    | absent => simp
    | here _ _ hk => rintro x ⟨⟩; exact has_other hk hj
    | there _ _ hk => rintro x ⟨⟩; exact has_other hk hj

/-- The old copy is the only one that is left of `k`. -/
theorem Old.copies_reclaimed (ho : Old P k isVolatile v xs ys u) (hx : ∀ x, u = some x → x ∈ xs) :
    (copies k (reclaimed u xs) = copies k xs ∨ ∃ r, copies k (reclaimed u xs) = [r] ∧
      (copies k xs).getLast? = some r) ∧ (∀ d ∈ copies k (reclaimed u xs), d.isInDeleted = true) ∧
      copies k ys = [] := by
  cases ho with
  | absent hxs hys =>
    have : copies k (reclaimed none xs) = [] := by
      rw [Variable.copies_reclaimed xs none (by simp) (by simp), hxs]; rfl
    exact ⟨.inl (this.trans hxs.symm), by simp [this], hys⟩
  | @here pre r post hs hd hk hpost hys =>
    have hl := isLive_of_inDeleted hd
    have := copies_reclaimed_self xs r hl hk
    refine ⟨.inr ⟨r, this, ?_⟩, ?_, hys⟩
    · rw [hs, copies_mid hl hk, hpost]; simp
    · rw [this]; simpa using hd
  | @there pre r post hs hd hk _ _ hxs =>
    have := mem_copies.mpr ⟨hx r rfl, isLive_of_inDeleted hd, hk⟩
    rw [hxs] at this
    cases this

theorem creates_failed {value : Nat × List UInt8} {st : EfiStatus} (h : st.isError = true) :
    Creates atRuntime k value st full u xs ys xs ys :=
  ⟨fun _ _ => ⟨.refl, rfl⟩, fun _ => ⟨.inl rfl, rfl⟩, fun hs => (by rw [h] at hs; cases hs), fun _ => ⟨rfl, .inl rfl⟩,
    fun _ _ _ => ⟨.refl, .refl⟩, id, id⟩

theorem creates_compactedFailed {value : Nat × List UInt8} {st : EfiStatus} (h : st.isError = true)
    (hfull : full = true) (ho : Old P k isVolatile v xs ys u) (hx : ∀ x, u = some x → x ∈ xs)
    (hf : KeepsFound atRuntime k xs) : Creates atRuntime k value st full u xs ys (reclaimed u xs) ys :=
  ⟨fun _ hj => ⟨ho.keeps_reclaimed hf hj, rfl⟩, fun _ => ⟨(ho.copies_reclaimed hx).1, rfl⟩,
    fun hs => (by rw [h] at hs; cases hs), fun _ => ⟨rfl, .inr ⟨hfull, rfl⟩⟩,
    fun hn => (by rw [hfull] at hn; cases hn), fun _ => whole_reclaimed u xs ho.live, id⟩

theorem copies_snoc (hk : new.has k = true) (ha : new.isAdded = true) : copies k (xs ++ [new]) = copies k xs ++ [new] := by
  rw [copies_append, copies_cons_pos k new [] (isLive_of_added ha) hk, copies_nil]

theorem copies_snoc_other {j : Key} (hk : new.has k = true) (hj : j ≠ k) : copies j (xs ++ [new]) = copies j xs := by
  rw [copies_append, copies_cons_other j new [] (has_other hk hj), copies_nil, List.append_nil]

theorem copies_snoc_dead {j : Key} (hl : new.isLive = false) : copies j (xs ++ [new]) = copies j xs := by
  rw [copies_append, copies_cons_dead j new [] hl, copies_nil, List.append_nil]

theorem creates_compacted (hk : new.has k = true) (ha : new.isAdded = true) (hfull : full = true)
    (ho : Old P k isVolatile v xs ys u) (hx : ∀ x, u = some x → x ∈ xs) (hf : KeepsFound atRuntime k xs) :
    Creates atRuntime k new.value .success full u xs ys (reclaimed u xs ++ [new]) ys := by
  obtain ⟨-, h2, h3⟩ := ho.copies_reclaimed hx
  exact ⟨fun j hj => ⟨(ho.keeps_reclaimed hf hj).of_copies (copies_snoc_other hk hj), rfl⟩,
    fun h => (by cases h), fun _ => ⟨⟨_, new, copies_snoc hk ha, h2, ha, rfl⟩, h3⟩, fun h => (by cases h),
    fun hn => (by rw [hfull] at hn; cases hn), fun _ => (whole_reclaimed u xs ho.live).snoc (isLive_of_added ha), id⟩

theorem creates_added (hk : new.has k = true) (ha : new.isAdded = true) (hx : copies k xs = []) (hy : copies k ys = []) :
    Creates atRuntime k new.value .success full u xs ys (xs ++ [new]) ys :=
  ⟨fun _ hj => ⟨.same (copies_snoc_other hk hj), rfl⟩, fun h => (by cases h),
    fun _ => ⟨⟨[], new, by rw [copies_snoc hk ha, hx], by simp, ha, rfl⟩, hy⟩, fun h => (by cases h),
    fun _ _ hj => ⟨.snoc hk hj, .refl⟩, fun h => h.snoc (isLive_of_added ha), id⟩

/-- Only the last copy can be `VAR_ADDED`, and it is in delete transition. -/
theorem inDeleted_of_good (hg : Good (pre ++ r :: post)) (hl : r.isLive = true) (hk : r.has k = true) :
    ∀ d ∈ copies k pre, d.isInDeleted = true := by
  intro d hd
  obtain ⟨hm, hdl, hdk⟩ := mem_copies.mp hd
  cases ha : d.isAdded with
  | false => simpa [Record.isLive, ha] using hdl
  | true =>
    have := (good_append.mp hg).2.2 d hm r (by simp) ha hl
    rw [Record.sameAs_of_has hdk, hk] at this
    cases this

theorem creates_replaced (hk : new.has k = true) (ha : new.isAdded = true) (hg : Good (pre ++ r :: post))
    (hd : r.isInDeleted = true) (hr : r.has k = true) (hpost : copies k post = []) (hy : copies k ys = []) :
    Creates atRuntime k new.value .success full u (pre ++ r :: post) ys (pre ++ r.erase :: (post ++ [new])) ys := by
  have hl := isLive_of_inDeleted hd
  refine ⟨fun j hj => ⟨.same ?_, rfl⟩, fun h => (by cases h), fun _ => ⟨⟨copies k pre, new, ?_,
    inDeleted_of_good hg hl hr, ha, rfl⟩, hy⟩, fun h => (by cases h), fun _ j hj => ⟨?_, .refl⟩, fun h => ?_, id⟩
  · rw [copies_erase hl, copies_mid_other hr hj, copies_snoc_other hk hj]
  · rw [copies_erase hl, copies_snoc hk ha, hpost, List.nil_append]
  · have herase : SamePlace atRuntime j (pre ++ r :: post) (pre ++ r.erase :: post) :=
      .setState _ hr hj (r.not_erased_of_live hl) (Record.erase_ne hl)
    rw [← List.cons_append, ← List.append_assoc]
    exact herase.trans (.snoc hk hj)
  · rw [← List.cons_append, ← List.append_assoc]
    exact (h.setState (Record.erase_ne hl)).snoc (isLive_of_added ha)

theorem creates_moved (hk : new.has k = true) (ha : new.isAdded = true) (hd : r.isInDeleted = true)
    (hr : r.has k = true) (hpre : copies k pre = []) (hpost : copies k post = []) (hx : copies k xs = []) :
    Creates atRuntime k new.value .success full u xs (pre ++ r :: post) (xs ++ [new]) (pre ++ r.erase :: post) := by
  have hl := isLive_of_inDeleted hd
  refine ⟨fun j hj => ⟨.same (copies_snoc_other hk hj), ?_⟩, fun h => (by cases h),
    fun _ => ⟨⟨[], new, by rw [copies_snoc hk ha, hx], by simp, ha, rfl⟩, ?_⟩, fun h => (by cases h),
    fun _ j hj => ⟨.snoc hk hj, .setState _ hr hj (r.not_erased_of_live hl) (Record.erase_ne hl)⟩,
    fun h => h.snoc (isLive_of_added ha), fun h => h.setState (Record.erase_ne hl)⟩
  · rw [copies_erase hl, copies_mid_other hr hj]
  · rw [copies_erase hl, hpre, hpost]; rfl

/-- The store that gets the new record has no `VAR_ADDED` copy left. -/
theorem Old.not_added (ho : Old P k isVolatile v xs ys u) (hg : Good xs) : ∀ x ∈ xs, x.isAdded = true → x.has k = false := by
  intro x hx ha
  by_contra hk
  simp only [Bool.not_eq_false] at hk
  have hmem := mem_copies.mpr ⟨hx, isLive_of_added ha, hk⟩
  cases ho with
  | absent hxs => rw [hxs] at hmem; cases hmem
  | there _ _ _ _ _ hxs => rw [hxs] at hmem; cases hmem
  | @here pre r post hs hd hr hpost =>
    subst hs
    rw [copies_mid (isLive_of_inDeleted hd) hr, hpost] at hmem
    rcases List.mem_append.mp hmem with h | h
    · have := inDeleted_of_good hg (isLive_of_inDeleted hd) hr x h
      rw [x.inDeleted_not_added this] at ha; cases ha
    · rw [List.mem_singleton.mp h, r.inDeleted_not_added hd] at ha; cases ha

end

end Udk.Variable
