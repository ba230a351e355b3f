import Udk.Gcd.Map
import Udk.Tiling

/-! # What the functions on a map do to a map in order -/

namespace Udk.Gcd

/-- The entries lie end to end from `lo` to just below `hi`. -/
abbrev Tiled (lo : Nat) (map : List Entry) (hi : Nat) : Prop :=
  Tiles Entry.baseAddress Entry.endAddress lo map hi

/-- What the map says about an address. -/
abbrev spaceAt (map : List Entry) (a : Nat) : Option Space :=
  valueAt Entry.baseAddress Entry.endAddress Entry.toSpace map a

/-- `BaseAddress + Length` wraps, and one entry contains both ends of the range and passes the check. -/
def Wraps (check : Space → EfiStatus) (map : List Entry) (baseAddress length : Nat) : Prop :=
  2 ^ 64 < baseAddress + length ∧
    ∃ e ∈ map, e.contains baseAddress = true ∧ e.contains (lastAddress baseAddress length) = true ∧
      check e.toSpace = .success

section
variable {map : List Entry} {found : Found} {lo hi baseAddress length : Nat} {e : Entry} {convert : Space → Space}

theorem Entry.contains_iff {a : Nat} : e.contains a = true ↔ e.baseAddress ≤ a ∧ a ≤ e.endAddress := by
  simp [Entry.contains]

/-! ## Searching -/

theorem searchLoop_spec {before links : List Entry}
    (hlinks : links = [] ∨ ∃ e, links.head? = some e ∧ e.contains baseAddress = true)
    (h : searchLoop baseAddress length before links map = some found) :
    before ++ links ++ map = found.before ++ found.links ++ found.after ∧
      (∃ e, found.links.head? = some e ∧ e.contains baseAddress = true) ∧
      ∃ e, found.links.getLast? = some e ∧ e.contains (lastAddress baseAddress length) = true := by
  induction map generalizing before links with
  | nil => cases h
  | cons entry rest ih =>
    unfold searchLoop at h
    by_cases hbase : entry.contains baseAddress = true
    · simp only [if_pos hbase] at h
      have hhead : ∃ e, [entry].head? = some e ∧ e.contains baseAddress = true := ⟨entry, rfl, hbase⟩
      split at h
      · rename_i hlast
        obtain rfl := Option.some.inj h
        exact ⟨by simp, hhead, entry, rfl, hlast.2⟩
      · rw [← (ih (.inr hhead) h).1]
        exact ⟨by simp, (ih (.inr hhead) h).2⟩
    · simp only [if_neg hbase] at h
      split at h
      · rename_i hnil
        subst hnil
        rw [if_neg (by simp)] at h
        rw [← (ih (.inl rfl) h).1]
        exact ⟨by simp, (ih (.inl rfl) h).2⟩
      · rename_i hne
        have hhead : ∃ e, (links ++ [entry]).head? = some e ∧ e.contains baseAddress = true := by
          obtain ⟨e, he, hc⟩ := hlinks.resolve_left hne
          exact ⟨e, by rw [List.head?_append, he]; rfl, hc⟩
        split at h
        · rename_i hlast
          obtain rfl := Option.some.inj h
          exact ⟨by simp, hhead, entry, by simp, hlast.2⟩
        · rw [← (ih (.inr hhead) h).1]
          exact ⟨by simp, (ih (.inr hhead) h).2⟩

/-- The links that were found are those of the entries that overlap the range. -/
structure Finds (lo : Nat) (map : List Entry) (hi baseAddress length : Nat) (found : Found) (s t : Nat) : Prop where
  split : map = found.before ++ found.links ++ found.after
  before : Tiled lo found.before s
  links : Tiled s found.links t
  after : Tiled t found.after hi
  base_ge : s ≤ baseAddress
  last_lt : baseAddress + length ≤ t
  nonempty : found.links ≠ []
  overlap : ∀ e ∈ found.links, e.baseAddress < baseAddress + length ∧ baseAddress ≤ e.endAddress

theorem lastAddress_eq (hl : 0 < length) (h : baseAddress + length ≤ 2 ^ 64) :
    lastAddress baseAddress length = baseAddress + length - 1 := by
  unfold lastAddress uint64
  rw [show baseAddress + length + (2 ^ 64 - 1) = baseAddress + length - 1 + 2 ^ 64 by omega, Nat.add_mod_right,
    Nat.mod_eq_of_lt (by omega)]

theorem lastAddress_lt (h : 2 ^ 64 < baseAddress + length) (hb : baseAddress < 2 ^ 64) (hl : length < 2 ^ 64) :
    lastAddress baseAddress length + 1 < baseAddress := by
  unfold lastAddress uint64
  rw [show baseAddress + length + (2 ^ 64 - 1) = baseAddress + length - 2 ^ 64 - 1 + 2 ^ 64 + 2 ^ 64 by omega,
    Nat.add_mod_right, Nat.add_mod_right, Nat.mod_eq_of_lt (by omega)]
  omega

/-- In a map in order a search finds the entries that overlap the range, or one entry in which the range wraps. -/
theorem search_spec (h : Tiled lo map hi) (hb : baseAddress < 2 ^ 64) (hl : 0 < length) (hl' : length < 2 ^ 64)
    (hs : coreSearchGcdMapEntry baseAddress length map = some found) :
    (baseAddress + length ≤ 2 ^ 64 ∧ ∃ s t, Finds lo map hi baseAddress length found s t) ∨
      (2 ^ 64 < baseAddress + length ∧ map = found.before ++ found.links ++ found.after ∧
        ∃ e, found.links = [e] ∧ e.contains baseAddress = true ∧ e.contains (lastAddress baseAddress length) = true) := by
  obtain ⟨hmap, ⟨x, hx, hxc⟩, z, hz, hzc⟩ := searchLoop_spec (.inl rfl) hs
  rw [List.nil_append, List.nil_append] at hmap
  obtain ⟨t, hbl, hafter⟩ := tiles_append.mp (hmap ▸ h)
  obtain ⟨s, hbefore, hlinks⟩ := tiles_append.mp hbl
  have hxc' := Entry.contains_iff.mp hxc
  have hzc' := Entry.contains_iff.mp hzc
  obtain ⟨rest, hrest⟩ : ∃ rest, found.links = x :: rest := by
    cases hf : found.links with
    | nil => rw [hf] at hx; cases hx
    | cons y rest => rw [hf] at hx; exact ⟨rest, by rw [Option.some.inj hx]⟩
  obtain ⟨pre, hpre⟩ : ∃ pre, found.links = pre ++ [z] := ⟨_, (List.dropLast_append_getLast? z hz).symm⟩
  obtain ⟨r, hpretiles, hzr, hzle, hzt⟩ := tiles_append.mp (hpre ▸ hlinks)
  obtain ⟨hxs, hxle, hresttiles⟩ : Tiled s (x :: rest) t := hrest ▸ hlinks
  by_cases hlt : baseAddress + length ≤ 2 ^ 64
  · have hlast := lastAddress_eq hl hlt
    have hzt' : z.endAddress + 1 = t := hzt
    refine .inl ⟨hlt, s, t, hmap, hbefore, hlinks, hafter, by omega, by omega, by simp [hrest], fun e he => ⟨?_, ?_⟩⟩
    · rw [hpre] at he
      rcases List.mem_append.mp he with he | he
      · have := hpretiles.mem he
        omega
      · obtain rfl := List.mem_singleton.mp he
        omega
    · rw [hrest] at he
      rcases List.mem_cons.mp he with rfl | he
      · omega
      · have := hresttiles.mem he
        omega
  · have hlast := lastAddress_lt (by omega) hb hl'
    refine .inr ⟨by omega, hmap, x, ?_, hxc, ?_⟩
    all_goals
      -- the last link starts below the end of the first one, so it is the first one
      cases hr : rest with
      | nil =>
        rw [hrest, hr] at hz
        obtain rfl : x = z := by simpa using hz
        first | exact hzc | rw [hrest, hr]
      | cons y ys =>
        have hzmem : z ∈ rest := by
          rw [hrest, hr, List.getLast?_cons_cons] at hz
          rw [hr]
          exact List.mem_of_getLast? hz
        have := hresttiles.mem hzmem
        omega

/-! ## Splitting and converting -/

/-- What the loop leaves where it starts at an entry that begins at `s`. -/
structure Converts (convert : Space → Space) (s : Nat) (links : List Entry) (t baseAddress length : Nat)
    (bottom : Option Entry) (links' : List Entry) (top : Option Entry) : Prop where
  tiled_bottom : Tiled s bottom.toList (max s baseAddress)
  tiled_links : Tiled (max s baseAddress) links' (baseAddress + length)
  tiled_top : Tiled (baseAddress + length) top.toList t
  at_bottom : ∀ a, s ≤ a → a < baseAddress → spaceAt bottom.toList a = spaceAt links a
  at_links : ∀ a, max s baseAddress ≤ a → a < baseAddress + length →
    spaceAt links' a = (spaceAt links a).map convert
  at_top : ∀ a, baseAddress + length ≤ a → spaceAt top.toList a = spaceAt links a

/-- Where the range ends in the entry, or behind it. -/
theorem insert_top (hl : 0 < length) (hw : baseAddress + length ≤ 2 ^ 64) (he : e.endAddress < 2 ^ 64) :
    coreInsertGcdMapEntry baseAddress length e =
      (if baseAddress > e.baseAddress then some { e with endAddress := baseAddress - 1 } else none,
        { e with
          baseAddress := max e.baseAddress baseAddress
          endAddress := min e.endAddress (baseAddress + length - 1) },
        if baseAddress + length ≤ e.endAddress then some { e with baseAddress := baseAddress + length } else none) := by
  have hlast := lastAddress_eq hl hw
  unfold coreInsertGcdMapEntry
  by_cases h1 : baseAddress > e.baseAddress <;> by_cases h2 : baseAddress + length ≤ e.endAddress
  · have : uint64 (baseAddress + length) = baseAddress + length := Nat.mod_eq_of_lt (by omega)
    simp [h1, h2, hlast, this, Nat.max_eq_right (Nat.le_of_lt h1),
      show baseAddress + length - 1 < e.endAddress by omega, show min e.endAddress (baseAddress + length - 1) =
        baseAddress + length - 1 by omega]
  · simp [h1, h2, hlast, Nat.max_eq_right (Nat.le_of_lt h1),
      show ¬ baseAddress + length - 1 < e.endAddress by omega, show min e.endAddress (baseAddress + length - 1) =
        e.endAddress by omega]
  · have : uint64 (baseAddress + length) = baseAddress + length := Nat.mod_eq_of_lt (by omega)
    simp [h1, h2, hlast, this, show max e.baseAddress baseAddress = e.baseAddress by omega,
      show baseAddress + length - 1 < e.endAddress by omega, show min e.endAddress (baseAddress + length - 1) =
        baseAddress + length - 1 by omega]
  · simp [h1, h2, hlast, show max e.baseAddress baseAddress = e.baseAddress by omega,
      show ¬ baseAddress + length - 1 < e.endAddress by omega, show min e.endAddress (baseAddress + length - 1) =
        e.endAddress by omega]

theorem spaceAt_cons {a : Nat} : spaceAt (e :: map) a =
    if e.baseAddress ≤ a ∧ a ≤ e.endAddress then some e.toSpace else spaceAt map a := valueAt_cons

theorem consLink_none {bottom top : Option Entry} {links : List Entry} (hne : links ≠ []) :
    consLink convert (bottom, e, none) (none, links, top) =
      some (bottom, { e with toSpace := convert e.toSpace } :: links, top) := by
  cases links with
  | nil => exact absurd rfl hne
  | cons y ys => cases top <;> rfl

/-- One pad of each kind is enough, and the loop puts them at the ends. -/
theorem convertLoop_spec {links : List Entry} {s t : Nat} (convert : Space → Space) (hl : 0 < length)
    (hw : baseAddress + length ≤ 2 ^ 64) (ht : t ≤ 2 ^ 64) (h : Tiled s links t) (hne : links ≠ [])
    (hlast : baseAddress + length ≤ t)
    (hover : ∀ e ∈ links, e.baseAddress < baseAddress + length ∧ baseAddress ≤ e.endAddress) :
    ∃ bottom links' top, convertLoop convert baseAddress length links = some (bottom, links', top) ∧
      Converts convert s links t baseAddress length bottom links' top := by
  induction links generalizing s with
  | nil => exact absurd rfl hne
  | cons e rest ih =>
    rw [convertLoop]
    obtain ⟨rfl, hle, hrest⟩ := h
    have hov := hover e (by simp)
    have hend : e.endAddress < 2 ^ 64 := by have := hrest.le; omega
    cases rest with
    | nil =>
      obtain rfl : e.endAddress + 1 = t := hrest
      rw [convertLoop, insert_top hl hw hend]
      refine ⟨_, _, _, rfl, ?_, ?_, ?_, ?_, ?_, ?_⟩
      · split
        · exact ⟨rfl, by simp only; omega, by simp only [Tiles]; omega⟩
        · simp only [Option.toList_none, Tiles]; omega
      · exact ⟨rfl, by simp only; omega, by simp only [Tiles]; omega⟩
      · split
        · exact ⟨rfl, by simp only; omega, rfl⟩
        · simp only [Option.toList_none, Tiles]; omega
      · intro a h1 h2
        rw [if_pos (by omega), Option.toList_some, spaceAt_cons, spaceAt_cons, if_pos (by simp only; omega),
          if_pos (by omega)]
      · intro a h1 h2
        rw [spaceAt_cons, spaceAt_cons, if_pos (by simp only; omega), if_pos (by omega)]
        rfl
      · intro a h1
        rw [spaceAt_cons]
        by_cases h2 : a ≤ e.endAddress
        · rw [if_pos (by omega), if_pos (by omega), Option.toList_some, spaceAt_cons, if_pos (by simp only; omega)]
        · rw [if_neg (show ¬ (e.baseAddress ≤ a ∧ a ≤ e.endAddress) by omega)]
          split
          · rw [Option.toList_some, spaceAt_cons, if_neg (by simp only; omega)]
          · rfl
    | cons y ys =>
      have hov' : ∀ x ∈ y :: ys, x.baseAddress < baseAddress + length ∧ baseAddress ≤ x.endAddress :=
        fun x hx => hover x (by simp [hx])
      obtain ⟨bottom, links', top, heq, hc⟩ := ih hrest (by simp) hov'
      have hy := hrest.1
      have hy' := (hov' y (by simp)).1
      -- the range begins in front of the entries that are left
      have hmax : max (e.endAddress + 1) baseAddress = e.endAddress + 1 := by omega
      have hbottom : bottom = none := by
        have hb := hc.tiled_bottom
        rw [hmax] at hb
        cases bottom with
        | none => rfl
        | some b => have := hb.2.1; have := hb.2.2; simp only [Tiles] at this; omega
      subst hbottom
      have hlinks := hc.tiled_links
      rw [hmax] at hlinks
      refine ⟨if baseAddress > e.baseAddress then some { e with endAddress := baseAddress - 1 } else none,
        { e with
          toSpace := convert e.toSpace
          baseAddress := max e.baseAddress baseAddress
          endAddress := min e.endAddress (baseAddress + length - 1) } :: links', top, ?_, ?_, ?_, hc.tiled_top, ?_, ?_, ?_⟩
      · rw [heq, Option.bind_some, insert_top hl hw hend,
          if_neg (show ¬ baseAddress + length ≤ e.endAddress by omega)]
        exact consLink_none (by rintro rfl; have : e.endAddress + 1 = baseAddress + length := hlinks; omega)
      · split
        · exact ⟨rfl, by simp only; omega, by simp only [Tiles]; omega⟩
        · simp only [Option.toList_none, Tiles]; omega
      · refine ⟨rfl, by simp only; omega, ?_⟩
        simp only
        rw [show min e.endAddress (baseAddress + length - 1) + 1 = e.endAddress + 1 by omega]
        exact hlinks
      · intro a h1 h2
        rw [if_pos (by omega), Option.toList_some, spaceAt_cons, spaceAt_cons, if_pos (by simp only; omega),
          if_pos (by omega)]
      · intro a h1 h2
        rw [spaceAt_cons, spaceAt_cons]
        by_cases h3 : a ≤ e.endAddress
        · rw [if_pos (by simp only; omega), if_pos (by omega)]
          rfl
        · rw [if_neg (by simp only; omega), if_neg (by omega), hc.at_links a (by omega) h2]
      · intro a h1
        rw [spaceAt_cons, if_neg (by omega), hc.at_top a h1]

/-! ## Merging -/

/-- The map in order, and it says the same about every address. -/
def Same (lo : Nat) (map : List Entry) (hi : Nat) (map' : List Entry) : Prop :=
  Tiled lo map' hi ∧ ∀ a, spaceAt map' a = spaceAt map a

theorem Same.refl (h : Tiled lo map hi) : Same lo map hi map := ⟨h, fun _ => rfl⟩

theorem Same.trans {map' map'' : List Entry} (h : Same lo map hi map') (h' : Same lo map' hi map'') :
    Same lo map hi map'' :=
  ⟨h'.1, fun a => (h'.2 a).trans (h.2 a)⟩

theorem same_join {x y z : Entry} {l₁ l₂ : List Entry} (h : Tiled lo (l₁ ++ x :: y :: l₂) hi)
    (hf : z.baseAddress = x.baseAddress) (hz : z.endAddress = y.endAddress) (hx : z.toSpace = x.toSpace)
    (hy : x.toSpace = y.toSpace) : Same lo (l₁ ++ x :: y :: l₂) hi (l₁ ++ z :: l₂) :=
  ⟨h.join hf hz, fun _ => h.valueAt_join hf hz hx hy⟩

theorem coreMergeGcdMapEntry_of_ne {forward : Bool} {adjacent : Entry} {rest : List Entry}
    (h : e.toSpace ≠ adjacent.toSpace) : coreMergeGcdMapEntry forward e (adjacent :: rest) = (e, adjacent :: rest) :=
  if_pos h

theorem coreMergeGcdMapEntry_backward {adjacent : Entry} {rest : List Entry} (h : e.toSpace = adjacent.toSpace) :
    coreMergeGcdMapEntry false e (adjacent :: rest) = ({ e with baseAddress := adjacent.baseAddress }, rest) := by
  simp [coreMergeGcdMapEntry, h]

theorem coreMergeGcdMapEntry_forward {adjacent : Entry} {rest : List Entry} (h : e.toSpace = adjacent.toSpace) :
    coreMergeGcdMapEntry true e (adjacent :: rest) = ({ e with endAddress := adjacent.endAddress }, rest) := by
  simp [coreMergeGcdMapEntry, h]

theorem merge_backward {before : List Entry} {link : Entry} {after : List Entry}
    (h : Tiled lo (before.reverse ++ link :: after) hi) :
    Same lo (before.reverse ++ link :: after) hi
      ((coreMergeGcdMapEntry false link before).2.reverse ++ (coreMergeGcdMapEntry false link before).1 :: after) := by
  cases before with
  | nil => exact .refl h
  | cons adjacent before =>
    by_cases heq : link.toSpace = adjacent.toSpace
    · rw [coreMergeGcdMapEntry_backward heq]
      rw [List.reverse_cons, List.append_assoc, List.singleton_append] at h ⊢
      exact same_join (z := { link with baseAddress := adjacent.baseAddress }) h rfl rfl heq heq.symm
    · rw [coreMergeGcdMapEntry_of_ne heq]
      exact .refl h

theorem merge_forward {before after : List Entry} {link : Entry} (h : Tiled lo (before ++ link :: after) hi) :
    Same lo (before ++ link :: after) hi
      (before ++ (coreMergeGcdMapEntry true link after).1 :: (coreMergeGcdMapEntry true link after).2) := by
  cases after with
  | nil => exact .refl h
  | cons adjacent after =>
    by_cases heq : link.toSpace = adjacent.toSpace
    · rw [coreMergeGcdMapEntry_forward heq]
      exact same_join (z := { link with endAddress := adjacent.endAddress }) h rfl rfl rfl heq
    · rw [coreMergeGcdMapEntry_of_ne heq]
      exact .refl h

theorem cleanupLoop_cons {before rest : List Entry} {link : Entry} :
    cleanupLoop before (link :: rest) =
      cleanupLoop ((coreMergeGcdMapEntry false link before).1 :: (coreMergeGcdMapEntry false link before).2) rest :=
  rfl

theorem cleanupLoop_same {before links after : List Entry} (h : Tiled lo (before.reverse ++ (links ++ after)) hi) :
    Same lo (before.reverse ++ (links ++ after)) hi ((cleanupLoop before links).reverse ++ after) := by
  induction links generalizing before with
  | nil => exact .refl h
  | cons link rest ih =>
    rw [List.cons_append] at h ⊢
    have hm := merge_backward h
    refine hm.trans ?_
    rw [cleanupLoop_cons]
    have h' := hm.1
    generalize coreMergeGcdMapEntry false link before = r at h' ⊢
    rw [show r.2.reverse ++ r.1 :: (rest ++ after) = (r.1 :: r.2).reverse ++ (rest ++ after) by simp] at h' ⊢
    exact ih h'

/-- The last link is never merged away. -/
theorem cleanupLoop_ne_nil {before links : List Entry} (h : before ≠ [] ∨ links ≠ []) :
    cleanupLoop before links ≠ [] := by
  induction links generalizing before with
  | nil => exact h.resolve_right (by simp)
  | cons link rest ih =>
    rw [cleanupLoop_cons]
    exact ih (.inl (by simp))

theorem cleanup_same {before links after : List Entry} (h : Tiled lo (before ++ (links ++ after)) hi)
    (hne : links ≠ []) : Same lo (before ++ (links ++ after)) hi (coreCleanupGcdMapEntry before links after) := by
  have hb : before.reverse.reverse = before := List.reverse_reverse before
  have hloop := cleanupLoop_same (show Tiled lo (before.reverse.reverse ++ (links ++ after)) hi by rw [hb]; exact h)
  rw [hb] at hloop
  unfold coreCleanupGcdMapEntry
  cases hc : cleanupLoop before.reverse links with
  | nil => exact absurd hc (cleanupLoop_ne_nil (.inr hne))
  | cons endLink before' =>
    rw [hc, List.reverse_cons, List.append_assoc, List.singleton_append] at hloop
    exact hloop.trans (merge_forward hloop.1)

/-! ## The whole conversion -/

/-- A conversion changes what the map says about the range, and nothing else. -/
theorem convertFound_spec {s t : Nat} (convert : Space → Space)
    (hf : Finds lo map hi baseAddress length found s t) (hl : 0 < length)
    (hw : baseAddress + length ≤ 2 ^ 64) (hi' : hi ≤ 2 ^ 64) :
    ∃ map', convertFound convert baseAddress length found = some map' ∧ Tiled lo map' hi ∧
      ∀ a, spaceAt map' a = if baseAddress ≤ a ∧ a < baseAddress + length then (spaceAt map a).map convert
        else spaceAt map a := by
  have ht := hf.after.le
  have hs := hf.before.le
  have hbase := hf.base_ge
  have hlast := hf.last_lt
  obtain ⟨bottom, links', top, heq, hc⟩ := convertLoop_spec convert hl hw (by omega) hf.links hf.nonempty
    hf.last_lt hf.overlap
  have hmax : max s baseAddress = baseAddress := by omega
  have hb := hc.tiled_bottom
  have hlk := hc.tiled_links
  rw [hmax] at hb hlk
  have hbefore := hf.before.append hb
  have hafter := hc.tiled_top.append hf.after
  have hne : links' ≠ [] := by
    rintro rfl
    have : baseAddress = baseAddress + length := hlk
    omega
  have hsame := cleanup_same (hbefore.append (hlk.append hafter)) hne
  refine ⟨_, by rw [convertFound, heq]; rfl, hsame.1, fun a => ?_⟩
  have hat_bottom := hc.at_bottom a
  have hat_links := hc.at_links a
  have hat_top := hc.at_top a
  rw [hmax] at hat_links
  have hmap : spaceAt map a = spaceAt (found.before ++ (found.links ++ found.after)) a := by
    rw [← List.append_assoc, ← hf.split]
  rw [hsame.2 a, hmap]
  simp only [spaceAt] at hat_bottom hat_links hat_top ⊢
  rw [hbefore.valueAt_append, hf.before.valueAt_append, hlk.valueAt_append, hc.tiled_top.valueAt_append,
    hf.before.valueAt_append, hf.links.valueAt_append]
  by_cases h1 : a < s
  · have hr : ¬ (baseAddress ≤ a ∧ a < baseAddress + length) := by omega
    have hm : ¬ (s ≤ a ∧ a < t) := by omega
    have ht' : ¬ (baseAddress + length ≤ a ∧ a < t) := by omega
    by_cases h0 : lo ≤ a
    · simp only [if_neg hr, if_pos (show lo ≤ a ∧ a < baseAddress by omega), if_pos (show lo ≤ a ∧ a < s by omega)]
    · simp only [if_neg hr, if_neg hm, if_neg ht', if_neg (show ¬ (lo ≤ a ∧ a < baseAddress) by omega),
        if_neg (show ¬ (lo ≤ a ∧ a < s) by omega)]
  · have hs' : ¬ (lo ≤ a ∧ a < s) := by omega
    by_cases h2 : t ≤ a
    · simp only [if_neg hs', if_neg (show ¬ (baseAddress ≤ a ∧ a < baseAddress + length) by omega),
        if_neg (show ¬ (s ≤ a ∧ a < t) by omega), if_neg (show ¬ (baseAddress + length ≤ a ∧ a < t) by omega),
        if_neg (show ¬ (lo ≤ a ∧ a < baseAddress) by omega)]
    · have hm : s ≤ a ∧ a < t := by omega
      by_cases h3 : a < baseAddress
      · simp only [if_neg hs', if_pos hm, if_pos (show lo ≤ a ∧ a < baseAddress by omega),
          if_neg (show ¬ (baseAddress ≤ a ∧ a < baseAddress + length) by omega), hat_bottom hm.1 h3]
      · have hb' : ¬ (lo ≤ a ∧ a < baseAddress) := by omega
        by_cases h4 : a < baseAddress + length
        · simp only [if_neg hs', if_pos hm, if_neg hb',
            if_pos (show baseAddress ≤ a ∧ a < baseAddress + length by omega), hat_links (by omega) h4]
        · simp only [if_neg hs', if_pos hm, if_neg hb',
            if_neg (show ¬ (baseAddress ≤ a ∧ a < baseAddress + length) by omega),
            if_pos (show baseAddress + length ≤ a ∧ a < t by omega), hat_top (by omega)]

end

end Udk.Gcd
