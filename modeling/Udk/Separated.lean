import Mathlib.Algebra.GroupWithZero.Nat
import Mathlib.Data.List.Basic
import Mathlib.Data.List.Infix

/-! # Strings of items

Each item stands behind a separator, which is in no item. A pattern that starts with the separator is only found where
an item starts.
-/

namespace Udk.Separated

variable {α : Type} [DecidableEq α] {sep : α}

/-- The string from the first place on where `p` is. -/
def search (p : List α) : List α → Option (List α)
  | [] => if p = [] then some [] else none
  | c :: s => if p.isPrefixOf (c :: s) then some (c :: s) else search p s

theorem search_some {p s t : List α} (h : search p s = some t) : p <+: t ∧ t <:+ s := by
  induction s with
  | nil =>
    unfold search at h
    split at h
    · rename_i hp
      obtain rfl := Option.some.inj h
      exact ⟨hp ▸ List.nil_prefix, List.suffix_refl _⟩
    · cases h
  | cons c s ih =>
    unfold search at h
    split at h
    · rename_i hp
      obtain rfl := Option.some.inj h
      exact ⟨List.isPrefixOf_iff_prefix.mp hp, List.suffix_refl _⟩
    · obtain ⟨h1, h2⟩ := ih h
      exact ⟨h1, h2.trans (List.suffix_cons _ _)⟩

theorem search_eq_none {p s : List α} : search p s = none ↔ ¬p <:+: s := by
  induction s with
  | nil =>
    unfold search
    rw [List.infix_nil]
    split
    · rename_i hp
      simp [hp]
    · rename_i hp
      simp [hp]
  | cons c s ih =>
    unfold search
    rw [List.infix_cons_iff]
    split
    · rename_i hp
      simp [List.isPrefixOf_iff_prefix.mp hp]
    · rename_i hp
      rw [ih]
      have hp : ¬p <+: c :: s := fun h => hp (List.isPrefixOf_iff_prefix.mpr h)
      simp [hp]

/-- What is found is still found when the string goes on. -/
theorem search_append {p s t : List α} (h : search p s = some t) (u : List α) : search p (s ++ u) = some (t ++ u) := by
  induction s with
  | nil =>
    unfold search at h
    split at h
    · rename_i hp
      obtain rfl := Option.some.inj h
      subst hp
      cases u with
      | nil => rfl
      | cons c u => rfl
    · cases h
  | cons c s ih =>
    have hfound := search_some h
    unfold search at h
    rw [List.cons_append, search.eq_2]
    split at h
    · rename_i hp
      obtain rfl := Option.some.inj h
      have hp : p.isPrefixOf (c :: (s ++ u)) = true :=
        List.isPrefixOf_iff_prefix.mpr ((List.isPrefixOf_iff_prefix.mp hp).trans (List.prefix_append (c :: s) u))
      rw [if_pos hp, List.cons_append]
    · rename_i hp
      rw [if_neg, ih h]
      intro hlong
      have hlength : p.length ≤ (c :: s).length := Nat.le_trans hfound.1.length_le hfound.2.length_le
      exact hp (List.isPrefixOf_iff_prefix.mpr (List.prefix_of_prefix_length_le
        (List.isPrefixOf_iff_prefix.mp hlong) (List.prefix_append (c :: s) u) hlength))

/-! ## Items -/

variable (sep) in
/-- The items, each behind a separator. -/
def joined (items : List (List α)) : List α := items.flatMap (sep :: ·)

omit [DecidableEq α] in
@[simp] theorem joined_nil : joined sep [] = [] := rfl

omit [DecidableEq α] in
@[simp] theorem joined_cons (a : List α) (items : List (List α)) :
    joined sep (a :: items) = sep :: (a ++ joined sep items) := rfl

omit [DecidableEq α] in
@[simp] theorem joined_append (l l' : List (List α)) : joined sep (l ++ l') = joined sep l ++ joined sep l' :=
  List.flatMap_append

variable (sep) in
def Plain (a : List α) : Prop := sep ∉ a

omit [DecidableEq α] in
theorem Plain.tail {c : α} {a : List α} (h : Plain sep (c :: a)) : Plain sep a := fun hin =>
  h (List.mem_cons_of_mem _ hin)

omit [DecidableEq α] in
theorem Plain.ne {c : α} {a : List α} (h : Plain sep (c :: a)) : c ≠ sep := fun heq => h (heq ▸ List.mem_cons_self)

variable (sep) in
/-- The end of a string, or another item. -/
def Follows (s : List α) : Prop := s = [] ∨ ∃ t, s = sep :: t

omit [DecidableEq α] in
theorem follows_joined (items : List (List α)) : Follows sep (joined sep items) := by
  cases items with
  | nil => exact .inl rfl
  | cons a items => exact .inr ⟨_, rfl⟩

omit [DecidableEq α] in
/-- What starts with an item and a separator has the same first item. -/
theorem prefix_item {a b u s : List α} (ha : Plain sep a) (hb : Plain sep b) (hs : Follows sep s) :
    a ++ sep :: u <+: b ++ s ↔ a = b ∧ sep :: u <+: s := by
  induction a generalizing b with
  | nil =>
    cases b with
    | nil => simp
    | cons d b =>
      simp only [List.nil_append, List.cons_append, List.cons_prefix_cons, List.nil_eq, reduceCtorEq, false_and,
        iff_false, not_and]
      exact fun heq => absurd heq.symm hb.ne
  | cons c a ih =>
    cases b with
    | nil =>
      simp only [List.nil_append, List.cons_append, reduceCtorEq, false_and, iff_false]
      intro h
      rcases hs with rfl | ⟨t, rfl⟩
      · simp at h
      · exact ha.ne (List.cons_prefix_cons.mp h).1
    | cons d b =>
      rw [List.cons_append, List.cons_append, List.cons_prefix_cons, ih ha.tail hb.tail, List.cons.injEq, and_assoc]

omit [DecidableEq α] in
/-- The last item of a pattern may be the start of one. -/
theorem prefix_last {a b s : List α} (ha : Plain sep a) (hs : Follows sep s) : a <+: b ++ s ↔ a <+: b := by
  refine ⟨fun h => ?_, fun h => h.trans (List.prefix_append _ _)⟩
  induction a generalizing b with
  | nil => exact List.nil_prefix
  | cons c a ih =>
    cases b with
    | nil =>
      rcases hs with rfl | ⟨t, rfl⟩
      · simp at h
      · exact absurd (List.cons_prefix_cons.mp h).1 ha.ne
    | cons d b =>
      obtain ⟨rfl, hrest⟩ := List.cons_prefix_cons.mp h
      exact List.cons_prefix_cons.mpr ⟨rfl, ih ha.tail hrest⟩

omit [DecidableEq α] in
/-- Items are found where they are, but for the last one, which may go on. -/
theorem joined_isPrefix {xs items : List (List α)} {y : List α} (hxs : ∀ x ∈ xs, Plain sep x) (hy : Plain sep y)
    (hitems : ∀ a ∈ items, Plain sep a) :
    joined sep (xs ++ [y]) <+: joined sep items ↔ ∃ z rest, items = xs ++ z :: rest ∧ y <+: z := by
  induction xs generalizing items with
  | nil =>
    cases items with
    | nil => simp
    | cons a items =>
      rw [List.nil_append, joined_cons, joined_nil, List.append_nil, joined_cons, List.cons_prefix_cons,
        prefix_last hy (follows_joined items)]
      constructor
      · rintro ⟨-, h⟩
        exact ⟨a, items, rfl, h⟩
      · rintro ⟨z, rest, heq, h⟩
        obtain ⟨rfl, rfl⟩ := List.cons.inj heq
        exact ⟨rfl, h⟩
  | cons x xs ih =>
    cases items with
    | nil => simp
    | cons a items =>
      obtain ⟨u, hu⟩ : ∃ u, joined sep (xs ++ [y]) = sep :: u := by
        cases xs with
        | nil => exact ⟨_, rfl⟩
        | cons x' xs => exact ⟨_, rfl⟩
      rw [List.cons_append, joined_cons, joined_cons, List.cons_prefix_cons, hu,
        prefix_item (hxs x List.mem_cons_self) (hitems a List.mem_cons_self) (follows_joined items), ← hu,
        ih (fun x hx => hxs x (List.mem_cons_of_mem _ hx)) fun a ha => hitems a (List.mem_cons_of_mem _ ha)]
      constructor
      · rintro ⟨-, rfl, z, rest, rfl, h⟩
        exact ⟨z, rest, rfl, h⟩
      · rintro ⟨z, rest, heq, h⟩
        rw [List.cons_append, List.cons.injEq] at heq
        exact ⟨rfl, heq.1.symm, z, rest, heq.2, h⟩

/-- A pattern that starts with the separator is not in an item. -/
theorem search_skip {u a s : List α} (ha : Plain sep a) : search (sep :: u) (a ++ s) = search (sep :: u) s := by
  induction a with
  | nil => rfl
  | cons c a ih =>
    rw [List.cons_append, search, if_neg, ih ha.tail]
    intro h
    exact ha.ne (List.cons_prefix_cons.mp (List.isPrefixOf_iff_prefix.mp h)).1.symm

/-- Items that do not start like the pattern are gone past. -/
theorem search_past {g u : List α} {l m : List (List α)} (hg : g <+: u) (hplain : Plain sep g)
    (hl : ∀ a ∈ l, Plain sep a ∧ ¬g <+: a) : search (sep :: u) (joined sep (l ++ m)) = search (sep :: u) (joined sep m) := by
  induction l with
  | nil => rfl
  | cons a l ih =>
    obtain ⟨ha, hga⟩ := hl a List.mem_cons_self
    rw [List.cons_append, joined_cons, search, if_neg, search_skip ha, ih fun b hb => hl b (List.mem_cons_of_mem _ hb)]
    intro h
    have h := (List.cons_prefix_cons.mp (List.isPrefixOf_iff_prefix.mp h)).2
    exact hga ((prefix_last hplain (follows_joined _)).mp (hg.trans h))

/-! ## Patterns across a border -/

omit [DecidableEq α] in
/-- The rest from a separator on is made of items. -/
theorem split_joined {l : List (List α)} {u v : List α} (hl : ∀ a ∈ l, Plain sep a)
    (h : u ++ sep :: v = joined sep l) : ∃ l₁ l₂, l = l₁ ++ l₂ ∧ u = joined sep l₁ ∧ sep :: v = joined sep l₂ := by
  induction l generalizing u with
  | nil => simp at h
  | cons a l ih =>
    cases u with
    | nil => exact ⟨[], a :: l, rfl, rfl, h⟩
    | cons c u =>
      rw [joined_cons, List.cons_append, List.cons.injEq] at h
      obtain ⟨rfl, h⟩ := h
      rcases List.append_eq_append_iff.mp h with ⟨w, rfl, hw⟩ | ⟨w, rfl, hw⟩
      · cases w with
        | nil =>
          refine ⟨[u ++ []], l, rfl, by simp, hw⟩
        | cons d w =>
          rw [List.cons_append, List.cons.injEq] at hw
          exact absurd (List.mem_append_right _ (hw.1 ▸ List.mem_cons_self)) (hl _ List.mem_cons_self)
      · obtain ⟨l₁, l₂, rfl, rfl, h2⟩ := ih (fun b hb => hl b (List.mem_cons_of_mem _ hb)) hw.symm
        exact ⟨a :: l₁, l₂, rfl, rfl, h2⟩

omit [DecidableEq α] in
/-- A pattern is in one of two parts, when the second one does not start like an item of the pattern but the first. -/
theorem infix_append {x : List α} {xs items : List (List α)} {s : List α} (hx : Plain sep x)
    (hxs : ∀ y ∈ xs, Plain sep y) (hitems : ∀ a ∈ items, Plain sep a)
    (hhead : ∀ y ∈ xs, ∀ a, items.head? = some a → ¬y <+: a) :
    joined sep (x :: xs) <:+: s ++ joined sep items ↔
      joined sep (x :: xs) <:+: s ∨ joined sep (x :: xs) <:+: joined sep items := by
  constructor
  · rintro ⟨u, w, h⟩
    rw [List.append_assoc] at h
    rcases List.append_eq_append_iff.mp h with ⟨s', rfl, hs⟩ | ⟨s', rfl, hs⟩
    · rcases List.append_eq_append_iff.mp hs with ⟨v, rfl, hv⟩ | ⟨v, hp, hv⟩
      · exact .inl ⟨u, v, by simp⟩
      · -- the pattern goes over the border
        cases v with
        | nil => exact .inl ⟨u, [], by rw [hp]; simp⟩
        | cons c v =>
          cases items with
          | nil => simp at hv
          | cons a items =>
            rw [joined_cons, List.cons_append, List.cons.injEq] at hv
            obtain ⟨rfl, hv⟩ := hv
            obtain ⟨l₁, l₂, hl, hu, h2⟩ := split_joined (List.forall_mem_cons.mpr ⟨hx, hxs⟩) hp.symm
            have hprefix : joined sep l₂ <+: joined sep (a :: items) := by
              rw [← h2, joined_cons]
              exact ⟨w, by rw [List.cons_append, hv]⟩
            cases l₁ with
            | nil =>
              refine .inr ?_
              rw [hl, List.nil_append]
              exact hprefix.isInfix
            | cons x' l₁ =>
              obtain ⟨rfl, rfl⟩ := List.cons.inj hl
              exfalso
              rcases List.eq_nil_or_concat l₂ with rfl | ⟨init, y, rfl⟩
              · simp at h2
              · rw [List.concat_eq_append] at *
                have hplain : ∀ z ∈ init ++ [y], Plain sep z := fun z hz => hxs z (List.mem_append_right _ hz)
                obtain ⟨z, rest, heq, hz⟩ := (joined_isPrefix (fun z hz => hplain z (List.mem_append_left _ hz))
                  (hplain y (by simp)) hitems).mp hprefix
                cases init with
                | nil =>
                  obtain ⟨rfl, rfl⟩ := List.cons.inj heq
                  exact hhead y (by simp) a rfl hz
                | cons z' init =>
                  obtain ⟨rfl, rfl⟩ := List.cons.inj heq
                  exact hhead a (by simp) a rfl (List.prefix_refl _)
    · exact .inr ⟨s', w, by rw [List.append_assoc, hs]⟩
  · rintro (h | h)
    · exact h.trans (List.prefix_append _ _).isInfix
    · exact h.trans (List.suffix_append _ _).isInfix

end Udk.Separated
