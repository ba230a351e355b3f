import Udk.Variable.Copies

/-! # What `Reclaim` keeps

The passes of `Reclaim` on the records of a store: first the `VAR_ADDED` ones, then the one that is
updated, then the ones in delete transition that have no copy yet.
-/

namespace Udk.Variable

/-- A record in delete transition becomes `VAR_ADDED` if it has no copy yet. -/
def promote (b : List Record) (r : Record) : List Record :=
  if r.isInDeleted && !b.any fun x => x.sameAs r then b ++ [r.setState varAdded] else b

/-- The records after `Reclaim`. `u` is the variable that is updated. -/
def reclaimed (u : Option Record) (recs : List Record) : List Record :=
  recs.foldl promote ((recs.filter fun r => r.isAdded && !u.any fun x => r.sameAs x) ++ u.toList)

/-- The copies of a variable that are left of `l`. -/
def kept (l : List Record) : List Record :=
  if l.filter Record.isAdded = [] then (l.head?.map fun r => r.setState varAdded).toList
  else l.filter Record.isAdded

@[simp] theorem isAdded_setState_added (r : Record) : (r.setState varAdded).isAdded = true := rfl

@[simp] theorem isLive_setState_added (r : Record) : (r.setState varAdded).isLive = true := rfl

theorem isLive_of_added {r : Record} (h : r.isAdded = true) : r.isLive = true := by simp [Record.isLive, h]

theorem isLive_of_inDeleted {r : Record} (h : r.isInDeleted = true) : r.isLive = true := by
  simp [Record.isLive, h]

/-! ## The copies that are kept -/

section
variable {k : Key}

theorem any_sameAs_iff {b : List Record} {r : Record} (hb : ∀ x ∈ b, x.isLive = true) (hk : r.has k = true) :
    (b.any fun x => x.sameAs r) = true ↔ copies k b ≠ [] := by
  rw [List.any_eq_true, ne_eq, copies_eq_nil]
  constructor
  · rintro ⟨x, hx, hs⟩ hno
    rw [Record.sameAs_comm, Record.sameAs_of_has hk, hno x hx (hb x hx)] at hs
    cases hs
  · intro h
    by_contra hno
    apply h
    intro x hx _
    by_contra hxk
    apply hno
    refine ⟨x, hx, ?_⟩
    rw [Record.sameAs_comm, Record.sameAs_of_has hk]
    simpa using hxk

theorem promote_live {b : List Record} {r : Record} (hb : ∀ x ∈ b, x.isLive = true) :
    ∀ x ∈ promote b r, x.isLive = true := by
  intro x hx
  unfold promote at hx
  split at hx
  · rcases List.mem_append.mp hx with hx | hx
    · exact hb x hx
    · rw [List.mem_singleton.mp hx]; rfl
  · exact hb x hx

theorem copies_promote {b : List Record} {r : Record} (hb : ∀ x ∈ b, x.isLive = true) :
    copies k (promote b r) =
      if copies k b = [] ∧ r.isInDeleted = true ∧ r.has k = true then [r.setState varAdded] else copies k b := by
  unfold promote
  cases hd : r.isInDeleted with
  | false => simp
  | true =>
    cases hk : r.has k with
    | false =>
      simp only [Bool.true_and, Bool.false_eq_true, and_false, if_false]
      split
      · rw [copies_append, copies_cons_other k _ _ (by simpa using hk), copies_nil, List.append_nil]
      · rfl
    | true =>
      have hany := any_sameAs_iff hb hk
      by_cases hc : copies k b = []
      · have : (b.any fun x => x.sameAs r) = false := by
          rw [Bool.eq_false_iff, ne_eq, hany]; simpa using hc
        rw [this, if_pos (by simp), if_pos ⟨hc, rfl, rfl⟩, copies_append, hc,
          copies_cons_pos k _ _ rfl (by simpa using hk)]
        rfl
      · rw [hany.mpr hc, if_neg (by simp), if_neg (by simp [hc])]

theorem copies_foldl_promote (recs b : List Record) (hb : ∀ x ∈ b, x.isLive = true) :
    copies k (recs.foldl promote b) =
      if copies k b = [] then
        (((copies k recs).filter Record.isInDeleted).head?.map fun r => r.setState varAdded).toList
      else copies k b := by
  induction recs generalizing b with
  | nil => by_cases h : copies k b = [] <;> simp [h]
  | cons r rs ih =>
    rw [List.foldl_cons, ih _ (promote_live hb), copies_promote hb]
    by_cases hb0 : copies k b = []
    · cases hd : r.isInDeleted with
      | false =>
        have : (copies k (r :: rs)).filter Record.isInDeleted = (copies k rs).filter Record.isInDeleted := by
          by_cases hl : r.isLive = true ∧ r.has k = true
          · rw [copies_cons_pos k r rs hl.1 hl.2, List.filter_cons_of_neg (by simp [hd])]
          · rw [copies, List.filter_cons_of_neg (by simpa using hl)]; rfl
        rw [this]
        simp [hb0]
      | true =>
        cases hk : r.has k with
        | false => rw [copies_cons_other k r rs hk]; simp [hb0]
        | true =>
          rw [copies_cons_pos k r rs (isLive_of_inDeleted hd) hk, List.filter_cons_of_pos hd]
          simp [hb0]
    · simp [hb0]

theorem copies_filter_added (recs : List Record) (u : Option Record)
    (hu : ∀ x, u = some x → x.has k = false) :
    copies k ((recs.filter fun r => r.isAdded && !u.any fun x => r.sameAs x) ++ u.toList) =
      (copies k recs).filter Record.isAdded := by
  have hul : copies k u.toList = [] := by
    rw [copies_eq_nil]
    intro x hx _
    exact hu x (by simpa using hx)
  rw [copies_append, hul, List.append_nil, copies, copies, List.filter_filter, List.filter_filter]
  apply List.filter_congr
  intro r _
  cases hk : r.has k with
  | false => simp
  | true =>
    have : (u.any fun x => r.sameAs x) = false := by
      cases u with
      | none => rfl
      | some x => simpa [Record.sameAs_of_has hk] using hu x rfl
    rw [this]
    cases ha : r.isAdded <;> simp [Record.isLive, ha]

theorem start_live (recs : List Record) (u : Option Record) (hu : ∀ x, u = some x → x.isLive = true) :
    ∀ x ∈ (recs.filter fun r => r.isAdded && !u.any fun x => r.sameAs x) ++ u.toList, x.isLive = true := by
  intro x hx
  rcases List.mem_append.mp hx with hx | hx
  · rw [List.mem_filter, Bool.and_eq_true] at hx
    exact isLive_of_added hx.2.1
  · exact hu x (by simpa using hx)

/-- Of every other variable the `VAR_ADDED` copy is kept, or else the first copy. -/
theorem copies_reclaimed (recs : List Record) (u : Option Record) (hl : ∀ x, u = some x → x.isLive = true)
    (hu : ∀ x, u = some x → x.has k = false) : copies k (reclaimed u recs) = kept (copies k recs) := by
  rw [reclaimed, copies_foldl_promote _ _ (start_live recs u hl), copies_filter_added recs u hu, kept]
  by_cases h : (copies k recs).filter Record.isAdded = []
  · have : (copies k recs).filter Record.isInDeleted = copies k recs := by
      rw [List.filter_eq_self]
      intro r hr
      have hna := List.filter_eq_nil_iff.mp h r hr
      have := (mem_copies.mp hr).2.1
      simpa [Record.isLive, hna] using this
    simp [h, this]
  · simp [h]

/-- Of the variable that is updated only the copy that is updated is kept. -/
theorem copies_reclaimed_self (recs : List Record) (u : Record) (hl : u.isLive = true) (hk : u.has k = true) :
    copies k (reclaimed (some u) recs) = [u] := by
  have h : copies k ((recs.filter fun r => r.isAdded && !(some u).any fun x => r.sameAs x) ++
      (some u).toList) = [u] := by
    rw [copies_append, Option.toList_some, copies_cons_pos k u [] hl hk, copies_nil]
    have : copies k (recs.filter fun r => r.isAdded && !(some u).any fun x => r.sameAs x) = [] := by
      rw [copies_eq_nil]
      intro r hr _
      rw [List.mem_filter, Bool.and_eq_true] at hr
      have hs : r.sameAs u = false := by simpa using hr.2.2
      rwa [Record.sameAs_comm, Record.sameAs_of_has hk] at hs
    rw [this, List.nil_append]
  rw [reclaimed, copies_foldl_promote _ _ (start_live recs _ (by rintro x ⟨⟩; exact hl)), h, if_neg (by simp)]

end

/-! ## The store stays good -/

theorem promote_good {b : List Record} {r : Record} (hb : Good b) (hr : r.isLive = true → r.Named ∧ 0 < r.dataSize) :
    Good (promote b r) := by
  unfold promote
  split
  · rename_i h
    rw [Bool.and_eq_true] at h
    rw [good_append]
    refine ⟨hb, good_cons.mpr ⟨fun _ => hr (isLive_of_inDeleted h.1), good_nil, by simp⟩, ?_⟩
    intro x hx q hq _ _
    rw [List.mem_singleton.mp hq, Record.sameAs_setState]
    have := h.2
    rw [Bool.not_eq_true', List.any_eq_false] at this
    simpa using this x hx
  · exact hb

theorem reclaimed_good {recs : List Record} (u : Option Record) (hg : Good recs)
    (hu : ∀ x, u = some x → x.isInDeleted = true ∧ x.Named ∧ 0 < x.dataSize) : Good (reclaimed u recs) := by
  have hstart : Good ((recs.filter fun r => r.isAdded && !u.any fun x => r.sameAs x) ++ u.toList) := by
    rw [good_append]
    refine ⟨⟨fun r hr => hg.named r (List.mem_filter.mp hr).1, fun r hr => hg.data_pos r (List.mem_filter.mp hr).1,
      hg.newest.sublist List.filter_sublist⟩, ?_, ?_⟩
    · cases u with
      | none => exact good_nil
      | some x => exact good_cons.mpr ⟨fun _ => (hu x rfl).2, good_nil, by simp⟩
    · intro r hr q hq _ _
      rw [List.mem_filter, Bool.and_eq_true] at hr
      obtain rfl : u = some q := by simpa using hq
      simpa using hr.2.2
  have hfold : ∀ (l b : List Record), (∀ r ∈ l, r.isLive = true → r.Named ∧ 0 < r.dataSize) → Good b →
      Good (l.foldl promote b) := by
    intro l
    induction l with
    | nil => intro b _ hb; exact hb
    | cons r rs ih =>
      intro b hl hb
      exact ih _ (fun q hq => hl q (by simp [hq])) (promote_good hb (hl r (by simp)))
  exact hfold recs _ (fun r hr hl => ⟨hg.named r hr hl, hg.data_pos r hr hl⟩) hstart

theorem reclaimed_live {recs : List Record} (u : Option Record) (hu : ∀ x, u = some x → x.isLive = true) :
    ∀ x ∈ reclaimed u recs, x.isLive = true := by
  have hfold : ∀ (l b : List Record), (∀ x ∈ b, x.isLive = true) → ∀ x ∈ l.foldl promote b, x.isLive = true := by
    intro l
    induction l with
    | nil => intro b hb; exact hb
    | cons r rs ih => intro b hb; exact ih _ (promote_live hb)
  exact hfold recs _ (start_live recs u hu)

/-- A record that is kept is one of the store, up to its state. -/
theorem mem_reclaimed {recs : List Record} {u : Option Record} {x : Record} (hx : x ∈ reclaimed u recs) :
    u = some x ∨ ∃ r ∈ recs, x = r ∨ x = r.setState varAdded := by
  have hfold : ∀ (l b : List Record), x ∈ l.foldl promote b → x ∈ b ∨ ∃ r ∈ l, x = r.setState varAdded := by
    intro l
    induction l with
    | nil => intro b hb; exact .inl hb
    | cons r rs ih =>
      intro b hb
      rcases ih _ hb with h | ⟨q, hq, h⟩
      · unfold promote at h
        split at h
        · rcases List.mem_append.mp h with h | h
          · exact .inl h
          · exact .inr ⟨r, by simp, List.mem_singleton.mp h⟩
        · exact .inl h
      · exact .inr ⟨q, by simp [hq], h⟩
  rcases hfold recs _ hx with h | ⟨r, hr, h⟩
  · rcases List.mem_append.mp h with h | h
    · exact .inr ⟨x, (List.mem_filter.mp h).1, .inl rfl⟩
    · exact .inl (by simpa using h)
  · exact .inr ⟨r, hr, .inr h⟩

/-! ## The store does not grow -/

/-- A sum over the records. -/
def weight (w : Record → Nat) (recs : List Record) : Nat := (recs.map w).sum

@[simp] theorem weight_nil (w : Record → Nat) : weight w [] = 0 := rfl
@[simp] theorem weight_cons (w : Record → Nat) (r : Record) (rs : List Record) :
    weight w (r :: rs) = w r + weight w rs := by simp [weight]
@[simp] theorem weight_append (w : Record → Nat) (xs ys : List Record) :
    weight w (xs ++ ys) = weight w xs + weight w ys := by simp [weight]

theorem weight_setState (w : Record → Nat) (hw : ∀ r st, w (r.setState st) = w r) (pre post : List Record)
    (r : Record) (st : UInt8) : weight w (pre ++ r.setState st :: post) = weight w (pre ++ r :: post) := by
  simp [hw]

theorem weight_filter_le (w : Record → Nat) (p : Record → Bool) (recs : List Record) :
    weight w (recs.filter p) ≤ weight w recs := by
  induction recs with
  | nil => simp
  | cons r rs ih =>
    rw [weight_cons]
    by_cases h : p r = true
    · rw [List.filter_cons_of_pos h, weight_cons]; omega
    · rw [List.filter_cons_of_neg h]; omega

/-- The `VAR_ADDED` records and the ones in delete transition are different ones. -/
theorem weight_split_le (w : Record → Nat) (p : Record → Bool) (recs : List Record) :
    weight w (recs.filter fun r => r.isAdded && p r) + weight w (recs.filter Record.isInDeleted) ≤
      weight w (recs.filter Record.isLive) := by
  induction recs with
  | nil => simp
  | cons r rs ih =>
    cases hd : r.isInDeleted with
    | true =>
      have ha := r.inDeleted_not_added hd
      rw [List.filter_cons_of_neg (by simp [ha]), List.filter_cons_of_pos hd,
        List.filter_cons_of_pos (isLive_of_inDeleted hd), weight_cons, weight_cons]
      omega
    | false =>
      rw [List.filter_cons_of_neg (p := Record.isInDeleted) (by simp [hd])]
      cases ha : r.isAdded with
      | true =>
        rw [List.filter_cons_of_pos (isLive_of_added ha), weight_cons]
        by_cases hp : p r = true
        · rw [List.filter_cons_of_pos (by simp [ha, hp]), weight_cons]; omega
        · rw [List.filter_cons_of_neg (by simp [hp])]; omega
      | false =>
        rw [List.filter_cons_of_neg (by simp [ha]), List.filter_cons_of_neg (by simp [Record.isLive, ha, hd])]
        exact ih

section
variable (w : Record → Nat) (hw : ∀ r st, w (r.setState st) = w r)

include hw

theorem weight_foldl_promote (recs b : List Record) :
    weight w (recs.foldl promote b) ≤ weight w b + weight w (recs.filter Record.isInDeleted) := by
  induction recs generalizing b with
  | nil => simp
  | cons r rs ih =>
    rw [List.foldl_cons]
    refine Nat.le_trans (ih _) ?_
    unfold promote
    cases hd : r.isInDeleted with
    | true =>
      rw [List.filter_cons_of_pos hd, weight_cons]
      split
      · rw [weight_append, weight_cons, weight_nil, hw]; omega
      · omega
    | false => rw [List.filter_cons_of_neg (by simp [hd])]; simp

theorem weight_reclaimed_none (recs : List Record) :
    weight w (reclaimed none recs) ≤ weight w (recs.filter Record.isLive) := by
  have h1 := weight_foldl_promote w hw recs (recs.filter fun r => r.isAdded && true)
  have h2 := weight_split_le w (fun _ => true) recs
  simp only [reclaimed, Option.any_none, Bool.not_false, Option.toList_none, List.append_nil]
  omega

/-- The variable that is updated is copied once: it is in delete transition, and has a copy when the
last pass comes to it. -/
theorem weight_reclaimed_some (pre post : List Record) (u : Record) (hu : u.isInDeleted = true) :
    weight w (reclaimed (some u) (pre ++ u :: post)) ≤
      weight w ((pre ++ u :: post).filter Record.isLive) := by
  have hmem : ∀ (l b : List Record), u ∈ b → u ∈ l.foldl promote b := by
    intro l
    induction l with
    | nil => intro b hb; exact hb
    | cons r rs ih =>
      intro b hb
      refine ih _ ?_
      unfold promote
      split
      · exact List.mem_append_left _ hb
      · exact hb
  have hself : ∀ b : List Record, u ∈ b → promote b u = b := by
    intro b hb
    unfold promote
    rw [if_neg]
    rw [Bool.and_eq_true, not_and, Bool.not_eq_true', List.any_eq_false]
    intro _ hno
    exact hno u hb (Record.sameAs_iff.mpr ⟨rfl, rfl⟩)
  let p : Record → Bool := fun r => !(some u).any fun x => r.sameAs x
  have hna := u.inDeleted_not_added hu
  have h1 := weight_foldl_promote w hw post
    (pre.foldl promote ((pre.filter (fun r => r.isAdded && p r) ++ post.filter (fun r => r.isAdded && p r)) ++ [u]))
  have h2 := weight_foldl_promote w hw pre
    ((pre.filter (fun r => r.isAdded && p r) ++ post.filter (fun r => r.isAdded && p r)) ++ [u])
  have h3 := weight_split_le w p pre
  have h4 := weight_split_le w p post
  have hfilter : (pre ++ u :: post).filter (fun r => r.isAdded && p r) =
      pre.filter (fun r => r.isAdded && p r) ++ post.filter (fun r => r.isAdded && p r) := by
    rw [List.filter_append, List.filter_cons_of_neg (by simp [hna])]
  rw [reclaimed]
  show weight w ((pre ++ u :: post).foldl promote ((pre ++ u :: post).filter (fun r => r.isAdded && p r) ++ [u])) ≤ _
  rw [hfilter, List.foldl_append, List.foldl_cons, hself _ (hmem _ _ (by simp)), List.filter_append,
    List.filter_cons_of_pos (isLive_of_inDeleted hu)]
  simp only [weight_append, weight_cons, weight_nil] at *
  omega

end

end Udk.Variable
