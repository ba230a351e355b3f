import Mathlib.Algebra.GroupWithZero.Nat
import Mathlib.Data.List.Basic

/-! # Intervals end to end

A list of entries, each of which takes the numbers from `first` to `last`, and what lies at a number.
-/

namespace Udk

section
variable {α β : Type} (first last : α → Nat)

/-- The entries lie end to end from `lo` to just below `hi`, in ascending order. -/
def Tiles (lo : Nat) : List α → Nat → Prop
  | [], hi => lo = hi
  | e :: l, hi => first e = lo ∧ lo ≤ last e ∧ Tiles (last e + 1) l hi

def covers (e : α) (a : Nat) : Bool := first e ≤ a && a ≤ last e

/-- What the entry at `a` holds. -/
def valueAt (value : α → β) (l : List α) (a : Nat) : Option β :=
  (l.find? (covers first last · a)).map value

variable {first last} {lo mid hi a : Nat} {e : α} {l l₁ l₂ : List α} {value : α → β}

theorem covers_iff : covers first last e a = true ↔ first e ≤ a ∧ a ≤ last e := by
  simp [covers]

/-! ## Cutting and joining -/

theorem Tiles.le (h : Tiles first last lo l hi) : lo ≤ hi := by
  induction l generalizing lo with
  | nil => exact Nat.le_of_eq h
  | cons e l ih =>
    obtain ⟨-, hle, h⟩ := h
    have := ih h
    omega

theorem tiles_append :
    Tiles first last lo (l₁ ++ l₂) hi ↔ ∃ mid, Tiles first last lo l₁ mid ∧ Tiles first last mid l₂ hi := by
  induction l₁ generalizing lo with
  | nil => exact ⟨fun h => ⟨lo, rfl, h⟩, by rintro ⟨_, rfl, h⟩; exact h⟩
  | cons e l₁ ih =>
    simp only [List.cons_append, Tiles, ih]
    exact ⟨fun ⟨hf, hle, mid, h1, h2⟩ => ⟨mid, ⟨hf, hle, h1⟩, h2⟩,
      fun ⟨mid, ⟨hf, hle, h1⟩, h2⟩ => ⟨hf, hle, mid, h1, h2⟩⟩

theorem Tiles.append (h1 : Tiles first last lo l₁ mid) (h2 : Tiles first last mid l₂ hi) :
    Tiles first last lo (l₁ ++ l₂) hi :=
  tiles_append.mpr ⟨mid, h1, h2⟩

theorem Tiles.mem (h : Tiles first last lo l hi) (he : e ∈ l) : lo ≤ first e ∧ first e ≤ last e ∧ last e < hi := by
  induction l generalizing lo with
  | nil => simp at he
  | cons x l ih =>
    obtain ⟨hf, hle, h⟩ := h
    rcases List.mem_cons.mp he with rfl | he
    · have := h.le
      omega
    · have := ih h he
      omega

/-- Two entries that are not the same lie apart. -/
theorem Tiles.apart {x y : α} (h : Tiles first last lo l hi) (hx : x ∈ l) (hy : y ∈ l) :
    x = y ∨ last x < first y ∨ last y < first x := by
  induction l generalizing lo with
  | nil => simp at hx
  | cons e l ih =>
    obtain ⟨-, -, h⟩ := h
    rw [List.mem_cons] at hx hy
    rcases hx with rfl | hx <;> rcases hy with rfl | hy
    · exact .inl rfl
    · have := h.mem hy
      exact .inr (.inl (by omega))
    · have := h.mem hx
      exact .inr (.inr (by omega))
    · exact ih h hx hy

theorem Tiles.nodup (h : Tiles first last lo l hi) : (l.map first).Nodup := by
  induction l generalizing lo with
  | nil => simp
  | cons e l ih =>
    obtain ⟨hf, hle, h⟩ := h
    rw [List.map_cons, List.nodup_cons]
    refine ⟨?_, ih h⟩
    rw [List.mem_map]
    rintro ⟨x, hx, hxe⟩
    have := h.mem hx
    omega

theorem Tiles.congr {first' last' : α → Nat} (h : Tiles first last lo l hi)
    (hf : ∀ e ∈ l, first' e = first e ∧ last' e = last e) : Tiles first' last' lo l hi := by
  induction l generalizing lo with
  | nil => exact h
  | cons e l ih =>
    obtain ⟨h1, h2, h3⟩ := h
    obtain ⟨hfe, hle⟩ := hf e (by simp)
    exact ⟨hfe.trans h1, hle ▸ h2, hle ▸ ih h3 fun x hx => hf x (by simp [hx])⟩

/-- Entries that keep their place. -/
theorem Tiles.map {f : α → α} (hf : ∀ e ∈ l, first (f e) = first e ∧ last (f e) = last e)
    (h : Tiles first last lo l hi) : Tiles first last lo (l.map f) hi := by
  induction l generalizing lo with
  | nil => exact h
  | cons e l ih =>
    obtain ⟨h1, h2, h3⟩ := h
    obtain ⟨hfe, hle⟩ := hf e (by simp)
    exact ⟨hfe.trans h1, hle ▸ h2, hle ▸ ih (fun x hx => hf x (by simp [hx])) h3⟩

/-! ## What lies at a number -/

theorem valueAt_cons : valueAt first last value (e :: l) a =
    if first e ≤ a ∧ a ≤ last e then some (value e) else valueAt first last value l a := by
  unfold valueAt
  rw [List.find?_cons]
  split
  · rw [if_pos (covers_iff.mp ‹_›)]; rfl
  · rw [if_neg fun h => by simp [covers_iff.mpr h] at *]

theorem Tiles.valueAt_append (h : Tiles first last lo l₁ mid) :
    valueAt first last value (l₁ ++ l₂) a =
      if lo ≤ a ∧ a < mid then valueAt first last value l₁ a else valueAt first last value l₂ a := by
  induction l₁ generalizing lo with
  | nil =>
    obtain rfl : lo = mid := h
    rw [if_neg (by omega), List.nil_append]
  | cons e l₁ ih =>
    obtain ⟨rfl, hle, h⟩ := h
    have := h.le
    rw [List.cons_append, valueAt_cons, valueAt_cons, ih h]
    by_cases ha : first e ≤ a ∧ a ≤ last e
    · rw [if_pos ha, if_pos ha, if_pos (by omega)]
    · rw [if_neg ha, if_neg ha]
      exact if_congr (by omega) rfl rfl

/-- Of two entries one lies in front of the other, in the list and as an interval. -/
theorem Tiles.order {d : α} {x y : List α} (h : Tiles first last lo (l₁ ++ e :: l₂) hi)
    (hs : l₁ ++ e :: l₂ = x ++ d :: y) (hne : d ≠ e) :
    (last d < first e ∧ ∃ z, l₁ = x ++ d :: z) ∨ (last e < first d ∧ ∃ z, l₂ = z ++ d :: y) := by
  obtain ⟨mid, h1, h2, h3, h4⟩ := tiles_append.mp h
  rcases List.append_eq_append_iff.mp hs with ⟨as, rfl, has⟩ | ⟨bs, rfl, hbs⟩
  · cases as with
    | nil => exact absurd (List.cons.inj has).1.symm hne
    | cons c as =>
      obtain ⟨rfl, rfl⟩ := List.cons.inj has
      have := h4.mem (e := d) (by simp)
      exact .inr ⟨by omega, as, rfl⟩
  · cases bs with
    | nil => exact absurd (List.cons.inj hbs).1 hne
    | cons c bs =>
      obtain ⟨rfl, rfl⟩ := List.cons.inj hbs
      have := h1.mem (e := d) (by simp)
      exact .inl ⟨by omega, bs, rfl⟩

/-! ## Joining two entries -/

section
variable {x y z : α}

theorem Tiles.join (h : Tiles first last lo (l₁ ++ x :: y :: l₂) hi) (hf : first z = first x) (hl : last z = last y) :
    Tiles first last lo (l₁ ++ z :: l₂) hi := by
  obtain ⟨mid, h1, h2, h3, h4, h5, h6⟩ := tiles_append.mp h
  exact h1.append ⟨hf.trans h2, by omega, hl ▸ h6⟩

theorem Tiles.valueAt_join (h : Tiles first last lo (l₁ ++ x :: y :: l₂) hi) (hf : first z = first x)
    (hl : last z = last y) (hx : value z = value x) (hy : value x = value y) :
    valueAt first last value (l₁ ++ z :: l₂) a = valueAt first last value (l₁ ++ x :: y :: l₂) a := by
  obtain ⟨mid, h1, h2, h3, h4, h5, h6⟩ := tiles_append.mp h
  rw [h1.valueAt_append, h1.valueAt_append]
  refine if_congr Iff.rfl rfl ?_
  rw [valueAt_cons, valueAt_cons, valueAt_cons, hf, hl, hx, ← hy]
  by_cases ha : first x ≤ a ∧ a ≤ last x
  · rw [if_pos ha, if_pos (by omega)]
  · rw [if_neg ha]
    exact if_congr (by omega) rfl rfl

end

end

end Udk
