import Mathlib.Algebra.GroupWithZero.Nat
import Mathlib.Data.Finset.Card
import Mathlib.Order.Interval.Finset.Nat
import Mathlib.Algebra.BigOperators.Group.List.Basic

/-! # Sorted ranges

Things that stand for a range of positions, in a list that is sorted and without overlaps.
-/

namespace Udk.Ranges

/-- It stands for the positions from `lo` up to before `hi`. -/
class Ranged (α : Type) where
  lo : α → Nat
  hi : α → Nat

export Ranged (lo hi)

variable {α : Type} [Ranged α]

/-- Each ends where the ones behind it start, or before. -/
def Sorted (l : List α) : Prop := l.Pairwise fun a b => hi a ≤ lo b

def Covered (l : List α) (i : Nat) : Prop := ∃ a ∈ l, lo a ≤ i ∧ i < hi a

def size (l : List α) : Nat := (l.map fun a => hi a - lo a).sum

/-- The ranges lie in `[a, n)`. -/
def Within (a n : Nat) (l : List α) : Prop := ∀ x ∈ l, a ≤ lo x ∧ lo x ≤ hi x ∧ hi x ≤ n

instance (l : List α) (i : Nat) : Decidable (Covered l i) :=
  inferInstanceAs (Decidable (∃ a ∈ l, lo a ≤ i ∧ i < hi a))

@[simp] theorem size_nil : size ([] : List α) = 0 := rfl

@[simp] theorem size_cons (x : α) (l : List α) : size (x :: l) = hi x - lo x + size l := by
  rw [size, List.map_cons, List.sum_cons, size]

@[simp] theorem size_append (l l' : List α) : size (l ++ l') = size l + size l' := by
  rw [size, List.map_append, List.sum_append, size, size]

@[simp] theorem covered_nil (i : Nat) : ¬Covered ([] : List α) i := nofun

@[simp] theorem covered_cons (x : α) (l : List α) (i : Nat) :
    Covered (x :: l) i ↔ (lo x ≤ i ∧ i < hi x) ∨ Covered l i := by
  simp [Covered]

@[simp] theorem covered_append (l l' : List α) (i : Nat) : Covered (l ++ l') i ↔ Covered l i ∨ Covered l' i := by
  simp only [Covered, List.mem_append, or_and_right, exists_or]

theorem Sorted.tail {x : α} {l : List α} (h : Sorted (x :: l)) : Sorted l := (List.pairwise_cons.mp h).2

/-- Behind the first range there are only later positions. -/
theorem Within.tail {a n : Nat} {x : α} {l : List α} (h : Within a n (x :: l)) (hs : Sorted (x :: l)) :
    Within (hi x) n l := by
  intro y hy
  have hxy := (List.pairwise_cons.mp hs).1 y hy
  obtain ⟨-, h1, h2⟩ := h y (List.mem_cons_of_mem _ hy)
  exact ⟨hxy, h1, h2⟩

theorem Within.covered {a n i : Nat} {l : List α} (h : Within a n l) (hi : Covered l i) : a ≤ i ∧ i < n := by
  obtain ⟨x, hx, h1, h2⟩ := hi
  have := h x hx
  omega

theorem size_le {a n : Nat} {l : List α} (hs : Sorted l) (h : Within a n l) (han : a ≤ n) : size l ≤ n - a := by
  induction l generalizing a with
  | nil => exact Nat.zero_le _
  | cons x l ih =>
    obtain ⟨h1, h2, h3⟩ := h x (List.mem_cons_self ..)
    have := ih hs.tail (h.tail hs) h3
    rw [size_cons]
    omega

/-! ## How many positions are covered -/

/-- The ranges have as many positions as they cover. -/
theorem card_covered {a n : Nat} {l : List α} (hs : Sorted l) (h : Within a n l) :
    ((Finset.range n).filter (Covered l)).card = size l := by
  induction l generalizing a with
  | nil => simp
  | cons x l ih =>
    obtain ⟨-, h2, h3⟩ := h x (List.mem_cons_self ..)
    have htail := h.tail hs
    have hsplit : (Finset.range n).filter (Covered (x :: l)) =
        Finset.Ico (lo x) (hi x) ∪ (Finset.range n).filter (Covered l) := by
      ext i
      simp only [Finset.mem_filter, Finset.mem_range, covered_cons, Finset.mem_union, Finset.mem_Ico]
      constructor
      · rintro ⟨hin, hx | hl⟩
        · exact .inl hx
        · exact .inr ⟨hin, hl⟩
      · rintro (hx | ⟨hin, hl⟩)
        · exact ⟨by omega, .inl hx⟩
        · exact ⟨hin, .inr hl⟩
    have hdisj : Disjoint (Finset.Ico (lo x) (hi x)) ((Finset.range n).filter (Covered l)) := by
      rw [Finset.disjoint_left]
      intro i hi hl
      have h4 := (htail.covered (Finset.mem_filter.mp hl).2).1
      have h5 := (Finset.mem_Ico.mp hi).2
      omega
    rw [hsplit, Finset.card_union_of_disjoint hdisj, Nat.card_Ico, ih hs.tail htail, size_cons]

theorem size_eq_of_covered {n : Nat} {l : List α} (hs : Sorted l) (h : Within 0 n l) (hall : ∀ i < n, Covered l i) :
    size l = n := by
  rw [← card_covered hs h, Finset.filter_true_of_mem fun i hi => hall i (Finset.mem_range.mp hi), Finset.card_range]

/-! ## Pieces of one sequence -/

variable {β : Type} (whole : List β) (bytes : α → List β)

/-- The content of a range is the part of the sequence at its positions. -/
def Piece (x : α) : Prop := bytes x = (whole.take (hi x)).drop (lo x)

variable {whole bytes}

/-- Ranges with as many positions as there are from `a` on have the sequence from there on. -/
theorem flatMap_eq_drop {a : Nat} {l : List α} (hs : Sorted l) (h : Within a whole.length l)
    (hp : ∀ x ∈ l, Piece whole bytes x) (han : a ≤ whole.length) (hsize : whole.length - a ≤ size l) :
    l.flatMap bytes = whole.drop a := by
  induction l generalizing a with
  | nil =>
    rw [size_nil] at hsize
    rw [List.flatMap_nil, List.drop_eq_nil_of_le (by omega)]
  | cons x l ih =>
    obtain ⟨h1, h2, h3⟩ := h x (List.mem_cons_self ..)
    have hle := size_le hs.tail (h.tail hs) h3
    rw [size_cons] at hsize
    have ha : lo x = a := by omega
    have hx : bytes x = (whole.take (hi x)).drop (lo x) := hp x (List.mem_cons_self ..)
    rw [List.flatMap_cons, ih hs.tail (h.tail hs) (fun y hy => hp y (List.mem_cons_of_mem _ hy)) h3 (by omega), hx, ha]
    have hjoin := List.take_append_drop (hi x) whole
    calc (whole.take (hi x)).drop a ++ whole.drop (hi x)
        = (whole.take (hi x) ++ whole.drop (hi x)).drop a := by
          rw [List.drop_append_of_le_length (by rw [List.length_take]; omega)]
      _ = whole.drop a := by rw [hjoin]

theorem flatMap_eq {l : List α} (hs : Sorted l) (h : Within 0 whole.length l) (hp : ∀ x ∈ l, Piece whole bytes x)
    (hsize : whole.length ≤ size l) : l.flatMap bytes = whole := by
  rw [flatMap_eq_drop hs h hp (Nat.zero_le _) (by omega), List.drop_zero]

/-! ## A range is put in -/

/-- A range is put between those before it and those behind, in the place of the ones that it contains. -/
structure PutIn (before gone behind : List α) (x : α) : Prop where
  before : ∀ y ∈ before, hi y ≤ lo x
  gone : ∀ y ∈ gone, lo x ≤ lo y ∧ hi y ≤ hi x
  behind : ∀ y ∈ behind, hi x ≤ lo y

namespace PutIn
variable {before gone behind : List α} {x : α}

theorem sorted (h : PutIn before gone behind x) (hs : Sorted (before ++ (gone ++ behind))) :
    Sorted (before ++ x :: behind) := by
  obtain ⟨hb, hgb, hcross⟩ := List.pairwise_append.mp hs
  refine List.pairwise_append.mpr ⟨hb, List.pairwise_cons.mpr ⟨h.behind, (List.pairwise_append.mp hgb).2.1⟩, ?_⟩
  intro y hy z hz
  rcases List.mem_cons.mp hz with rfl | hz
  · exact h.before y hy
  · exact hcross y hy z (List.mem_append_right _ hz)

theorem covered (h : PutIn before gone behind x) (i : Nat) :
    Covered (before ++ x :: behind) i ↔ Covered (before ++ (gone ++ behind)) i ∨ (lo x ≤ i ∧ i < hi x) := by
  simp only [covered_append, covered_cons]
  have hgone : Covered gone i → lo x ≤ i ∧ i < hi x := by
    rintro ⟨y, hy, h1, h2⟩
    have := h.gone y hy
    omega
  tauto

theorem size (x : α) : size (before ++ x :: behind) + size gone = size (before ++ (gone ++ behind)) + (hi x - lo x) := by
  simp only [size_append, size_cons]
  omega

end PutIn

end Udk.Ranges
