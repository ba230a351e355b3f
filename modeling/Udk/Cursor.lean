import Mathlib.Algebra.GroupWithZero.Nat
import Mathlib.Data.List.Basic
import Mathlib.Data.List.Nodup

/-! # A cursor into a list that is edited

The cursor is at an element of the list, or at the head before the first one.
-/

namespace Udk.Cursor
variable {α : Type} {position : Option α} {l : List α} {x : α}

def Valid (position : Option α) (l : List α) : Prop := ∀ p, position = some p → p ∈ l

theorem valid_none (l : List α) : Valid none l := nofun

theorem Valid.append (h : Valid position l) (m : List α) : Valid position (l ++ m) :=
  fun p hp => List.mem_append_left _ (h p hp)

theorem valid_getLast? (pre post : List α) : Valid pre.getLast? (pre ++ post) :=
  fun _ hp => List.mem_append_left _ (List.mem_of_getLast? hp)

variable [DecidableEq α]

/-- What is behind the cursor. -/
def behind (position : Option α) (l : List α) : List α :=
  match position with
  | none => l
  | some p => (l.dropWhile (· ≠ p)).tail

@[simp] theorem behind_none (l : List α) : behind none l = l := rfl

theorem behind_sublist (position : Option α) (l : List α) : List.Sublist (behind position l) l := by
  cases position with
  | none => exact List.Sublist.refl l
  | some p => exact (List.tail_sublist _).trans (List.dropWhile_sublist _)

/-- The element is the first one of its value. -/
theorem behind_split {pre post : List α} (h : x ∉ pre) : behind (some x) (pre ++ x :: post) = post := by
  induction pre with
  | nil => simp [behind]
  | cons y pre ih =>
    obtain ⟨hne, hpre⟩ := not_or.mp fun hor => h (List.mem_cons.mpr hor)
    have hy : ¬y = x := fun h => hne h.symm
    simpa [behind, hy] using ih hpre

theorem Valid.split (h : Valid (some x) l) : ∃ pre post, l = pre ++ x :: post ∧ x ∉ pre ∧ behind (some x) l = post := by
  obtain ⟨pre, post, rfl, hpre⟩ := List.eq_append_cons_of_mem (h x rfl)
  exact ⟨pre, post, rfl, hpre, behind_split hpre⟩

/-! ## Elements are added at the end -/

theorem behind_append (h : Valid position l) (m : List α) : behind position (l ++ m) = behind position l ++ m := by
  cases position with
  | none => rfl
  | some p =>
    obtain ⟨pre, post, rfl, hpre, hbehind⟩ := h.split
    rw [hbehind, List.append_assoc, List.cons_append, behind_split hpre]

/-! ## An element is removed -/

theorem Valid.filter (h : Valid position l) (hne : position ≠ some x) : Valid position (l.filter (· ≠ x)) := by
  rintro p rfl
  refine List.mem_filter.mpr ⟨h p rfl, ?_⟩
  simpa using hne

/-- The cursor is elsewhere. -/
theorem behind_filter (h : Valid position l) (hne : position ≠ some x) :
    behind position (l.filter (· ≠ x)) = (behind position l).filter (· ≠ x) := by
  cases position with
  | none => rfl
  | some p =>
    obtain ⟨pre, post, rfl, hpre, hbehind⟩ := h.split
    have hpx : p ≠ x := by simpa using hne
    rw [hbehind, List.filter_append, List.filter_cons_of_pos (by simpa using hpx)]
    exact behind_split fun hmem => hpre (List.mem_filter.mp hmem).1

/-- The cursor is moved back from the element. -/
theorem behind_getLast? {pre post : List α} (hn : (pre ++ post).Nodup) : behind pre.getLast? (pre ++ post) = post := by
  cases hlast : pre.getLast? with
  | none =>
    rw [List.getLast?_eq_none_iff.mp hlast]
    rfl
  | some p =>
    obtain ⟨pre, rfl⟩ := List.getLast?_eq_some_iff.mp hlast
    rw [List.append_assoc, List.singleton_append] at hn ⊢
    exact behind_split fun hmem => (List.nodup_append.mp hn).2.2 p hmem p (List.mem_cons_self ..) rfl

theorem filter_split {pre post : List α} (hn : (pre ++ x :: post).Nodup) :
    (pre ++ x :: post).filter (· ≠ x) = pre ++ post := by
  obtain ⟨-, hpost, hdisj⟩ := List.nodup_append.mp hn
  have h1 : pre.filter (· ≠ x) = pre :=
    List.filter_eq_self.mpr fun y hy => by simpa using hdisj y hy x (List.mem_cons_self ..)
  have h2 : post.filter (· ≠ x) = post :=
    List.filter_eq_self.mpr fun y hy => by
      have hyx : y ≠ x := fun heq => (List.nodup_cons.mp hpost).1 (heq ▸ hy)
      simpa using hyx
  rw [List.filter_append, List.filter_cons_of_neg (by simp), h1, h2]

/-! ## The cursor moves on -/

/-- The next element is the one behind it, and the rest is behind that one. -/
theorem behind_next {rest : List α} (hn : l.Nodup) (hv : Valid position l) (h : behind position l = x :: rest) :
    x ∈ l ∧ behind (some x) l = rest := by
  cases position with
  | none =>
    obtain rfl : l = x :: rest := h
    exact ⟨List.mem_cons_self .., behind_split List.not_mem_nil⟩
  | some p =>
    obtain ⟨pre, post, rfl, hpre, hbehind⟩ := hv.split
    obtain rfl : post = x :: rest := hbehind.symm.trans h
    refine ⟨by simp, ?_⟩
    rw [List.append_cons] at hn ⊢
    refine behind_split fun hmem => ?_
    exact (List.nodup_append.mp hn).2.2 x hmem x (List.mem_cons_self ..) rfl

end Udk.Cursor
