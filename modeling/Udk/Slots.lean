import Mathlib.Algebra.GroupWithZero.Nat
import Mathlib.Data.Multiset.Basic
import Mathlib.Logic.Function.Basic

/-! # A stretch of an array as a multiset

`slots f lo n` are the values `f lo`, …, `f (lo + n - 1)`, in no order.
-/

namespace Udk

open Function (update)

variable {α : Type} {f : Nat → α} {lo n i : Nat}

def slots (f : Nat → α) (lo : Nat) : Nat → Multiset α
  | 0 => 0
  | n + 1 => f (lo + n) ::ₘ slots f lo n

@[simp] theorem card_slots : (slots f lo n).card = n := by
  induction n with
  | zero => rfl
  | succ n ih => rw [slots, Multiset.card_cons, ih]

theorem mem_slots {a : α} : a ∈ slots f lo n ↔ ∃ k, k < n ∧ f (lo + k) = a := by
  induction n with
  | zero => simp [slots]
  | succ n ih =>
    rw [slots, Multiset.mem_cons, ih]
    constructor
    · rintro (rfl | ⟨k, hk, rfl⟩)
      · exact ⟨n, by omega, rfl⟩
      · exact ⟨k, by omega, rfl⟩
    · rintro ⟨k, hk, rfl⟩
      rcases Nat.lt_or_ge k n with h | h
      · exact Or.inr ⟨k, h, rfl⟩
      · exact Or.inl (by rw [show k = n by omega])

theorem slots_le {m : Nat} (h : m ≤ n) : slots f lo m ≤ slots f lo n := by
  induction h with
  | refl => exact le_refl _
  | step _ ih => exact ih.trans (Multiset.le_cons_self _ _)

theorem slots_update_of_le (v : α) (h : lo + n ≤ i) : slots (update f i v) lo n = slots f lo n := by
  induction n with
  | zero => rfl
  | succ n ih => rw [slots, slots, ih (by omega), Function.update_of_ne (by omega)]

theorem slots_push (v : α) : slots (update f (lo + n) v) lo (n + 1) = v ::ₘ slots f lo n := by
  rw [slots, Function.update_self, slots_update_of_le v (Nat.le_refl _)]

/-- Writing a slot trades its value. -/
theorem cons_slots_update (v : α) (h1 : lo ≤ i) (h2 : i < lo + n) :
    f i ::ₘ slots (update f i v) lo n = v ::ₘ slots f lo n := by
  induction n with
  | zero => omega
  | succ n ih =>
    rw [slots, slots]
    rcases Nat.lt_or_ge i (lo + n) with h | h
    · rw [Function.update_of_ne (by omega), Multiset.cons_swap, ih h, Multiset.cons_swap]
    · obtain rfl : i = lo + n := by omega
      rw [Function.update_self, slots_update_of_le v (Nat.le_refl _), Multiset.cons_swap]

/-- The value of slot `j` moves into the hole at `i`, and what goes into the hole goes to `j` instead. -/
theorem slots_move {j : Nat} (v : α) (hij : i ≠ j) (hi : lo ≤ i) (hi' : i < lo + n) (hj : lo ≤ j) (hj' : j < lo + n) :
    slots (update (update f i (f j)) j v) lo n = slots (update f i v) lo n := by
  have h1 := cons_slots_update (f := update f i (f j)) v hj hj'
  rw [Function.update_of_ne hij.symm] at h1
  have h2 := cons_slots_update (f := f) (f j) hi hi'
  have h3 := cons_slots_update (f := f) v hi hi'
  have h : f i ::ₘ f j ::ₘ slots (update (update f i (f j)) j v) lo n = f i ::ₘ f j ::ₘ slots (update f i v) lo n := by
    rw [h1, Multiset.cons_swap (f i) v, h2, Multiset.cons_swap (f i) (f j), h3, Multiset.cons_swap]
  exact (Multiset.cons_inj_right _).mp ((Multiset.cons_inj_right _).mp h)

end Udk
