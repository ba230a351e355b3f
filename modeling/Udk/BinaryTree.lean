import Mathlib.Algebra.GroupWithZero.Nat
import Mathlib.Algebra.BigOperators.Group.Finset.Basic
import Mathlib.Algebra.BigOperators.Ring.Finset

/-! # Binary trees and the depths of their leaves

A histogram of the depths, in which a leaf below `cap` counts at `cap`, and Kraft's sum of it.
-/

namespace Udk

open Finset

inductive BinaryTree (α : Type) where
  | leaf (a : α)
  | node (l r : BinaryTree α)

namespace BinaryTree

variable {α : Type}

def leaves : BinaryTree α → List α
  | leaf a => [a]
  | node l r => leaves l ++ leaves r

/-- The number of levels. -/
def height : BinaryTree α → Nat
  | leaf _ => 1
  | node l r => max (height l) (height r) + 1

/-- How many leaves are at depth `x` when the root is at depth `d`. -/
def capped (cap : Nat) : BinaryTree α → Nat → Nat → Nat
  | leaf _, d, x => if min d cap = x then 1 else 0
  | node l r, d, x => capped cap l (d + 1) x + capped cap r (d + 1) x

theorem leaves_pos (t : BinaryTree α) : 0 < (leaves t).length := by
  induction t with
  | leaf a => simp [leaves]
  | node l r hl hr => simp only [leaves, List.length_append]; omega

theorem height_le (t : BinaryTree α) : height t ≤ (leaves t).length := by
  induction t with
  | leaf a => simp [height, leaves]
  | node l r hl hr =>
    have := leaves_pos l
    have := leaves_pos r
    simp only [height, leaves, List.length_append]
    omega

theorem capped_of_lt {cap d x : Nat} (t : BinaryTree α) (hd : x < d) (hx : x < cap) : capped cap t d x = 0 := by
  induction t generalizing d with
  | leaf a => exact if_neg (by omega)
  | node l r hl hr => simp only [capped, hl (Nat.lt_succ_of_lt hd), hr (Nat.lt_succ_of_lt hd)]

theorem capped_le (cap d x : Nat) (t : BinaryTree α) : capped cap t d x ≤ (leaves t).length := by
  induction t generalizing d with
  | leaf a => simp only [capped, leaves, List.length_singleton]; split <;> omega
  | node l r hl hr =>
    have h1 := hl (d + 1)
    have h2 := hr (d + 1)
    simp only [capped, leaves, List.length_append]
    omega

/-! ## Sums over the histogram -/

theorem sum_capped_leaf {cap d n : Nat} (f : Nat → Nat) (a : α) :
    ∑ x ∈ range n, capped cap (leaf a) d x * f x = if min d cap < n then f (min d cap) else 0 := by
  simp only [capped, ite_mul, Nat.one_mul, Nat.zero_mul, sum_ite_eq, mem_range]

theorem sum_capped_node {cap d n : Nat} (f : Nat → Nat) (l r : BinaryTree α) :
    ∑ x ∈ range n, capped cap (node l r) d x * f x
      = ∑ x ∈ range n, capped cap l (d + 1) x * f x + ∑ x ∈ range n, capped cap r (d + 1) x * f x := by
  simp only [capped, Nat.add_mul, sum_add_distrib]

/-- Every leaf is counted once. -/
theorem sum_capped (cap d : Nat) (t : BinaryTree α) :
    ∑ x ∈ range (cap + 1), capped cap t d x * 1 = (leaves t).length := by
  induction t generalizing d with
  | leaf a => rw [sum_capped_leaf, if_pos (by omega)]; rfl
  | node l r hl hr => rw [sum_capped_node, hl, hr, leaves, List.length_append]

/-- Kraft's sum reaches the weight of the root: cutting at the cap only raises it. -/
theorem le_kraft_capped (cap d : Nat) (t : BinaryTree α) :
    2 ^ (cap - d) ≤ ∑ x ∈ range (cap + 1), capped cap t d x * 2 ^ (cap - x) := by
  induction t generalizing d with
  | leaf a =>
    rw [sum_capped_leaf, if_pos (by omega)]
    exact Nat.pow_le_pow_right (by omega) (by omega)
  | node l r hl hr =>
    rw [sum_capped_node]
    have h1 := hl (d + 1)
    have h2 := hr (d + 1)
    have hpow : 2 ^ (cap - d) ≤ 2 * 2 ^ (cap - (d + 1)) := by
      rw [← Nat.pow_succ']
      exact Nat.pow_le_pow_right (by omega) (by omega)
    omega

/-- The leaves above the cap alone do not exceed the weight of the root. -/
theorem shallow_capped_le (cap d : Nat) (t : BinaryTree α) :
    ∑ x ∈ range cap, capped cap t d x * 2 ^ (cap - x) ≤ 2 ^ (cap - d) ∧
      (cap ≤ d → ∑ x ∈ range cap, capped cap t d x * 2 ^ (cap - x) = 0) := by
  induction t generalizing d with
  | leaf a =>
    rw [sum_capped_leaf]
    refine ⟨?_, fun h => if_neg (by omega)⟩
    split
    · exact Nat.pow_le_pow_right (by omega) (by omega)
    · exact Nat.zero_le _
  | node l r hl hr =>
    rw [sum_capped_node]
    obtain ⟨h1, hz1⟩ := hl (d + 1)
    obtain ⟨h2, hz2⟩ := hr (d + 1)
    refine ⟨?_, fun h => by rw [hz1 (by omega), hz2 (by omega)]⟩
    rcases Nat.lt_or_ge d cap with h | h
    · have hpow : 2 ^ (cap - d) = 2 * 2 ^ (cap - (d + 1)) := by
        rw [← Nat.pow_succ']
        congr 1
        omega
      omega
    · rw [hz1 (by omega), hz2 (by omega)]
      exact Nat.zero_le _

end BinaryTree

end Udk
