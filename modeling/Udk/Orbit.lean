import Mathlib.Algebra.GroupWithZero.Nat
import Mathlib.Data.Fintype.Pigeonhole

/-! # The states of a walk

A walk goes from one state to the next until there is none. Its course may depend on a part of the state only.
-/

namespace Udk.Orbit

variable {α β : Type} {next : α → Option α} {a b c : α} {i j n : Nat}

/-- The state after so many steps. -/
def orbit (next : α → Option α) (a : α) : Nat → Option α
  | 0 => some a
  | n + 1 => (orbit next a n).bind next

theorem orbit_succ (next : α → Option α) (a : α) (n : Nat) :
    orbit next a (n + 1) = (next a).bind fun b => orbit next b n := by
  induction n with
  | zero =>
    rw [orbit, orbit, Option.bind_some]
    cases next a <;> rfl
  | succ n ih =>
    rw [orbit, ih, Option.bind_assoc]
    rfl

theorem orbit_of_next (h : next a = some b) (n : Nat) : orbit next a (n + 1) = orbit next b n := by
  rw [orbit_succ, h, Option.bind_some]

theorem orbit_of_end (h : next a = none) (n : Nat) : orbit next a (n + 1) = none := by
  rw [orbit_succ, h, Option.bind_none]

theorem orbit_add (h : orbit next a i = some b) (n : Nat) : orbit next a (i + n) = orbit next b n := by
  induction n with
  | zero => exact h
  | succ n ih => rw [← Nat.add_assoc, orbit, orbit, ih]

theorem orbit_none_add (h : orbit next a n = none) (k : Nat) : orbit next a (n + k) = none := by
  induction k with
  | zero => exact h
  | succ k ih => rw [← Nat.add_assoc, orbit, ih, Option.bind_none]

/-- The walk ends. -/
def Ends (next : α → Option α) (a : α) : Prop := ∃ n, orbit next a n = none

section
variable {f : α → β} (hf : ∀ a b, f a = f b → (next a).map f = (next b).map f)
include hf

theorem orbit_map_congr (h : f a = f b) (n : Nat) : (orbit next a n).map f = (orbit next b n).map f := by
  induction n generalizing a b with
  | zero => exact congrArg some h
  | succ n ih =>
    have hn := hf a b h
    rw [orbit_succ, orbit_succ]
    cases ha : next a with
    | none =>
      rw [ha] at hn
      rw [Option.map_eq_none_iff.mp hn.symm]
    | some a' =>
      rw [ha] at hn
      obtain ⟨b', hb', hfb⟩ := Option.map_eq_some_iff.mp hn.symm
      rw [hb']
      exact ih hfb.symm

/-- A walk that comes to the same part twice does not end. -/
theorem not_ends_of_again (hij : i < j) (hi : orbit next a i = some b) (hj : orbit next a j = some c)
    (hbc : f b = f c) : ¬Ends next a := by
  have hgo (n : Nat) : ∃ d, orbit next a (i + n * (j - i)) = some d ∧ f d = f b := by
    induction n with
    | zero => exact ⟨b, by rw [Nat.zero_mul, Nat.add_zero, hi], rfl⟩
    | succ n ih =>
      obtain ⟨d, hd, hfd⟩ := ih
      have hc : orbit next b (j - i) = some c := by rw [← orbit_add hi, show i + (j - i) = j by omega, hj]
      have hmap := orbit_map_congr hf hfd (j - i)
      rw [hc] at hmap
      obtain ⟨e, he, hfe⟩ := Option.map_eq_some_iff.mp hmap
      exact ⟨e, by rw [Nat.succ_mul, ← Nat.add_assoc, orbit_add hd, he], hfe.trans hbc.symm⟩
  rintro ⟨n, hn⟩
  obtain ⟨d, hd, -⟩ := hgo n
  have hle : n ≤ i + n * (j - i) := Nat.le_trans (Nat.le_mul_of_pos_right n (by omega)) (Nat.le_add_left _ _)
  obtain ⟨k, hk⟩ := Nat.exists_eq_add_of_le hle
  have hnone := orbit_none_add hn k
  rw [← hk, hd] at hnone
  cases hnone

end

/-- With finitely many parts a walk that does not end comes to one of them twice. -/
theorem again_of_not_ends [Finite β] (f : α → β) (h : ¬Ends next a) :
    ∃ i j b c, i < j ∧ orbit next a i = some b ∧ orbit next a j = some c ∧ f b = f c := by
  have hsome (n : Nat) : ∃ b, orbit next a n = some b :=
    Option.ne_none_iff_exists'.mp fun hn => h ⟨n, hn⟩
  choose g hg using hsome
  obtain ⟨i, j, hne, heq⟩ := Finite.exists_ne_map_eq_of_infinite fun n => f (g n)
  rcases Nat.lt_or_gt_of_ne hne with hlt | hlt
  · exact ⟨i, j, _, _, hlt, hg i, hg j, heq⟩
  · exact ⟨j, i, _, _, hlt, hg j, hg i, heq.symm⟩

theorem ends_iff [Finite β] {f : α → β} (hf : ∀ a b, f a = f b → (next a).map f = (next b).map f) :
    Ends next a ↔ ¬∃ i j b c, i < j ∧ orbit next a i = some b ∧ orbit next a j = some c ∧ f b = f c := by
  constructor
  · rintro h ⟨i, j, b, c, hij, hi, hj, hbc⟩
    exact not_ends_of_again hf hij hi hj hbc h
  · intro h
    by_contra hn
    exact h (again_of_not_ends f hn)

/-- Every step of the walk is as `R` says. -/
def Along (next : α → Option α) (R : α → α → Prop) (a : α) : Prop :=
  ∀ n b c, orbit next a n = some b → next b = some c → R b c

theorem along_of_end {R : α → α → Prop} (h : next a = none) : Along next R a := by
  intro n b c hb hc
  cases n with
  | zero =>
    cases hb
    rw [h] at hc
    cases hc
  | succ n =>
    rw [orbit_of_end h] at hb
    cases hb

theorem along_iff {R : α → α → Prop} (h : next a = some b) : Along next R a ↔ R a b ∧ Along next R b := by
  constructor
  · exact fun ha => ⟨ha 0 a b rfl h, fun n c d hc hd => ha (n + 1) c d ((orbit_of_next h n).trans hc) hd⟩
  · rintro ⟨hab, hb⟩ n c d hc hd
    cases n with
    | zero =>
      cases hc
      obtain rfl := Option.some.inj (h.symm.trans hd)
      exact hab
    | succ n => exact hb n c d ((orbit_of_next h n).symm.trans hc) hd

end Udk.Orbit
