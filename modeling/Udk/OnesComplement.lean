import Mathlib.Algebra.GroupWithZero.Nat
import Mathlib.Data.List.Basic
import Mathlib.Algebra.BigOperators.Group.List.Basic

/-! # One's-complement sums of 16-bit words

A sum with end-around carry has two zeroes. It is 0 only for words that are all 0, and the other zero is 65535; the
number in 1..65535 that is congruent to the plain sum otherwise.
-/

namespace Udk.OnesComplement

def add (a b : Nat) : Nat := if a + b < 2 ^ 16 then a + b else a + b - (2 ^ 16 - 1)

/-- The one's-complement sum of words with the plain sum `n`. -/
def canon (n : Nat) : Nat := if n = 0 then 0 else (n - 1) % 65535 + 1

theorem canon_le (n : Nat) : canon n ≤ 65535 := by
  unfold canon
  split
  · omega
  · omega

@[simp] theorem canon_eq_zero (n : Nat) : canon n = 0 ↔ n = 0 := by
  unfold canon
  split
  · omega
  · omega

theorem canon_mod (n : Nat) : canon n % 65535 = n % 65535 := by
  unfold canon
  split
  · omega
  · omega

/-- A number of 16 bits is the sum if it is congruent to it and 0 for the same words. -/
theorem canon_unique {v n : Nat} (hv : v ≤ 65535) (hmod : v % 65535 = n % 65535) (hzero : v = 0 ↔ n = 0) :
    canon n = v := by
  have h1 := canon_le n
  have h2 := canon_mod n
  have h3 := canon_eq_zero n
  omega

theorem canon_congr {a b : Nat} (hmod : a % 65535 = b % 65535) (hzero : a = 0 ↔ b = 0) : canon a = canon b := by
  refine canon_unique (canon_le b) ?_ ?_
  · rw [canon_mod, hmod]
  · rw [canon_eq_zero, hzero]

theorem canon_of_le {n : Nat} (h : n ≤ 65535) : canon n = n := canon_unique h rfl Iff.rfl

theorem add_canon (a b : Nat) : add (canon a) (canon b) = canon (a + b) := by
  have ha := canon_le a
  have hb := canon_le b
  have hma := canon_mod a
  have hmb := canon_mod b
  have hza := canon_eq_zero a
  have hzb := canon_eq_zero b
  symm
  refine canon_unique ?_ ?_ ?_
  all_goals
    unfold add
    split
    · omega
    · omega

theorem foldl_add {ws : List Nat} (hws : ∀ w ∈ ws, w < 2 ^ 16) (a : Nat) :
    ws.foldl add (canon a) = canon (a + ws.sum) := by
  induction ws generalizing a with
  | nil => rfl
  | cons w ws ih =>
    have hw := hws w List.mem_cons_self
    rw [List.foldl_cons, List.sum_cons, ← Nat.add_assoc, ← ih fun v hv => hws v (List.mem_cons_of_mem _ hv)]
    congr 1
    rw [← add_canon, canon_of_le (show w ≤ 65535 by omega)]

/-! ## The words of a byte string -/

/-- The bytes as little-endian words; a last byte of its own is zero-extended. -/
def words : List UInt8 → List Nat
  | [] => []
  | [b] => [b.toNat]
  | b :: c :: bs => (b.toNat + 256 * c.toNat) :: words bs

def wordSum (bs : List UInt8) : Nat := (words bs).sum

/-- The sum of the bytes when the first one is the high byte of a word. -/
def oddSum : List UInt8 → Nat
  | [] => 0
  | b :: bs => 256 * b.toNat + wordSum bs

theorem words_lt (bs : List UInt8) : ∀ w ∈ words bs, w < 2 ^ 16 := by
  induction bs using words.induct with
  | case1 => exact nofun
  | case2 b =>
    have := b.toNat_lt
    simp only [words, List.mem_singleton]
    omega
  | case3 b c bs ih =>
    have := b.toNat_lt
    have := c.toNat_lt
    simp only [words, List.mem_cons]
    rintro w (rfl | hw)
    · omega
    · exact ih w hw

@[simp] theorem wordSum_nil : wordSum [] = 0 := rfl

theorem wordSum_cons (b : UInt8) (bs : List UInt8) : wordSum (b :: bs) = b.toNat + oddSum bs := by
  cases bs with
  | nil => simp [wordSum, words, oddSum]
  | cons c bs => simp only [wordSum, words, oddSum, List.sum_cons, Nat.add_assoc]

/-- The words that follow an odd number of bytes are shifted. -/
theorem sum_append (xs ys : List UInt8) :
    wordSum (xs ++ ys) = wordSum xs + (if xs.length % 2 = 0 then wordSum ys else oddSum ys) ∧
    oddSum (xs ++ ys) = oddSum xs + if xs.length % 2 = 0 then oddSum ys else wordSum ys := by
  induction xs with
  | nil => simp [oddSum]
  | cons x xs ih =>
    obtain ⟨hword, hodd⟩ := ih
    rw [List.cons_append, wordSum_cons, wordSum_cons, hodd, oddSum, oddSum, hword, List.length_cons]
    rcases Nat.mod_two_eq_zero_or_one xs.length with h | h
    · have h' : (xs.length + 1) % 2 ≠ 0 := by omega
      simp only [h, h', if_true, if_false, Nat.add_assoc, and_self]
    · have h' : (xs.length + 1) % 2 = 0 := by omega
      simp only [h, h', if_true, if_false, Nat.add_assoc, Nat.one_ne_zero, and_self]

/-- A shift by a byte is a product with 256, and another one takes it back. -/
theorem oddSum_congr (bs : List UInt8) :
    oddSum bs % 65535 = 256 * wordSum bs % 65535 ∧ wordSum bs % 65535 = 256 * oddSum bs % 65535 := by
  induction bs with
  | nil => exact ⟨rfl, rfl⟩
  | cons b bs ih =>
    obtain ⟨hodd, hword⟩ := ih
    rw [wordSum_cons, oddSum]
    constructor
    · omega
    · omega

theorem oddSum_eq_zero (bs : List UInt8) : oddSum bs = 0 ↔ wordSum bs = 0 := by
  induction bs with
  | nil => rfl
  | cons b bs ih =>
    rw [wordSum_cons, oddSum]
    omega

theorem wordSum_le (bs : List UInt8) : wordSum bs ≤ 65535 * bs.length := by
  induction bs using words.induct with
  | case1 => simp
  | case2 b =>
    have := b.toNat_lt
    simp only [wordSum, words, List.sum_singleton, List.length_singleton]
    omega
  | case3 b c bs ih =>
    have := b.toNat_lt
    have := c.toNat_lt
    simp only [wordSum, words, List.sum_cons, List.length_cons] at *
    omega

/-- The sum of a byte string from those of its two parts. -/
theorem canon_append (xs ys : List UInt8) : canon (wordSum (xs ++ ys)) =
    canon (wordSum xs + if xs.length % 2 = 0 then wordSum ys else 256 * wordSum ys) := by
  rw [(sum_append xs ys).1]
  split
  · rfl
  · have hmod := (oddSum_congr ys).1
    have hzero := oddSum_eq_zero ys
    refine canon_congr ?_ ?_
    · omega
    · omega

/-- The one's-complement sum of the bytes. -/
def sum (bs : List UInt8) : Nat := (words bs).foldl add 0

theorem sum_eq (bs : List UInt8) : sum bs = canon (wordSum bs) := by
  have h := foldl_add (words_lt bs) 0
  rw [Nat.zero_add] at h
  exact h

end Udk.OnesComplement
