import Mathlib.Algebra.GroupWithZero.Nat
import Mathlib.Data.Nat.Bitwise

/-! # Bit strings, the most significant bit first

A string is a list of bits. A stream gives the bit at each position; `window` is the number in some of its bits.
-/

namespace Udk.BitString

/-- The low `n` bits of `x`. -/
def bits : Nat → Nat → List Bool
  | 0, _ => []
  | n + 1, x => x.testBit n :: bits n x

/-- The bits of bytes. -/
def ofBytes (bytes : List Nat) : List Bool := bytes.flatMap (bits 8)

/-- The number in the `n` bits from `p`. -/
def window (S : Nat → Bool) (p : Nat) : Nat → Nat
  | 0 => 0
  | n + 1 => 2 * window S p n + (S (p + n)).toNat

/-- `l` comes next in the stream. -/
def Ahead (S : Nat → Bool) : Nat → List Bool → Prop
  | _, [] => True
  | p, b :: l => S p = b ∧ Ahead S (p + 1) l

/-- The bits of an endless row of bytes. -/
def byteStream (B : Nat → Nat) (i : Nat) : Bool := (B (i / 8)).testBit (7 - i % 8)

variable {S : Nat → Bool} {n m p x y : Nat}

/-! ## Strings -/

@[simp] theorem length_bits : (bits n x).length = n := by
  induction n with
  | zero => rfl
  | succ n ih => rw [bits, List.length_cons, ih]

theorem bits_add : bits (m + n) x = bits m (x / 2 ^ n) ++ bits n x := by
  induction m with
  | zero => rw [Nat.zero_add]; rfl
  | succ m ih =>
    rw [Nat.add_right_comm, bits, bits, ih, Nat.testBit_div_two_pow, List.cons_append]

theorem bits_mod (h : n ≤ m) : bits n (x % 2 ^ m) = bits n x := by
  induction n with
  | zero => rfl
  | succ n ih =>
    rw [bits, bits, ih (by omega), Nat.testBit_mod_two_pow, decide_eq_true (by omega), Bool.true_and]

/-- Two fields after one another are one field. -/
theorem bits_append (hx : x < 2 ^ n) : bits m y ++ bits n x = bits (m + n) (y * 2 ^ n + x) := by
  have hpos := Nat.two_pow_pos n
  have hmod : (y * 2 ^ n + x) % 2 ^ n = x := by
    rw [Nat.mul_add_mod_self_right, Nat.mod_eq_of_lt hx]
  have hdiv : (y * 2 ^ n + x) / 2 ^ n = y := by
    rw [Nat.add_comm, Nat.add_mul_div_right _ _ hpos, Nat.div_eq_of_lt hx, Nat.zero_add]
  rw [bits_add, hdiv, ← bits_mod (x := y * 2 ^ n + x) (Nat.le_refl n), hmod]

@[simp] theorem ofBytes_append (a b : List Nat) : ofBytes (a ++ b) = ofBytes a ++ ofBytes b :=
  List.flatMap_append

@[simp] theorem ofBytes_singleton : ofBytes [x] = bits 8 x := by
  rw [ofBytes, List.flatMap_singleton]

@[simp] theorem length_ofBytes (bytes : List Nat) : (ofBytes bytes).length = 8 * bytes.length := by
  induction bytes with
  | nil => rfl
  | cons b bytes ih =>
    rw [ofBytes, List.flatMap_cons, List.length_append, length_bits, List.length_cons, ← ofBytes, ih]
    omega

/-! ## Streams -/

theorem testBit_window (i : Nat) : (window S p n).testBit i = (decide (i < n) && S (p + (n - 1 - i))) := by
  induction n generalizing i with
  | zero => simp [window]
  | succ n ih =>
    have hbit : (S (p + n)).toNat < 2 := by cases S (p + n) <;> decide
    cases i with
    | zero =>
      rw [window, Nat.testBit_zero, Nat.add_comm, Nat.add_mul_mod_self_left, Nat.add_sub_cancel, Nat.sub_zero]
      cases S (p + n) <;> simp
    | succ i =>
      have hdiv : (2 * window S p n + (S (p + n)).toNat) / 2 = window S p n := by omega
      rw [window, Nat.testBit_succ, hdiv, ih, show n + 1 - 1 - (i + 1) = n - 1 - i by omega]
      simp

theorem window_lt : window S p n < 2 ^ n := by
  induction n with
  | zero => exact Nat.one_pos
  | succ n ih =>
    have hbit : (S (p + n)).toNat < 2 := by cases S (p + n) <;> decide
    rw [window, Nat.pow_succ]
    omega

theorem window_div (h : m ≤ n) : window S p n / 2 ^ (n - m) = window S p m := by
  apply Nat.eq_of_testBit_eq
  intro i
  rw [Nat.testBit_div_two_pow, testBit_window, testBit_window]
  by_cases hi : i < m
  · rw [decide_eq_true hi, decide_eq_true (by omega), show n - 1 - (i + (n - m)) = m - 1 - i by omega]
  · rw [decide_eq_false hi, decide_eq_false (by omega), Bool.false_and, Bool.false_and]

theorem window_succ : window S p (n + 1) = (S p).toNat * 2 ^ n + window S (p + 1) n := by
  induction n with
  | zero => simp [window]
  | succ n ih =>
    have hpow : (S p).toNat * 2 ^ (n + 1) = 2 * ((S p).toNat * 2 ^ n) := by
      rw [Nat.pow_succ', ← Nat.mul_assoc, Nat.mul_comm _ 2, Nat.mul_assoc]
    rw [window, ih, window, hpow, Nat.add_right_comm p 1 n, Nat.add_assoc p n 1]
    omega

theorem ahead_append (a b : List Bool) : Ahead S p (a ++ b) ↔ Ahead S p a ∧ Ahead S (p + a.length) b := by
  induction a generalizing p with
  | nil => simp [Ahead]
  | cons c a ih =>
    rw [List.cons_append, Ahead, Ahead, ih, List.length_cons, Nat.add_right_comm p 1, Nat.add_assoc p, and_assoc]

/-- A field is read back. -/
theorem Ahead.window_eq (h : Ahead S p (bits n x)) : window S p n = x % 2 ^ n := by
  induction n generalizing p with
  | zero => rw [Nat.pow_zero, Nat.mod_one]; rfl
  | succ n ih =>
    obtain ⟨hfirst, hrest⟩ := h
    rw [window_succ, hfirst, ih hrest, Nat.mod_pow_succ, Nat.toNat_testBit, Nat.mul_comm, Nat.add_comm]

theorem byteStream_bit (B : Nat → Nat) {j i : Nat} (hi : i < 8) : byteStream B (8 * j + (7 - i)) = (B j).testBit i := by
  rw [byteStream, show (8 * j + (7 - i)) / 8 = j by omega, show 7 - (8 * j + (7 - i)) % 8 = i by omega]

theorem ahead_byte (B : Nat → Nat) (j : Nat) : Ahead (byteStream B) (8 * j) (bits 8 (B j)) := by
  simp only [bits, Ahead, byteStream, Nat.add_assoc]
  refine ⟨?_, ?_, ?_, ?_, ?_, ?_, ?_, ?_, trivial⟩ <;> congr 1 <;> (congr 1; omega)

/-- A stream of bytes begins with the bits of the first of them. -/
theorem ahead_ofBytes {B : Nat → Nat} {j : Nat} {bytes : List Nat}
    (h : ∀ i, (hi : i < bytes.length) → B (j + i) = bytes[i]) :
    Ahead (byteStream B) (8 * j) (ofBytes bytes) := by
  induction bytes generalizing j with
  | nil => trivial
  | cons b bytes ih =>
    have hhead : B j = b := h 0 (Nat.zero_lt_succ _)
    rw [ofBytes, List.flatMap_cons, ahead_append, length_bits, ← hhead, ← Nat.mul_succ]
    refine ⟨ahead_byte B j, ih fun i hi => ?_⟩
    rw [Nat.succ_add_eq_add_succ]
    exact h (i + 1) (Nat.succ_lt_succ hi)

end Udk.BitString
