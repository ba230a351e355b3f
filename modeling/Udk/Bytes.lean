import Mathlib.Algebra.GroupWithZero.Nat
import Mathlib.Data.List.Basic
import Mathlib.Data.List.GetD

/-!
# Bytes in memory

A byte addressed memory, windows of it, and little-endian numbers. Nothing here
knows about the firmware.
-/

namespace Udk.Bytes

/-- A byte for every address. -/
abbrev Memory := Nat → UInt8

/-- The `n` bytes from `a` on. -/
def read (m : Memory) (a : Nat) : Nat → List UInt8
  | 0 => []
  | n + 1 => m a :: read m (a + 1) n

def write (m : Memory) (a : Nat) (bs : List UInt8) : Memory := fun i =>
  if a ≤ i ∧ i < a + bs.length then bs.getD (i - a) 0 else m i

def fill (m : Memory) (a n : Nat) (b : UInt8) : Memory := fun i =>
  if a ≤ i ∧ i < a + n then b else m i

/-- A write to a device that can only turn bits on into bits off. -/
def clearBits (m : Memory) (a : Nat) (bs : List UInt8) : Memory := fun i =>
  if a ≤ i ∧ i < a + bs.length then m i &&& bs.getD (i - a) 0 else m i

def fromLE : List UInt8 → Nat
  | [] => 0
  | b :: bs => b.toNat + 256 * fromLE bs

/-- The low `k` bytes of `n`, the lowest first. -/
def toLE : Nat → Nat → List UInt8
  | 0, _ => []
  | k + 1, n => UInt8.ofNat n :: toLE k (n / 256)

def readLE (m : Memory) (a k : Nat) : Nat := fromLE (read m a k)

/-! ## Little-endian numbers -/

@[simp] theorem toLE_length (k n : Nat) : (toLE k n).length = k := by
  induction k generalizing n with
  | zero => rfl
  | succ k ih => simp [toLE, ih]

theorem fromLE_toLE (k n : Nat) (h : n < 256 ^ k) : fromLE (toLE k n) = n := by
  induction k generalizing n with
  | zero => simp at h; simp [toLE, fromLE, h]
  | succ k ih =>
    have hk : n / 256 < 256 ^ k := by
      rw [Nat.div_lt_iff_lt_mul (by decide)]; rw [Nat.pow_succ] at h; exact h
    simp only [toLE, fromLE, ih _ hk, UInt8.toNat_ofNat']
    omega

/-- A mask of one bit. -/
theorem and_two_pow (a i : Nat) : a &&& 2 ^ i = if a.testBit i then 2 ^ i else 0 := by
  apply Nat.eq_of_testBit_eq
  intro j
  rw [Nat.testBit_and, Nat.testBit_two_pow]
  by_cases h : i = j
  · subst h; cases a.testBit i <;> simp
  · cases a.testBit i <;> simp [h]

/-! ## Reading -/

@[simp] theorem read_length (m : Memory) (a n : Nat) : (read m a n).length = n := by
  induction n generalizing a with
  | zero => rfl
  | succ n ih => simp [read, ih]

theorem read_add (m : Memory) (a n k : Nat) : read m a (n + k) = read m a n ++ read m (a + n) k := by
  induction n generalizing a with
  | zero => simp [read]
  | succ n ih =>
    rw [Nat.add_right_comm, read, read, ih, List.cons_append, Nat.add_assoc, Nat.add_comm 1 n]

theorem read_getElem (m : Memory) (a n i : Nat) (h : i < (read m a n).length) :
    (read m a n)[i] = m (a + i) := by
  induction n generalizing a i with
  | zero => simp at h
  | succ n ih =>
    cases i with
    | zero => rfl
    | succ i =>
      simp only [read, List.getElem_cons_succ]
      rw [ih]; congr 1; omega

theorem read_congr (m m' : Memory) (a n : Nat) (h : ∀ i, a ≤ i → i < a + n → m' i = m i) :
    read m' a n = read m a n := by
  induction n generalizing a with
  | zero => rfl
  | succ n ih =>
    rw [read, read, h a (Nat.le_refl _) (by omega), ih (a + 1) (fun i h1 h2 => h i (by omega) (by omega))]

theorem read_eq_of_forall {m m' : Memory} {a b n : Nat} (h : ∀ j, j < n → m (a + j) = m' (b + j)) :
    read m a n = read m' b n := by
  refine List.ext_getElem (by simp) fun j h1 h2 => ?_
  rw [read_getElem, read_getElem]
  exact h j (by simpa using h1)

theorem readLE_congr (m m' : Memory) (a k : Nat) (h : ∀ i, a ≤ i → i < a + k → m' i = m i) :
    readLE m' a k = readLE m a k := by
  rw [readLE, readLE, read_congr m m' a k h]

theorem fromLE_lt (bs : List UInt8) : fromLE bs < 256 ^ bs.length := by
  induction bs with
  | nil => simp [fromLE]
  | cons b bs ih =>
    have := b.toNat_lt
    simp only [fromLE, List.length_cons, Nat.pow_succ]
    omega

theorem fromLE_append (xs ys : List UInt8) : fromLE (xs ++ ys) = fromLE xs + 256 ^ xs.length * fromLE ys := by
  induction xs with
  | nil => simp [fromLE]
  | cons x xs ih =>
    rw [List.cons_append, fromLE, ih, fromLE, List.length_cons, Nat.pow_succ', Nat.mul_add, Nat.add_assoc, Nat.mul_assoc]

theorem fromLE_zeros (n : Nat) : fromLE (List.replicate n 0) = 0 := by
  induction n with
  | zero => rfl
  | succ n ih => simp [List.replicate_succ, fromLE, ih]

theorem fromLE_take (k : Nat) (bs : List UInt8) : fromLE (bs.take k) = fromLE bs % 256 ^ k := by
  induction k generalizing bs with
  | zero => simp [fromLE, Nat.mod_one]
  | succ k ih =>
    cases bs with
    | nil => simp [fromLE]
    | cons b bs =>
      have := b.toNat_lt
      have hdiv : (b.toNat + 256 * fromLE bs) / 256 = fromLE bs := by omega
      rw [List.take_succ_cons, fromLE, fromLE, ih, Nat.pow_succ', Nat.mod_mul, hdiv]
      omega

theorem fromLE_getD (bs : List UInt8) (i : Nat) : (bs.getD i 0).toNat = fromLE bs / 256 ^ i % 256 := by
  induction i generalizing bs with
  | zero =>
    cases bs with
    | nil => rfl
    | cons b bs =>
      have := b.toNat_lt
      rw [List.getD_cons_zero, fromLE]
      omega
  | succ i ih =>
    cases bs with
    | nil => simp [fromLE]
    | cons b bs =>
      have := b.toNat_lt
      rw [List.getD_cons_succ, ih, fromLE, Nat.pow_succ', ← Nat.div_div_eq_div_mul]
      congr 2
      omega

theorem fromLE_inj : ∀ {xs ys : List UInt8}, xs.length = ys.length → fromLE xs = fromLE ys → xs = ys
  | [], [], _, _ => rfl
  | x :: xs, y :: ys, hl, h => by
    simp only [fromLE] at h
    have hx := x.toNat_lt
    have hy := y.toNat_lt
    have hxy : x.toNat = y.toNat := by omega
    have hrest : fromLE xs = fromLE ys := by omega
    rw [UInt8.toNat_inj.mp hxy, fromLE_inj (by simpa using hl) hrest]

theorem readLE_lt (m : Memory) (a k : Nat) : readLE m a k < 256 ^ k := by
  simpa [readLE] using fromLE_lt (read m a k)

/-! ## A byte string at an address -/

/-- `bs` sits in memory at `a`. -/
def At (m : Memory) (a : Nat) (bs : List UInt8) : Prop := read m a bs.length = bs

@[simp] theorem at_nil (m : Memory) (a : Nat) : At m a [] := rfl

theorem at_cons (m : Memory) (a : Nat) (b : UInt8) (bs : List UInt8) :
    At m a (b :: bs) ↔ m a = b ∧ At m (a + 1) bs := by
  simp [At, read]

theorem at_append (m : Memory) (a : Nat) (xs ys : List UInt8) :
    At m a (xs ++ ys) ↔ At m a xs ∧ At m (a + xs.length) ys := by
  unfold At
  rw [List.length_append, read_add]
  exact List.append_eq_append_iff_of_size_eq_left (by simp)

theorem at_getElem (m : Memory) (a : Nat) (bs : List UInt8) (h : At m a bs) (i : Nat) (hi : i < bs.length) :
    m (a + i) = bs[i] := by
  have := read_getElem m a bs.length i (by simpa using hi)
  rw [← this]
  exact List.getElem_of_eq h _

theorem at_of_getElem (m : Memory) (a : Nat) (bs : List UInt8)
    (h : ∀ i (hi : i < bs.length), m (a + i) = bs[i]) : At m a bs := by
  apply List.ext_getElem (by simp)
  intro i h1 h2
  rw [read_getElem, h i h2]

theorem at_congr (m m' : Memory) (a : Nat) (bs : List UInt8)
    (h : ∀ i, a ≤ i → i < a + bs.length → m' i = m i) : At m' a bs ↔ At m a bs := by
  rw [At, At, read_congr m m' a _ h]

theorem at_readLE (m : Memory) (a k n : Nat) (h : At m a (toLE k n)) (hn : n < 256 ^ k) :
    readLE m a k = n := by
  have : read m a k = toLE k n := by simpa [At] using h
  rw [readLE, this, fromLE_toLE k n hn]

theorem at_replicate (m : Memory) (a n : Nat) (b : UInt8) :
    At m a (List.replicate n b) ↔ ∀ i, a ≤ i → i < a + n → m i = b := by
  constructor
  · intro h i h1 h2
    have := at_getElem m a _ h (i - a) (by simp; omega)
    rw [show a + (i - a) = i by omega] at this
    simpa using this
  · intro h
    apply at_of_getElem
    intro i hi
    simp only [List.length_replicate] at hi
    rw [h (a + i) (by omega) (by omega), List.getElem_replicate]

/-! ## Writing -/

theorem write_outside (m : Memory) (a : Nat) (bs : List UInt8) (i : Nat) (h : i < a ∨ a + bs.length ≤ i) :
    write m a bs i = m i := by
  unfold write; rw [if_neg (by omega)]

theorem write_at (m : Memory) (a : Nat) (bs : List UInt8) : At (write m a bs) a bs := by
  apply at_of_getElem
  intro i hi
  unfold write
  rw [if_pos (by omega), Nat.add_sub_cancel_left, List.getD_eq_getElem _ _ hi]

theorem readLE_write_same (m : Memory) (a k n : Nat) (hn : n < 256 ^ k) : readLE (write m a (toLE k n)) a k = n :=
  at_readLE _ a k n (write_at m a (toLE k n)) hn

theorem readLE_write_other (m : Memory) (a b k : Nat) (bs : List UInt8) (h : b + bs.length ≤ a ∨ a + k ≤ b) :
    readLE (write m b bs) a k = readLE m a k :=
  readLE_congr _ _ a k fun i _ _ => write_outside m b bs i (by omega)

/-- A write next to a byte string leaves it alone. -/
theorem at_write (m : Memory) (a b : Nat) (xs ys : List UInt8) (h : b + ys.length ≤ a ∨ a + xs.length ≤ b) :
    At (write m b ys) a xs ↔ At m a xs :=
  at_congr _ _ _ _ fun i _ _ => write_outside m b ys i (by omega)

@[simp] theorem write_nil (m : Memory) (a : Nat) : write m a [] = m := by
  funext i; exact write_outside m a [] i (by simp; omega)

theorem fill_outside (m : Memory) (a n : Nat) (b : UInt8) (i : Nat) (h : i < a ∨ a + n ≤ i) :
    fill m a n b i = m i := by
  unfold fill; rw [if_neg (by omega)]

theorem fill_inside (m : Memory) (a n : Nat) (b : UInt8) (i : Nat) (h1 : a ≤ i) (h2 : i < a + n) :
    fill m a n b i = b := by
  unfold fill; rw [if_pos ⟨h1, h2⟩]

/-- Where a write only clears bits, a device that can only do that makes the same write. -/
theorem clearBits_eq_write (m : Memory) (a : Nat) (bs : List UInt8)
    (h : ∀ i (hi : i < bs.length), m (a + i) &&& bs[i] = bs[i]) : clearBits m a bs = write m a bs := by
  funext i
  unfold clearBits write
  split
  · rename_i hi
    have hlt : i - a < bs.length := by omega
    have := h (i - a) hlt
    rw [show a + (i - a) = i by omega] at this
    rw [List.getD_eq_getElem _ _ hlt, this]
  · rfl

theorem write_append (m : Memory) (a : Nat) (xs ys : List UInt8) :
    write m a (xs ++ ys) = write (write m a xs) (a + xs.length) ys := by
  funext i
  unfold write
  simp only [List.length_append]
  by_cases h1 : i < a + xs.length
  · rw [if_neg (show ¬(a + xs.length ≤ i ∧ i < a + xs.length + ys.length) by omega)]
    by_cases h0 : a ≤ i
    · rw [if_pos (by omega), if_pos (by omega), List.getD_append _ _ _ _ (by omega)]
    · rw [if_neg (by omega), if_neg (by omega)]
  · by_cases h2 : i < a + (xs.length + ys.length)
    · rw [if_pos (by omega), if_pos (by omega), List.getD_append_right _ _ _ _ (by omega)]
      congr 1; omega
    · rw [if_neg (by omega), if_neg (by omega), if_neg (by omega)]

theorem clearBits_append (m : Memory) (a : Nat) (xs ys : List UInt8) :
    clearBits m a (xs ++ ys) = clearBits (clearBits m a xs) (a + xs.length) ys := by
  funext i
  unfold clearBits
  simp only [List.length_append]
  by_cases h1 : i < a + xs.length
  · rw [if_neg (show ¬(a + xs.length ≤ i ∧ i < a + xs.length + ys.length) by omega)]
    by_cases h0 : a ≤ i
    · rw [if_pos (by omega), if_pos (by omega), List.getD_append _ _ _ _ (by omega)]
    · rw [if_neg (by omega), if_neg (by omega)]
  · by_cases h2 : i < a + (xs.length + ys.length)
    · rw [if_pos (by omega), if_pos (by omega), if_neg (by omega), List.getD_append_right _ _ _ _ (by omega)]
      congr 2; omega
    · rw [if_neg (by omega), if_neg (by omega), if_neg (by omega)]

end Udk.Bytes
