import Udk.Bytes
import Udk.Hii.Merge

/-! # Numbers of a configuration string

Hexadecimal digits become bytes, and the last two digits become the first byte.
-/

namespace Udk.Hii

open Separated Bytes

/-! ## Buffers -/

/-- The allocations so far, and the buffers that were not freed. -/
structure Heap where
  count : Nat
  live : List Nat
  deriving DecidableEq

/-- `AllocateZeroPool`. The `n`-th call may fail. -/
def allocateZeroPool (allocates : Nat → Bool) (heap : Heap) : Option Nat × Heap :=
  if allocates heap.count then (some heap.count, ⟨heap.count + 1, heap.count :: heap.live⟩)
  else (none, ⟨heap.count + 1, heap.live⟩)

def freePool (heap : Heap) (buffer : Nat) : Heap := { heap with live := heap.live.erase buffer }

/-! ## Digits -/

/-- `StrHexToUint64` of a single character. -/
def strHexToUint64 (c : UInt16) : UInt8 :=
  if char '0' ≤ c ∧ c ≤ char '9' then (c - char '0').toUInt8
  else if char 'A' ≤ c ∧ c ≤ char 'F' then (c - char 'A' + 10).toUInt8
  else if char 'a' ≤ c ∧ c ≤ char 'f' then (c - char 'a' + 10).toUInt8
  else 0

/-- The loop of `GetValueOfNumber`, over the digits from the last one on. -/
def writeDigits (buf : List UInt8) (index : Nat) : EfiString → Option (List UInt8)
  | [] => some buf
  | c :: digits =>
    let digitUint8 := strHexToUint64 c
    if buf.length ≤ index / 2 then none
    else if index % 2 = 0 then writeDigits (buf.set (index / 2) digitUint8) (index + 1) digits
    else writeDigits (buf.set (index / 2) ((digitUint8 <<< 4) + buf.getD (index / 2) 0)) (index + 1) digits

/-- The bytes with their buffer, and the length of the number. `none` when a buffer is left. -/
def getValueOfNumber (allocates : Nat → Bool) (heap : Heap) (stringPtr : EfiString) :
    Option (Option (Nat × List UInt8) × Nat × Heap) :=
  let digits := stringPtr.takeWhile (· ≠ char '&')
  match allocateZeroPool allocates heap with
  | (none, heap) => some (none, digits.length, heap)
  | (some str, heap) =>
    match allocateZeroPool allocates heap with
    | (none, heap) => some (none, digits.length, freePool heap str)
    | (some buf, heap) =>
      match writeDigits (List.replicate ((digits.length + 2) / 2) 0) 0 digits.reverse with
      | none => none
      | some bytes => some (some (buf, bytes), digits.length, freePool heap str)

/-- The `UINTN` that is copied out of the bytes of a number. -/
def uintnOfNumber (buffer : List UInt8) (length : Nat) : Nat := fromLE (buffer.take (min ((length + 1) / 2) 8))

/-! ## Their values -/

theorem strHexToUint64_lt (c : UInt16) : (strHexToUint64 c).toNat < 16 := by
  unfold strHexToUint64
  split
  · rename_i h
    have h1 : 48 ≤ c.toNat := UInt16.le_iff_toNat_le.mp h.1
    have h2 : c.toNat ≤ 57 := UInt16.le_iff_toNat_le.mp h.2
    have : (char '0').toNat = 48 := rfl
    rw [UInt16.toNat_toUInt8, UInt16.toNat_sub_of_le _ _ h.1, this]
    omega
  split
  · rename_i h
    have h1 : 65 ≤ c.toNat := UInt16.le_iff_toNat_le.mp h.1
    have h2 : c.toNat ≤ 70 := UInt16.le_iff_toNat_le.mp h.2
    have : (char 'A').toNat = 65 := rfl
    rw [UInt16.toNat_toUInt8, UInt16.toNat_add, UInt16.toNat_sub_of_le _ _ h.1, this]
    simp
    omega
  split
  · rename_i h
    have h1 : 97 ≤ c.toNat := UInt16.le_iff_toNat_le.mp h.1
    have h2 : c.toNat ≤ 102 := UInt16.le_iff_toNat_le.mp h.2
    have : (char 'a').toNat = 97 := rfl
    rw [UInt16.toNat_toUInt8, UInt16.toNat_add, UInt16.toNat_sub_of_le _ _ h.1, this]
    simp
    omega
  · decide

/-- The number that the digits stand for, the last one first. -/
def valueFrom : EfiString → Nat
  | [] => 0
  | c :: digits => (strHexToUint64 c).toNat + 16 * valueFrom digits

/-- The number that the digits stand for. -/
def hexValue (digits : EfiString) : Nat := valueFrom digits.reverse

/-- Two digits a byte, the last digit first. -/
def pairs : EfiString → List UInt8
  | [] => []
  | [c] => [strHexToUint64 c]
  | c :: d :: digits => ((strHexToUint64 d <<< 4) + strHexToUint64 c) :: pairs digits

theorem pairs_length (digits : EfiString) : (pairs digits).length = (digits.length + 1) / 2 := by
  fun_induction pairs digits with
  | case1 => rfl
  | case2 c => simp
  | case3 c d digits ih =>
    simp only [List.length_cons, ih]
    omega

theorem pair_toNat (c d : UInt16) : ((strHexToUint64 d <<< 4) + strHexToUint64 c).toNat =
    (strHexToUint64 c).toNat + 16 * (strHexToUint64 d).toNat := by
  have hc := strHexToUint64_lt c
  have hd := strHexToUint64_lt d
  rw [UInt8.toNat_add, UInt8.toNat_shiftLeft]
  simp [Nat.shiftLeft_eq]
  omega

theorem fromLE_pairs (digits : EfiString) : fromLE (pairs digits) = valueFrom digits := by
  fun_induction pairs digits with
  | case1 => rfl
  | case2 c => simp [fromLE, valueFrom]
  | case3 c d digits ih =>
    rw [fromLE, ih, pair_toNat, valueFrom, valueFrom]
    omega

/-- The loop writes two digits a byte into the zeros. -/
theorem writeDigits_eq (done : List UInt8) (n : Nat) (digits : EfiString) (h : (digits.length + 1) / 2 ≤ n) :
    writeDigits (done ++ List.replicate n 0) (2 * done.length) digits =
      some (done ++ (pairs digits ++ List.replicate (n - (digits.length + 1) / 2) 0)) := by
  fun_induction pairs digits generalizing done n with
  | case1 => simp [writeDigits]
  | case2 c =>
    obtain ⟨n, rfl⟩ : ∃ k, n = k + 1 := ⟨n - 1, by simp at h; omega⟩
    simp [writeDigits, List.replicate_succ]
  | case3 c d digits ih =>
    obtain ⟨n, rfl⟩ : ∃ k, n = k + 1 := ⟨n - 1, by simp at h; omega⟩
    have hlength : (2 * done.length + 1) / 2 = done.length := by omega
    have hodd : (2 * done.length + 1) % 2 = 1 := by omega
    have hdone : 2 * done.length + 1 + 1 = 2 * (done ++ [(strHexToUint64 d <<< 4) + strHexToUint64 c]).length := by
      rw [List.length_append, List.length_singleton]
      omega
    have hrest : (digits.length + 1) / 2 ≤ n := by
      simp only [List.length_cons] at h
      omega
    have hsub : n + 1 - ((c :: d :: digits).length + 1) / 2 = n - (digits.length + 1) / 2 := by
      simp only [List.length_cons]
      omega
    have h1 : writeDigits (done ++ List.replicate (n + 1) 0) (2 * done.length) (c :: d :: digits) =
        writeDigits (done ++ [(strHexToUint64 d <<< 4) + strHexToUint64 c] ++ List.replicate n 0)
          (2 * done.length + 1 + 1) digits := by
      have hlt : ¬done.length + (n + 1) ≤ done.length := by omega
      simp [writeDigits, List.replicate_succ, hlength, hodd, hlt]
    rw [h1, hdone, ih _ _ hrest, hsub]
    simp

/-- The bytes of a number, with the zero bytes of the buffer. -/
def valueBytes (digits : EfiString) : List UInt8 :=
  pairs digits.reverse ++ List.replicate ((digits.length + 2) / 2 - (digits.length + 1) / 2) 0

theorem valueBytes_length (digits : EfiString) : (valueBytes digits).length = (digits.length + 2) / 2 := by
  unfold valueBytes
  rw [List.length_append, pairs_length, List.length_reverse, List.length_replicate]
  omega

theorem fromLE_valueBytes (digits : EfiString) : fromLE (valueBytes digits) = hexValue digits := by
  unfold valueBytes
  rw [fromLE_append, fromLE_pairs, fromLE_zeros, Nat.mul_zero, Nat.add_zero, hexValue]

/-- The low 64 bits of the number are copied, and its zero bytes make no difference. -/
theorem uintnOfNumber_eq (digits : EfiString) :
    uintnOfNumber (valueBytes digits) digits.length = hexValue digits % 2 ^ 64 := by
  unfold uintnOfNumber
  have htake : (valueBytes digits).take (min ((digits.length + 1) / 2) 8) = (pairs digits.reverse).take 8 := by
    unfold valueBytes
    have hlength := pairs_length digits.reverse
    rw [List.length_reverse] at hlength
    rw [List.take_append_of_le_length (by omega), List.take_eq_take_iff, hlength]
    omega
  have hpow : 256 ^ 8 = 2 ^ 64 := by decide
  rw [htake, fromLE_take, fromLE_pairs, hexValue, hpow]

theorem valueBytes_toNat (digits : EfiString) (i : Nat) :
    ((valueBytes digits).getD i 0).toNat = hexValue digits / 256 ^ i % 256 := by
  rw [fromLE_getD, fromLE_valueBytes]

/-! ## Reading a number -/

theorem takeWhile_digits {digits rest : EfiString} (hdigits : Plain (char '&') digits)
    (hrest : Follows (char '&') rest) : (digits ++ rest).takeWhile (· ≠ char '&') = digits := by
  rw [List.takeWhile_append_of_pos]
  · rcases hrest with rfl | ⟨t, rfl⟩
    · simp
    · simp
  · exact fun c hc => decide_eq_true fun heq => hdigits (heq ▸ hc)

/-- A number is read when both allocations succeed, and its buffer is all that is left of them. -/
theorem getValueOfNumber_eq {allocates : Nat → Bool} {heap : Heap} {digits rest : EfiString}
    (hdigits : Plain (char '&') digits) (hrest : Follows (char '&') rest)
    (halloc : allocates heap.count = true ∧ allocates (heap.count + 1) = true) :
    getValueOfNumber allocates heap (digits ++ rest) =
      some (some (heap.count + 1, valueBytes digits), digits.length,
        ⟨heap.count + 2, (heap.count + 1) :: heap.live⟩) := by
  have hwrite := writeDigits_eq [] ((digits.length + 2) / 2) digits.reverse (by rw [List.length_reverse]; omega)
  rw [List.length_reverse, List.nil_append, List.nil_append, List.length_nil, Nat.mul_zero] at hwrite
  unfold getValueOfNumber allocateZeroPool
  simp only [takeWhile_digits hdigits hrest, halloc.1, halloc.2, if_true, hwrite]
  simp [valueBytes, freePool]

/-- Nothing is left of a number that is not read. -/
theorem getValueOfNumber_none {allocates : Nat → Bool} {heap : Heap} {digits rest : EfiString}
    (hdigits : Plain (char '&') digits) (hrest : Follows (char '&') rest)
    (halloc : ¬(allocates heap.count = true ∧ allocates (heap.count + 1) = true)) :
    ∃ count, getValueOfNumber allocates heap (digits ++ rest) = some (none, digits.length, ⟨count, heap.live⟩) := by
  unfold getValueOfNumber allocateZeroPool
  simp only [takeWhile_digits hdigits hrest]
  cases h1 : allocates heap.count with
  | false => exact ⟨heap.count + 1, by simp⟩
  | true =>
    cases h2 : allocates (heap.count + 1) with
    | false => exact ⟨heap.count + 2, by simp [h2, freePool]⟩
    | true => exact absurd ⟨h1, h2⟩ halloc

end Udk.Hii
