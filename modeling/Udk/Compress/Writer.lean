import Mathlib.Algebra.Order.Ring.Nat
import Mathlib.Logic.Function.Basic
import Udk.BitString

/-! # The bits that the compressor puts out, from `EfiCompress.c`

What is stored beyond the end of the destination is dropped, and only counted.
-/

namespace Udk.Compress

open Function (update)
open BitString

/-- The destination and the globals of `PutBits`. `mDst` and `mDstUpperLimit` are indices into the destination;
`mCompSize` does not wrap here, its uses do. -/
structure BitWriter where
  dst : Nat → Nat
  mDst : Nat
  mDstUpperLimit : Nat
  mCompSize : Nat
  mBitCount : Nat
  mSubBitBuf : Nat

/-- `if (mDst < mDstUpperLimit) *mDst++ = b`. -/
def store (b : Nat) (w : BitWriter) : BitWriter :=
  if w.mDst < w.mDstUpperLimit then { w with dst := update w.dst w.mDst b, mDst := w.mDst + 1 } else w

/-- A byte of compressed data. -/
def putByte (b : Nat) (w : BitWriter) : BitWriter :=
  let w := store b w
  { w with mCompSize := w.mCompSize + 1 }

def initPutBits (w : BitWriter) : BitWriter := { w with mBitCount := 8, mSubBitBuf := 0 }

def putBits (n x : Nat) (w : BitWriter) : BitWriter :=
  if n < w.mBitCount then
    let mBitCount := w.mBitCount - n
    { w with mBitCount, mSubBitBuf := w.mSubBitBuf ||| x * 2 ^ mBitCount % 2 ^ 32 }
  else
    let n := n - w.mBitCount
    let w := putByte ((w.mSubBitBuf ||| x / 2 ^ n) % 256) w
    if n < 8 then { w with mBitCount := 8 - n, mSubBitBuf := x * 2 ^ (8 - n) % 2 ^ 32 }
    else
      let w := putByte (x / 2 ^ (n - 8) % 256) w
      { w with mBitCount := 16 - n, mSubBitBuf := x * 2 ^ (16 - n) % 2 ^ 32 }

/-! ## What has been written -/

/-- The compressed bytes, which follow the header of 8 bytes as far as there is room. -/
structure Stored (w : BitWriter) (bytes : List Nat) : Prop where
  next : w.mDst = min w.mDstUpperLimit (8 + bytes.length)
  size : w.mCompSize = bytes.length
  byte : ∀ i, (hi : i < bytes.length) → 8 + i < w.mDstUpperLimit → w.dst (8 + i) = bytes[i]

/-- The bits `l` have been put out: the bytes stored and those that wait in `mSubBitBuf`. -/
structure Holds (w : BitWriter) (l : List Bool) : Prop where
  pos : 1 ≤ w.mBitCount
  le : w.mBitCount ≤ 8
  bits : ∃ bytes v, Stored w bytes ∧ v < 2 ^ (8 - w.mBitCount) ∧ l = ofBytes bytes ++ BitString.bits (8 - w.mBitCount) v ∧
    w.mSubBitBuf % 256 = v * 2 ^ w.mBitCount

variable {w : BitWriter} {bytes : List Nat} {l : List Bool} {n x b : Nat}

theorem Stored.putByte (h : Stored w bytes) (b : Nat) : Stored (putByte b w) (bytes ++ [b]) := by
  have hnext := h.next
  have hsize := h.size
  unfold Compress.putByte store
  split
  · rename_i hroom
    have hmDst : w.mDst = 8 + bytes.length := by omega
    refine ⟨?_, ?_, fun i hi hlt => ?_⟩
    · simp only [List.length_append, List.length_singleton]
      omega
    · simp only [List.length_append, List.length_singleton, hsize]
    · rw [List.length_append, List.length_singleton] at hi
      rcases Nat.lt_or_ge i bytes.length with hold | hnew
      · rw [List.getElem_append_left hold]
        exact (Function.update_of_ne (by omega) _ _).trans (h.byte i hold hlt)
      · obtain rfl : i = bytes.length := by omega
        simp only [← hmDst, Function.update_self, List.getElem_concat_length]
  · refine ⟨?_, ?_, fun i hi hlt => ?_⟩
    · simp only [List.length_append, List.length_singleton]
      omega
    · simp only [List.length_append, List.length_singleton, hsize]
    · rw [List.length_append, List.length_singleton] at hi
      have hold : i < bytes.length := by simp only at hlt; omega
      rw [List.getElem_append_left hold]
      exact h.byte i hold hlt

theorem store_limit (b : Nat) (w : BitWriter) : (store b w).mDstUpperLimit = w.mDstUpperLimit := by
  unfold store
  split <;> rfl

theorem putBits_limit (n x : Nat) (w : BitWriter) : (putBits n x w).mDstUpperLimit = w.mDstUpperLimit := by
  unfold putBits putByte
  split
  · rfl
  · simp only
    split <;> simp only [store_limit]

/-- Only the fields of the stored bytes matter. -/
theorem Stored.congr {w' : BitWriter} (h : Stored w bytes) (h1 : w'.dst = w.dst) (h2 : w'.mDst = w.mDst)
    (h3 : w'.mDstUpperLimit = w.mDstUpperLimit) (h4 : w'.mCompSize = w.mCompSize) : Stored w' bytes :=
  ⟨by rw [h2, h3, h.next], by rw [h4, h.size], fun i hi hlt => by rw [h1, h.byte i hi (h3 ▸ hlt)]⟩

/-- A field goes into the free bits of the byte. -/
theorem merge_eq {s v c k : Nat} (hs : s % 256 = v * 2 ^ c) (hk : k < 2 ^ c) (m : Nat) (hm : m % 256 = k) :
    (s ||| m) % 256 = v * 2 ^ c + k := by
  rw [show (256 : Nat) = 2 ^ 8 from rfl, Nat.or_mod_two_pow, show (2 : Nat) ^ 8 = 256 from rfl, hs, hm, Nat.mul_comm,
    Nat.two_pow_add_eq_or_of_lt hk]

/-- The bits that are left after a byte has been stored. -/
theorem rest_eq {c m : Nat} (hc : m + c = 8) : x * 2 ^ c % 2 ^ 32 % 256 = x % 2 ^ m * 2 ^ c := by
  rw [Nat.mod_mod_of_dvd _ (by decide : 256 ∣ 2 ^ 32), show (256 : Nat) = 2 ^ m * 2 ^ c by rw [← Nat.pow_add, hc],
    Nat.mul_mod_mul_right]

/-- `PutBits` appends a field of `n` bits. -/
theorem Holds.putBits (h : Holds w l) (hn : n ≤ 16) (hx : x < 2 ^ n) : Holds (putBits n x w) (l ++ BitString.bits n x) := by
  obtain ⟨hpos, hle, bytes, v, hstored, hv, rfl, hsub⟩ := h
  have hfield : ofBytes bytes ++ BitString.bits (8 - w.mBitCount) v ++ BitString.bits n x
      = ofBytes bytes ++ BitString.bits (8 - w.mBitCount + n) (v * 2 ^ n + x) := by
    rw [List.append_assoc, bits_append hx]
  have hlt : v * 2 ^ n + x < 2 ^ (8 - w.mBitCount + n) := by
    have := Nat.mul_le_mul_right (2 ^ n) (Nat.succ_le_of_lt hv)
    rw [Nat.pow_add]
    rw [Nat.succ_mul] at this
    omega
  rw [hfield]
  unfold Compress.putBits
  split
  · -- the field fits
    rename_i hfits
    have hxlt : x * 2 ^ (w.mBitCount - n) < 2 ^ w.mBitCount := by
      calc x * 2 ^ (w.mBitCount - n) < 2 ^ n * 2 ^ (w.mBitCount - n) := Nat.mul_lt_mul_of_pos_right hx (Nat.two_pow_pos _)
        _ = 2 ^ w.mBitCount := by rw [← Nat.pow_add, Nat.add_sub_cancel' hfits.le]
    have h256 : 2 ^ w.mBitCount ≤ 256 := Nat.pow_le_pow_right (by omega) hle
    refine ⟨by simp only; omega, by simp only; omega, bytes, v * 2 ^ n + x, hstored.congr rfl rfl rfl rfl, ?_, ?_, ?_⟩
    · simp only
      rwa [show 8 - (w.mBitCount - n) = 8 - w.mBitCount + n by omega]
    · simp only
      rw [show 8 - (w.mBitCount - n) = 8 - w.mBitCount + n by omega]
    · simp only
      rw [merge_eq hsub hxlt]
      · rw [Nat.add_mul, Nat.mul_assoc, ← Nat.pow_add, Nat.add_sub_cancel' hfits.le]
      · rw [Nat.mod_mod_of_dvd _ (by decide : 256 ∣ 2 ^ 32), Nat.mod_eq_of_lt (by omega)]
  · -- the byte becomes full
    rename_i hfull
    generalize hk : n - w.mBitCount = k
    obtain rfl : n = w.mBitCount + k := by omega
    have hxlt : x / 2 ^ k < 2 ^ w.mBitCount := by
      rwa [Nat.div_lt_iff_lt_mul (Nat.two_pow_pos k), ← Nat.pow_add]
    have h256 : 2 ^ w.mBitCount ≤ 256 := Nat.pow_le_pow_right (by omega) hle
    have hdiv : (v * 2 ^ (w.mBitCount + k) + x) / 2 ^ k = v * 2 ^ w.mBitCount + x / 2 ^ k := by
      rw [Nat.pow_add, ← Nat.mul_assoc, Nat.add_comm, Nat.add_mul_div_right _ _ (Nat.two_pow_pos k), Nat.add_comm]
    have hmod : (v * 2 ^ (w.mBitCount + k) + x) % 2 ^ k = x % 2 ^ k := by
      rw [Nat.pow_add, ← Nat.mul_assoc, Nat.mul_add_mod_self_right]
    have hbyte := merge_eq hsub hxlt (x / 2 ^ k) (Nat.mod_eq_of_lt (by omega))
    have hsplit : BitString.bits (8 - w.mBitCount + (w.mBitCount + k)) (v * 2 ^ (w.mBitCount + k) + x)
        = BitString.bits 8 (v * 2 ^ w.mBitCount + x / 2 ^ k) ++ BitString.bits k x := by
      rw [show 8 - w.mBitCount + (w.mBitCount + k) = 8 + k by omega, bits_add, hdiv,
        ← bits_mod (x := v * 2 ^ (w.mBitCount + k) + x) (Nat.le_refl k), hmod, bits_mod (Nat.le_refl k)]
    have hstored' := hstored.putByte ((w.mSubBitBuf ||| x / 2 ^ k) % 256)
    rw [hbyte] at hstored'
    rw [hsplit, ← List.append_assoc, ← ofBytes_singleton, ← ofBytes_append]
    simp only [hbyte]
    split
    · rename_i h8
      refine ⟨by simp only; omega, by simp only; omega, _, x % 2 ^ k, hstored'.congr rfl rfl rfl rfl, ?_, ?_, ?_⟩
      · simp only
        rw [show 8 - (8 - k) = k by omega]
        exact Nat.mod_lt _ (Nat.two_pow_pos k)
      · simp only
        rw [show 8 - (8 - k) = k by omega, bits_mod (Nat.le_refl k)]
      · exact rest_eq (by omega)
    · rename_i h8
      have hsplit' : BitString.bits k x = ofBytes [x / 2 ^ (k - 8) % 256] ++ BitString.bits (k - 8) x := by
        rw [ofBytes_singleton, show (256 : Nat) = 2 ^ 8 from rfl, bits_mod (Nat.le_refl 8), ← bits_add,
          Nat.add_sub_cancel' (by omega : 8 ≤ k)]
      refine ⟨by simp only; omega, by simp only; omega, _, x % 2 ^ (k - 8),
        (hstored'.putByte (x / 2 ^ (k - 8) % 256)).congr rfl rfl rfl rfl, ?_, ?_, ?_⟩
      · simp only
        rw [show 8 - (16 - k) = k - 8 by omega]
        exact Nat.mod_lt _ (Nat.two_pow_pos _)
      · simp only
        rw [show 8 - (16 - k) = k - 8 by omega, hsplit', bits_mod (Nat.le_refl _), ← List.append_assoc, ← ofBytes_append]
      · exact rest_eq (by omega)

end Udk.Compress
