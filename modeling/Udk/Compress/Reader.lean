import Udk.BitString

/-! # The bits that the decompressor takes in, from `BaseUefiDecompressLib.c`

`mBitBuf` holds the next 32 bits. Behind the end of the source there are zeros.
-/

namespace Udk.Compress

open BitString

/-- The part of `SCRATCH_DATA` that `FillBuf` works on. -/
structure BitReader where
  mSrcBase : Nat → Nat
  mInBuf : Nat
  mCompSize : Nat
  mBitCount : Nat
  mBitBuf : Nat
  mSubBitBuf : Nat

/-- The body of the loop in `FillBuf`; `n` is `NumOfBits - mBitCount`. -/
def nextByte (n : Nat) (d : BitReader) : BitReader :=
  let mBitBuf := d.mBitBuf ||| d.mSubBitBuf * 2 ^ n % 2 ^ 32
  if d.mCompSize > 0 then
    { d with mBitBuf, mCompSize := d.mCompSize - 1, mSubBitBuf := d.mSrcBase d.mInBuf,
             mInBuf := d.mInBuf + 1, mBitCount := 8 }
  else { d with mBitBuf, mSubBitBuf := 0, mBitCount := 8 }

theorem nextByte_mBitCount (n : Nat) (d : BitReader) : (nextByte n d).mBitCount = 8 := by
  unfold nextByte
  split <;> rfl

/-- `while (NumOfBits > mBitCount)`. -/
def fillLoop (n : Nat) (d : BitReader) : Nat × BitReader :=
  if n > d.mBitCount then fillLoop (n - d.mBitCount) (nextByte (n - d.mBitCount) d) else (n, d)
termination_by 2 * n + if d.mBitCount = 0 then 1 else 0
decreasing_by
  rw [nextByte_mBitCount, if_neg (by decide : ¬8 = 0)]
  split <;> omega

def fillBuf (n : Nat) (d : BitReader) : BitReader :=
  let (n, d) := fillLoop n { d with mBitBuf := d.mBitBuf * 2 ^ n % 2 ^ 32 }
  { d with mBitCount := d.mBitCount - n, mBitBuf := d.mBitBuf ||| d.mSubBitBuf / 2 ^ (d.mBitCount - n) }

def getBits (n : Nat) (d : BitReader) : Nat × BitReader := (d.mBitBuf / 2 ^ (32 - n), fillBuf n d)

/-! ## Where the reader stands -/

/-- The source with zeros around it: in front as many as the empty buffer holds. -/
def padded (src : Nat → Nat) (size : Nat) (j : Nat) : Nat := if 5 ≤ j ∧ j < 5 + size then src (j - 5) else 0

/-- The stream of a source. -/
def sourceBits (src : Nat → Nat) (size : Nat) : Nat → Bool := byteStream (padded src size)

/-- `mBitBuf` has the bits from `q` and room for `n` more; `j` is the byte that the reader takes in next. -/
structure Filling (src : Nat → Nat) (size q n : Nat) (d : BitReader) : Prop where
  base : d.mSrcBase = src
  buf : d.mBitBuf = window (sourceBits src size) q 32 * 2 ^ n % 2 ^ 32
  le : d.mBitCount ≤ 8
  byte : ∃ j, 5 ≤ j ∧ q + 32 + d.mBitCount = 8 * j ∧ d.mSubBitBuf = padded src size (j - 1) ∧
    (d.mCompSize > 0 → d.mInBuf + 5 = j ∧ d.mInBuf + d.mCompSize = size) ∧ (d.mCompSize = 0 → 5 + size ≤ j)

/-- The reader stands at `p`. -/
def Reads (src : Nat → Nat) (size p : Nat) (d : BitReader) : Prop := Filling src size p 0 d

section
variable {src : Nat → Nat} {size p q n : Nat} {d : BitReader}

theorem padded_lt (hsrc : ∀ i, src i < 256) (j : Nat) : padded src size j < 2 ^ 8 := by
  unfold padded
  split
  · exact hsrc _
  · decide

theorem Reads.buf (h : Reads src size p d) : d.mBitBuf = window (sourceBits src size) p 32 := by
  have hbuf := Filling.buf h
  rwa [Nat.pow_zero, Nat.mul_one, Nat.mod_eq_of_lt window_lt] at hbuf

/-- A bit of `mBitBuf` while `n` bits are still to come. -/
theorem testBit_buf (S : Nat → Bool) (q n i : Nat) :
    (window S q 32 * 2 ^ n % 2 ^ 32).testBit i = (decide (n ≤ i ∧ i < 32) && S (q + 31 + n - i)) := by
  rw [Nat.testBit_mod_two_pow, Nat.testBit_mul_two_pow, testBit_window]
  by_cases h1 : i < 32
  · by_cases h2 : n ≤ i
    · rw [decide_eq_true h1, decide_eq_true h2, decide_eq_true (by omega : i - n < 32), decide_eq_true ⟨h2, h1⟩,
        show q + (32 - 1 - (i - n)) = q + 31 + n - i by omega]
      rfl
    · rw [decide_eq_false h2, decide_eq_false (by omega : ¬(n ≤ i ∧ i < 32))]
      simp
  · rw [decide_eq_false h1, decide_eq_false (by omega : ¬(n ≤ i ∧ i < 32))]
    rfl

/-- A bit of the last byte. -/
theorem testBit_byte (hsrc : ∀ i, src i < 256) {j : Nat} (hj : 1 ≤ j) (i : Nat) :
    (padded src size (j - 1)).testBit i = (decide (i < 8) && sourceBits src size (8 * j - 1 - i)) := by
  by_cases hi : i < 8
  · rw [decide_eq_true hi, Bool.true_and, sourceBits, ← byteStream_bit _ hi]
    congr 1
    omega
  · rw [decide_eq_false hi, Bool.false_and]
    exact Nat.testBit_lt_two_pow ((padded_lt hsrc _).trans_le (Nat.pow_le_pow_right (by omega) (by omega)))

theorem Filling.nextByte (hsrc : ∀ i, src i < 256) (h : Filling src size q n d) (hn : d.mBitCount ≤ n) :
    Filling src size (q + d.mBitCount) (n - d.mBitCount) (nextByte (n - d.mBitCount) d) := by
  obtain ⟨hbase, hbuf, hle, j, hj, hpos, hsub, hmore, hend⟩ := h
  have hnew : d.mBitBuf ||| d.mSubBitBuf * 2 ^ (n - d.mBitCount) % 2 ^ 32
      = window (sourceBits src size) (q + d.mBitCount) 32 * 2 ^ (n - d.mBitCount) % 2 ^ 32 := by
    apply Nat.eq_of_testBit_eq
    intro i
    rw [Nat.testBit_or, hbuf, hsub, testBit_buf, testBit_buf, Nat.testBit_mod_two_pow, Nat.testBit_mul_two_pow,
      testBit_byte hsrc (by omega)]
    have hsame : q + d.mBitCount + 31 + (n - d.mBitCount) - i = q + 31 + n - i := by omega
    rw [hsame]
    by_cases h1 : i < 32 ∧ n - d.mBitCount ≤ i
    · have hat : i - (n - d.mBitCount) < 8 → 8 * j - 1 - (i - (n - d.mBitCount)) = q + 31 + n - i := by omega
      by_cases h2 : n ≤ i
      · by_cases h3 : i - (n - d.mBitCount) < 8
        · simp [h1, h2, h3, hat h3]
        · simp [h1, h2, h3]
      · have h3 : i - (n - d.mBitCount) < 8 := by omega
        simp [h1, h2, h3, hat h3]
    · by_cases h2 : i < 32
      · have h3 : ¬n - d.mBitCount ≤ i := fun hc => h1 ⟨h2, hc⟩
        have h4 : ¬n ≤ i := by omega
        simp [h3, h4]
      · simp [h2]
  unfold Compress.nextByte
  split
  · rename_i hc
    obtain ⟨hin, hsize⟩ := hmore hc
    refine ⟨hbase, hnew, Nat.le_refl _, j + 1, by omega, by simp only; omega, ?_, fun _ => ⟨?_, ?_⟩, fun h0 => ?_⟩
    · simp only [hbase]
      rw [Nat.add_sub_cancel, padded, if_pos (by omega), show j - 5 = d.mInBuf by omega]
    · simp only
      omega
    · simp only
      omega
    · simp only at h0
      omega
  · have hc : d.mCompSize = 0 := by omega
    have hj' := hend hc
    refine ⟨hbase, hnew, Nat.le_refl _, j + 1, by omega, by simp only; omega, ?_, fun h0 => ?_, fun _ => by omega⟩
    · simp only
      rw [Nat.add_sub_cancel, padded, if_neg (by omega)]
    · simp only at h0
      omega

theorem fillLoop_spec (hsrc : ∀ i, src i < 256) (h : Filling src size q n d) :
    ∃ n' d', fillLoop n d = (n', d') ∧ n' ≤ d'.mBitCount ∧ ∃ q', q' + n' = q + n ∧ Filling src size q' n' d' := by
  induction n, d using fillLoop.induct generalizing q with
  | case1 n d hgt ih =>
    rw [fillLoop, if_pos hgt]
    obtain ⟨n', d', hrun, hle, q', hq, hfill⟩ := ih (h.nextByte hsrc hgt.le)
    exact ⟨n', d', hrun, hle, q', by omega, hfill⟩
  | case2 n d hle =>
    rw [fillLoop, if_neg hle]
    exact ⟨n, d, rfl, by omega, q, rfl, h⟩

/-- `FillBuf` moves on by `n` bits. -/
theorem Reads.fillBuf (hsrc : ∀ i, src i < 256) (h : Reads src size p d) (n : Nat) :
    Reads src size (p + n) (fillBuf n d) := by
  have hbuf₀ := h.buf
  obtain ⟨hbase₀, -, hle₀, hbyte₀⟩ := h
  have hstart : Filling src size p n { d with mBitBuf := d.mBitBuf * 2 ^ n % 2 ^ 32 } :=
    ⟨hbase₀, by rw [hbuf₀], hle₀, hbyte₀⟩
  obtain ⟨n', d', hrun, hle, q, hq, hbase, hbuf, hle8, j, hj, hpos, hsub, hmore, hend⟩ := fillLoop_spec hsrc hstart
  unfold Compress.fillBuf
  rw [hrun]
  refine ⟨hbase, ?_, ?_, j, hj, ?_, hsub, hmore, hend⟩
  · apply Nat.eq_of_testBit_eq
    intro i
    simp only
    rw [Nat.testBit_or, hbuf, hsub, testBit_buf, Nat.testBit_div_two_pow, testBit_byte hsrc (by omega), testBit_buf,
      Nat.add_zero]
    have hsame : p + n + 31 - i = q + 31 + n' - i := by omega
    have hat : i + (d'.mBitCount - n') < 8 → 8 * j - 1 - (i + (d'.mBitCount - n')) = q + 31 + n' - i := by omega
    by_cases h1 : i < 32
    · rw [hsame]
      by_cases h2 : n' ≤ i
      · by_cases h3 : i + (d'.mBitCount - n') < 8
        · simp [h1, h2, h3, hat h3]
        · simp [h1, h2, h3]
      · have h3 : i + (d'.mBitCount - n') < 8 := by omega
        simp [h1, h2, h3, hat h3]
    · have h3 : ¬i + (d'.mBitCount - n') < 8 := by omega
      simp [h1, h3]
  · simp only
    omega
  · simp only
    omega

/-- `GetBits` gives the next field. -/
theorem Reads.getBits (hsrc : ∀ i, src i < 256) (h : Reads src size p d) {x : Nat} (hn : n ≤ 32) (hx : x < 2 ^ n)
    (hahead : Ahead (sourceBits src size) p (bits n x)) :
    ∃ d', getBits n d = (x, d') ∧ Reads src size (p + n) d' := by
  refine ⟨Compress.fillBuf n d, ?_, h.fillBuf hsrc n⟩
  rw [Compress.getBits, h.buf, window_div hn, hahead.window_eq, Nat.mod_eq_of_lt hx]

/-- The buffer before the first `FillBuf`. -/
theorem Reads.start (d : BitReader) (hbase : d.mSrcBase = src) (hin : d.mInBuf = 0) (hsize : d.mCompSize = size)
    (hcount : d.mBitCount = 0) (hbuf : d.mBitBuf = 0) (hsub : d.mSubBitBuf = 0) : Reads src size 8 d := by
  have hzero : ∀ i < 40, sourceBits src size i = false := fun i hi => by
    rw [sourceBits, byteStream, padded, if_neg (by omega), Nat.zero_testBit]
  refine ⟨hbase, ?_, by omega, 5, by omega, by omega, ?_, fun _ => by omega, fun _ => by omega⟩
  · rw [hbuf]
    apply Nat.eq_of_testBit_eq
    intro i
    rw [testBit_buf, Nat.zero_testBit, hzero _ (by omega), Bool.and_false]
  · rw [hsub, padded, if_neg (by omega)]

end

end Udk.Compress
