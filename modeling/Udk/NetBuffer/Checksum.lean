import Udk.OnesComplement
import Udk.NetBuffer.Sequence

/-! # The checksum of a network buffer -/

namespace Udk.NetBuffer

open Bytes OnesComplement

/-! ## The routines -/

/-- The sum of the words of a block, of which a last byte may be left over. -/
def blockSumLoop (m : Memory) : Nat → Nat → Nat → Nat
  | bulk, len + 2, sum => blockSumLoop m (bulk + 2) len (uint32 (sum + readLE m bulk 2))
  | bulk, 1, sum => uint32 (sum + (m bulk).toNat)
  | _, 0, sum => sum

/-- `while ((Sum >> 16) != 0) Sum = (Sum & 0xffff) + (Sum >> 16)`. -/
def foldSum (sum : Nat) : Nat := if sum / 2 ^ 16 ≠ 0 then foldSum (sum % 2 ^ 16 + sum / 2 ^ 16) else sum
termination_by sum
decreasing_by omega

def netblockChecksum (m : Memory) (bulk len : Nat) : Nat := foldSum (blockSumLoop m bulk len 0) % 2 ^ 16

def netAddChecksum (checksum1 checksum2 : Nat) : Nat :=
  let sum := checksum1 + checksum2
  (if sum / 2 ^ 16 ≠ 0 then sum % 2 ^ 16 + 1 else sum) % 2 ^ 16

def swapBytes16 (value : Nat) : Nat := value % 256 * 256 + value / 256

def checksumLoop (m : Memory) : List BlockOp → Nat → Nat → Nat
  | [], _, totalSum => totalSum
  | op :: ops, offset, totalSum =>
    if op.size = 0 then checksumLoop m ops offset totalSum
    else
      let blockSum := netblockChecksum m op.head op.size
      -- the block starts with the high byte of a word
      let blockSum := if offset % 2 ≠ 0 then swapBytes16 blockSum else blockSum
      checksumLoop m ops (uint32 (offset + op.size)) (netAddChecksum blockSum totalSum)

def netbufChecksum (m : Memory) (nbuf : NetBuf) : Nat := checksumLoop m nbuf.blockOps 0 0

/-! ## One block -/

theorem foldSum_eq (n : Nat) : foldSum n = canon n := by
  induction n using foldSum.induct with
  | case1 n h ih =>
    rw [foldSum, if_pos h, ih]
    refine canon_congr ?_ ?_
    · omega
    · omega
  | case2 n h =>
    rw [foldSum, if_neg h, canon_of_le (by omega)]

/-- The loop adds the words, without a wrap if their sum has none. -/
theorem blockSumLoop_eq (m : Memory) (len bulk sum : Nat) (h : sum + wordSum (read m bulk len) < 2 ^ 32) :
    blockSumLoop m bulk len sum = sum + wordSum (read m bulk len) := by
  induction bulk, len, sum using blockSumLoop.induct m with
  | case1 bulk len sum ih =>
    have hread : readLE m bulk 2 = (m bulk).toNat + 256 * (m (bulk + 1)).toNat := rfl
    have hwords : wordSum (read m bulk (len + 2)) = readLE m bulk 2 + wordSum (read m (bulk + 2) len) := by
      rw [hread]
      rfl
    rw [hwords] at h ⊢
    have hsmall : uint32 (sum + readLE m bulk 2) = sum + readLE m bulk 2 := uint32_of_lt (by omega)
    rw [blockSumLoop, ih (by rw [hsmall]; omega), hsmall, Nat.add_assoc]
  | case2 bulk sum => exact uint32_of_lt h
  | case3 bulk sum => rfl

theorem netblockChecksum_eq (m : Memory) (bulk : Nat) {len : Nat} (hlen : len ≤ 65535) :
    netblockChecksum m bulk len = canon (wordSum (read m bulk len)) := by
  have hle := wordSum_le (read m bulk len)
  rw [read_length] at hle
  rw [netblockChecksum, blockSumLoop_eq m len bulk 0 (by omega), Nat.zero_add, foldSum_eq]
  exact Nat.mod_eq_of_lt (by have := canon_le (wordSum (read m bulk len)); omega)

theorem netAddChecksum_eq (a b : Nat) : netAddChecksum (canon a) (canon b) = canon (a + b) := by
  have ha := canon_le a
  have hb := canon_le b
  rw [← add_canon]
  simp only [netAddChecksum, add]
  split
  · rw [if_neg (by omega)]
    omega
  · rw [if_pos (by omega)]
    omega

theorem swapBytes16_eq (n : Nat) : swapBytes16 (canon n) = canon (256 * n) := by
  have hle := canon_le n
  have hmod := canon_mod n
  have hzero := canon_eq_zero n
  symm
  refine canon_unique ?_ ?_ ?_
  all_goals
    unfold swapBytes16
    omega

/-! ## All blocks -/

/-- The sum so far is that of the bytes so far. -/
theorem checksumLoop_eq (m : Memory) {ops : List BlockOp} {pre : List UInt8} (h : pre.length + sizes ops ≤ 65535) :
    checksumLoop m ops pre.length (canon (wordSum pre)) = canon (wordSum (pre ++ flatOps m ops)) := by
  induction ops generalizing pre with
  | nil =>
    rw [flatOps_nil, List.append_nil]
    rfl
  | cons op ops ih =>
    rw [sizes_cons] at h
    rw [flatOps_cons, checksumLoop]
    split
    · rename_i hzero
      have hnone : op.bytes m = [] := by rw [BlockOp.bytes, hzero]; rfl
      rw [hnone, List.nil_append]
      exact ih (by omega)
    · have hnext := @ih (pre ++ op.bytes m) (by rw [List.length_append, bytes_length]; omega)
      rw [List.length_append, bytes_length, canon_append, List.append_assoc] at hnext
      simp only [netblockChecksum_eq m op.head (show op.size ≤ 65535 by omega), swapBytes16_eq]
      rw [← hnext, uint32_of_lt (by omega)]
      congr 1
      rcases Nat.mod_two_eq_zero_or_one pre.length with hpar | hpar
      · rw [if_neg (not_not_intro hpar), if_pos hpar, netAddChecksum_eq, Nat.add_comm]
        rfl
      · rw [if_pos (by omega), if_neg (by omega), netAddChecksum_eq, Nat.add_comm]
        rfl

theorem netbufChecksum_eq (m : Memory) {nbuf : NetBuf} (h : nbuf.Good) (hlt : nbuf.totalSize ≤ 65535) :
    netbufChecksum m nbuf = OnesComplement.sum (flat m nbuf) := by
  rw [h.total] at hlt
  rw [sum_eq]
  exact @checksumLoop_eq m _ [] (by simpa using hlt)

/-- The checksum of a buffer is that of its bytes, in whatever blocks they are. -/
structure IsFlatChecksum (m : Memory) (nbuf : NetBuf) : Prop where
  /-- No sum of the loop over a block wraps. -/
  no_wrap : ∀ op ∈ nbuf.blockOps, ∀ n, wordSum (read m op.head n) < 2 ^ 32 ∨ op.size < n
  sum : netbufChecksum m nbuf = OnesComplement.sum (flat m nbuf)
  partition : ∀ (m' : Memory) (nbuf' : NetBuf), nbuf'.Good → flat m' nbuf' = flat m nbuf →
    netbufChecksum m' nbuf' = netbufChecksum m nbuf
  split : ∀ (m₁ m₂ : Memory) (front rest : NetBuf), front.Good → rest.Good → front.totalSize % 2 = 0 →
    flat m₁ front ++ flat m₂ rest = flat m nbuf →
    netbufChecksum m nbuf = netAddChecksum (netbufChecksum m₁ front) (netbufChecksum m₂ rest)
  bulk : ∀ (m₁ m₂ : Memory) (a b k n : Nat), k % 2 = 0 → read m₁ a k ++ read m₂ b n = flat m nbuf →
    netbufChecksum m nbuf = netAddChecksum (netblockChecksum m₁ a k) (netblockChecksum m₂ b n)

/-- The sums of an even number of bytes and of the rest add up to that of all. -/
theorem sum_even_append {xs ys : List UInt8} (h : xs.length % 2 = 0) :
    OnesComplement.sum (xs ++ ys) = netAddChecksum (OnesComplement.sum xs) (OnesComplement.sum ys) := by
  rw [sum_eq, sum_eq, sum_eq, canon_append, if_pos h, netAddChecksum_eq]

theorem size_le_sizes {ops : List BlockOp} {op : BlockOp} (h : op ∈ ops) : op.size ≤ sizes ops := by
  obtain ⟨pre, post, rfl⟩ := List.append_of_mem h
  rw [sizes_append, sizes_cons]
  omega

theorem netbufChecksum_flat (m : Memory) (nbuf : NetBuf) (h : nbuf.Good) (hlt : nbuf.totalSize ≤ 65535) :
    IsFlatChecksum m nbuf := by
  have hsum := netbufChecksum_eq m h hlt
  have hlength : (flat m nbuf).length = nbuf.totalSize := by rw [flat, flatOps_length, h.total]
  have htotal : ∀ (m' : Memory) (nbuf' : NetBuf), nbuf'.Good → (flat m' nbuf').length = nbuf'.totalSize := by
    intro m' nbuf' h'
    rw [flat, flatOps_length, h'.total]
  refine ⟨fun op hop n => ?_, hsum, ?_, ?_, ?_⟩
  · by_cases hn : op.size < n
    · exact .inr hn
    · have hsize := size_le_sizes hop
      have hle := wordSum_le (read m op.head n)
      have htot := h.total
      rw [read_length] at hle
      exact .inl (by omega)
  · intro m' nbuf' h' hflat
    have h1 := htotal m' nbuf' h'
    rw [hflat, hlength] at h1
    rw [netbufChecksum_eq m' h' (by omega), hflat, hsum]
  · intro m₁ m₂ front rest hf hr heven hflat
    have h1 := congrArg List.length hflat
    rw [List.length_append, hlength, htotal m₁ front hf, htotal m₂ rest hr] at h1
    rw [hsum, ← hflat, sum_even_append (by rw [htotal m₁ front hf]; exact heven),
      netbufChecksum_eq m₁ hf (by omega), netbufChecksum_eq m₂ hr (by omega)]
  · intro m₁ m₂ a b k n heven hflat
    have h1 := congrArg List.length hflat
    rw [List.length_append, hlength, read_length, read_length] at h1
    rw [hsum, ← hflat, sum_even_append (by rw [read_length]; exact heven),
      netblockChecksum_eq m₁ a (by omega), netblockChecksum_eq m₂ b (by omega), sum_eq, sum_eq]

/-- The second block starts at an odd byte. -/
theorem netbufChecksum_flat_sample :
    IsFlatChecksum UInt8.ofNat twoBlocks ∧ netbufChecksum UInt8.ofNat twoBlocks = 26688 :=
  ⟨netbufChecksum_flat UInt8.ofNat twoBlocks built_twoBlocks.good (by decide), by decide +kernel⟩

/-- Two zeroes: words that are all 0, and words with a sum of 65535. -/
example : OnesComplement.sum [0, 0, 0] = 0 ∧ OnesComplement.sum [0xfe, 0xff, 1] = 65535 := by decide

end Udk.NetBuffer
