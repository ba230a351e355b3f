import Udk.Huffman.Codes
import Udk.Huffman.Table

/-! # The compressor's codes and the decompressor's tables

`MakeTree` gives a complete prefix code, and `MakeTable`, from the lengths alone, accepts exactly its codes.
-/

namespace Udk.Huffman

open Finset Canonical
open ArrayTrie (Arrays)

/-- No symbol's code is the beginning of another symbol's code. -/
def PrefixFree (N : Nat) (len code : Nat → Nat) : Prop :=
  ∀ s < N, ∀ t < N, len s ≠ 0 → len t ≠ 0 → s ≠ t → len s ≤ len t → code t / 2 ^ (len t - len s) ≠ code s

/-- The decoder's lengths: the encoder may use fewer symbols than the decoder's set has. -/
def padded (N : Nat) (len : Nat → Nat) (s : Nat) : Nat := if s < N then len s else 0

/-- A table for `numOfChar` symbols in which the buffers that start with the code of `s`, and no others, give `s`. -/
def Accepts (N : Nat) (len code : Nat → Nat) (numOfChar tableBits : Nat) (arrays : Arrays) : Prop :=
  ∀ fuel ≥ 16, ∀ mBitBuf < 2 ^ 32, ∀ s,
    decodeSymbol fuel numOfChar tableBits arrays mBitBuf = some s ↔
      s < N ∧ len s ≠ 0 ∧ mBitBuf / 2 ^ (32 - len s) = code s

section
variable {N : Nat} {freq : Nat → Nat} {r : Codes}

theorem Sound.base_div (h : Sound N freq r) {s : Nat} (hs : s < N) (h0 : r.len s ≠ 0) :
    base 16 N r.len s / 2 ^ (16 - r.len s) = r.code s := by
  rw [← h.code s hs h0, Nat.mul_div_cancel _ (Nat.two_pow_pos _)]

theorem Sound.code_lt (h : Sound N freq r) {s : Nat} (hs : s < N) (h0 : r.len s ≠ 0) : r.code s < 2 ^ r.len s := by
  have hlt := h.complete.base_add_le hs h0
  have hpos := Nat.two_pow_pos (16 - r.len s)
  rw [← h.base_div hs h0, Nat.div_lt_iff_lt_mul hpos, ← Nat.pow_add, Nat.add_sub_cancel' (h.complete.le s hs)]
  omega

theorem Sound.prefixFree (h : Sound N freq r) : PrefixFree N r.len r.code := by
  intro s hs t ht hs0 ht0 hne hlen heq
  have hself : Has 16 N r.len t (base 16 N r.len t) := ⟨Nat.le_refl _, Nat.lt_add_of_pos_right (Nat.two_pow_pos _)⟩
  refine hne (Has.unique hs ht hs0 ht0 (has_iff.mpr ?_) hself)
  have hpow : 2 ^ (16 - r.len s) = 2 ^ (16 - r.len t) * 2 ^ (r.len t - r.len s) := by
    rw [← Nat.pow_add]
    congr 1
    have := h.complete.le t ht
    omega
  rw [h.base_div hs hs0, hpow, ← Nat.div_div_eq_div_mul, h.base_div ht ht0, heq]

theorem Sound.accepts (h : Sound N freq r) {M tableBits : Nat} (hNM : N ≤ M) (hM : M ≤ charLenSize) (h8 : 8 ≤ tableBits)
    (htb : tableBits ≤ 15) (a : Arrays) :
    ∃ a', makeTable M (padded N r.len) tableBits a = (0, a') ∧ Accepts N r.len r.code M tableBits a' := by
  have hlen : ∀ s < N, padded N r.len s = r.len s := fun s hs => if_pos hs
  have hzero : ∀ s, N ≤ s → s < M → padded N r.len s = 0 := fun s hs _ => if_neg (by omega)
  have hcomplete := h.complete.extend hlen hNM hzero
  obtain ⟨number, nodes, leaf, s, hmake, hfilled⟩ := makeTable_spec hcomplete h8 htb hM a
  refine ⟨s.2.1, hmake, fun fuel hfuel mBitBuf hbuf c => ?_⟩
  have hhas : ∀ t < N, (Has 16 M (padded N r.len) t (mBitBuf / 2 ^ 16) ↔ Has 16 N r.len t (mBitBuf / 2 ^ 16)) :=
    fun t ht => by
    rw [Has, Has, base_extend hlen hNM hzero ht, hlen t ht]
  have hcode : ∀ t < N, r.len t ≠ 0 → (Has 16 N r.len t (mBitBuf / 2 ^ 16) ↔ mBitBuf / 2 ^ (32 - r.len t) = r.code t) := by
    intro t ht ht0
    have := h.complete.le t ht
    rw [has_iff, h.base_div ht ht0, Nat.div_div_eq_div_mul, ← Nat.pow_add,
      show 16 + (16 - r.len t) = 32 - r.len t by omega]
  have hfound : ∀ t < N, r.len t ≠ 0 → Has 16 N r.len t (mBitBuf / 2 ^ 16) →
      decodeSymbol fuel M tableBits s.2.1 mBitBuf = some t := fun t ht ht0 hw =>
    hfilled.decodeSymbol hcomplete htb (by omega) (by rw [hlen t ht]; exact ht0) ((hhas t ht).mpr hw) hfuel
  constructor
  · intro hsome
    have hword : mBitBuf / 2 ^ 16 < 2 ^ 16 := by omega
    obtain ⟨t, ht, ht0, hw⟩ := h.complete.exists_has hword
    have := hfound t ht ht0 hw
    rw [hsome] at this
    obtain rfl := Option.some.inj this
    exact ⟨ht, ht0, (hcode c ht ht0).mp hw⟩
  · rintro ⟨hc, hc0, heq⟩
    exact hfound c hc hc0 ((hcode c hc hc0).mpr heq)

end

/-- `MakeTree` ends, its lengths satisfy Kraft's equality, its codes are prefix-free, and they are the bit patterns
that `MakeTable` accepts. A sum of frequencies that wraps changes the tree, but none of this. -/
theorem makeTree_codes_accepted {N fuel : Nat} (start0 : Nat) (freq lenParm : Nat → Nat) (s : TreeState)
    (hN : N ≤ charLenSize) (htwo : 2 ≤ Nat.count (fun i => freq i ≠ 0) N) (hfuel : N < fuel) :
    ∃ r, makeTree fuel start0 N freq lenParm s = some r ∧
      (∀ i < N, (freq i ≠ 0 → 1 ≤ r.len i ∧ r.len i ≤ 16) ∧ (freq i = 0 → r.len i = 0)) ∧
      ∑ i ∈ range N with r.len i ≠ 0, 2 ^ (16 - r.len i) = 2 ^ 16 ∧
      (∀ i < N, r.len i ≠ 0 → r.code i < 2 ^ r.len i) ∧ PrefixFree N r.len r.code ∧
      ∀ numOfChar tableBits, N ≤ numOfChar → numOfChar ≤ charLenSize → 8 ≤ tableBits → tableBits ≤ 15 → ∀ arrays,
        ∃ arrays', makeTable numOfChar (padded N r.len) tableBits arrays = (0, arrays') ∧
          Accepts N r.len r.code numOfChar tableBits arrays' := by
  obtain ⟨r, hrun, hsound⟩ := makeTree_spec start0 freq lenParm s hN hfuel htwo
  refine ⟨r, hrun, fun i hi => ⟨fun hne => ?_, fun h0 => ?_⟩, ?_, fun i hi h0 => hsound.code_lt hi h0, hsound.prefixFree,
    fun M tableBits hNM hM h8 htb a => hsound.accepts hNM hM h8 htb a⟩
  · have hlen := (hsound.used i hi).mpr hne
    exact ⟨Nat.pos_of_ne_zero hlen, hsound.complete.le i hi⟩
  · by_contra hlen
    exact (hsound.used i hi).mp hlen h0
  · rw [← below_last hsound.complete.le]
    exact hsound.complete.kraft

/-- The globals of a compressor that has not run. -/
def idle : TreeState :=
  { mHeap := fun _ => 0, mHeapSize := 0, mFreq := fun _ => 0, mLeft := fun _ => 0, mRight := fun _ => 0
    code := fun _ => 0, mSortPtr := 0, avail := 0 }

theorem makeTree_codes_accepted_sample :
    ∃ r, makeTree 6 0 5 (fun i => i) (fun _ => 0) idle = some r ∧
      ∑ i ∈ range 5 with r.len i ≠ 0, 2 ^ (16 - r.len i) = 2 ^ 16 ∧ PrefixFree 5 r.len r.code := by
  obtain ⟨r, hrun, -, hkraft, -, hfree, -⟩ :=
    makeTree_codes_accepted (N := 5) 0 (fun i => i) (fun _ => 0) idle (by decide) (by decide) (by decide : 5 < 6)
  exact ⟨r, hrun, hkraft, hfree⟩

end Udk.Huffman
