import Udk.Huffman.Lengths

/-! # The codes that `MakeCode` assigns

The code of a symbol is the first word of its run, cut to its length.
-/

namespace Udk.Huffman

open Finset
open Function (update)

section
variable {N : Nat} {len c : Nat → Nat} (start0 : Nat)

theorem codeStart_eq (hc : ∀ x, 1 ≤ x → x ≤ 16 → Canonical.ofLength N len x = c x) {i : Nat} (hi : i ≤ 16) :
    codeStart start0 c (i + 1) = 2 * Canonical.taken N len i % 65536 := by
  induction i with
  | zero => rfl
  | succ i ih =>
    rw [codeStart, ih (by omega), Canonical.taken, hc (i + 1) (by omega) hi]
    omega

theorem makeCode_start (code : Nat → Nat) {n x : Nat} (hx : x ≠ 0) :
    (makeCode start0 c len code n).1 x = (codeStart start0 c x + Nat.count (fun s => len s = x) n) % 65536 := by
  induction n with
  | zero =>
    have hlt : codeStart start0 c x < 65536 := by
      match x, hx with
      | 1, _ => exact Nat.zero_lt_of_lt (by decide : 1 < 65536)
      | x + 2, _ => exact Nat.mod_lt _ (by omega)
    exact (Nat.mod_eq_of_lt hlt).symm
  | succ n ih =>
    rw [makeCode, Nat.count_succ]
    simp only
    split
    · rename_i heq
      rw [heq, Function.update_self, ih]
      omega
    · rw [Function.update_of_ne (by omega), ih, Nat.add_zero]

theorem makeCode_code (code : Nat → Nat) {n s : Nat} (hs : s < n) :
    (makeCode start0 c len code n).2 s = (makeCode start0 c len code s).1 (len s) := by
  induction n with
  | zero => omega
  | succ n ih =>
    rw [makeCode]
    simp only
    rcases Nat.lt_or_ge s n with h | h
    · rw [Function.update_of_ne (by omega), ih h]
    · obtain rfl : s = n := by omega
      rw [Function.update_self]

/-- The code of `s`, with zeros up to 16 bits, is the first word of its run. -/
theorem makeCode_spec (code : Nat → Nat) (h : Canonical.Complete 16 N len)
    (hc : ∀ x, 1 ≤ x → x ≤ 16 → Canonical.ofLength N len x = c x) {s : Nat} (hs : s < N) (h0 : len s ≠ 0) :
    (makeCode start0 c len code N).2 s * 2 ^ (16 - len s) = Canonical.base 16 N len s := by
  obtain ⟨l, hl⟩ : ∃ l, len s = l + 1 := ⟨len s - 1, by omega⟩
  have hle := h.le s hs
  have hbase : (2 * Canonical.taken N len l + Nat.count (fun t => len t = len s) s) * 2 ^ (16 - len s)
      = Canonical.base 16 N len s := by
    have hpow : 2 ^ (16 - l) = 2 * 2 ^ (16 - len s) := by
      rw [← Nat.pow_succ']
      congr 1
      omega
    rw [Canonical.base, Nat.add_mul]
    congr 1
    rw [hl, ← Canonical.taken_mul (by omega : l ≤ 16), hpow, hl]
    ring
  have hlt := h.base_add_le hs h0
  have hone := Nat.two_pow_pos (16 - len s)
  have hsmall : 2 * Canonical.taken N len l + Nat.count (fun t => len t = len s) s < 65536 := by
    have := Nat.le_mul_of_pos_right (2 * Canonical.taken N len l + Nat.count (fun t => len t = len s) s) hone
    omega
  rw [makeCode_code start0 code hs, makeCode_start start0 code h0]
  have hstart := codeStart_eq start0 hc (i := l) (by omega)
  rw [← hl] at hstart
  rw [hstart, Nat.mod_add_mod, Nat.mod_eq_of_lt hsmall, hbase]

end

/-! ## MakeTree -/

theorem clearLengths_eq (mLen : Nat → Nat) {N s : Nat} (hs : s < N) : clearLengths mLen N s = 0 := by
  induction N with
  | zero => omega
  | succ N ih =>
    rw [clearLengths]
    rcases Nat.lt_or_ge s N with h | h
    · rw [Function.update_of_ne (by omega), ih h]
    · rw [show s = N by omega, Function.update_self]

/-- What `MakeTree` promises when two symbols have a frequency. -/
structure Sound (N : Nat) (freq : Nat → Nat) (r : Codes) : Prop where
  used : ∀ s < N, r.len s ≠ 0 ↔ freq s ≠ 0
  complete : Canonical.Complete 16 N r.len
  code : ∀ s < N, r.len s ≠ 0 → r.code s * 2 ^ (16 - r.len s) = Canonical.base 16 N r.len s

theorem makeTree_spec {fuel N : Nat} (start0 : Nat) (freq lenParm : Nat → Nat) (s : TreeState)
    (hN : N ≤ charLenSize) (hfuel : N < fuel) (htwo : 2 ≤ Nat.count (fun i => freq i ≠ 0) N) :
    ∃ r, makeTree fuel start0 N freq lenParm s = some r ∧ Sound N freq r := by
  have hcollect := collect_spec freq s.mHeap N
  have hcard : (collect freq s.mHeap N).2 = (symbols freq N).card := by
    rw [← hcollect, card_slots]
  have hcount : (symbols freq N).card = Nat.count (fun i => freq i ≠ 0) N := by
    rw [Nat.count_eq_card_filter_range]
    rfl
  have hle : (symbols freq N).card ≤ N := by
    have := Multiset.card_le_card (Multiset.filter_le (fun i => freq i ≠ 0) (Multiset.range N))
    rwa [Multiset.card_range] at this
  obtain ⟨queue, hqueue, hslots⟩ := makeQueue_spec freq (i := (collect freq s.mHeap N).2 / 2)
    (collect freq s.mHeap N).1 (by omega) (by omega : (collect freq s.mHeap N).2 ≤ fuel)
  rw [hcollect] at hslots
  -- in the beginning every entry of the queue is a symbol
  have hforest : Forest N (symbols freq N) { s with
      mHeap := queue, mHeapSize := (collect freq s.mHeap N).2, mFreq := freq, mSortPtr := 0, avail := N } .leaf := by
    refine ⟨Nat.le_refl _, fun i hi => ?_, fun i hi => ?_, ?_, ?_⟩
    · exact (mem_symbols.mp (hslots ▸ hi)).1
    · exact ⟨rfl, (mem_symbols.mp (hslots ▸ hi)).1⟩
    · change ((slots queue 1 _).map fun i => 1).sum = _
      rw [hslots, Multiset.map_const', Multiset.sum_replicate]
      exact Nat.mul_one _
    · change (slots queue 1 _).filter (· < N) + 0 = _
      rw [hslots, Multiset.add_zero, Multiset.filter_eq_self]
      exact fun a ha => (mem_symbols.mp ha).1
  obtain ⟨s', t, htree, havail, hhangs, hleaves, hsorted⟩ := hforest.treeLoop
    (show 2 ≤ (collect freq s.mHeap N).2 by omega) (show (collect freq s.mHeap N).2 ≤ fuel by omega)
    (show (collect freq s.mHeap N).2 ≤ fuel + 1 by omega)
  have hptr : s'.mSortPtr = t.leaves.length := by
    rw [hleaves, ← hsorted, card_slots]
  rw [hptr] at hsorted
  have h510 : charLenSize = 510 := rfl
  obtain ⟨c, mLen, hmake, hc, hused, hcomplete⟩ := makeLen_spec hhangs (by omega)
    (fun k hk => (mem_symbols.mp (hsorted ▸ mem_slots.mpr ⟨k, hk, by rw [Nat.zero_add]⟩ : s'.code k ∈ symbols freq N)).1)
    (hsorted ▸ nodup_symbols freq N) (fun i => clearLengths_eq lenParm (s := i)) (by omega)
    (by omega : t.leaves.length < fuel)
  refine ⟨{ root := s'.avail - 1, len := mLen, code := (makeCode start0 c mLen s'.code N).2 }, ?_, ?_, hcomplete, ?_⟩
  · rw [makeTree]
    simp only
    rw [if_neg (by omega), hqueue, Option.bind_eq_bind, Option.bind_some, htree, Option.bind_eq_bind,
      Option.bind_some, hmake]
    rfl
  · intro i hi
    rw [hused i hi, hsorted, mem_symbols]
    exact ⟨And.right, And.intro hi⟩
  · exact fun i hi h0 => makeCode_spec start0 s'.code hcomplete hc hi h0

end Udk.Huffman
