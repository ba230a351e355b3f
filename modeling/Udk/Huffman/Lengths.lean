import Udk.Huffman.Tree

/-! # The lengths that `MakeLen` gives

The limiting loop lowers Kraft's sum by one in every turn and keeps the number of symbols.
-/

namespace Udk.Huffman

open Finset
open Function (update)

/-! ## The limiting loop -/

theorem sum_update {n i : Nat} (c f : Nat → Nat) (v : Nat) (hi : i < n) :
    ∑ x ∈ range n, update c i v x * f x + c i * f i = ∑ x ∈ range n, c x * f x + v * f i := by
  rw [← add_sum_erase _ _ (mem_range.mpr hi), ← add_sum_erase (range n) (fun x => c x * f x) (mem_range.mpr hi)]
  have hrest : ∑ x ∈ (range n).erase i, update c i v x * f x = ∑ x ∈ (range n).erase i, c x * f x :=
    sum_congr rfl fun x hx => by rw [Function.update_of_ne (ne_of_mem_erase hx)]
  rw [Function.update_self, hrest]
  omega

theorem sum_update_of_le {n i : Nat} (c f : Nat → Nat) (v : Nat) (hi : n ≤ i) :
    ∑ x ∈ range n, update c i v x * f x = ∑ x ∈ range n, c x * f x :=
  sum_congr rfl fun x hx => by
    rw [mem_range] at hx
    rw [Function.update_of_ne (by omega)]

/-- The counts of `n` symbols, which have Kraft's sum `cum`. -/
structure Counts (n : Nat) (c : Nat → Nat) (cum : Nat) : Prop where
  zero : c 0 = 0
  size : ∑ x ∈ range 17, c x * 1 = n
  kraft : ∑ x ∈ range 17, c x * 2 ^ (16 - x) = cum
  full : 2 ^ 16 ≤ cum
  -- without the symbols of length 16 the sum is not too large
  shallow : ∑ x ∈ range 16, c x * 2 ^ (16 - x) ≤ 2 ^ 16

theorem Counts.le {n cum x : Nat} {c : Nat → Nat} (h : Counts n c cum) (hx : x < 17) : c x ≤ n := by
  have := single_le_sum (f := fun x => c x * 1) (fun _ _ => Nat.zero_le _) (mem_range.mpr hx)
  have := h.size
  omega

theorem moveDown_spec {c : Nat → Nat} {m : Nat} (hlt : ∀ x, x ≤ m + 1 → c x < 65534) (hex : ∃ i, 1 ≤ i ∧ i ≤ m ∧ c i ≠ 0) :
    ∃ i, 1 ≤ i ∧ i ≤ m ∧ c i ≠ 0 ∧ moveDown c m = update (update c i (c i - 1)) (i + 1) (c (i + 1) + 2) := by
  induction m with
  | zero =>
    obtain ⟨i, h1, h0, -⟩ := hex
    omega
  | succ m ih =>
    rw [moveDown]
    split
    · rename_i hne
      have h1 := hlt (m + 1) (by omega)
      have h2 := hlt (m + 2) (by omega)
      refine ⟨m + 1, by omega, Nat.le_refl _, hne, ?_⟩
      simp only
      rw [Function.update_of_ne (by omega), show (c (m + 1) + 65535) % 65536 = c (m + 1) - 1 by omega,
        Nat.mod_eq_of_lt (by omega : c (m + 2) + 2 < 65536)]
    · obtain ⟨i, h1, hm, hne⟩ := hex
      have him : i ≤ m := by
        rcases Nat.lt_or_ge m i with h | h
        · rw [show i = m + 1 by omega] at hne
          contradiction
        · exact h
      obtain ⟨j, hj1, hjm, hj⟩ := ih (fun x hx => hlt x (by omega)) ⟨i, h1, him, hne⟩
      exact ⟨j, hj1, by omega, hj⟩

/-- A symbol leaves length 16 and another one moves one level down to make room for it. -/
theorem Counts.turn {n cum : Nat} {c : Nat → Nat} (h : Counts n c cum) (hn : n < 65534) (hcum : 2 ^ 16 < cum) :
    Counts n (moveDown (update c 16 ((c 16 + 65535) % 65536)) 15) (cum - 1) := by
  have hkraft := h.kraft
  have hshallow := h.shallow
  rw [sum_range_succ] at hkraft
  have h16 : 1 ≤ c 16 := by omega
  have hle16 := h.le (show 16 < 17 by omega)
  rw [show (c 16 + 65535) % 65536 = c 16 - 1 by omega]
  -- the counts of the smaller lengths are not all zero, since `n` symbols of length 16 would not fill the words
  have hex : ∃ i, 1 ≤ i ∧ i ≤ 15 ∧ update c 16 (c 16 - 1) i ≠ 0 := by
    by_contra hno
    have hz : ∀ x ∈ range 16, c x * 2 ^ (16 - x) = 0 := by
      intro x hx
      rw [mem_range] at hx
      rcases Nat.eq_zero_or_pos x with rfl | hpos
      · rw [h.zero, Nat.zero_mul]
      · by_contra hne
        refine hno ⟨x, hpos, by omega, ?_⟩
        rw [Function.update_of_ne (by omega)]
        exact fun h0 => hne (by rw [h0, Nat.zero_mul])
    rw [sum_eq_zero hz] at hkraft
    omega
  obtain ⟨i, h1, h15, hne, hmove⟩ := moveDown_spec (c := update c 16 (c 16 - 1)) (m := 15) (fun x hx => by
    rcases Nat.eq_or_lt_of_le hx with rfl | hlt
    · rw [Function.update_self]
      omega
    · rw [Function.update_of_ne (by omega)]
      have := h.le (show x < 17 by omega)
      omega) hex
  rw [hmove]
  generalize hc1 : update c 16 (c 16 - 1) = c1 at hne ⊢
  generalize hc2 : update c1 i (c1 i - 1) = c2
  obtain ⟨a, ha⟩ : ∃ a, c1 i = a + 1 := ⟨c1 i - 1, by omega⟩
  have hnext : c2 (i + 1) = c1 (i + 1) := by rw [← hc2, Function.update_of_ne (by omega)]
  rw [← hnext]
  -- what the three writes do to a weighted sum
  have hsum : ∀ f : Nat → Nat, ∑ x ∈ range 17, update c2 (i + 1) (c2 (i + 1) + 2) x * f x + f 16 + f i
      = ∑ x ∈ range 17, c x * f x + 2 * f (i + 1) := by
    intro f
    have s1 := sum_update c f (c 16 - 1) (show 16 < 17 by omega)
    have s2 := sum_update c1 f (c1 i - 1) (show i < 17 by omega)
    have s3 := sum_update c2 f (c2 (i + 1) + 2) (show i + 1 < 17 by omega)
    rw [hc1, show c 16 = (c 16 - 1) + 1 by omega, Nat.add_mul, Nat.add_sub_cancel] at s1
    rw [hc2, ha, Nat.add_mul, Nat.add_sub_cancel] at s2
    rw [Nat.add_mul] at s3
    omega
  refine ⟨?_, ?_, ?_, by omega, ?_⟩
  · rw [Function.update_of_ne (by omega), ← hc2, Function.update_of_ne (by omega), ← hc1, Function.update_of_ne (by omega),
      h.zero]
  · have := hsum fun _ => 1
    have := h.size
    omega
  · have hs := hsum fun x => 2 ^ (16 - x)
    have hpow : 2 ^ (16 - i) = 2 * 2 ^ (16 - (i + 1)) := by
      rw [← Nat.pow_succ']
      congr 1
      omega
    have hk := h.kraft
    simp only [Nat.sub_self, Nat.pow_zero] at hs
    omega
  · have hpow : 2 ^ (16 - i) = 2 * 2 ^ (16 - (i + 1)) := by
      rw [← Nat.pow_succ']
      congr 1
      omega
    have s1 := sum_update_of_le c (fun x => 2 ^ (16 - x)) (c 16 - 1) (Nat.le_refl 16)
    have s2 := sum_update c1 (fun x => 2 ^ (16 - x)) (c1 i - 1) (show i < 16 by omega)
    rw [hc1] at s1
    rw [hc2, ha, Nat.add_mul, Nat.add_sub_cancel] at s2
    rcases Nat.lt_or_ge (i + 1) 16 with hlt | hge
    · have s3 := sum_update c2 (fun x => 2 ^ (16 - x)) (c2 (i + 1) + 2) hlt
      rw [Nat.add_mul] at s3
      omega
    · rw [sum_update_of_le _ _ _ hge]
      omega

theorem limitLoop_spec {n cum fuel : Nat} {c : Nat → Nat} (h : Counts n c cum) (hn : n < 65534)
    (hfuel : cum < fuel + 2 ^ 16) : ∃ c', limitLoop fuel c cum = some c' ∧ Counts n c' (2 ^ 16) := by
  induction fuel generalizing c cum with
  | zero =>
    have := h.full
    omega
  | succ fuel ih =>
    have hfull := h.full
    have hcum : cum ≤ 2 ^ 16 + 65534 := by
      have hk := h.kraft
      have hs := h.shallow
      have := h.le (show 16 < 17 by omega)
      rw [sum_range_succ] at hk
      omega
    rw [limitLoop]
    split
    · rw [show (cum + 4294967295) % 4294967296 = cum - 1 by omega]
      exact ih (h.turn hn (by omega)) (by omega)
    · have heq : cum = 2 ^ 16 := by omega
      exact ⟨c, rfl, heq ▸ h⟩

theorem cumulate_eq {c : Nat → Nat} {m : Nat} (hlt : ∑ x ∈ range (m + 1), c x * 2 ^ (16 - x) < 4294967296) (h0 : c 0 = 0) :
    cumulate c m = ∑ x ∈ range (m + 1), c x * 2 ^ (16 - x) := by
  induction m with
  | zero => simp [cumulate, h0]
  | succ m ih =>
    rw [sum_range_succ] at hlt ⊢
    rw [cumulate, ih (by omega), Nat.add_comm, Nat.mod_eq_of_lt hlt]

/-! ## Handing the lengths out -/

/-- `mLen` after the first `mSortPtr` sorted symbols have got their lengths, `c x` of them length `x`. -/
structure Given (N : Nat) (code : Nat → Nat) (mSortPtr : Nat) (mLen c : Nat → Nat) : Prop where
  le : ∀ s < N, mLen s ≤ 16
  nonzero : ∀ s < N, (mLen s ≠ 0 ↔ s ∈ slots code 0 mSortPtr)
  counts : ∀ x, x ≠ 0 → Canonical.ofLength N mLen x = c x

section
variable {N n : Nat} {code : Nat → Nat}

theorem Given.next {mSortPtr i : Nat} {mLen c : Nat → Nat} (h : Given N code mSortPtr mLen c)
    (hlt : ∀ k < n, code k < N) (hnodup : (slots code 0 n).Nodup) (hp : mSortPtr < n) (h1 : 1 ≤ i) (h16 : i ≤ 16) :
    Given N code (mSortPtr + 1) (update mLen (code mSortPtr) i) (update c i (c i + 1)) := by
  have hnew : code mSortPtr ∉ slots code 0 mSortPtr := by
    have := Multiset.nodup_of_le (slots_le (Nat.succ_le_of_lt hp)) hnodup
    rw [slots, Nat.zero_add] at this
    exact (Multiset.nodup_cons.mp this).1
  have hzero : mLen (code mSortPtr) = 0 := by
    by_contra hne
    exact hnew ((h.nonzero _ (hlt _ hp)).mp hne)
  refine ⟨?_, ?_, ?_⟩
  · intro s hs
    rcases eq_or_ne s (code mSortPtr) with rfl | hne
    · rw [Function.update_self]
      exact h16
    · rw [Function.update_of_ne hne]
      exact h.le s hs
  · intro s hs
    rw [slots, Nat.zero_add, Multiset.mem_cons]
    rcases eq_or_ne s (code mSortPtr) with rfl | hne
    · rw [Function.update_self]
      exact iff_of_true (by omega) (Or.inl rfl)
    · rw [Function.update_of_ne hne, h.nonzero s hs]
      exact ⟨Or.inr, Or.rec (fun h => absurd h hne) id⟩
  · intro x hx
    rw [Canonical.ofLength_update (hlt _ hp) hzero hx, h.counts x hx]
    split
    · subst i
      rw [Function.update_self]
    · rw [Function.update_of_ne (by omega), Nat.add_zero]

theorem giveLength_spec {i k : Nat} {s : Nat × (Nat → Nat)} {c : Nat → Nat} (h : Given N code s.1 s.2 c)
    (hlt : ∀ k < n, code k < N) (hnodup : (slots code 0 n).Nodup) (hp : s.1 + k ≤ n) (h1 : 1 ≤ i) (h16 : i ≤ 16) :
    (giveLength code i k s).1 = s.1 + k ∧
      Given N code (giveLength code i k s).1 (giveLength code i k s).2 (update c i (c i + k)) := by
  induction k generalizing s c with
  | zero => exact ⟨rfl, by rw [Nat.add_zero, Function.update_eq_self]; exact h⟩
  | succ k ih =>
    have hnext := h.next hlt hnodup (by omega) h1 h16
    rw [giveLength, Nat.mod_eq_of_lt (by omega : i < 256)]
    obtain ⟨hptr, hgiven⟩ := ih (s := (s.1 + 1, update s.2 (code s.1) i)) hnext (by simp only; omega)
    refine ⟨by rw [hptr]; simp only; omega, ?_⟩
    rw [Function.update_idem, Function.update_self, Nat.add_assoc, Nat.add_comm 1] at hgiven
    exact hgiven

theorem giveLengths_spec {m : Nat} {s : Nat × (Nat → Nat)} {c c' : Nat → Nat} (h : Given N code s.1 s.2 c')
    (hlt : ∀ k < n, code k < N) (hnodup : (slots code 0 n).Nodup) (h0 : c 0 = 0) (hm : m ≤ 16)
    (hp : s.1 + ∑ x ∈ range (m + 1), c x * 1 = n) (hc' : ∀ x, x ≤ m → c' x = 0) :
    Given N code n (giveLengths code c m s).2 fun x => if x ≤ m then c x else c' x := by
  induction m generalizing s c' with
  | zero =>
    simp only [Nat.zero_add, sum_range_one, h0, Nat.zero_mul, Nat.add_zero] at hp
    have heq : (fun x => if x ≤ 0 then c x else c' x) = c' := by
      funext x
      split
      · rw [show x = 0 by omega, h0, hc' 0 (Nat.le_refl 0)]
      · rfl
    rw [heq, ← hp]
    exact h
  | succ m ih =>
    rw [sum_range_succ, Nat.mul_one] at hp
    obtain ⟨hptr, hgiven⟩ := giveLength_spec (i := m + 1) (k := c (m + 1)) h hlt hnodup (by omega) (by omega) (by omega)
    rw [hc' (m + 1) (Nat.le_refl _), Nat.zero_add] at hgiven
    have hrest := ih hgiven (by omega) (by omega) (fun x hx => by rw [Function.update_of_ne (by omega), hc' x (by omega)])
    have heq : (fun x => if x ≤ m then c x else update c' (m + 1) (c (m + 1)) x)
        = fun x => if x ≤ m + 1 then c x else c' x := by
      funext x
      rcases Nat.lt_trichotomy x (m + 1) with hx | rfl | hx
      · rw [if_pos (by omega), if_pos (by omega)]
      · rw [if_neg (by omega), if_pos (Nat.le_refl _), Function.update_self]
      · rw [if_neg (by omega), if_neg (by omega), Function.update_of_ne (by omega)]
    rw [heq] at hrest
    exact hrest

end

/-! ## MakeLen -/

/-- The counts that `CountLen` leaves behind. -/
theorem counts_capped {c : Nat → Nat} (l r : BinaryTree Nat) (hc : ∀ x, c x = (l.node r).capped 16 0 x) :
    Counts (l.node r).leaves.length c (∑ x ∈ range 17, c x * 2 ^ (16 - x)) := by
  obtain rfl : c = (l.node r).capped 16 0 := funext hc
  refine ⟨?_, BinaryTree.sum_capped 16 0 _, rfl, BinaryTree.le_kraft_capped 16 0 _, (BinaryTree.shallow_capped_le 16 0 _).1⟩
  rw [BinaryTree.capped, BinaryTree.capped_of_lt l (by omega) (by omega), BinaryTree.capped_of_lt r (by omega) (by omega)]

/-- The counts that `makeLen` leaves and the lengths it gives to the symbols in `code`. -/
theorem makeLen_spec {fuel N avail root : Nat} {mLeft mRight code mLen : Nat → Nat} {t : BinaryTree Nat}
    (h : Hangs N mLeft mRight avail t root) (hroot : N ≤ root) (hlt : ∀ k < t.leaves.length, code k < N)
    (hnodup : (slots code 0 t.leaves.length).Nodup) (hzero : ∀ s < N, mLen s = 0)
    (hn : t.leaves.length < 65534) (hfuel : t.leaves.length < fuel) :
    ∃ c mLen', makeLen fuel N root mLeft mRight code mLen = some (c, mLen') ∧
      (∀ x, 1 ≤ x → x ≤ 16 → Canonical.ofLength N mLen' x = c x) ∧
      (∀ s < N, mLen' s ≠ 0 ↔ s ∈ slots code 0 t.leaves.length) ∧ Canonical.Complete 16 N mLen' := by
  obtain ⟨c₀, hrun, hc₀⟩ := countLen_spec (d := 0) (c := fun _ => 0) h
    (Nat.le_trans t.height_le hfuel.le) fun x => by omega
  cases t with
  | leaf a => exact absurd h.2 (by have := h.1; omega)
  | node l r =>
    generalize hlen : (l.node r).leaves.length = n at *
    have hcounts := counts_capped l r (c := c₀) fun x => by rw [hc₀, Nat.zero_add]
    rw [hlen] at hcounts
    have hsum : ∑ x ∈ range 17, c₀ x * 2 ^ (16 - x) ≤ 2 ^ 16 + n := by
      have hs := hcounts.shallow
      have := hcounts.le (show 16 < 17 by omega)
      rw [sum_range_succ]
      omega
    have hcum := cumulate_eq (m := 16) (Nat.lt_of_le_of_lt hsum (by omega)) hcounts.zero
    obtain ⟨c, hlimit, hc⟩ := limitLoop_spec hcounts (by omega)
      (by omega : ∑ x ∈ range 17, c₀ x * 2 ^ (16 - x) < fuel + 2 ^ 16)
    have hstart : Given N code 0 mLen fun _ => 0 := by
      refine ⟨fun s hs => by rw [hzero s hs]; omega, fun s hs => ?_, fun x hx => ?_⟩
      · exact iff_of_false (fun hne => hne (hzero s hs)) (Multiset.notMem_zero s)
      · rw [Canonical.ofLength, Nat.count_eq_card_filter_range, card_eq_zero, filter_eq_empty_iff]
        intro s hs
        rw [mem_range] at hs
        rw [hzero s hs]
        exact hx.symm
    have hgiven := giveLengths_spec (m := 16) (s := (0, mLen)) (c := c) hstart hlt hnodup hc.zero (Nat.le_refl _)
      (by rw [Nat.zero_add]; exact hc.size) fun _ _ => rfl
    refine ⟨c, (giveLengths code c 16 (0, mLen)).2, ?_, ?_, hgiven.nonzero, hgiven.le, ?_⟩
    · rw [makeLen, hrun, Option.bind_eq_bind, Option.bind_some, hcum, hlimit]
      rfl
    · intro x h1 h16
      rw [hgiven.counts x (by omega), if_pos h16]
    · have hk := hc.kraft
      rw [range_eq_Ico, sum_eq_sum_Ico_succ_bot (by omega), hc.zero, Nat.zero_mul, Nat.zero_add] at hk
      rw [Canonical.below, ← hk]
      refine sum_congr rfl fun x hx => ?_
      rw [mem_Ico] at hx
      rw [hgiven.counts x (by omega), if_pos (by omega)]

end Udk.Huffman
