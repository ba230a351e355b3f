import Mathlib.Data.Nat.Bitwise
import Udk.Canonical
import Udk.Huffman.Decoder

/-! # What `MakeTable` accepts

For complete lengths every word of 16 bits is looked up as the symbol in whose run it lies.
-/

namespace Udk.Huffman

open Function (update)
open ArrayTrie Canonical

/-! ## Counts and starts -/

theorem countLengths_eq {bitLen count : Nat → Nat} {k i : Nat} (hcount : ∀ x, count x = Nat.count (fun s => bitLen s = x) i)
    (hlt : i + k < 65536) (x : Nat) : countLengths bitLen k i count x = ofLength (i + k) bitLen x := by
  induction k generalizing i count with
  | zero => exact hcount x
  | succ k ih =>
    rw [countLengths, ih (i := i + 1) _ (by omega), Nat.add_assoc, Nat.add_comm 1]
    intro y
    rw [Nat.count_succ]
    split
    · subst y
      have := Nat.count_le (p := fun s => bitLen s = bitLen i) (n := i)
      rw [Function.update_self, hcount, Nat.mod_eq_of_lt (by omega)]
    · rw [Function.update_of_ne (by omega), hcount, Nat.add_zero]

variable {M tableBits : Nat} {bitLen : Nat → Nat}

theorem tableStart_eq {count : Nat → Nat} (hcount : ∀ x, count x = ofLength M bitLen x) {i : Nat} (hi : i ≤ 16) :
    tableStart count (i + 1) = below 16 M bitLen (i + 1) % 65536 := by
  induction i with
  | zero => rfl
  | succ i ih =>
    rw [tableStart, ih (by omega), hcount, Nat.mod_add_mod, below_succ (L := i + 1) (by omega)]

/-- `Start` before the first symbol. -/
def firstStart (M : Nat) (bitLen : Nat → Nat) (tableBits x : Nat) : Nat :=
  if x ≤ tableBits then below 16 M bitLen x % 65536 / 2 ^ (16 - tableBits) else below 16 M bitLen x % 65536

/-- Where the run of `char` starts, in units of the table for the short codes. -/
theorem start_eq (h : Complete 16 M bitLen) {char : Nat} (hc : char < M) (h0 : bitLen char ≠ 0) (htb : tableBits ≤ 15) :
    (firstStart M bitLen tableBits (bitLen char)
        + Nat.count (fun s => bitLen s = bitLen char) char * tableWeight tableBits (bitLen char)) % 65536
      = if bitLen char ≤ tableBits then base 16 M bitLen char / 2 ^ (16 - tableBits) else base 16 M bitLen char := by
  have hle := h.le char hc
  have hlt := h.base_add_le hc h0
  have hpos := Nat.two_pow_pos (16 - bitLen char)
  have hbelow : below 16 M bitLen (bitLen char) ≤ base 16 M bitLen char := Nat.le_add_right _ _
  rw [firstStart, tableWeight, if_neg h0, Nat.mod_eq_of_lt (by omega : below 16 M bitLen (bitLen char) < 65536)]
  split
  · rename_i hshort
    have hpow : 2 ^ (16 - bitLen char) = 2 ^ (tableBits - bitLen char) * 2 ^ (16 - tableBits) := by
      rw [← Nat.pow_add]
      congr 1
      omega
    rw [base, hpow, ← Nat.mul_assoc, Nat.add_mul_div_right _ _ (Nat.two_pow_pos _)]
    refine Nat.mod_eq_of_lt ?_
    rw [base, hpow, ← Nat.mul_assoc] at hlt
    have := Nat.div_le_self (below 16 M bitLen (bitLen char)) (2 ^ (16 - tableBits))
    have := Nat.le_mul_of_pos_right
      (Nat.count (fun s => bitLen s = bitLen char) char * 2 ^ (tableBits - bitLen char)) (Nat.two_pow_pos (16 - tableBits))
    rw [hpow] at hpos
    omega
  · exact Nat.mod_eq_of_lt (by rw [base] at hlt; omega)

/-! ## A long code -/

/-- What a walk changes: nodes are added, and no table entry outside them is written. -/
structure Grown (tableBits : Nat) (inner nodes nodes' : Finset (Nat × Nat)) (a a' : Arrays) : Prop where
  sub : nodes ⊆ nodes'
  table : ∀ p, (tableBits, p) ∉ inner → a'.table p = a.table p

theorem Grown.trans {inner n₁ n₂ n₃ : Finset (Nat × Nat)} {a₁ a₂ a₃ : Arrays} (h : Grown tableBits inner n₁ n₂ a₁ a₂)
    (h' : Grown tableBits inner n₂ n₃ a₂ a₃) : Grown tableBits inner n₁ n₃ a₁ a₃ :=
  ⟨h.sub.trans h'.sub, fun p hp => (h'.table p hp).trans (h.table p hp)⟩

section
variable {first avail : Nat} {number leaf : Nat × Nat → Nat} {inner nodes : Finset (Nat × Nat)} {a : Arrays}

theorem set_cellOf_table {d p x q : Nat} (hcell : HasCell tableBits inner nodes d p) (hq : (tableBits, q) ∉ inner) :
    (a.set (cellOf tableBits number d p) x).table q = a.table q := by
  unfold cellOf
  split
  · rename_i hd
    subst d
    rw [HasCell, if_pos rfl] at hcell
    exact Function.update_of_ne (by rintro rfl; exact hq hcell) _ _
  · unfold child
    split <;> rfl

theorem enter_spec (h : Trie tableBits number inner nodes first leaf a avail) {d p : Nat}
    (hcell : HasCell tableBits inner nodes d p) (hin : (d, p) ∈ inner) (hfirst : 0 < first)
    (hroom : first + inner.card ≤ treeSize) :
    ∃ number' nodes' a' avail', enter (cellOf tableBits number d p) (a, avail) = (a', avail') ∧
      Trie tableBits number' inner nodes' first leaf a' avail' ∧ Grown tableBits inner nodes nodes' a a' ∧
      (d, p) ∈ nodes' ∧ a'.get (cellOf tableBits number d p) = number' (d, p) ∧ number' (d, p) < treeSize := by
  have hget := h.cell d p hcell
  have havail := h.avail_eq
  by_cases hmem : (d, p) ∈ nodes
  · rw [if_pos hmem] at hget
    have hrange := h.range _ hmem
    have hcard := Finset.card_le_card h.sub
    refine ⟨number, nodes, a, avail, ?_, h, ⟨Finset.Subset.refl _, fun _ _ => rfl⟩, hmem, hget, by omega⟩
    rw [enter, if_neg (by simp only; omega)]
  · rw [if_neg hmem, h.outer _ hin] at hget
    have hcard := Finset.card_lt_card (Finset.ssubset_iff_subset_ne.mpr ⟨h.sub, by rintro rfl; exact hmem hin⟩)
    refine ⟨_, _, _, avail + 1, ?_, h.add hcell hmem hin, ⟨Finset.subset_insert _ _, fun q hq => ?_⟩,
      Finset.mem_insert_self _ _, ?_, ?_⟩
    · rw [enter, if_pos (by simp only; omega)]
    · rw [set_cellOf_table hcell hq]
      rfl
    · rw [Arrays.get_set, if_pos rfl, Function.update_self]
    · rw [Function.update_self]
      omega

/-- The bit that the mask takes out of `Index3`, `k` places further on. -/
theorem mask_bit (word : Nat) {k : Nat} (htb : tableBits + k ≤ 15) :
    (word * 2 ^ k % 65536 &&& 2 ^ (15 - tableBits) ≠ 0) ↔ word / 2 ^ (15 - (tableBits + k)) % 2 = 1 := by
  rw [Nat.and_two_pow, show (65536 : Nat) = 2 ^ 16 from rfl, Nat.testBit_mod_two_pow,
    decide_eq_true (by omega), Bool.true_and, Nat.testBit_mul_two_pow, decide_eq_true (by omega),
    Bool.true_and, Nat.testBit_eq_decide_div_mod_eq,
    show 15 - tableBits - k = 15 - (tableBits + k) by omega]
  by_cases hbit : word / 2 ^ (15 - (tableBits + k)) % 2 = 1
  · simp [hbit]
  · simp [hbit]

/-- The next bit of a word leads to the next node of its path. -/
theorem child_eq_cellOf {word d : Nat} (hd : d ≤ 15) (htop : tableBits ≤ d) :
    child (number (d, word / 2 ^ (16 - d))) (word / 2 ^ (15 - d) % 2)
      = cellOf tableBits number (d + 1) (word / 2 ^ (16 - (d + 1))) := by
  have hdiv : word / 2 ^ (16 - (d + 1)) / 2 = word / 2 ^ (16 - d) := by
    rw [Nat.div_div_eq_div_mul, ← Nat.pow_succ]
    congr 2
    omega
  rw [cellOf, if_neg (by omega), Nat.add_sub_cancel, hdiv, show 16 - (d + 1) = 15 - d by omega]

theorem hasCell_succ {word d : Nat} (hd : d ≤ 15) (htop : tableBits ≤ d) (hmem : (d, word / 2 ^ (16 - d)) ∈ nodes) :
    HasCell tableBits inner nodes (d + 1) (word / 2 ^ (16 - (d + 1))) := by
  have hdiv : word / 2 ^ (16 - (d + 1)) / 2 = word / 2 ^ (16 - d) := by
    rw [Nat.div_div_eq_div_mul, ← Nat.pow_succ]
    congr 2
    omega
  rw [HasCell, if_neg (by omega), Nat.add_sub_cancel, hdiv]
  exact ⟨by omega, hmem⟩

/-- The walk ends at the cell of the node `k` bits further on, whose parent is there. -/
theorem insertLong_spec {word d k : Nat} (h : Trie tableBits number inner nodes first leaf a avail)
    (hcell : HasCell tableBits inner nodes d (word / 2 ^ (16 - d))) (hfirst : 0 < first)
    (hroom : first + inner.card ≤ treeSize) (htop : tableBits ≤ d) (hk : d + k ≤ 16)
    (hin : ∀ e, d ≤ e → e < d + k → (e, word / 2 ^ (16 - e)) ∈ inner) :
    ∃ number' nodes' a' avail',
      insertLong tableBits k (cellOf tableBits number d (word / 2 ^ (16 - d))) (a, avail)
        (word * 2 ^ (d - tableBits) % 65536)
        = (cellOf tableBits number' (d + k) (word / 2 ^ (16 - (d + k))), a', avail') ∧
      Trie tableBits number' inner nodes' first leaf a' avail' ∧ Grown tableBits inner nodes nodes' a a' ∧
      HasCell tableBits inner nodes' (d + k) (word / 2 ^ (16 - (d + k))) := by
  induction k generalizing number nodes a avail d with
  | zero => exact ⟨number, nodes, a, avail, rfl, h, ⟨Finset.Subset.refl _, fun _ _ => rfl⟩, hcell⟩
  | succ k ih =>
    obtain ⟨number₁, nodes₁, a₁, avail₁, henter, h₁, hgrown₁, hmem, hget, hsize⟩ :=
      enter_spec h hcell (hin d (Nat.le_refl d) (by omega)) hfirst hroom
    have hnext : HasCell tableBits inner nodes₁ (d + 1) (word / 2 ^ (16 - (d + 1))) :=
      hasCell_succ (by omega : d ≤ 15) htop hmem
    obtain ⟨number₂, nodes₂, a₂, avail₂, hrun, h₂, hgrown₂, hend⟩ :=
      ih h₁ hnext (by omega) (by omega) fun e h1 h2 => hin e (by omega) (by omega)
    rw [Nat.add_assoc, Nat.add_comm 1] at hrun hend
    refine ⟨number₂, nodes₂, a₂, avail₂, ?_, h₂, hgrown₁.trans hgrown₂, hend⟩
    have hbit := mask_bit word (by omega : tableBits + (d - tableBits) ≤ 15)
    rw [show tableBits + (d - tableBits) = d by omega] at hbit
    have hpointer : (if word * 2 ^ (d - tableBits) % 65536 &&& 2 ^ (15 - tableBits) ≠ 0
          then Cell.right (number₁ (d, word / 2 ^ (16 - d))) else Cell.left (number₁ (d, word / 2 ^ (16 - d))))
        = cellOf tableBits number₁ (d + 1) (word / 2 ^ (16 - (d + 1))) := by
      rw [← child_eq_cellOf (by omega) htop, child]
      simp only [hbit]
    have hshift : word * 2 ^ (d - tableBits) % 65536 * 2 % 65536 = word * 2 ^ (d + 1 - tableBits) % 65536 := by
      rw [Nat.mod_mul_mod, Nat.mul_assoc, ← Nat.pow_succ, show (d - tableBits).succ = d + 1 - tableBits by omega]
    rw [insertLong, henter]
    simp only
    rw [hget, if_pos hsize, hpointer, hshift, hrun]

end

/-! ## All symbols -/

/-- `Start`, the arrays and `Avail` after the symbols below `c`. -/
structure Filled (M : Nat) (bitLen : Nat → Nat) (tableBits c : Nat) (number : Nat × Nat → Nat) (nodes : Finset (Nat × Nat))
    (leaf : Nat × Nat → Nat) (s : (Nat → Nat) × Arrays × Nat) : Prop where
  start : ∀ x, x ≠ 0 → x ≤ 16 →
    s.1 x = (firstStart M bitLen tableBits x + Nat.count (fun t => bitLen t = x) c * tableWeight tableBits x) % 65536
  trie : Trie tableBits number (inner 16 M bitLen) nodes M leaf s.2.1 s.2.2
  short : ∀ t < c, bitLen t ≠ 0 → bitLen t ≤ tableBits → ∀ x, Has 16 M bitLen t x →
    s.2.1.table (x / 2 ^ (16 - tableBits)) = t
  long : ∀ t < c, tableBits < bitLen t →
    leaf (bitLen t, base 16 M bitLen t / 2 ^ (16 - bitLen t)) = t ∧
      HasCell tableBits (inner 16 M bitLen) nodes (bitLen t) (base 16 M bitLen t / 2 ^ (16 - bitLen t))

section
variable {c : Nat} {number leaf : Nat × Nat → Nat} {nodes : Finset (Nat × Nat)} {s : (Nat → Nat) × Arrays × Nat}

theorem Filled.start_next (h : Filled M bitLen tableBits c number nodes leaf s) (h0 : bitLen c ≠ 0) :
    ∀ x, x ≠ 0 → x ≤ 16 →
      update s.1 (bitLen c) ((s.1 (bitLen c) + tableWeight tableBits (bitLen c)) % 65536) x
        = (firstStart M bitLen tableBits x +
            Nat.count (fun t => bitLen t = x) (c + 1) * tableWeight tableBits x) % 65536 := by
  intro x hx hx16
  rw [Nat.count_succ]
  split
  · subst x
    rw [Function.update_self, h.start _ h0 hx16, Nat.add_mul, Nat.one_mul, Nat.mod_add_mod, Nat.add_assoc]
  · rw [Function.update_of_ne (by omega), h.start x hx hx16, Nat.add_zero]

/-- The run of a short code in units of the table. -/
theorem short_run (hshort : bitLen c ≤ tableBits) (htb : tableBits ≤ 15) :
    base 16 M bitLen c / 2 ^ (16 - tableBits) * 2 ^ (16 - tableBits) = base 16 M bitLen c ∧
      2 ^ (tableBits - bitLen c) * 2 ^ (16 - tableBits) = 2 ^ (16 - bitLen c) := by
  refine ⟨Nat.div_mul_cancel ((pow_dvd_pow 2 (by omega)).trans (dvd_base c)), ?_⟩
  rw [← Nat.pow_add]
  congr 1
  omega

/-- The table entries that belong to a short code. -/
theorem mem_short (hshort : bitLen c ≤ tableBits) (htb : tableBits ≤ 15) (q : Nat) :
    (base 16 M bitLen c / 2 ^ (16 - tableBits) ≤ q ∧
        q < base 16 M bitLen c / 2 ^ (16 - tableBits) + 2 ^ (tableBits - bitLen c)) ↔
      Has 16 M bitLen c (q * 2 ^ (16 - tableBits)) := by
  have hpos := Nat.two_pow_pos (16 - tableBits)
  obtain ⟨hbase, hwidth⟩ := short_run (M := M) hshort htb
  rw [← Nat.mul_le_mul_right_iff hpos, ← Nat.mul_lt_mul_right hpos, Nat.add_mul, hbase, hwidth, Has]

/-- A word of a short code lies in the same run as the first word of its table entry. -/
theorem has_floor (hshort : bitLen c ≤ tableBits) (htb : tableBits ≤ 15) {x : Nat} (hx : Has 16 M bitLen c x) :
    Has 16 M bitLen c (x / 2 ^ (16 - tableBits) * 2 ^ (16 - tableBits)) := by
  have hle := Nat.div_mul_le_self x (2 ^ (16 - tableBits))
  refine ⟨?_, Nat.lt_of_le_of_lt hle hx.2⟩
  rw [← (short_run hshort htb).1]
  exact Nat.mul_le_mul_right _ (Nat.div_le_div_right hx.1)

/-- The short codes fill the table up to the first inner node. -/
theorem short_end (hc : c < M) (h0 : bitLen c ≠ 0) (hshort : bitLen c ≤ tableBits) (htb : tableBits ≤ 15) :
    base 16 M bitLen c / 2 ^ (16 - tableBits) + 2 ^ (tableBits - bitLen c) ≤ taken M bitLen tableBits := by
  obtain ⟨hbase, hwidth⟩ := short_run (M := M) hshort htb
  rw [← Nat.mul_le_mul_right_iff (Nat.two_pow_pos (16 - tableBits)), Nat.add_mul, hbase, hwidth, taken_mul (by omega)]
  exact (base_add_le hc h0).trans (below_mono (Nat.succ_le_succ hshort))

theorem short_notMem (hc : c < M) (h0 : bitLen c ≠ 0) (hshort : bitLen c ≤ tableBits)
    (htb : tableBits ≤ 15) {x : Nat} (hx : Has 16 M bitLen c x) :
    (tableBits, x / 2 ^ (16 - tableBits)) ∉ inner 16 M bitLen := by
  intro hmem
  have hin := (mem_short hshort htb _).mpr (has_floor hshort htb hx)
  have hend := short_end hc h0 hshort htb
  have := (mem_inner.mp hmem).2.1
  omega

theorem Filled.next_none (h : Filled M bitLen tableBits c number nodes leaf s) (h0 : bitLen c = 0) :
    Filled M bitLen tableBits (c + 1) number nodes leaf s := by
  refine ⟨fun x hx hx16 => ?_, h.trie, fun t ht ht0 => ?_, fun t ht hlen => ?_⟩
  · rw [h.start x hx hx16, Nat.count_succ, if_neg (by omega), Nat.add_zero]
  · rcases Nat.lt_succ_iff_lt_or_eq.mp ht with hlt | rfl
    · exact h.short t hlt ht0
    · contradiction
  · rcases Nat.lt_succ_iff_lt_or_eq.mp ht with hlt | rfl
    · exact h.long t hlt hlen
    · omega

theorem Filled.next_short (h : Filled M bitLen tableBits c number nodes leaf s) (hcomplete : Complete 16 M bitLen)
    (hc : c < M) (h0 : bitLen c ≠ 0) (hshort : bitLen c ≤ tableBits) (htb : tableBits ≤ 15) :
    Filled M bitLen tableBits (c + 1) number nodes leaf (insertChar bitLen tableBits c s) := by
  have hle := hcomplete.le c hc
  have hend := short_end hc h0 hshort htb
  have htaken := hcomplete.taken_le (by omega : tableBits ≤ 16)
  have hpow : 2 ^ tableBits ≤ 2 ^ 15 := Nat.pow_le_pow_right (by omega) htb
  have hstart := (h.start (bitLen c) h0 hle).trans (start_eq hcomplete hc h0 htb)
  have hnext := h.start_next h0
  have hweight : tableWeight tableBits (bitLen c) = 2 ^ (tableBits - bitLen c) := by
    rw [tableWeight, if_neg h0, if_pos hshort]
  rw [if_pos hshort] at hstart
  have hcode : (s.1 (bitLen c) + tableWeight tableBits (bitLen c)) % 65536
      = base 16 M bitLen c / 2 ^ (16 - tableBits) + 2 ^ (tableBits - bitLen c) := by
    rw [hstart, hweight, Nat.mod_eq_of_lt (by omega)]
  rw [insertChar, if_neg (by omega)]
  simp only [if_pos hshort]
  refine ⟨hnext, h.trie.of_table fun p hp => ?_, fun t ht ht0 htshort x hx => ?_, fun t ht hlen => ?_⟩
  · have := (mem_inner.mp hp).2.1
    rw [fill, hcode, if_neg (by omega)]
  · simp only
    rw [fill, hstart, hweight, Nat.mod_eq_of_lt (by omega)]
    rcases Nat.lt_succ_iff_lt_or_eq.mp ht with hlt | rfl
    · rw [if_neg, h.short t hlt ht0 htshort x hx]
      intro hin
      have := Has.unique (by omega) hc ht0 h0 (has_floor htshort htb hx) ((mem_short hshort htb _).mp hin)
      omega
    · rw [if_pos ((mem_short hshort htb _).mpr (has_floor hshort htb hx))]
  · rcases Nat.lt_succ_iff_lt_or_eq.mp ht with hlt | rfl
    · exact h.long t hlt hlen
    · omega

theorem Filled.next_long (h : Filled M bitLen tableBits c number nodes leaf s) (hcomplete : Complete 16 M bitLen)
    (hc : c < M) (hlong : tableBits < bitLen c) (htb : tableBits ≤ 15) (hM : M ≤ charLenSize) :
    ∃ number' nodes' leaf', Filled M bitLen tableBits (c + 1) number' nodes' leaf' (insertChar bitLen tableBits c s) := by
  have h0 : bitLen c ≠ 0 := by omega
  have hle := hcomplete.le c hc
  have hlt := hcomplete.base_add_le hc h0
  have hpos := Nat.two_pow_pos (16 - bitLen c)
  have hcard := hcomplete.card_inner_lt
  have hstart := (h.start (bitLen c) h0 hle).trans (start_eq hcomplete hc h0 htb)
  rw [if_neg (by omega)] at hstart
  have hin : ∀ e, tableBits ≤ e → e < tableBits + (bitLen c - tableBits) →
      (e, base 16 M bitLen c / 2 ^ (16 - e)) ∈ inner 16 M bitLen := fun e _ he =>
    hcomplete.prefix_mem_inner hc (by omega)
  have h510 : charLenSize = 510 := rfl
  have h1019 : treeSize = 1019 := rfl
  obtain ⟨number', nodes', a', avail', hrun, htrie, hgrown, hcell⟩ := insertLong_spec (k := bitLen c - tableBits) h.trie
    (by rw [HasCell, if_pos rfl]; exact hin tableBits (Nat.le_refl _) (by omega)) (by omega) (by omega) (Nat.le_refl _)
    (by omega) hin
  rw [Nat.sub_self, Nat.pow_zero, Nat.mul_one, Nat.mod_eq_of_lt (by omega), cellOf, if_pos rfl,
    Nat.add_sub_cancel' (by omega)] at hrun
  rw [Nat.add_sub_cancel' (by omega)] at hcell
  have hnew := hcomplete.code_notMem_inner hc h0
  refine ⟨number', nodes', update leaf (bitLen c, base 16 M bitLen c / 2 ^ (16 - bitLen c)) c, ?_⟩
  rw [insertChar, if_neg (by omega)]
  simp only [if_neg (Nat.not_le.mpr hlong)]
  rw [hstart, hrun]
  refine ⟨hstart ▸ h.start_next h0, htrie.put hcell (by omega) hnew c, fun t ht ht0 htshort x hx => ?_, fun t ht hlen => ?_⟩
  · rcases Nat.lt_succ_iff_lt_or_eq.mp ht with hlt | rfl
    · have hout := short_notMem (by omega) ht0 htshort htb hx
      simp only
      rw [set_cellOf_table hcell hout, hgrown.table _ hout, h.short t hlt ht0 htshort x hx]
    · omega
  · rcases Nat.lt_succ_iff_lt_or_eq.mp ht with hlt | rfl
    · obtain ⟨hleaf, hcell'⟩ := h.long t hlt hlen
      refine ⟨?_, hcell'.mono hgrown.sub⟩
      rw [Function.update_of_ne, hleaf]
      intro heq
      obtain ⟨hl, hp⟩ := Prod.mk.inj heq
      rw [hl] at hp
      have hself : Has 16 M bitLen t (base 16 M bitLen t) := ⟨Nat.le_refl _, Nat.lt_add_of_pos_right (Nat.two_pow_pos _)⟩
      have hother : Has 16 M bitLen c (base 16 M bitLen t) := has_iff.mpr hp
      have := Has.unique (by omega) hc (by omega) h0 hself hother
      omega
    · rw [Function.update_self]
      exact ⟨rfl, hcell⟩

theorem Filled.next (h : Filled M bitLen tableBits c number nodes leaf s) (hcomplete : Complete 16 M bitLen)
    (hc : c < M) (htb : tableBits ≤ 15) (hM : M ≤ charLenSize) :
    ∃ number' nodes' leaf', Filled M bitLen tableBits (c + 1) number' nodes' leaf' (insertChar bitLen tableBits c s) := by
  by_cases h0 : bitLen c = 0
  · rw [insertChar, if_pos (Or.inl h0)]
    exact ⟨number, nodes, leaf, h.next_none h0⟩
  · rcases Nat.lt_or_ge tableBits (bitLen c) with hlong | hshort
    · exact h.next_long hcomplete hc hlong htb hM
    · exact ⟨number, nodes, leaf, h.next_short hcomplete hc h0 hshort htb⟩

end

theorem Filled.all {s : (Nat → Nat) × Arrays × Nat} {number leaf : Nat × Nat → Nat} {nodes : Finset (Nat × Nat)}
    (h : Filled M bitLen tableBits 0 number nodes leaf s) (hcomplete : Complete 16 M bitLen)
    (htb : tableBits ≤ 15) (hM : M ≤ charLenSize) {n : Nat} (hn : n ≤ M) :
    ∃ number' nodes' leaf', Filled M bitLen tableBits n number' nodes' leaf' (insertChars bitLen tableBits s n) := by
  induction n with
  | zero => exact ⟨number, nodes, leaf, h⟩
  | succ n ih =>
    obtain ⟨number', nodes', leaf', hfilled⟩ := ih (by omega)
    exact hfilled.next hcomplete (by omega) htb hM

/-- Nothing is in the trie before the first symbol: the entries behind the short codes are cleared. -/
theorem Filled.first (hcomplete : Complete 16 M bitLen) (h8 : 8 ≤ tableBits) (htb : tableBits ≤ 15) (hM : M ≤ charLenSize)
    (a : Arrays) (start : Nat → Nat) (hstart : ∀ x, x ≠ 0 → x ≤ 16 → start x = firstStart M bitLen tableBits x)
    (index : Nat) (hindex : index = below 16 M bitLen (tableBits + 1) % 65536 / 2 ^ (16 - tableBits)) :
    Filled M bitLen tableBits 0 (fun _ => 0) ∅ (fun _ => 0)
      (start, if index ≠ 0 then { a with table := fill a.table index (2 ^ tableBits) 0 } else a, M) := by
  have h510 : charLenSize = 510 := rfl
  refine ⟨fun x hx hx16 => ?_, ?_, fun t ht => absurd ht (Nat.not_lt_zero t), fun t ht => absurd ht (Nat.not_lt_zero t)⟩
  · change start x = _
    rw [hstart x hx hx16, Nat.count_zero, Nat.zero_mul, Nat.add_zero, Nat.mod_eq_of_lt]
    have hmod := Nat.mod_lt (below 16 M bitLen x) (by omega : 0 < 65536)
    rw [firstStart]
    split
    · exact Nat.lt_of_le_of_lt (Nat.div_le_self _ _) hmod
    · exact hmod
  · refine ⟨Finset.empty_subset _, rfl, fun n hn => absurd hn (Finset.notMem_empty n),
      fun n hn => absurd hn (Finset.notMem_empty n), fun d p hmem => absurd hmem (Finset.notMem_empty _),
      fun _ _ => rfl, fun d p hne => absurd rfl hne, fun d p hcell => ?_⟩
    rw [if_neg (Finset.notMem_empty _)]
    by_cases hd : d = tableBits
    · subst d
      rw [HasCell, if_pos rfl] at hcell
      obtain ⟨-, hlo, hhi⟩ := mem_inner.mp hcell
      have htaken : taken M bitLen tableBits * 2 ^ (16 - tableBits) = below 16 M bitLen (tableBits + 1) :=
        taken_mul (by omega)
      have hroom := hcomplete.le_below_add (by omega : 1 ≤ tableBits + 1) (by omega)
      have hpow : 2 ^ (16 - (tableBits + 1)) ≤ 2 ^ 7 := Nat.pow_le_pow_right (by omega) (by omega)
      have hlt : below 16 M bitLen (tableBits + 1) < 65536 := by
        have := Nat.mul_lt_mul_of_pos_right (Nat.lt_of_le_of_lt hlo hhi) (Nat.two_pow_pos (16 - tableBits))
        rwa [htaken, ← Nat.pow_add, Nat.add_sub_cancel' (by omega)] at this
      -- with at most 510 symbols some code fits the table, so the entries are cleared
      have hne : taken M bitLen tableBits ≠ 0 := by
        intro hzero
        rw [hzero, Nat.zero_mul] at htaken
        rw [← htaken, Nat.zero_add] at hroom
        have := Nat.mul_le_mul hM hpow
        omega
      rw [Nat.mod_eq_of_lt hlt, ← htaken, Nat.mul_div_cancel _ (Nat.two_pow_pos _)] at hindex
      rw [cellOf, if_pos rfl, if_pos (by omega)]
      exact if_pos (by omega)
    · rw [HasCell, if_neg hd] at hcell
      exact absurd hcell.2 (Finset.notMem_empty _)

theorem makeTable_spec (hcomplete : Complete 16 M bitLen) (h8 : 8 ≤ tableBits) (htb : tableBits ≤ 15) (hM : M ≤ charLenSize)
    (a : Arrays) :
    ∃ number nodes leaf s, makeTable M bitLen tableBits a = (0, s.2.1) ∧
      Filled M bitLen tableBits M number nodes leaf s := by
  have h510 : charLenSize = 510 := rfl
  have hcount : ∀ x, countLengths bitLen M 0 (fun _ => 0) x = ofLength M bitLen x := fun x => by
    rw [countLengths_eq (fun _ => (Nat.count_zero _).symm) (by omega), Nat.zero_add]
  have hstart : ∀ x, x ≠ 0 → x ≤ 17 → tableStart (countLengths bitLen M 0 fun _ => 0) x = below 16 M bitLen x % 65536 := by
    intro x hx hx17
    obtain ⟨i, rfl⟩ : ∃ i, x = i + 1 := ⟨x - 1, by omega⟩
    exact tableStart_eq hcount (by omega)
  have hlast : tableStart (countLengths bitLen M 0 fun _ => 0) 17 = 0 := by
    rw [hstart 17 (by omega) (by omega), hcomplete.kraft]
    rfl
  obtain ⟨number, nodes, leaf, hfilled⟩ := (Filled.first hcomplete h8 htb hM a
    (fun i => if 1 ≤ i ∧ i ≤ tableBits then tableStart (countLengths bitLen M 0 fun _ => 0) i / 2 ^ (16 - tableBits)
      else tableStart (countLengths bitLen M 0 fun _ => 0) i)
    (fun x hx hx16 => by
      rw [firstStart]
      simp only [hstart x hx (by omega), show 1 ≤ x by omega, true_and])
    (tableStart (countLengths bitLen M 0 fun _ => 0) (tableBits + 1) / 2 ^ (16 - tableBits))
    (by rw [hstart _ (by omega) (by omega)])).all hcomplete htb hM (Nat.le_refl M)
  refine ⟨number, nodes, leaf, _, ?_, hfilled⟩
  rw [makeTable]
  simp only
  rw [if_neg (by omega), if_neg (by omega : ¬(1 ≤ tableBits + 1 ∧ tableBits + 1 ≤ tableBits))]

/-! ## Looking a symbol up -/

section
variable {c : Nat} {number leaf : Nat × Nat → Nat} {nodes : Finset (Nat × Nat)} {s : (Nat → Nat) × Arrays × Nat}

/-- The bit that the mask takes out of the buffer. -/
theorem buffer_bit {mBitBuf d : Nat} (hd : d ≤ 15) :
    (mBitBuf &&& 2 ^ (31 - d) ≠ 0) ↔ mBitBuf / 2 ^ 16 / 2 ^ (15 - d) % 2 = 1 := by
  rw [Nat.and_two_pow, Nat.testBit_eq_decide_div_mod_eq, Nat.div_div_eq_div_mul, ← Nat.pow_add,
    show 16 + (15 - d) = 31 - d by omega]
  by_cases hbit : mBitBuf / 2 ^ (31 - d) % 2 = 1
  · simp [hbit]
  · simp [hbit]

/-- The path of a long code: inner nodes up to its last bit, its label behind them. -/
theorem Filled.path (h : Filled M bitLen tableBits M number nodes leaf s) (hcomplete : Complete 16 M bitLen) (hc : c < M)
    {word e : Nat} (hword : Has 16 M bitLen c word) (he : tableBits ≤ e) (hlt : e < bitLen c) :
    (e, word / 2 ^ (16 - e)) ∈ nodes := by
  have hcode := hword.prefix_eq (Nat.le_refl _) (hcomplete.le c hc)
  obtain ⟨-, hcell⟩ := h.long c hc (by omega)
  have hle := hcomplete.le c hc
  rw [HasCell, if_neg (by omega), ← hcode] at hcell
  have hmem := h.trie.mem_of_le (k := bitLen c - 1 - e) he (by rw [Nat.add_sub_cancel' (by omega)]; exact hcell.2)
  rwa [Nat.div_div_eq_div_mul, Nat.div_div_eq_div_mul, ← Nat.pow_succ', ← Nat.pow_add,
    show 16 - bitLen c + (bitLen c - 1 - e).succ = 16 - e by omega] at hmem

theorem Filled.decodeLong (h : Filled M bitLen tableBits M number nodes leaf s)
    (hcomplete : Complete 16 M bitLen) (hc : c < M)
    {mBitBuf d fuel : Nat} (hword : Has 16 M bitLen c (mBitBuf / 2 ^ 16)) (htop : tableBits ≤ d) (hd : d < bitLen c)
    (hfuel : bitLen c ≤ fuel + d) :
    decodeLong M s.2.1 mBitBuf fuel (number (d, mBitBuf / 2 ^ 16 / 2 ^ (16 - d))) (2 ^ (31 - d)) = some c := by
  have hle := hcomplete.le c hc
  induction fuel generalizing d with
  | zero => omega
  | succ fuel ih =>
    have hval : (if mBitBuf &&& 2 ^ (31 - d) ≠ 0 then s.2.1.right (number (d, mBitBuf / 2 ^ 16 / 2 ^ (16 - d)))
          else s.2.1.left (number (d, mBitBuf / 2 ^ 16 / 2 ^ (16 - d))))
        = s.2.1.get (cellOf tableBits number (d + 1) (mBitBuf / 2 ^ 16 / 2 ^ (16 - (d + 1)))) := by
      rw [← child_eq_cellOf (by omega) htop, child]
      simp only [buffer_bit (by omega : d ≤ 15)]
      split <;> rfl
    have hcell := h.trie.cell _ _ (hasCell_succ (by omega) htop (h.path hcomplete hc hword htop hd))
    rw [Huffman.decodeLong, hval, hcell]
    rcases Nat.lt_or_eq_of_le (Nat.succ_le_of_lt hd) with hlt | heq
    · have hmem := h.path hcomplete hc hword (by omega : tableBits ≤ d + 1) hlt
      have hge := (h.trie.range _ hmem).1
      rw [if_pos hmem, if_pos hge, Nat.div_eq_of_eq_mul_left (by omega : 0 < 2)
        (show 2 ^ (31 - d) = 2 ^ (31 - (d + 1)) * 2 by rw [← Nat.pow_succ]; congr 1; omega)]
      exact ih (by omega) hlt (by omega)
    · -- the last bit
      have hcode := hword.prefix_eq (Nat.le_refl _) hle
      have hout := hcomplete.code_notMem_inner hc (by omega)
      rw [← hcode, ← heq] at hout
      have hleaf := (h.long c hc (by omega)).1
      rw [← hcode, ← heq] at hleaf
      rw [if_neg fun hmem => hout (h.trie.sub hmem), hleaf, if_neg (Nat.not_le.mpr hc)]

/-- Every buffer is looked up as the symbol in whose run its first 16 bits lie. -/
theorem Filled.decodeSymbol (h : Filled M bitLen tableBits M number nodes leaf s) (hcomplete : Complete 16 M bitLen)
    (htb : tableBits ≤ 15) (hc : c < M) (h0 : bitLen c ≠ 0) {mBitBuf fuel : Nat}
    (hword : Has 16 M bitLen c (mBitBuf / 2 ^ 16)) (hfuel : 16 ≤ fuel) :
    decodeSymbol fuel M tableBits s.2.1 mBitBuf = some c := by
  have hle := hcomplete.le c hc
  have hindex : mBitBuf / 2 ^ (32 - tableBits) = mBitBuf / 2 ^ 16 / 2 ^ (16 - tableBits) := by
    rw [Nat.div_div_eq_div_mul, ← Nat.pow_add]
    congr 2
    omega
  rw [Huffman.decodeSymbol, hindex]
  rcases Nat.lt_or_ge tableBits (bitLen c) with hlong | hshort
  · have hmem := h.path hcomplete hc hword (Nat.le_refl _) hlong
    have hcell := h.trie.cell tableBits _ (by rw [HasCell, if_pos rfl]; exact h.trie.sub hmem)
    rw [cellOf, if_pos rfl, if_pos hmem, Arrays.get] at hcell
    rw [hcell, if_pos (h.trie.range _ hmem).1]
    exact h.decodeLong hcomplete hc hword (Nat.le_refl _) hlong (by omega)
  · rw [h.short c hc h0 hshort _ hword, if_neg (Nat.not_le.mpr hc)]

end

end Udk.Huffman
