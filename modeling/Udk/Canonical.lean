import Mathlib.Algebra.GroupWithZero.Nat
import Mathlib.Algebra.BigOperators.Intervals
import Mathlib.Algebra.BigOperators.Ring.Finset
import Mathlib.Algebra.Order.BigOperators.Group.Finset
import Mathlib.Data.Nat.Count
import Mathlib.Data.Finset.Sigma
import Mathlib.Tactic.Ring

/-! # Canonical prefix codes

`N` symbols, of which symbol `s` has length `len s` (none when it is 0). The words of `w` bits are dealt out
in runs of `2 ^ (w - len s)`, shorter lengths first and smaller symbols first within a length.
-/

namespace Udk.Canonical

open Finset

section
variable (w N : Nat) (len : Nat → Nat)

/-- How many symbols have length `x`. -/
def ofLength (x : Nat) : Nat := Nat.count (fun s => len s = x) N

/-- The first word not dealt out to the lengths below `L`. -/
def below (L : Nat) : Nat := ∑ i ∈ Ico 1 L, ofLength N len i * 2 ^ (w - i)

/-- The first word of `s`. -/
def base (s : Nat) : Nat := below w N len (len s) + Nat.count (fun t => len t = len s) s * 2 ^ (w - len s)

/-- How many prefixes of length `d` lie in the runs of the lengths up to `d`: the smallest ones. -/
def taken : Nat → Nat
  | 0 => 0
  | d + 1 => 2 * taken d + ofLength N len (d + 1)

/-- `x` is one of the words of `s`. -/
def Has (s x : Nat) : Prop := base w N len s ≤ x ∧ x < base w N len s + 2 ^ (w - len s)

/-- Kraft's equality. -/
structure Complete : Prop where
  le : ∀ s < N, len s ≤ w
  kraft : below w N len (w + 1) = 2 ^ w

end

variable {w N : Nat} {len : Nat → Nat}

/-! ## The runs -/

theorem below_succ {L : Nat} (hL : 1 ≤ L) : below w N len (L + 1) = below w N len L + ofLength N len L * 2 ^ (w - L) :=
  sum_Ico_succ_top hL _

theorem below_mono {L M : Nat} (h : L ≤ M) : below w N len L ≤ below w N len M :=
  sum_le_sum_of_subset (Ico_subset_Ico_right h)

theorem Complete.below_le (h : Complete w N len) {L : Nat} (hL : L ≤ w + 1) : below w N len L ≤ 2 ^ w :=
  h.kraft ▸ below_mono hL

theorem dvd_below (L : Nat) : 2 ^ (w + 1 - L) ∣ below w N len L := by
  apply dvd_sum
  intro i hi
  rw [mem_Ico] at hi
  exact (pow_dvd_pow 2 (by omega)).mul_left _

theorem dvd_base (s : Nat) : 2 ^ (w - len s) ∣ base w N len s :=
  ((pow_dvd_pow 2 (by omega)).trans (dvd_below (len s))).add (dvd_mul_left _ _)

theorem base_add_le {s : Nat} (hs : s < N) (h0 : len s ≠ 0) :
    base w N len s + 2 ^ (w - len s) ≤ below w N len (len s + 1) := by
  rw [below_succ (Nat.pos_of_ne_zero h0), base, Nat.add_assoc, ← Nat.succ_mul]
  refine Nat.add_le_add_left (Nat.mul_le_mul_right _ ?_) _
  exact Nat.succ_le_of_lt (Nat.count_strict_mono (p := fun t => len t = len s) rfl hs)

theorem Complete.base_add_le (h : Complete w N len) {s : Nat} (hs : s < N) (h0 : len s ≠ 0) :
    base w N len s + 2 ^ (w - len s) ≤ 2 ^ w :=
  (Canonical.base_add_le hs h0).trans (h.below_le (Nat.succ_le_succ (h.le s hs)))

/-- The runs follow one another in the order of length and symbol. -/
theorem base_add_le_base {s t : Nat} (ht : t < N) (h0 : len t ≠ 0)
    (h : len t < len s ∨ len t = len s ∧ t < s) : base w N len t + 2 ^ (w - len t) ≤ base w N len s := by
  rcases h with h | ⟨hlen, hts⟩
  · calc base w N len t + 2 ^ (w - len t) ≤ below w N len (len t + 1) := base_add_le ht h0
      _ ≤ below w N len (len s) := below_mono h
      _ ≤ base w N len s := Nat.le_add_right _ _
  · have hc : Nat.count (fun u => len u = len s) t + 1 ≤ Nat.count (fun u => len u = len s) s :=
      Nat.succ_le_of_lt (Nat.count_strict_mono (p := fun u => len u = len s) hlen hts)
    have := Nat.mul_le_mul_right (2 ^ (w - len s)) hc
    rw [Nat.succ_mul] at this
    rw [base, base, hlen]
    omega

/-- No word belongs to two symbols. -/
theorem Has.unique {s t x : Nat} (hs : s < N) (ht : t < N) (hs0 : len s ≠ 0) (ht0 : len t ≠ 0)
    (h1 : Has w N len s x) (h2 : Has w N len t x) : s = t := by
  obtain ⟨h1l, h1u⟩ := h1
  obtain ⟨h2l, h2u⟩ := h2
  by_contra hne
  rcases Nat.lt_trichotomy (len s) (len t) with h | h | h
  · have := base_add_le_base (w := w) hs hs0 (Or.inl h)
    omega
  · rcases Nat.lt_or_gt_of_ne hne with hst | hst
    · have := base_add_le_base (w := w) hs hs0 (Or.inr ⟨h, hst⟩)
      omega
    · have := base_add_le_base (w := w) ht ht0 (Or.inr ⟨h.symm, hst⟩)
      omega
  · have := base_add_le_base (w := w) ht ht0 (Or.inl h)
    omega

theorem exists_length {x m : Nat} (h : x < below w N len (m + 1)) :
    ∃ L, 1 ≤ L ∧ L ≤ m ∧ below w N len L ≤ x ∧ x < below w N len (L + 1) := by
  induction m with
  | zero => simp [below] at h
  | succ m ih =>
    rcases Nat.lt_or_ge x (below w N len (m + 1)) with hlt | hge
    · obtain ⟨L, h1, hm, hL⟩ := ih hlt
      exact ⟨L, h1, by omega, hL⟩
    · exact ⟨m + 1, by omega, Nat.le_refl _, hge, h⟩

/-- A count that grows by ones takes every value below its last. -/
theorem exists_count {p : Nat → Prop} [DecidablePred p] {q n : Nat} (h : q < Nat.count p n) :
    ∃ s < n, p s ∧ Nat.count p s = q := by
  induction n with
  | zero => simp at h
  | succ n ih =>
    rcases Nat.lt_or_ge q (Nat.count p n) with hlt | hge
    · obtain ⟨s, hs, hp⟩ := ih hlt
      exact ⟨s, by omega, hp⟩
    · rw [Nat.count_succ] at h
      split at h
      · exact ⟨n, by omega, ‹_›, by omega⟩
      · omega

/-- Every word belongs to a symbol. -/
theorem Complete.exists_has (h : Complete w N len) {x : Nat} (hx : x < 2 ^ w) :
    ∃ s < N, len s ≠ 0 ∧ Has w N len s x := by
  obtain ⟨L, h1, -, hl, hu⟩ := exists_length (h.kraft ▸ hx)
  rw [below_succ h1] at hu
  have hq : (x - below w N len L) / 2 ^ (w - L) < ofLength N len L :=
    Nat.div_lt_of_lt_mul (by rw [Nat.mul_comm]; omega)
  obtain ⟨s, hs, rfl, hcount⟩ := exists_count hq
  refine ⟨s, hs, by omega, ?_⟩
  have hdiv := Nat.div_add_mod (x - below w N len (len s)) (2 ^ (w - len s))
  have hmod := Nat.mod_lt (x - below w N len (len s)) (Nat.two_pow_pos (w - len s))
  rw [Nat.mul_comm] at hdiv
  rw [Has, base, hcount]
  omega

/-- Further symbols without a code change nothing. -/
theorem ofLength_extend {M : Nat} {len' : Nat → Nat} (hlen : ∀ s < N, len' s = len s) (hNM : N ≤ M)
    (hzero : ∀ s, N ≤ s → s < M → len' s = 0) {x : Nat} (hx : x ≠ 0) : ofLength M len' x = ofLength N len x := by
  induction M, hNM using Nat.le_induction with
  | base =>
    simp only [ofLength, Nat.count_eq_card_filter_range]
    congr 1
    exact filter_congr fun s hs => by rw [hlen s (mem_range.mp hs)]
  | succ M hNM ih =>
    rw [ofLength, Nat.count_succ, if_neg (by rw [hzero M hNM (Nat.lt_succ_self M)]; exact hx.symm)]
    exact ih fun s h1 h2 => hzero s h1 (Nat.lt_succ_of_lt h2)

theorem below_extend {M : Nat} {len' : Nat → Nat} (hlen : ∀ s < N, len' s = len s) (hNM : N ≤ M)
    (hzero : ∀ s, N ≤ s → s < M → len' s = 0) (L : Nat) : below w M len' L = below w N len L :=
  sum_congr rfl fun i hi => by rw [ofLength_extend hlen hNM hzero (by rw [mem_Ico] at hi; omega)]

theorem base_extend {M : Nat} {len' : Nat → Nat} (hlen : ∀ s < N, len' s = len s) (hNM : N ≤ M)
    (hzero : ∀ s, N ≤ s → s < M → len' s = 0) {s : Nat} (hs : s < N) : base w M len' s = base w N len s := by
  rw [base, base, below_extend hlen hNM hzero, hlen s hs, Nat.count_eq_card_filter_range, Nat.count_eq_card_filter_range]
  congr 3
  exact filter_congr fun t ht => by rw [hlen t (by rw [mem_range] at ht; omega)]

theorem Complete.extend {M : Nat} {len' : Nat → Nat} (h : Complete w N len) (hlen : ∀ s < N, len' s = len s)
    (hNM : N ≤ M) (hzero : ∀ s, N ≤ s → s < M → len' s = 0) : Complete w M len' := by
  refine ⟨fun s hs => ?_, (below_extend hlen hNM hzero _).trans h.kraft⟩
  rcases Nat.lt_or_ge s N with hlt | hge
  · rw [hlen s hlt]
    exact h.le s hlt
  · rw [hzero s hge hs]
    exact Nat.zero_le _

theorem ofLength_update {y i x : Nat} (hy : y < N) (h0 : len y = 0) (hx : x ≠ 0) :
    ofLength N (Function.update len y i) x = ofLength N len x + if i = x then 1 else 0 := by
  simp only [ofLength, Nat.count_eq_card_filter_range]
  split
  · have hinsert : {s ∈ range N | Function.update len y i s = x} = insert y {s ∈ range N | len s = x} := by
      ext s
      rcases eq_or_ne s y with rfl | hne
      · simp [*]
      · simp [hne]
    rw [hinsert, card_insert_of_notMem]
    simp [h0, hx.symm]
  · rw [Nat.add_zero]
    congr 1
    ext s
    rcases eq_or_ne s y with rfl | hne
    · simp [*, hx.symm]
    · simp [hne]

/-- Kraft's sum over the symbols. -/
theorem below_last (hle : ∀ s < N, len s ≤ w) : below w N len (w + 1) = ∑ s ∈ range N with len s ≠ 0, 2 ^ (w - len s) := by
  rw [sum_filter]
  induction N with
  | zero => simp [below, ofLength]
  | succ N ih =>
    have hstep : ∀ i, ofLength (N + 1) len i = ofLength N len i + if len N = i then 1 else 0 := fun i => Nat.count_succ _ N
    rw [sum_range_succ, ← ih fun s hs => hle s (by omega), below, below]
    simp only [hstep, Nat.add_mul, sum_add_distrib, ite_mul, Nat.one_mul, Nat.zero_mul, sum_ite_eq, mem_Ico]
    have := hle N (Nat.lt_succ_self N)
    congr 1
    exact if_congr (by omega) rfl rfl

/-! ## Prefixes of words -/

/-- The words of a symbol are those whose first bits are its code. -/
theorem has_iff {s x : Nat} : Has w N len s x ↔ x / 2 ^ (w - len s) = base w N len s / 2 ^ (w - len s) := by
  obtain ⟨q, hq⟩ : 2 ^ (w - len s) ∣ base w N len s := dvd_base s
  have hpos := Nat.two_pow_pos (w - len s)
  rw [Has, hq, Nat.mul_div_cancel_left _ hpos, Nat.mul_comm, Nat.div_eq_iff hpos]
  omega

theorem Has.prefix_eq {s x d : Nat} (h : Has w N len s x) (hd : d ≤ len s) (hle : len s ≤ w) :
    x / 2 ^ (w - d) = base w N len s / 2 ^ (w - d) := by
  have hpow : 2 ^ (w - d) = 2 ^ (w - len s) * 2 ^ (len s - d) := by
    rw [← Nat.pow_add]
    congr 1
    omega
  rw [hpow, ← Nat.div_div_eq_div_mul, has_iff.mp h, Nat.div_div_eq_div_mul]

/-! ## The prefixes that no symbol has taken -/

theorem taken_mul {d : Nat} (hd : d ≤ w) : taken N len d * 2 ^ (w - d) = below w N len (d + 1) := by
  induction d with
  | zero => simp [taken, below]
  | succ d ih =>
    have hpow : 2 ^ (w - d) = 2 * 2 ^ (w - (d + 1)) := by
      rw [← Nat.pow_succ']
      congr 1
      omega
    rw [below_succ (by omega), ← ih (by omega), taken, Nat.add_mul, hpow]
    ring

theorem Complete.taken_le (h : Complete w N len) {d : Nat} (hd : d ≤ w) : taken N len d ≤ 2 ^ d := by
  have hle := h.below_le (show d + 1 ≤ w + 1 by omega)
  rw [← taken_mul hd] at hle
  refine Nat.le_of_mul_le_mul_right ?_ (Nat.two_pow_pos (w - d))
  rwa [← Nat.pow_add, Nat.add_sub_cancel' hd]

theorem Complete.taken_last (h : Complete w N len) : taken N len w = 2 ^ w := by
  have : taken N len w * 2 ^ (w - w) = below w N len (w + 1) := taken_mul (Nat.le_refl w)
  rwa [Nat.sub_self, Nat.pow_zero, Nat.mul_one, h.kraft] at this

theorem sum_ofLength_le (N : Nat) (len : Nat → Nat) (s : Finset Nat) : ∑ i ∈ s, ofLength N len i ≤ N := by
  induction N with
  | zero => simp [ofLength]
  | succ N ih =>
    have hstep : ∀ i, ofLength (N + 1) len i = ofLength N len i + if len N = i then 1 else 0 := fun i => Nat.count_succ _ N
    have hone : ∑ i ∈ s, (if len N = i then 1 else 0) ≤ 1 := by
      rw [sum_ite_eq]
      split <;> omega
    simp only [hstep, sum_add_distrib]
    omega

/-- What the lengths below `L` leave is filled by codes of length `L` and more. -/
theorem Complete.le_below_add (h : Complete w N len) {L : Nat} (h1 : 1 ≤ L) (hL : L ≤ w + 1) :
    2 ^ w ≤ below w N len L + N * 2 ^ (w - L) := by
  have hrest : ∑ i ∈ Ico L (w + 1), ofLength N len i * 2 ^ (w - i) ≤
      (∑ i ∈ Ico L (w + 1), ofLength N len i) * 2 ^ (w - L) := by
    rw [sum_mul]
    refine sum_le_sum fun i hi => Nat.mul_le_mul_left _ (Nat.pow_le_pow_right (by omega) ?_)
    have := (mem_Ico.mp hi).1
    omega
  rw [← h.kraft, below, below, ← sum_Ico_consecutive _ h1 hL]
  exact Nat.add_le_add_left (hrest.trans (Nat.mul_le_mul_right _ (sum_ofLength_le N len _))) _

/-- A tree has one inner node fewer than leaves. -/
theorem Complete.sum_inner (h : Complete w N len) {m : Nat} (hm : m ≤ w) :
    ∑ d ∈ range m, (2 ^ d - taken N len d) + 1 = ∑ i ∈ Ico 1 (m + 1), ofLength N len i + (2 ^ m - taken N len m) := by
  induction m with
  | zero => simp [taken]
  | succ m ih =>
    have hle := h.taken_le hm
    have hle' := h.taken_le (show m ≤ w by omega)
    have ih := ih (by omega)
    have hpow : 2 ^ (m + 1) = 2 * 2 ^ m := Nat.pow_succ'
    have ht : taken N len (m + 1) = 2 * taken N len m + ofLength N len (m + 1) := rfl
    rw [sum_range_succ, sum_Ico_succ_top (by omega)]
    omega

/-- The inner nodes `(d, p)` of the code's tree: `p` is a prefix of length `d` that is not taken. -/
def inner (w N : Nat) (len : Nat → Nat) : Finset (Nat × Nat) :=
  (range w).biUnion fun d => (Ico (taken N len d) (2 ^ d)).image fun p => (d, p)

theorem mem_inner {d p : Nat} : (d, p) ∈ inner w N len ↔ d < w ∧ taken N len d ≤ p ∧ p < 2 ^ d := by
  simp only [inner, mem_biUnion, mem_range, mem_image, mem_Ico, Prod.mk.injEq]
  constructor
  · rintro ⟨d', hd, p', hp, rfl, rfl⟩
    exact ⟨hd, hp⟩
  · rintro ⟨hd, hp⟩
    exact ⟨d, hd, p, hp, rfl, rfl⟩

theorem Complete.prefix_mem_inner (h : Complete w N len) {s d : Nat} (hs : s < N) (hd : d < len s) :
    (d, base w N len s / 2 ^ (w - d)) ∈ inner w N len := by
  have hle := h.le s hs
  have hbase := h.base_add_le hs (by omega)
  have hpos := Nat.two_pow_pos (w - len s)
  refine mem_inner.mpr ⟨by omega, ?_, ?_⟩
  · rw [Nat.le_div_iff_mul_le (Nat.two_pow_pos _), taken_mul (by omega)]
    exact (below_mono hd).trans (Nat.le_add_right _ _)
  · rw [Nat.div_lt_iff_lt_mul (Nat.two_pow_pos _), ← Nat.pow_add, Nat.add_sub_cancel' (by omega)]
    omega

theorem Complete.code_notMem_inner (h : Complete w N len) {s : Nat} (hs : s < N) (h0 : len s ≠ 0) :
    (len s, base w N len s / 2 ^ (w - len s)) ∉ inner w N len := by
  intro hmem
  have hbase := Canonical.base_add_le (w := w) hs h0
  rw [← taken_mul (h.le s hs)] at hbase
  have hdvd := Nat.div_mul_cancel (dvd_base s : 2 ^ (w - len s) ∣ base w N len s)
  have hle := Nat.mul_le_mul_right (2 ^ (w - len s)) (mem_inner.mp hmem).2.1
  have hpos := Nat.two_pow_pos (w - len s)
  omega

theorem Complete.card_inner_lt (h : Complete w N len) : (inner w N len).card + 1 ≤ N := by
  have hcard : (inner w N len).card ≤ ∑ d ∈ range w, (2 ^ d - taken N len d) := by
    refine card_biUnion_le.trans (sum_le_sum fun d _ => ?_)
    exact card_image_le.trans (Nat.le_of_eq (Nat.card_Ico _ _))
  have hsum := h.sum_inner (Nat.le_refl w)
  have := sum_ofLength_le N len (Ico 1 (w + 1))
  rw [h.taken_last, Nat.sub_self] at hsum
  omega

end Udk.Canonical
