import Mathlib.Algebra.BigOperators.Group.Multiset.Basic
import Mathlib.Algebra.Order.BigOperators.Group.Multiset
import Udk.BinaryTree
import Udk.Canonical
import Udk.Slots
import Udk.Huffman.Encoder

/-! # The tree that `MakeTree` builds

Only which entries the queue holds matters here, not their order: every entry is the root of a tree, the trees'
leaves are the symbols with a frequency, and the symbols that have left the queue are written to `CodeParm`.
-/

namespace Udk.Huffman

open Function (update)

/-! ## The priority queue -/

theorem downHeapLoop_spec (mFreq : Nat → Nat) {mHeapSize fuel i : Nat} (k : Nat) (mHeap : Nat → Nat)
    (h1 : 1 ≤ i) (hi : i ≤ mHeapSize) (hfuel : mHeapSize < fuel + i) :
    ∃ mHeap', downHeapLoop mFreq mHeapSize k fuel mHeap i = some mHeap' ∧
      slots mHeap' 1 mHeapSize = slots (update mHeap i k) 1 mHeapSize := by
  induction fuel generalizing mHeap i with
  | zero => omega
  | succ fuel ih =>
    unfold downHeapLoop
    split
    · -- the son that goes up, if any
      generalize hj : (if 2 * i < mHeapSize ∧ mFreq (mHeap (2 * i)) > mFreq (mHeap (2 * i + 1)) then 2 * i + 1
        else 2 * i) = j
      have hj' : i < j ∧ j ≤ mHeapSize := by split at hj <;> omega
      simp only
      split
      · exact ⟨_, rfl, rfl⟩
      · obtain ⟨mHeap', hrun, hslots⟩ := ih (update mHeap i (mHeap j)) (by omega) hj'.2 (by omega)
        refine ⟨mHeap', hrun, hslots.trans ?_⟩
        exact slots_move k (by omega) h1 (by omega) (by omega) (by omega)
    · exact ⟨_, rfl, rfl⟩

theorem downHeap_spec (mFreq : Nat → Nat) {mHeapSize fuel i : Nat} (mHeap : Nat → Nat)
    (h1 : 1 ≤ i) (hi : i ≤ mHeapSize) (hfuel : mHeapSize ≤ fuel) :
    ∃ mHeap', downHeap fuel mFreq mHeapSize mHeap i = some mHeap' ∧ slots mHeap' 1 mHeapSize = slots mHeap 1 mHeapSize := by
  obtain ⟨mHeap', hrun, hslots⟩ := downHeapLoop_spec mFreq (mHeap i) mHeap h1 hi (by omega : mHeapSize < fuel + i)
  refine ⟨mHeap', hrun, hslots.trans ?_⟩
  rw [Function.update_eq_self]

theorem makeQueue_spec (mFreq : Nat → Nat) {mHeapSize fuel i : Nat} (mHeap : Nat → Nat)
    (hi : i ≤ mHeapSize) (hfuel : mHeapSize ≤ fuel) :
    ∃ mHeap', makeQueue fuel mFreq mHeapSize i mHeap = some mHeap' ∧ slots mHeap' 1 mHeapSize = slots mHeap 1 mHeapSize := by
  induction i generalizing mHeap with
  | zero => exact ⟨mHeap, rfl, rfl⟩
  | succ i ih =>
    obtain ⟨h1, hrun1, hs1⟩ := downHeap_spec mFreq mHeap (by omega : 1 ≤ i + 1) hi hfuel
    obtain ⟨h2, hrun2, hs2⟩ := ih h1 (by omega)
    refine ⟨h2, ?_, hs2.trans hs1⟩
    rw [makeQueue, hrun1]
    exact hrun2

/-- The symbols with a frequency. -/
def symbols (freq : Nat → Nat) (N : Nat) : Multiset Nat := (Multiset.range N).filter fun i => freq i ≠ 0

theorem mem_symbols {freq : Nat → Nat} {N a : Nat} : a ∈ symbols freq N ↔ a < N ∧ freq a ≠ 0 := by
  rw [symbols, Multiset.mem_filter, Multiset.mem_range]

theorem nodup_symbols (freq : Nat → Nat) (N : Nat) : (symbols freq N).Nodup :=
  (Multiset.nodup_range N).filter _

theorem collect_spec (freq mHeap : Nat → Nat) (N : Nat) :
    slots (collect freq mHeap N).1 1 (collect freq mHeap N).2 = symbols freq N := by
  induction N with
  | zero => rfl
  | succ N ih =>
    rw [symbols, Multiset.range_succ, Multiset.filter_cons, collect]
    simp only
    split
    · have h : slots (update (collect freq mHeap N).1 (1 + (collect freq mHeap N).2) N) 1 ((collect freq mHeap N).2 + 1)
          = N ::ₘ slots (collect freq mHeap N).1 1 (collect freq mHeap N).2 := slots_push N
      rw [Nat.add_comm 1, ih] at h
      exact h
    · rw [Multiset.zero_add]
      exact ih

/-! ## Trees in `mLeft` and `mRight` -/

/-- `t` hangs at node `i`, and its inner nodes are below `avail`. -/
def Hangs (N : Nat) (mLeft mRight : Nat → Nat) (avail : Nat) : BinaryTree Nat → Nat → Prop
  | .leaf a, i => i = a ∧ i < N
  | .node l r, i => N ≤ i ∧ i < avail ∧ Hangs N mLeft mRight avail l (mLeft i) ∧ Hangs N mLeft mRight avail r (mRight i)

theorem Hangs.add {N avail i : Nat} {mLeft mRight : Nat → Nat} {t : BinaryTree Nat} (u v : Nat)
    (h : Hangs N mLeft mRight avail t i) :
    Hangs N (update mLeft avail u) (update mRight avail v) (avail + 1) t i := by
  induction t generalizing i with
  | leaf a => exact h
  | node l r hl hr =>
    obtain ⟨hN, hlt, h1, h2⟩ := h
    rw [Hangs, Function.update_of_ne (by omega), Function.update_of_ne (by omega)]
    exact ⟨hN, by omega, hl h1, hr h2⟩

/-- What the loop keeps; `tree` gives the tree at each entry of the queue. -/
structure Forest (N : Nat) (all : Multiset Nat) (s : TreeState) (tree : Nat → BinaryTree Nat) : Prop where
  first : N ≤ s.avail
  lt : ∀ i ∈ slots s.mHeap 1 s.mHeapSize, i < s.avail
  hangs : ∀ i ∈ slots s.mHeap 1 s.mHeapSize, Hangs N s.mLeft s.mRight s.avail (tree i) i
  count : ((slots s.mHeap 1 s.mHeapSize).map fun i => (tree i).leaves.length).sum = all.card
  sorted : (slots s.mHeap 1 s.mHeapSize).filter (· < N) + slots s.code 0 s.mSortPtr = all

theorem popSymbol_slots (N i : Nat) (s : TreeState) :
    slots (popSymbol N i s).code 0 (popSymbol N i s).mSortPtr
      = (if i < N then {i} else 0) + slots s.code 0 s.mSortPtr := by
  unfold popSymbol
  split
  · have h : slots (update s.code (0 + s.mSortPtr) i) 0 (s.mSortPtr + 1) = i ::ₘ slots s.code 0 s.mSortPtr := slots_push i
    rwa [Nat.zero_add] at h
  · exact (Multiset.zero_add _).symm

theorem popSymbol_frame (N i : Nat) (s : TreeState) :
    (popSymbol N i s).mHeap = s.mHeap ∧ (popSymbol N i s).mHeapSize = s.mHeapSize ∧
      (popSymbol N i s).mFreq = s.mFreq ∧ (popSymbol N i s).mLeft = s.mLeft ∧
      (popSymbol N i s).mRight = s.mRight ∧ (popSymbol N i s).avail = s.avail := by
  unfold popSymbol
  split <;> exact ⟨rfl, rfl, rfl, rfl, rfl, rfl⟩

/-- One turn takes two entries out of the queue and puts their new parent in. -/
theorem joinLeast_spec {fuel N : Nat} {s : TreeState} (h2 : 2 ≤ s.mHeapSize) (hfuel : s.mHeapSize ≤ fuel) :
    ∃ s' i j rest, joinLeast fuel N s = some s' ∧ s'.mHeapSize = s.mHeapSize - 1 ∧ s'.avail = s.avail + 1 ∧
      slots s.mHeap 1 s.mHeapSize = i ::ₘ j ::ₘ rest ∧ slots s'.mHeap 1 s'.mHeapSize = s.avail ::ₘ rest ∧
      s'.mLeft = update s.mLeft s.avail i ∧ s'.mRight = update s.mRight s.avail j ∧
      slots s'.code 0 s'.mSortPtr
        = (if j < N then {j} else 0) + ((if i < N then {i} else 0) + slots s.code 0 s.mSortPtr) := by
  obtain ⟨m, hm⟩ : ∃ m, s.mHeapSize = m + 1 := ⟨s.mHeapSize - 1, by omega⟩
  obtain ⟨g1, hrun1, hs1⟩ := downHeap_spec s.mFreq (update s.mHeap 1 (s.mHeap (m + 1)))
    (Nat.le_refl 1) (by omega : 1 ≤ m) (by omega : m ≤ fuel)
  have hpop : s.mHeap 1 ::ₘ slots g1 1 m = slots s.mHeap 1 s.mHeapSize := by
    rw [hs1, cons_slots_update _ (Nat.le_refl 1) (by omega), hm, slots, Nat.add_comm 1]
  obtain ⟨rest, hrest⟩ := Multiset.exists_cons_of_mem (mem_slots.mpr ⟨0, by omega, rfl⟩ : g1 1 ∈ slots g1 1 m)
  obtain ⟨g2, hrun2, hs2⟩ := downHeap_spec
    (update s.mFreq s.avail ((s.mFreq (s.mHeap 1) + s.mFreq (g1 1)) % 65536)) (update g1 1 s.avail)
    (Nat.le_refl 1) (by omega : 1 ≤ m) (by omega : m ≤ fuel)
  have hpush : slots g2 1 m = s.avail ::ₘ rest := by
    have h := cons_slots_update (f := g1) s.avail (Nat.le_refl 1) (by omega : 1 < 1 + m)
    rw [hrest, Multiset.cons_swap, Multiset.cons_inj_right] at h
    exact hs2.trans h
  obtain ⟨ha, hb, hc, hd, he, hf⟩ := popSymbol_frame N (s.mHeap 1) s
  obtain ⟨-, -, hc', hd', he', hf'⟩ := popSymbol_frame N (g1 1) (popSymbol N (s.mHeap 1) s)
  have hrun : joinLeast fuel N s = some
      { popSymbol N (g1 1) (popSymbol N (s.mHeap 1) s) with
        mHeap := g2, mHeapSize := m
        mFreq := update s.mFreq s.avail ((s.mFreq (s.mHeap 1) + s.mFreq (g1 1)) % 65536)
        mLeft := update s.mLeft s.avail (s.mHeap 1), mRight := update s.mRight s.avail (g1 1)
        avail := s.avail + 1 } := by
    rw [joinLeast]
    simp only [ha, hb, hc, hd, he, hf, hc', hd', he', hf', hm, Nat.add_sub_cancel, hrun1, hrun2, Option.bind_eq_bind,
      Option.bind_some]
  refine ⟨_, s.mHeap 1, g1 1, rest, hrun, ?_, rfl, ?_, hpush, rfl, rfl, ?_⟩
  · rw [hm, Nat.add_sub_cancel]
  · rw [← hpop, hrest]
  · exact (popSymbol_slots _ _ _).trans (by rw [popSymbol_slots])

theorem Forest.joinLeast {fuel N : Nat} {all : Multiset Nat} {s : TreeState} {tree : Nat → BinaryTree Nat}
    (h : Forest N all s tree) (h2 : 2 ≤ s.mHeapSize) (hfuel : s.mHeapSize ≤ fuel) :
    ∃ s' tree' rest, joinLeast fuel N s = some s' ∧ Forest N all s' tree' ∧ s'.mHeapSize = s.mHeapSize - 1 ∧
      s'.avail = s.avail + 1 ∧ slots s'.mHeap 1 s'.mHeapSize = s.avail ::ₘ rest := by
  obtain ⟨s', i, j, rest, hrun, hsize, havail, hold, hnew, hleft, hright, hcode⟩ := joinLeast_spec (N := N) h2 hfuel
  have hlt := h.lt
  have hhangs := h.hangs
  have hcount := h.count
  have hsorted := h.sorted
  have hfirst := h.first
  rw [hold] at hlt hhangs hcount hsorted
  have hne : ∀ a ∈ rest, a ≠ s.avail := fun a ha =>
    Nat.ne_of_lt (hlt a (Multiset.mem_cons_of_mem (Multiset.mem_cons_of_mem ha)))
  refine ⟨s', update tree s.avail (.node (tree i) (tree j)), rest, hrun, ⟨by omega, ?_, ?_, ?_, ?_⟩, hsize, havail, hnew⟩
  · intro a ha
    rw [hnew, Multiset.mem_cons] at ha
    rcases ha with rfl | ha
    · omega
    · have := hlt a (Multiset.mem_cons_of_mem (Multiset.mem_cons_of_mem ha))
      omega
  · intro a ha
    rw [hnew, Multiset.mem_cons] at ha
    rw [hleft, hright, havail]
    rcases ha with rfl | ha
    · rw [Function.update_self, Hangs, Function.update_self, Function.update_self]
      exact ⟨h.first, Nat.lt_succ_self _, (hhangs i (Multiset.mem_cons_self _ _)).add i j,
        (hhangs j (Multiset.mem_cons_of_mem (Multiset.mem_cons_self _ _))).add i j⟩
    · rw [Function.update_of_ne (hne a ha)]
      exact (hhangs a (Multiset.mem_cons_of_mem (Multiset.mem_cons_of_mem ha))).add i j
  · have hrest : rest.map (fun a => (update tree s.avail (.node (tree i) (tree j)) a).leaves.length)
        = rest.map fun a => (tree a).leaves.length :=
      Multiset.map_congr rfl fun a ha => by rw [Function.update_of_ne (hne a ha)]
    rw [hnew, Multiset.map_cons, Multiset.sum_cons, hrest, Function.update_self, BinaryTree.leaves, List.length_append]
    rw [Multiset.map_cons, Multiset.map_cons, Multiset.sum_cons, Multiset.sum_cons] at hcount
    omega
  · rw [Multiset.filter_cons, Multiset.filter_cons] at hsorted
    rw [hnew, hcode, Multiset.filter_cons_of_neg _ (by omega), ← hsorted]
    ac_rfl

/-- The loop ends with one tree of all symbols, whose root is the last node made. -/
theorem Forest.treeLoop {fuel N turns : Nat} {all : Multiset Nat} {s : TreeState} {tree : Nat → BinaryTree Nat}
    (h : Forest N all s tree) (h2 : 2 ≤ s.mHeapSize) (hfuel : s.mHeapSize ≤ fuel) (hturns : s.mHeapSize ≤ turns + 1) :
    ∃ s' t, treeLoop fuel N turns s = some s' ∧ N < s'.avail ∧
      Hangs N s'.mLeft s'.mRight s'.avail t (s'.avail - 1) ∧ t.leaves.length = all.card ∧
      slots s'.code 0 s'.mSortPtr = all := by
  induction turns generalizing s tree with
  | zero => omega
  | succ turns ih =>
    obtain ⟨s₁, tree₁, rest, hrun, h₁, hsize, havail, hslots⟩ := h.joinLeast h2 hfuel
    rw [Huffman.treeLoop, hrun, Option.bind_eq_bind, Option.bind_some]
    split
    · exact ih h₁ (by omega) (by omega) (by omega)
    · have hfirst := h.first
      have hone : rest = 0 := by
        have := congrArg Multiset.card hslots
        rw [card_slots, Multiset.card_cons] at this
        exact Multiset.card_eq_zero.mp (by omega)
      rw [hone] at hslots
      have hhangs := h₁.hangs s.avail (hslots ▸ Multiset.mem_cons_self _ _)
      have hcount := h₁.count
      have hsorted := h₁.sorted
      rw [hslots] at hcount hsorted
      refine ⟨s₁, tree₁ s.avail, rfl, by omega, ?_, ?_, ?_⟩
      · rw [havail] at hhangs ⊢
        exact hhangs
      · simpa using hcount
      · rw [Multiset.filter_cons_of_neg _ (by omega)] at hsorted
        simpa using hsorted

/-! ## CountLen -/

theorem countLen_spec {N avail fuel d i : Nat} {mLeft mRight c : Nat → Nat} {t : BinaryTree Nat}
    (h : Hangs N mLeft mRight avail t i) (hfuel : t.height ≤ fuel) (hc : ∀ x, c x + t.leaves.length < 65536) :
    ∃ c', countLen N mLeft mRight fuel d i c = some c' ∧ ∀ x, c' x = c x + t.capped 16 d x := by
  induction t generalizing fuel d i c with
  | leaf a =>
    obtain ⟨rfl, hi⟩ := h
    obtain ⟨fuel, rfl⟩ : ∃ m, fuel = m + 1 := ⟨fuel - 1, by simp only [BinaryTree.height] at hfuel; omega⟩
    rw [countLen, if_pos hi]
    refine ⟨_, rfl, fun x => ?_⟩
    have hmin : (if d < 16 then d else 16) = min d 16 := by split <;> omega
    have hlt := hc (min d 16)
    rw [BinaryTree.leaves, List.length_singleton] at hlt
    simp only [hmin, BinaryTree.capped]
    split
    · rename_i heq
      rw [← heq, Function.update_self, Nat.mod_eq_of_lt hlt]
    · rw [Function.update_of_ne (by omega), Nat.add_zero]
  | node l r hl hr =>
    obtain ⟨hN, -, h1, h2⟩ := h
    obtain ⟨fuel, rfl⟩ : ∃ m, fuel = m + 1 := ⟨fuel - 1, by simp only [BinaryTree.height] at hfuel; omega⟩
    simp only [BinaryTree.height, BinaryTree.leaves, List.length_append] at hfuel hc
    obtain ⟨c₁, hrun1, hc1⟩ := hl (d := d + 1) (c := c) h1 (by omega : l.height ≤ fuel) fun x => by
      have := hc x
      omega
    obtain ⟨c₂, hrun2, hc2⟩ := hr (d := d + 1) (c := c₁) h2 (by omega : r.height ≤ fuel) fun x => by
      have := hc x
      have := l.capped_le 16 (d + 1) x
      rw [hc1]
      omega
    refine ⟨c₂, ?_, fun x => ?_⟩
    · rw [countLen, if_neg (by omega), hrun1]
      exact hrun2
    · rw [hc2, hc1, BinaryTree.capped, Nat.add_assoc]

end Udk.Huffman
