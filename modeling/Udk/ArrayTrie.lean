import Mathlib.Algebra.GroupWithZero.Nat
import Mathlib.Data.Finset.Card
import Mathlib.Logic.Function.Basic

/-! # A binary trie kept in arrays

The nodes at depth `top` have their cells in a table, indexed by the node; the children of node number `v` have
theirs in `left v` and `right v`. A cell holds the number of an inner node, the label of a leaf, or 0. Node `p` at
depth `d` is the pair `(d, p)`, its parent is `(d - 1, p / 2)`.
-/

namespace Udk.ArrayTrie

open Function (update)

structure Arrays where
  table : Nat → Nat
  left : Nat → Nat
  right : Nat → Nat

inductive Cell where
  | table (i : Nat)
  | left (v : Nat)
  | right (v : Nat)
deriving DecidableEq

def Arrays.get (a : Arrays) : Cell → Nat
  | .table i => a.table i
  | .left v => a.left v
  | .right v => a.right v

def Arrays.set (a : Arrays) : Cell → Nat → Arrays
  | .table i, x => { a with table := update a.table i x }
  | .left v, x => { a with left := update a.left v x }
  | .right v, x => { a with right := update a.right v x }

theorem Arrays.get_set (a : Arrays) (c c' : Cell) (x : Nat) : (a.set c x).get c' = if c' = c then x else a.get c' := by
  cases c <;> cases c' <;> simp [get, set, Function.update_apply]

/-- The child of node number `v` on the side of `bit`. -/
def child (v bit : Nat) : Cell := if bit = 1 then .right v else .left v

section
variable (top : Nat) (number : Nat × Nat → Nat)

/-- The cell of node `p` at depth `d`. -/
def cellOf (d p : Nat) : Cell := if d = top then .table p else child (number (d - 1, p / 2)) (p % 2)

variable (inner nodes : Finset (Nat × Nat))

/-- The node has a cell. -/
def HasCell (d p : Nat) : Prop := if d = top then (d, p) ∈ inner else top < d ∧ (d - 1, p / 2) ∈ nodes

/-- `nodes` are the inner nodes made so far, out of those that may become `inner`; they are numbered from `first`
up to `avail`, and `leaf` gives the labels. -/
structure Trie (first : Nat) (leaf : Nat × Nat → Nat) (a : Arrays) (avail : Nat) : Prop where
  sub : nodes ⊆ inner
  avail_eq : avail = first + nodes.card
  range : ∀ n ∈ nodes, first ≤ number n ∧ number n < avail
  inj : ∀ n ∈ nodes, ∀ m ∈ nodes, number n = number m → n = m
  closed : ∀ d p, (d, p) ∈ nodes → HasCell top inner nodes d p
  outer : ∀ n ∈ inner, leaf n = 0
  parent : ∀ d p, leaf (d, p) ≠ 0 → top < d ∧ (d - 1, p / 2) ∈ nodes
  cell : ∀ d p, HasCell top inner nodes d p →
    a.get (cellOf top number d p) = if (d, p) ∈ nodes then number (d, p) else leaf (d, p)

end

variable {top first avail : Nat} {number leaf : Nat × Nat → Nat} {inner nodes : Finset (Nat × Nat)} {a : Arrays}

theorem HasCell.mono {nodes' : Finset (Nat × Nat)} (hsub : nodes ⊆ nodes') {d p : Nat}
    (h : HasCell top inner nodes d p) : HasCell top inner nodes' d p := by
  unfold HasCell at h ⊢
  split
  · rwa [if_pos (by assumption)] at h
  · rw [if_neg (by assumption)] at h
    exact ⟨h.1, hsub h.2⟩

theorem child_inj {v v' b b' : Nat} (hb : b < 2) (hb' : b' < 2) (h : child v b = child v' b') : v = v' ∧ b = b' := by
  unfold child at h
  split at h <;> split at h <;> cases h
  · exact ⟨rfl, by omega⟩
  · exact ⟨rfl, by omega⟩

namespace Trie

/-- Different nodes have different cells. -/
theorem cellOf_inj (h : Trie top number inner nodes first leaf a avail) {d p e q : Nat}
    (hd : HasCell top inner nodes d p) (he : HasCell top inner nodes e q)
    (heq : cellOf top number d p = cellOf top number e q) : d = e ∧ p = q := by
  unfold cellOf at heq
  unfold HasCell at hd he
  split at heq <;> split at heq
  · cases heq
    exact ⟨by omega, rfl⟩
  · unfold child at heq
    split at heq <;> cases heq
  · unfold child at heq
    split at heq <;> cases heq
  · rename_i hdt het
    rw [if_neg hdt] at hd
    rw [if_neg het] at he
    obtain ⟨hnum, hbit⟩ := child_inj (Nat.mod_lt _ (by omega)) (Nat.mod_lt _ (by omega)) heq
    have hpar := Prod.mk.inj (h.inj _ hd.2 _ he.2 hnum)
    omega

/-- A new inner node: its cell is empty, and it takes the next number. -/
theorem add (h : Trie top number inner nodes first leaf a avail) {d p : Nat} (hcell : HasCell top inner nodes d p)
    (hnew : (d, p) ∉ nodes) (hin : (d, p) ∈ inner) :
    Trie top (update number (d, p) avail) inner (insert (d, p) nodes) first leaf
      (((a.set (.left avail) 0).set (.right avail) 0).set (cellOf top number d p) avail) (avail + 1) := by
  have hnum : ∀ n ∈ nodes, update number (d, p) avail n = number n := fun n hn =>
    Function.update_of_ne (by rintro rfl; exact hnew hn) _ _
  have hlt : ∀ n ∈ nodes, number n < avail := fun n hn => (h.range n hn).2
  -- the cells of the old nodes stay where they were
  have hold : ∀ e q, HasCell top inner nodes e q → cellOf top (update number (d, p) avail) e q = cellOf top number e q := by
    intro e q he
    unfold cellOf
    split
    · rfl
    · unfold HasCell at he
      rw [if_neg (by assumption)] at he
      rw [hnum _ he.2]
  have hfresh : ∀ e q, HasCell top inner nodes e q →
      cellOf top number e q ≠ .left avail ∧ cellOf top number e q ≠ .right avail := by
    intro e q he
    unfold cellOf
    split
    · exact ⟨Cell.noConfusion, Cell.noConfusion⟩
    · unfold HasCell at he
      rw [if_neg (by assumption)] at he
      have := hlt _ he.2
      unfold child
      split <;> exact ⟨fun heq => by cases heq <;> omega, fun heq => by cases heq <;> omega⟩
  refine ⟨?_, ?_, ?_, ?_, ?_, h.outer, ?_, ?_⟩
  · exact Finset.insert_subset hin h.sub
  · rw [Finset.card_insert_of_notMem hnew, ← Nat.add_assoc, ← h.avail_eq]
  · intro n hn
    rcases Finset.mem_insert.mp hn with rfl | hn
    · rw [Function.update_self, h.avail_eq]
      omega
    · rw [hnum n hn]
      have := h.range n hn
      omega
  · intro n hn m hm heq
    rcases Finset.mem_insert.mp hn with rfl | hn <;> rcases Finset.mem_insert.mp hm with rfl | hm
    · rfl
    · rw [Function.update_self, hnum m hm] at heq
      exact absurd heq.symm (Nat.ne_of_lt (hlt m hm))
    · rw [Function.update_self, hnum n hn] at heq
      exact absurd heq (Nat.ne_of_lt (hlt n hn))
    · rw [hnum n hn, hnum m hm] at heq
      exact h.inj n hn m hm heq
  · intro e q he
    rcases Finset.mem_insert.mp he with heq | he
    · cases heq
      exact hcell.mono (Finset.subset_insert _ _)
    · exact (h.closed e q he).mono (Finset.subset_insert _ _)
  · exact fun e q hleaf => ⟨(h.parent e q hleaf).1, Finset.mem_insert_of_mem (h.parent e q hleaf).2⟩
  · intro e q he
    by_cases hchild : e ≠ top ∧ (e - 1, q / 2) = (d, p)
    · -- the children of the new node are empty
      obtain ⟨het, heq⟩ := hchild
      have hclosed := h.closed e q
      have hparent := h.parent e q
      have hnot : (e, q) ∉ nodes := fun hmem => by
        have := hclosed hmem
        unfold HasCell at this
        rw [if_neg het, heq] at this
        exact hnew this.2
      have hleaf : leaf (e, q) = 0 := by
        by_contra hne
        have := hparent hne
        rw [heq] at this
        exact hnew this.2
      have hne : (e, q) ≠ (d, p) := by
        rintro ⟨⟩
        have := Prod.mk.inj heq
        unfold HasCell at he
        rw [if_neg het] at he
        omega
      have hcellne := hfresh d p hcell
      have hchild : cellOf top (update number (d, p) avail) e q = child avail (q % 2) := by
        rw [cellOf, if_neg het, heq, Function.update_self]
      rw [if_neg (by rw [Finset.mem_insert]; exact not_or.mpr ⟨hne, hnot⟩), hleaf, hchild, Arrays.get_set, if_neg]
      · unfold child
        split
        · rw [Arrays.get_set, if_pos rfl]
        · rw [Arrays.get_set, if_neg (by exact Cell.noConfusion), Arrays.get_set, if_pos rfl]
      · unfold child
        split
        · exact hcellne.2.symm
        · exact hcellne.1.symm
    · have heold : HasCell top inner nodes e q := by
        unfold HasCell at he ⊢
        split
        · rwa [if_pos (by assumption)] at he
        · rename_i het
          rw [if_neg het] at he
          refine ⟨he.1, ?_⟩
          rcases Finset.mem_insert.mp he.2 with heq | hmem
          · exact absurd ⟨het, heq⟩ hchild
          · exact hmem
      have hf := hfresh e q heold
      rw [hold e q heold, Arrays.get_set]
      by_cases heq : (e, q) = (d, p)
      · cases heq
        rw [if_pos rfl, if_pos (Finset.mem_insert_self _ _), Function.update_self]
      · rw [if_neg fun hcc => heq (Prod.ext_iff.mpr (h.cellOf_inj heold hcell hcc)), Arrays.get_set, if_neg hf.2,
          Arrays.get_set, if_neg hf.1, h.cell e q heold, Function.update_of_ne heq]
        simp only [Finset.mem_insert, heq, false_or]

/-- A leaf gets its label. -/
theorem put (h : Trie top number inner nodes first leaf a avail) {d p : Nat} (hcell : HasCell top inner nodes d p)
    (hd : d ≠ top) (hnew : (d, p) ∉ inner) (x : Nat) :
    Trie top number inner nodes first (update leaf (d, p) x) (a.set (cellOf top number d p) x) avail := by
  refine { h with outer := ?_, parent := ?_, cell := ?_ }
  · intro n hn
    rw [Function.update_of_ne (by rintro rfl; exact hnew hn)]
    exact h.outer n hn
  · intro e q hne
    by_cases heq : (e, q) = (d, p)
    · cases heq
      unfold HasCell at hcell
      rwa [if_neg hd] at hcell
    · rw [Function.update_of_ne heq] at hne
      exact h.parent e q hne
  · intro e q he
    rw [Arrays.get_set]
    by_cases heq : (e, q) = (d, p)
    · cases heq
      rw [if_pos rfl, if_neg fun hmem => hnew (h.sub hmem), Function.update_self]
    · rw [if_neg fun hcc => heq (Prod.ext_iff.mpr (h.cellOf_inj he hcell hcc)), Function.update_of_ne heq]
      exact h.cell e q he

/-- Table entries that belong to no node are free. -/
theorem of_table (h : Trie top number inner nodes first leaf a avail) {table : Nat → Nat}
    (htable : ∀ p, (top, p) ∈ inner → table p = a.table p) :
    Trie top number inner nodes first leaf { a with table := table } avail := by
  refine { h with cell := fun d p hcell => ?_ }
  rw [← h.cell d p hcell]
  unfold cellOf
  unfold HasCell at hcell
  split
  · subst d
    rw [if_pos rfl] at hcell
    exact htable p hcell
  · unfold child
    split <;> rfl

/-- Parents of inner nodes are inner nodes. -/
theorem mem_of_le (h : Trie top number inner nodes first leaf a avail) {d k p : Nat} (htop : top ≤ d)
    (hmem : (d + k, p) ∈ nodes) : (d, p / 2 ^ k) ∈ nodes := by
  induction k generalizing p with
  | zero => simpa using hmem
  | succ k ih =>
    have hcell := h.closed _ _ hmem
    unfold HasCell at hcell
    rw [if_neg (by omega)] at hcell
    have := ih (p := p / 2) hcell.2
    rwa [Nat.div_div_eq_div_mul, ← Nat.pow_succ'] at this

end Trie

end Udk.ArrayTrie
