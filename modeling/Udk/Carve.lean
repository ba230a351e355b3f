import Udk.Tiling
import Mathlib.Order.Interval.Finset.Nat

/-! # Carving a region into blocks

Blocks come in classes: a block of class `i` takes `i + 1` units. A region is carved into as many blocks of one
class as fit, and what is left into blocks of the next smaller class, and so on.
-/

namespace Udk

section
variable (unit total : Nat)

def blockSize (index : Nat) : Nat := (index + 1) * unit

/-- The blocks of one class, by offset and class. -/
def blocksFrom (index : Nat) : Nat → Nat → List (Nat × Nat)
  | _, 0 => []
  | offset, n + 1 => (offset, index) :: blocksFrom index (offset + blockSize unit index) n

/-- How many blocks of a class fit. -/
def blockCount (index offset : Nat) : Nat := (total - offset) / blockSize unit index

def carve : Nat → Nat → List (Nat × Nat)
  | 0, offset => blocksFrom unit 0 offset (blockCount unit total 0 offset)
  | index + 1, offset =>
    let n := blockCount unit total (index + 1) offset
    blocksFrom unit (index + 1) offset n ++
      if offset + n * blockSize unit (index + 1) < total then
        carve index (offset + n * blockSize unit (index + 1))
      else []

def blockFirst (b : Nat × Nat) : Nat := b.1

def blockLast (b : Nat × Nat) : Nat := b.1 + blockSize unit b.2 - 1

end

section
variable {unit total index offset : Nat}

theorem blockSize_pos (index : Nat) (h : 0 < unit) : 0 < blockSize unit index := Nat.mul_pos (Nat.succ_pos _) h

theorem tiles_blocksFrom (h : 0 < unit) (index offset n : Nat) :
    Tiles blockFirst (blockLast unit) offset (blocksFrom unit index offset n) (offset + n * blockSize unit index) := by
  have hpos := blockSize_pos index h
  induction n generalizing offset with
  | zero => simp [blocksFrom, Tiles]
  | succ n ih =>
    have h2 : blockLast unit (offset, index) + 1 = offset + blockSize unit index := by
      simp only [blockLast]
      omega
    refine ⟨rfl, ?_, ?_⟩
    · show offset ≤ blockLast unit (offset, index)
      omega
    · have h1 := ih (offset + blockSize unit index)
      have h3 : offset + (n + 1) * blockSize unit index = offset + blockSize unit index + n * blockSize unit index := by
        rw [Nat.succ_mul]
        omega
      rw [h2, h3]
      exact h1

/-- The blocks take the whole region. -/
theorem tiles_carve (h : 0 < unit) (hle : offset ≤ total) (hd : unit ∣ total - offset) :
    Tiles blockFirst (blockLast unit) offset (carve unit total index offset) total := by
  have hfit : ∀ i o, o ≤ total → o + blockCount unit total i o * blockSize unit i ≤ total := by
    intro i o ho
    have := Nat.div_mul_le_self (total - o) (blockSize unit i)
    rw [blockCount]
    omega
  induction index generalizing offset with
  | zero =>
    have h1 := tiles_blocksFrom h 0 offset (blockCount unit total 0 offset)
    have h2 : blockCount unit total 0 offset * blockSize unit 0 = total - offset := by
      have hu : blockSize unit 0 = unit := by simp [blockSize]
      rw [blockCount, hu]
      exact Nat.div_mul_cancel hd
    rw [h2, Nat.add_sub_cancel' hle] at h1
    exact h1
  | succ index ih =>
    have h1 := tiles_blocksFrom h (index + 1) offset (blockCount unit total (index + 1) offset)
    have h2 := hfit (index + 1) offset hle
    refine h1.append ?_
    split
    · refine ih h2 ?_
      rw [Nat.sub_add_eq]
      refine Nat.dvd_sub hd ?_
      exact Nat.dvd_mul_left_of_dvd (Nat.dvd_mul_left _ _) _
    · exact Nat.le_antisymm h2 (by omega)

theorem blocksFrom_class {n : Nat} {b : Nat × Nat} (hb : b ∈ blocksFrom unit index offset n) : b.2 = index := by
  induction n generalizing offset with
  | zero => cases hb
  | succ n ih =>
    rcases List.mem_cons.mp hb with rfl | hb
    · rfl
    · exact ih hb

theorem carve_class {b : Nat × Nat} (hb : b ∈ carve unit total index offset) : b.2 ≤ index := by
  induction index generalizing offset with
  | zero => exact Nat.le_of_eq (blocksFrom_class hb)
  | succ index ih =>
    rcases List.mem_append.mp hb with hb | hb
    · exact Nat.le_of_eq (blocksFrom_class hb)
    · split at hb
      · exact Nat.le_succ_of_le (ih hb)
      · cases hb

theorem blocksFrom_dvd {n : Nat} {b : Nat × Nat} (ho : unit ∣ offset) (hb : b ∈ blocksFrom unit index offset n) :
    unit ∣ b.1 := by
  induction n generalizing offset with
  | zero => cases hb
  | succ n ih =>
    rcases List.mem_cons.mp hb with rfl | hb
    · exact ho
    · exact ih (Nat.dvd_add ho (Nat.dvd_mul_left _ _)) hb

theorem carve_dvd {b : Nat × Nat} (ho : unit ∣ offset) (hb : b ∈ carve unit total index offset) : unit ∣ b.1 := by
  induction index generalizing offset with
  | zero => exact blocksFrom_dvd ho hb
  | succ index ih =>
    rcases List.mem_append.mp hb with hb | hb
    · exact blocksFrom_dvd ho hb
    · split at hb
      · exact ih (Nat.dvd_add ho (Nat.dvd_mul_left_of_dvd (Nat.dvd_mul_left _ _) _)) hb
      · cases hb

/-- The first block is one of the class that was asked for. -/
theorem carve_head (h : 0 < unit) (hf : offset + blockSize unit index ≤ total) :
    ∃ rest, carve unit total index offset = (offset, index) :: rest := by
  have hn : 0 < blockCount unit total index offset := by
    rw [blockCount]
    exact Nat.div_pos (by omega) (blockSize_pos index h)
  obtain ⟨n, hn⟩ := Nat.exists_eq_succ_of_ne_zero (Nat.ne_of_gt hn)
  cases index with
  | zero => exact ⟨_, by rw [carve, hn]; rfl⟩
  | succ index => exact ⟨_, by rw [carve, hn]; rfl⟩

end

/-! ## Blocks that lie apart -/

def Apart (lo hi lo' hi' : Nat) : Prop := hi ≤ lo' ∨ hi' ≤ lo

/-- Blocks that lie apart have room for their sizes. -/
theorem sum_le_of_apart {bs : List (Nat × Nat)} {limit : Nat} (hl : ∀ b ∈ bs, b.1 + b.2 ≤ limit)
    (ha : bs.Pairwise fun b b' => Apart b.1 (b.1 + b.2) b'.1 (b'.1 + b'.2)) : (bs.map Prod.snd).sum ≤ limit := by
  have hs : ∃ S : Finset Nat, S.card = (bs.map Prod.snd).sum ∧ S ⊆ Finset.range limit ∧
      ∀ x, x ∈ S ↔ ∃ b ∈ bs, b.1 ≤ x ∧ x < b.1 + b.2 := by
    induction bs with
    | nil => exact ⟨∅, by simp⟩
    | cons b bs ih =>
      rw [List.pairwise_cons] at ha
      rw [List.forall_mem_cons] at hl
      obtain ⟨S, hcard, hsub, hmem⟩ := ih hl.2 ha.2
      have hd : Disjoint (Finset.Ico b.1 (b.1 + b.2)) S := by
        rw [Finset.disjoint_left]
        intro x hx hx'
        rw [Finset.mem_Ico] at hx
        obtain ⟨b', hb', h1, h2⟩ := (hmem x).mp hx'
        rcases ha.1 b' hb' with h | h <;> omega
      refine ⟨Finset.Ico b.1 (b.1 + b.2) ∪ S, ?_, ?_, ?_⟩
      · rw [Finset.card_union_of_disjoint hd, hcard, Nat.card_Ico, List.map_cons, List.sum_cons]
        omega
      · refine Finset.union_subset (fun x hx => ?_) hsub
        rw [Finset.mem_Ico] at hx
        rw [Finset.mem_range]
        omega
      · intro x
        rw [Finset.mem_union, Finset.mem_Ico, hmem]
        simp
  obtain ⟨S, hcard, hsub, -⟩ := hs
  rw [← hcard, ← Finset.card_range limit]
  exact Finset.card_le_card hsub

end Udk
