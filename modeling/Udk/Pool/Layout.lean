import Udk.Pool.Service

/-! # What the pages of a pool hold -/

namespace Udk.Pool

def Header.index : Header → Nat
  | .poolFree index => index
  | .poolHead size _ => sizeToList size

/-- The blocks of a range, by address and class. -/
def blocksOf (r : PageRange) (index : Nat) : List (Nat × Nat) :=
  if index < maxPoolList then pageBlocks r.base index else [(r.base, index)]

def blockLimit (r : PageRange) (b : Nat × Nat) : Nat :=
  if b.2 < maxPoolList then b.1 + listToSize b.2 else r.limit

structure RangesOk (owned : List PageRange) : Prop where
  aligned : ∀ r ∈ owned, r.base % efiPageSize = 0
  pos : ∀ r ∈ owned, 0 < r.base ∧ 0 < r.pages
  limit : ∀ r ∈ owned, r.limit ≤ 2 ^ 64
  apart : ∀ r ∈ owned, ∀ r' ∈ owned, r = r' ∨ Apart r.base r.limit r'.base r'.limit

/-! ## Numbers -/

section
variable {size index page base : Nat} {b b' : Nat × Nat} {r r' : PageRange}

@[simp] theorem maxPoolList_eq : maxPoolList = 32 := rfl

theorem listToSize_eq : listToSize index = (index + 1) * 128 := rfl

theorem sizeToList_eq : sizeToList size = size / 128 := rfl

theorem PageRange.limit_eq : r.limit = r.base + r.pages * 4096 := rfl

theorem efiSizeToPages_eq : efiSizeToPages size = (size + 4095) / 4096 := by
  unfold efiSizeToPages
  split <;> simp only [efiPageSize] at * <;> omega

theorem size_lt_listToSize : size < listToSize (sizeToList size) := by
  rw [listToSize_eq, sizeToList_eq]
  omega

theorem pageSize_dvd (h : base % efiPageSize = 0) : 128 ∣ base := by
  rw [efiPageSize] at h
  omega

/-! ## The blocks of a page -/

theorem tiles_pageBlocks : Tiles blockFirst (blockLast 128) page (pageBlocks page index) (page + efiPageSize) :=
  tiles_carve (by decide) (Nat.le_add_right _ _) (by rw [Nat.add_sub_cancel_left]; decide)

theorem pageBlocks_mem (hb : b ∈ pageBlocks page index) :
    page ≤ b.1 ∧ b.1 + listToSize b.2 ≤ page + efiPageSize ∧ b.2 ≤ index := by
  have h1 := tiles_pageBlocks.mem hb
  simp only [blockFirst, blockLast, blockSize] at h1
  rw [listToSize_eq]
  exact ⟨by omega, by omega, carve_class hb⟩

theorem pageBlocks_apart (hb : b ∈ pageBlocks page index) (hb' : b' ∈ pageBlocks page index) :
    b = b' ∨ Apart b.1 (b.1 + listToSize b.2) b'.1 (b'.1 + listToSize b'.2) := by
  refine (tiles_pageBlocks.apart hb hb').imp_right fun h => ?_
  simp only [blockFirst, blockLast, blockSize] at h
  rw [listToSize_eq, listToSize_eq, Apart]
  omega

theorem pageBlocks_head (page : Nat) (h : index < maxPoolList) : ∃ rest, pageBlocks page index = (page, index) :: rest := by
  refine carve_head (by decide) ?_
  rw [maxPoolList_eq] at h
  simp only [blockSize, poolShift, efiPageSize]
  omega

/-! ## The blocks of a range -/

theorem blocksOf_page (h : index < maxPoolList) : blocksOf r index = pageBlocks r.base index := if_pos h

theorem blocksOf_mem (hb : b ∈ blocksOf r index) (hi : index < maxPoolList → r.pages = 1) (hp : 0 < r.pages) :
    r.base ≤ b.1 ∧ b.1 < blockLimit r b ∧ blockLimit r b ≤ r.limit := by
  rw [blocksOf] at hb
  rw [blockLimit, PageRange.limit_eq]
  split at hb
  · rename_i h
    obtain ⟨h1, h2, h3⟩ := pageBlocks_mem hb
    rw [if_pos (Nat.lt_of_le_of_lt h3 h), hi h]
    rw [listToSize_eq] at *
    rw [efiPageSize] at h2
    omega
  · rename_i h
    obtain rfl := List.mem_singleton.mp hb
    rw [if_neg h]
    simp only
    omega

theorem blocksOf_apart (hb : b ∈ blocksOf r index) (hb' : b' ∈ blocksOf r index) :
    b = b' ∨ Apart b.1 (blockLimit r b) b'.1 (blockLimit r b') := by
  rw [blocksOf] at hb hb'
  split at hb
  · rename_i h
    rw [if_pos h] at hb'
    rw [blockLimit, blockLimit, if_pos (Nat.lt_of_le_of_lt (pageBlocks_mem hb).2.2 h),
      if_pos (Nat.lt_of_le_of_lt (pageBlocks_mem hb').2.2 h)]
    exact pageBlocks_apart hb hb'
  · rename_i h
    rw [if_neg h] at hb'
    exact .inl ((List.mem_singleton.mp hb).trans (List.mem_singleton.mp hb').symm)

theorem blocksOf_dvd (hb : b ∈ blocksOf r index) (hr : r.base % efiPageSize = 0) : 128 ∣ b.1 := by
  rw [blocksOf] at hb
  split at hb
  · exact carve_dvd (pageSize_dvd hr) hb
  · obtain rfl := List.mem_singleton.mp hb
    exact pageSize_dvd hr

end

/-! ## Ranges -/

namespace RangesOk
variable {owned : List PageRange} {r : PageRange}

theorem cons (h : RangesOk owned) (ha : r.base % efiPageSize = 0) (hp : 0 < r.base ∧ 0 < r.pages)
    (hl : r.limit ≤ 2 ^ 64) (hf : ∀ r' ∈ owned, Apart r.base r.limit r'.base r'.limit) : RangesOk (r :: owned) where
  aligned := List.forall_mem_cons.mpr ⟨ha, h.aligned⟩
  pos := List.forall_mem_cons.mpr ⟨hp, h.pos⟩
  limit := List.forall_mem_cons.mpr ⟨hl, h.limit⟩
  apart := by
    refine List.forall_mem_cons.mpr ⟨List.forall_mem_cons.mpr ⟨.inl rfl, fun r' h' => .inr (hf r' h')⟩, ?_⟩
    exact fun r' h' => List.forall_mem_cons.mpr ⟨.inr (hf r' h').symm, h.apart r' h'⟩

theorem subset {owned' : List PageRange} (h : RangesOk owned) (hs : ∀ r ∈ owned', r ∈ owned) : RangesOk owned' where
  aligned r hr := h.aligned r (hs r hr)
  pos r hr := h.pos r (hs r hr)
  limit r hr := h.limit r (hs r hr)
  apart r hr r' hr' := h.apart r (hs r hr) r' (hs r' hr')

/-- Taking out a whole range leaves the others. -/
theorem without (h : RangesOk owned) (hr : r ∈ owned) :
    owned.flatMap (·.without r.base r.limit) = owned.filter (· ≠ r) := by
  have hone : ∀ r' ∈ owned, r'.without r.base r.limit = if r' = r then [] else [r'] := by
    intro r' hr'
    have hp := (h.pos r' hr').2
    have hp' := (h.pos r hr).2
    have hl := r.limit_eq
    have hl' := r'.limit_eq
    rw [PageRange.without, efiPageSize]
    rcases h.apart r' hr' r hr with rfl | ha
    · have h1 : (min r'.limit r'.base - r'.base) / 4096 = 0 := by omega
      have h2 : (r'.limit - max r'.base r'.limit) / 4096 = 0 := by omega
      rw [h1, h2, if_pos rfl]
      rfl
    · rw [if_neg (by rintro rfl; rcases ha with ha | ha <;> omega)]
      rcases ha with ha | ha
      · have h1 : (min r'.limit r.base - r'.base) / 4096 = r'.pages := by omega
        have h2 : (r'.limit - max r'.base r.limit) / 4096 = 0 := by omega
        rw [h1, h2]
        simp [Nat.ne_of_gt hp]
      · have h1 : (min r'.limit r.base - r'.base) / 4096 = 0 := by omega
        have h2 : (r'.limit - max r'.base r.limit) / 4096 = r'.pages := by omega
        have h3 : max r'.base r.limit = r'.base := by omega
        rw [h1, h2, h3]
        simp [Nat.ne_of_gt hp]
  rw [List.flatMap_congr hone]
  clear hone h hr
  induction owned with
  | nil => rfl
  | cons r' owned ih =>
    rw [List.flatMap_cons, List.filter_cons, ih]
    by_cases hr : r' = r <;> simp [hr]

end RangesOk

end Udk.Pool
