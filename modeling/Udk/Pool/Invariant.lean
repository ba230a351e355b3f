import Udk.Pool.Layout

/-! # The invariant of the pools -/

namespace Udk.Pool

def FreeBlock (s : State) (type : MemoryType) (b : Nat × Nat) : Prop :=
  s.memory b.1 = some (.poolFree b.2) ∧ b.1 ∈ (s.mPoolHead type).freeList b.2

def LiveBlock (s : State) (type : MemoryType) (b : Nat × Nat) : Prop :=
  ∃ l ∈ s.live, l.head = b.1 ∧ l.type = type ∧ sizeToList l.size = b.2

/-- The header at the start of a range says how the range is cut, and every block of it is free or handed out. -/
structure RangeOk (s : State) (r : PageRange) (h : Header) : Prop where
  header : s.memory r.base = some h
  page : h.index < maxPoolList → r.pages = 1
  large : maxPoolList ≤ h.index → ∃ size type, h = .poolHead size type ∧ r.pages = efiSizeToPages size
  blocks : ∀ b ∈ blocksOf r h.index, FreeBlock s r.type b ∨ LiveBlock s r.type b

/-- A block of a range of the type. -/
def IsBlock (s : State) (r : PageRange) (b : Nat × Nat) : Prop :=
  r ∈ s.owned ∧ ∃ h, s.memory r.base = some h ∧ b ∈ blocksOf r h.index

structure LiveOk (s : State) (l : Block) : Prop where
  header : s.memory l.head = some (.poolHead l.size l.type)
  tail : s.tails (l.head + l.size - sizeOfPoolTail) = some l.size
  overhead : poolOverhead ≤ l.size
  small : l.size < 2 ^ 32
  block : ∃ r, IsBlock s r (l.head, sizeToList l.size) ∧ r.type = l.type

def liveSize (live : List Block) (type : MemoryType) : Nat :=
  ((live.filter (·.type = type)).map Block.size).sum

def State.hasPool (s : State) (type : MemoryType) : Prop :=
  0 ≤ type ∧ type < efiMaxMemoryType ∨ type < 0 ∧ type ∈ s.mPoolHeadList.map Prod.fst

/-- Everything but the accounts. -/
structure Shape (s : State) : Prop where
  ranges : RangesOk s.owned
  tiled : ∀ r ∈ s.owned, ∃ h, RangeOk s r h
  live : ∀ l ∈ s.live, LiveOk s l
  heads : (s.live.map Block.head).Nodup
  listed : ∀ t i a, a ∈ (s.mPoolHead t).freeList i →
    s.memory a = some (.poolFree i) ∧ ∃ r, IsBlock s r (a, i) ∧ r.type = t
  nodup : ∀ t i, ((s.mPoolHead t).freeList i).Nodup
  pools : ∀ p ∈ s.mPoolHeadList, p.1 < 0 ∧ ∃ l ∈ s.live, p.2 = l.head + sizeOfPoolHead ∧ l.type = efiBootServicesData ∧
    sizeOfPool + poolOverhead ≤ l.size
  poolTypes : (s.mPoolHeadList.map Prod.fst).Nodup
  poolAddresses : (s.mPoolHeadList.map Prod.snd).Nodup
  types : ∀ l ∈ s.live, s.hasPool l.type

structure Inv (s : State) : Prop extends Shape s where
  used : ∀ t, (s.mPoolHead t).used = liveSize s.live t

theorem IsBlock.transfer {s s' : State} {r : PageRange} {b : Nat × Nat} (hb : IsBlock s r b) (hr : r ∈ s'.owned)
    (hm : ∀ hd, s.memory r.base = some hd → ∃ hd', s'.memory r.base = some hd' ∧ hd'.index = hd.index) :
    IsBlock s' r b := by
  obtain ⟨-, hd, hd1, hb⟩ := hb
  obtain ⟨hd', hd2, hi⟩ := hm hd hd1
  exact ⟨hr, hd', hd2, hi ▸ hb⟩

/-- No page is kept without a block that is handed out. -/
def Busy (s : State) : Prop := ∀ r ∈ s.owned, ∃ l ∈ s.live, r.base ≤ l.head ∧ l.head < r.limit

/-! ## Blocks -/

section
variable {s : State} {r r' : PageRange} {b b' : Nat × Nat} {l l' : Block}

namespace Shape

theorem isBlock_mem (h : Shape s) (hb : IsBlock s r b) : r.base ≤ b.1 ∧ b.1 < blockLimit r b ∧ blockLimit r b ≤ r.limit := by
  obtain ⟨hr, hd, hm, hb⟩ := hb
  obtain ⟨hd', ok⟩ := h.tiled r hr
  obtain rfl := Option.some.inj (hm.symm.trans ok.header)
  exact blocksOf_mem hb ok.page (h.ranges.pos r hr).2

/-- Two blocks are the same or lie apart. -/
theorem isBlock_apart (h : Shape s) (hb : IsBlock s r b) (hb' : IsBlock s r' b') :
    (r = r' ∧ b = b') ∨ Apart b.1 (blockLimit r b) b'.1 (blockLimit r' b') := by
  have h1 := h.isBlock_mem hb
  have h2 := h.isBlock_mem hb'
  obtain ⟨hr, hd, hm, hb⟩ := hb
  obtain ⟨hr', hd', hm', hb'⟩ := hb'
  rcases h.ranges.apart r hr r' hr' with rfl | ha
  · obtain rfl := Option.some.inj (hm.symm.trans hm')
    exact (blocksOf_apart hb hb').imp_left fun e => ⟨rfl, e⟩
  · right
    rcases ha with ha | ha
    · exact .inl (by omega)
    · exact .inr (by omega)

theorem isBlock_eq (h : Shape s) (hb : IsBlock s r b) (hb' : IsBlock s r' b') (he : b.1 = b'.1) : r = r' ∧ b = b' := by
  rcases h.isBlock_apart hb hb' with h1 | h1
  · exact h1
  · have h2 := h.isBlock_mem hb
    have h3 := h.isBlock_mem hb'
    rcases h1 with h1 | h1 <;> omega

/-- A block of the classes that have no list is a range of its own. -/
theorem isBlock_large (h : Shape s) (hb : IsBlock s r b) (hi : maxPoolList ≤ b.2) :
    b.1 = r.base ∧ ∃ size type, s.memory r.base = some (.poolHead size type) ∧ r.pages = efiSizeToPages size := by
  obtain ⟨hr, hd, hm, hb⟩ := hb
  obtain ⟨hd', ok⟩ := h.tiled r hr
  obtain rfl := Option.some.inj (hm.symm.trans ok.header)
  rw [blocksOf] at hb
  split at hb
  · rename_i h1
    exact absurd (Nat.lt_of_le_of_lt (pageBlocks_mem hb).2.2 h1) (Nat.not_lt.mpr hi)
  · rename_i h1
    obtain ⟨size, type, rfl, hp⟩ := ok.large (Nat.le_of_not_lt h1)
    obtain rfl := List.mem_singleton.mp hb
    exact ⟨rfl, size, type, hm, hp⟩

theorem listed_small (h : Shape s) {t : MemoryType} {i a : Nat} (ha : a ∈ (s.mPoolHead t).freeList i) :
    i < maxPoolList := by
  obtain ⟨hm, r, hb, -⟩ := h.listed t i a ha
  refine Nat.lt_of_not_le fun hi => ?_
  obtain ⟨he, size, type, hm', -⟩ := h.isBlock_large hb hi
  rw [← he] at hm'
  cases hm.symm.trans hm'

theorem live_eq (h : Shape s) (hl : l ∈ s.live) (hl' : l' ∈ s.live) (he : l.head = l'.head) : l = l' :=
  List.inj_on_of_nodup_map h.heads hl hl' he

/-- A block that is handed out has room for its size. -/
theorem live_fits (h : Shape s) (hl : l ∈ s.live) (hb : IsBlock s r (l.head, sizeToList l.size)) :
    l.head + l.size ≤ blockLimit r (l.head, sizeToList l.size) := by
  rw [blockLimit]
  have hsize := @size_lt_listToSize l.size
  split
  · simp only
    omega
  · rename_i hi
    obtain ⟨he, size, type, hm, hp⟩ := h.isBlock_large hb (Nat.le_of_not_lt hi)
    simp only at he ⊢
    have h2 := (h.live l hl).header
    rw [he, hm] at h2
    obtain ⟨rfl, -⟩ := Header.poolHead.inj (Option.some.inj h2)
    rw [PageRange.limit_eq, hp, efiSizeToPages_eq]
    omega

theorem live_range (h : Shape s) (hl : l ∈ s.live) :
    ∃ r ∈ s.owned, r.type = l.type ∧ r.base ≤ l.head ∧ l.head + l.size ≤ r.limit := by
  obtain ⟨r, hb, ht⟩ := (h.live l hl).block
  have h1 := h.isBlock_mem hb
  have h2 := h.live_fits hl hb
  simp only at h1
  exact ⟨r, hb.1, ht, h1.1, by omega⟩

theorem live_apart (h : Shape s) (hl : l ∈ s.live) (hl' : l' ∈ s.live) (hne : l ≠ l') :
    Apart l.head (l.head + l.size) l'.head (l'.head + l'.size) := by
  obtain ⟨r, hb, -⟩ := (h.live l hl).block
  obtain ⟨r', hb', -⟩ := (h.live l' hl').block
  have h1 := h.live_fits hl hb
  have h2 := h.live_fits hl' hb'
  rcases h.isBlock_apart hb hb' with ⟨-, he⟩ | ha
  · exact absurd (h.live_eq hl hl' (congrArg Prod.fst he)) hne
  · simp only at ha
    rcases ha with ha | ha
    · exact .inl (by omega)
    · exact .inr (by omega)

theorem liveSize_lt (h : Shape s) (t : MemoryType) : liveSize s.live t < 2 ^ 64 := by
  have hfit : ∀ l ∈ s.live, 0 < l.head ∧ l.head + l.size ≤ 2 ^ 64 := by
    intro l hl
    obtain ⟨r, hr, -, h1, h2⟩ := h.live_range hl
    have h3 := (h.ranges.pos r hr).1
    have h4 := h.ranges.limit r hr
    omega
  have hsum : (((s.live.filter (·.type = t)).map fun l => (l.head - 1, l.size)).map Prod.snd).sum ≤ 2 ^ 64 - 1 := by
    refine sum_le_of_apart ?_ ?_
    · rw [List.forall_mem_map]
      intro l hl
      have := hfit l (List.mem_of_mem_filter hl)
      simp only
      omega
    · rw [List.pairwise_map]
      refine List.Pairwise.imp_of_mem ?_ (List.Pairwise.filter _ (List.Nodup.of_map _ h.heads))
      intro l l' hl hl' hne
      have h1 := hfit l (List.mem_of_mem_filter hl)
      have h2 := hfit l' (List.mem_of_mem_filter hl')
      rcases h.live_apart (List.mem_of_mem_filter hl) (List.mem_of_mem_filter hl') hne with ha | ha
      · exact .inl (by simp only; omega)
      · exact .inr (by simp only; omega)
  rw [List.map_map] at hsum
  rw [liveSize]
  exact Nat.lt_of_le_of_lt hsum (by decide)

end Shape

end

end Udk.Pool
