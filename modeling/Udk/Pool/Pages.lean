import Udk.Pool.Taking

/-! # New pages -/

namespace Udk.Pool

/-! ## Free blocks in a row -/

section
variable {s : State} {type t : MemoryType} {b : Nat × Nat} {bs : List (Nat × Nat)} {a i : Nat}

theorem insertFree_memory :
    (insertFree type s b).memory a = if a = b.1 then some (.poolFree b.2) else s.memory a := rfl

theorem insertFree_freeList :
    ((insertFree type s b).mPoolHead t).freeList i =
      if t = type ∧ i = b.2 then b.1 :: (s.mPoolHead type).freeList b.2 else (s.mPoolHead t).freeList i :=
  setFreeList_freeList

theorem insertFree_used : ((insertFree type s b).mPoolHead t).used = (s.mPoolHead t).used := setFreeList_used

theorem insertFrees_rest :
    (bs.foldl (insertFree type) s).owned = s.owned ∧ (bs.foldl (insertFree type) s).live = s.live ∧
      (bs.foldl (insertFree type) s).tails = s.tails ∧
      (bs.foldl (insertFree type) s).mPoolHeadList = s.mPoolHeadList := by
  induction bs generalizing s with
  | nil => exact ⟨rfl, rfl, rfl, rfl⟩
  | cons b bs ih => exact ih

theorem insertFrees_used : ((bs.foldl (insertFree type) s).mPoolHead t).used = (s.mPoolHead t).used := by
  induction bs generalizing s with
  | nil => rfl
  | cons b bs ih => exact ih.trans insertFree_used

theorem insertFrees_memory_of_notMem (h : a ∉ bs.map Prod.fst) :
    (bs.foldl (insertFree type) s).memory a = s.memory a := by
  induction bs generalizing s with
  | nil => rfl
  | cons b bs ih =>
    rw [List.map_cons, List.mem_cons, not_or] at h
    rw [List.foldl_cons, ih h.2, insertFree_memory, if_neg h.1]

theorem insertFrees_memory (hn : (bs.map Prod.fst).Nodup) (hb : b ∈ bs) :
    (bs.foldl (insertFree type) s).memory b.1 = some (.poolFree b.2) := by
  induction bs generalizing s with
  | nil => cases hb
  | cons b' bs ih =>
    rw [List.map_cons, List.nodup_cons] at hn
    rcases List.mem_cons.mp hb with rfl | hb
    · rw [List.foldl_cons, insertFrees_memory_of_notMem hn.1, insertFree_memory, if_pos rfl]
    · exact ih hn.2 hb

theorem insertFrees_freeList :
    ((bs.foldl (insertFree type) s).mPoolHead t).freeList i =
      (if t = type then ((bs.filter (·.2 = i)).map Prod.fst).reverse else []) ++ (s.mPoolHead t).freeList i := by
  induction bs generalizing s with
  | nil => simp
  | cons b bs ih =>
    rw [List.foldl_cons, ih, insertFree_freeList, List.filter_cons]
    by_cases ht : t = type
    · by_cases hi : i = b.2
      · simp [ht, hi]
      · simp [ht, hi, Ne.symm hi]
    · simp [ht]

end

/-! ## A new range -/

/-- What a new range changes outside of itself. -/
structure Extended (s s' : State) (r₀ : PageRange) : Prop where
  owned : s'.owned = r₀ :: s.owned
  ranges : RangesOk s'.owned
  apart : ∀ r ∈ s.owned, Apart r₀.base r₀.limit r.base r.limit
  memory : ∀ a, a < r₀.base ∨ r₀.limit ≤ a → s'.memory a = s.memory a
  tails : ∀ a, a < r₀.base ∨ r₀.limit ≤ a → s'.tails a = s.tails a
  live : ∀ l ∈ s.live, l ∈ s'.live
  free : ∀ t i a, a ∈ (s.mPoolHead t).freeList i → a ∈ (s'.mPoolHead t).freeList i

theorem RangesOk.extend {s : State} {start pages : Nat} (h : RangesOk s.owned) (type : MemoryType)
    (hok : s.mayFind pages start) :
    RangesOk (⟨start, pages, type⟩ :: s.owned) ∧
      ∀ r ∈ s.owned, Apart start (start + pages * efiPageSize) r.base r.limit := by
  obtain ⟨h1, h2, h3, h4, h5⟩ := hok
  have ha : ∀ r ∈ s.owned, Apart start (start + pages * efiPageSize) r.base r.limit := fun r hr => (h5 r hr).symm
  exact ⟨h.cons h2 ⟨Nat.pos_of_ne_zero h1, Nat.pos_of_ne_zero h3⟩ h4 ha, ha⟩

namespace Extended
variable {s s' : State} {r₀ r : PageRange} {b : Nat × Nat} {l : Block}

theorem outside (c : Extended s s' r₀) {a : Nat} (hr : r ∈ s.owned) (h1 : r.base ≤ a) (h2 : a < r.limit) :
    a < r₀.base ∨ r₀.limit ≤ a := by
  rcases c.apart r hr with h | h
  · exact .inr (by omega)
  · exact .inl (by omega)

theorem header (c : Extended s s' r₀) (h : Shape s) (hr : r ∈ s.owned) : s'.memory r.base = s.memory r.base := by
  refine c.memory _ (c.outside hr (Nat.le_refl _) ?_)
  have := (h.ranges.pos r hr).2
  rw [r.limit_eq]
  omega

theorem isBlock (c : Extended s s' r₀) (h : Shape s) (hb : IsBlock s r b) : IsBlock s' r b := by
  refine hb.transfer (c.owned ▸ List.mem_cons_of_mem _ hb.1) fun hd hm => ⟨hd, ?_, rfl⟩
  rw [c.header h hb.1]
  exact hm

theorem block_memory (c : Extended s s' r₀) (h : Shape s) (hb : IsBlock s r b) : s'.memory b.1 = s.memory b.1 := by
  have h1 := h.isBlock_mem hb
  exact c.memory _ (c.outside hb.1 h1.1 (Nat.lt_of_lt_of_le h1.2.1 h1.2.2))

theorem rangeOk (c : Extended s s' r₀) (h : Shape s) (hr : r ∈ s.owned) {hd : Header} (ok : RangeOk s r hd) :
    RangeOk s' r hd := by
  refine ⟨(c.header h hr).trans ok.header, ok.page, ok.large, fun b hb => ?_⟩
  refine (ok.blocks b hb).imp (fun hf => ⟨?_, c.free _ _ _ hf.2⟩) fun ⟨l, hl, h1⟩ => ⟨l, c.live l hl, h1⟩
  rw [c.block_memory h ⟨hr, hd, ok.header, hb⟩]
  exact hf.1

theorem liveOk (c : Extended s s' r₀) (h : Shape s) (hl : l ∈ s.live) : LiveOk s' l := by
  have ok := h.live l hl
  obtain ⟨r, hb, hr⟩ := ok.block
  refine ⟨?_, ?_, ok.overhead, ok.small, r, c.isBlock h hb, hr⟩
  · exact (c.block_memory h hb).trans ok.header
  · have h1 := h.isBlock_mem hb
    have h2 := h.live_fits hl hb
    have h3 := ok.overhead
    simp only [poolOverhead, sizeOfPoolHead, sizeOfPoolTail] at *
    rw [c.tails _ (c.outside hb.1 (by omega) (by omega))]
    exact ok.tail

theorem listed (c : Extended s s' r₀) (h : Shape s) {t : MemoryType} {i a : Nat}
    (ha : a ∈ (s.mPoolHead t).freeList i) :
    s'.memory a = some (.poolFree i) ∧ ∃ r, IsBlock s' r (a, i) ∧ r.type = t := by
  obtain ⟨hm, r, hb, hr⟩ := h.listed t i a ha
  exact ⟨(c.block_memory h hb).trans hm, r, c.isBlock h hb, hr⟩

/-- A block of a range is not in the new one. -/
theorem block_ne (c : Extended s s' r₀) (h : Shape s) (hb : IsBlock s r b) : b.1 < r₀.base ∨ r₀.limit ≤ b.1 := by
  have h1 := h.isBlock_mem hb
  exact c.outside hb.1 h1.1 (Nat.lt_of_lt_of_le h1.2.1 h1.2.2)

end Extended

/-! ## Carving -/

section
variable {s : State} {type : MemoryType} {page index : Nat}

def carved (s : State) (type : MemoryType) (index page : Nat) : State :=
  (pageBlocks page index).foldl (insertFree type) { s with owned := ⟨page, 1, type⟩ :: s.owned }

theorem pageBlocks_nodup : ((pageBlocks page index).map Prod.fst).Nodup := tiles_pageBlocks.nodup

theorem mem_pageBlocks_outside {b : Nat × Nat} (hb : b ∈ pageBlocks page index) :
    page ≤ b.1 ∧ b.1 < page + efiPageSize := by
  have h1 := pageBlocks_mem hb
  rw [listToSize_eq] at h1
  exact ⟨h1.1, by omega⟩

theorem carved_extended (type : MemoryType) (index : Nat) (h : Shape s) (hok : s.mayFind 1 page) :
    Extended s (carved s type index page) ⟨page, 1, type⟩ := by
  obtain ⟨h1, h2⟩ := h.ranges.extend type hok
  obtain ⟨e1, e2, e3, -⟩ := @insertFrees_rest { s with owned := ⟨page, 1, type⟩ :: s.owned } type (pageBlocks page index)
  refine ⟨e1, e1 ▸ h1, h2, fun a ha => ?_, fun a _ => by rw [carved, e3], fun l hl => ?_, fun t i a ha => ?_⟩
  · refine insertFrees_memory_of_notMem fun hm => ?_
    obtain ⟨b, hb, rfl⟩ := List.mem_map.mp hm
    have h3 := mem_pageBlocks_outside hb
    rw [PageRange.limit_eq] at ha
    simp only [efiPageSize] at *
    omega
  · rw [carved, e2]
    exact hl
  · rw [carved, insertFrees_freeList]
    exact List.mem_append_right _ ha

theorem carved_shape (type : MemoryType) (h : Shape s) (hi : index < maxPoolList)
    (hok : s.mayFind 1 page) : Shape (carved s type index page) := by
  have c := carved_extended type index h hok
  obtain ⟨e1, e2, e3, e4⟩ := @insertFrees_rest { s with owned := ⟨page, 1, type⟩ :: s.owned } type (pageBlocks page index)
  obtain ⟨rest, hhead⟩ := pageBlocks_head page hi
  have hmem : ∀ b ∈ pageBlocks page index, (carved s type index page).memory b.1 = some (.poolFree b.2) :=
    fun b hb => insertFrees_memory pageBlocks_nodup hb
  have hhdr : (carved s type index page).memory page = some (.poolFree index) :=
    hmem (page, index) (by simp [hhead])
  have hnew : ∀ b ∈ pageBlocks page index, IsBlock (carved s type index page) ⟨page, 1, type⟩ b := by
    refine fun b hb => ⟨c.owned ▸ List.mem_cons_self, _, hhdr, ?_⟩
    exact (blocksOf_page hi).symm ▸ hb
  have hlist : ∀ t i a, a ∈ ((carved s type index page).mPoolHead t).freeList i ↔
      (t = type ∧ (a, i) ∈ pageBlocks page index) ∨ a ∈ (s.mPoolHead t).freeList i := by
    intro t i a
    rw [carved, insertFrees_freeList, List.mem_append]
    refine or_congr_left ?_
    split
    · rename_i ht
      simp [ht]
    · rename_i ht
      simp [ht]
  refine { ranges := c.ranges, tiled := ?_, live := ?_, heads := ?_, listed := ?_, nodup := ?_, pools := ?_,
           poolTypes := ?_, poolAddresses := ?_, types := ?_ }
  · rw [c.owned]
    refine List.forall_mem_cons.mpr ⟨⟨_, hhdr, fun _ => rfl, fun hge => absurd hi (Nat.not_lt.mpr hge), ?_⟩, ?_⟩
    · intro b hb
      replace hb := (blocksOf_page hi).subst hb
      exact .inl ⟨hmem b hb, (hlist _ _ _).mpr (.inl ⟨rfl, hb⟩)⟩
    · intro r hr
      obtain ⟨hd, ok⟩ := h.tiled r hr
      exact ⟨hd, c.rangeOk h hr ok⟩
  · rw [carved, e2]
    exact fun l hl => c.liveOk h hl
  · rw [carved, e2]
    exact h.heads
  · intro t i a ha
    rcases (hlist t i a).mp ha with ⟨ht, hb⟩ | ha
    · exact ⟨hmem _ hb, _, hnew _ hb, ht.symm⟩
    · exact c.listed h ha
  · intro t i
    rw [carved, insertFrees_freeList]
    split
    · rename_i ht
      refine List.Nodup.append ?_ (h.nodup t i) ?_
      · rw [List.nodup_reverse]
        exact List.Nodup.sublist (List.Sublist.map _ List.filter_sublist) pageBlocks_nodup
      · intro a ha ha'
        rw [List.mem_reverse, List.mem_map] at ha
        obtain ⟨b, hb, rfl⟩ := ha
        have h1 := mem_pageBlocks_outside (List.mem_of_mem_filter hb)
        obtain ⟨-, r, hb', -⟩ := h.listed t i _ ha'
        have h2 := c.block_ne h hb'
        rw [PageRange.limit_eq] at h2
        simp only [efiPageSize] at *
        omega
    · exact h.nodup t i
  · rw [carved, e2, e4]
    exact h.pools
  · rw [carved, e4]
    exact h.poolTypes
  · rw [carved, e4]
    exact h.poolAddresses
  · rw [carved, e2]
    intro l hl
    rw [State.hasPool, e4]
    exact h.types l hl

/-- The list that was empty now starts with a block of the page. -/
theorem carved_list (page : Nat) (hl : (s.mPoolHead type).freeList index = []) (hi : index < maxPoolList) :
    ∃ head rest, ((carved s type index page).mPoolHead type).freeList index = head :: rest ∧
      (head, index) ∈ pageBlocks page index := by
  obtain ⟨tail, hhead⟩ := pageBlocks_head page hi
  have he : ((carved s type index page).mPoolHead type).freeList index =
      (((pageBlocks page index).filter (·.2 = index)).map Prod.fst).reverse := by
    rw [carved, insertFrees_freeList, if_pos rfl]
    show _ ++ (s.mPoolHead type).freeList index = _
    rw [hl, List.append_nil]
  have hne : (((pageBlocks page index).filter (·.2 = index)).map Prod.fst).reverse ≠ [] := by
    rw [hhead]
    simp
  obtain ⟨head, rest, hlist⟩ := List.exists_cons_of_ne_nil hne
  refine ⟨head, rest, he.trans hlist, ?_⟩
  have hmem : head ∈ (((pageBlocks page index).filter (·.2 = index)).map Prod.fst).reverse := by simp [hlist]
  rw [List.mem_reverse, List.mem_map] at hmem
  obtain ⟨⟨a, i⟩, hb, rfl⟩ := hmem
  obtain ⟨hb, hbi⟩ := List.mem_filter.mp hb
  obtain rfl : i = index := of_decide_eq_true hbi
  exact hb

end

/-! ## Pages for one block -/

section
variable {s : State} {type : MemoryType} {size start : Nat}

theorem size_le_limit : start + size ≤ start + efiSizeToPages size * efiPageSize := by
  rw [efiSizeToPages_eq, efiPageSize]
  omega

theorem large_extended (type : MemoryType) (h : Shape s) (hok : s.mayFind (efiSizeToPages size) start)
    (ho : poolOverhead ≤ size)
    (hs : size < 2 ^ 32) :
    Extended s (fillHead { s with owned := ⟨start, efiSizeToPages size, type⟩ :: s.owned } type size start)
      ⟨start, efiSizeToPages size, type⟩ := by
  obtain ⟨h1, h2⟩ := h.ranges.extend type hok
  have h3 := @size_le_limit size start
  have h4 := hok.2.2.2.1
  refine ⟨rfl, h1, h2, fun a ha => ?_, fun a ha => ?_, fun l hl => List.mem_cons_of_mem _ hl, fun t i a ha => ?_⟩
  · rw [fillHead_memory, if_neg ?_]
    rintro rfl
    rw [PageRange.limit_eq] at ha
    simp only [poolOverhead, sizeOfPoolHead, sizeOfPoolTail, efiPageSize] at *
    omega
  · rw [fillHead_tails hs (Nat.le_trans (by decide) ho) (by omega), if_neg ?_]
    rintro rfl
    rw [PageRange.limit_eq] at ha
    simp only [poolOverhead, sizeOfPoolHead, sizeOfPoolTail, efiPageSize] at *
    omega
  · rw [fillHead_freeList]
    exact ha

/-- A block that is a range of its own. -/
theorem Inv.takeLarge (h : Inv s) (hok : s.mayFind (efiSizeToPages size) start) (hl : maxPoolList ≤ sizeToList size)
    (hs : size < 2 ^ 32) (ht : s.hasPool type) :
    Inv (fillHead { s with owned := ⟨start, efiSizeToPages size, type⟩ :: s.owned } type size start) := by
  have ho : poolOverhead ≤ size := by
    rw [maxPoolList_eq, sizeToList_eq] at hl
    simp only [poolOverhead, sizeOfPoolHead, sizeOfPoolTail]
    omega
  have c := large_extended type h.toShape hok ho hs
  refine Shape.fillHead_inv ?_ rfl h.used
  generalize hs' : fillHead { s with owned := ⟨start, efiSizeToPages size, type⟩ :: s.owned } type size start = s' at c ⊢
  have hmem : s'.memory start = some (.poolHead size type) := by
    rw [← hs', fillHead_memory, if_pos rfl, uint32_of_lt hs]
  have htail : s'.tails (start + size - sizeOfPoolTail) = some size := by
    have h4 := hok.2.2.2.1
    have h3 := @size_le_limit size start
    rw [← hs', fillHead_tails hs (Nat.le_trans (by decide) ho) (by omega), if_pos rfl]
  have hlive : s'.live = ⟨start, size, type⟩ :: s.live := by rw [← hs']; rfl
  have hpools : s'.mPoolHeadList = s.mPoolHeadList := by rw [← hs']; rfl
  have hfree : ∀ t, (s'.mPoolHead t).freeList = (s.mPoolHead t).freeList := fun t => by rw [← hs', fillHead_freeList]
  have hbl : blocksOf ⟨start, efiSizeToPages size, type⟩ (sizeToList size) = [(start, sizeToList size)] :=
    if_neg (Nat.not_lt.mpr hl)
  refine { ranges := c.ranges, tiled := ?_, live := ?_, heads := ?_, listed := ?_, nodup := ?_, pools := ?_,
           poolTypes := hpools ▸ h.poolTypes, poolAddresses := hpools ▸ h.poolAddresses, types := ?_ }
  · rw [c.owned]
    refine List.forall_mem_cons.mpr ⟨⟨_, hmem, fun hi => absurd hi (Nat.not_lt.mpr hl), fun _ => ⟨_, _, rfl, rfl⟩, ?_⟩, ?_⟩
    · intro b hb
      rw [Header.index, hbl] at hb
      obtain rfl := List.mem_singleton.mp hb
      exact .inr ⟨_, hlive ▸ List.mem_cons_self, rfl, rfl, rfl⟩
    · intro r hr
      obtain ⟨hd, ok⟩ := h.tiled r hr
      exact ⟨hd, c.rangeOk h.toShape hr ok⟩
  · rw [hlive]
    refine List.forall_mem_cons.mpr ⟨⟨hmem, htail, ho, hs, ⟨start, efiSizeToPages size, type⟩, ⟨?_, _, hmem, ?_⟩, rfl⟩, ?_⟩
    · exact c.owned ▸ List.mem_cons_self
    · rw [Header.index, hbl]
      exact List.mem_singleton_self _
    · exact fun l hl => c.liveOk h.toShape hl
  · rw [hlive, List.map_cons, List.nodup_cons]
    refine ⟨?_, h.heads⟩
    rw [List.mem_map]
    rintro ⟨l, hl, he⟩
    obtain ⟨r, hb, -⟩ := (h.live l hl).block
    have h1 := c.block_ne h.toShape hb
    rw [PageRange.limit_eq] at h1
    have h3 := @size_le_limit size start
    simp only [poolOverhead, sizeOfPoolHead, sizeOfPoolTail, efiPageSize] at *
    omega
  · intro t i a ha
    rw [hfree] at ha
    exact c.listed h.toShape ha
  · intro t i
    rw [hfree]
    exact h.nodup t i
  · rw [hpools, hlive]
    intro p hp
    obtain ⟨h1, l, hl, h2⟩ := h.pools p hp
    exact ⟨h1, l, List.mem_cons_of_mem _ hl, h2⟩
  · rw [hlive]
    refine List.forall_mem_cons.mpr ⟨?_, fun l hl => ?_⟩
    · rw [State.hasPool, hpools]
      exact ht
    · rw [State.hasPool, hpools]
      exact h.types l hl

end

end Udk.Pool
