import Udk.Pool.Allocating

/-! # `CoreFreePool` -/

namespace Udk.Pool

/-! ## Back on the list -/

/-- What a block that goes back on its list changes. -/
structure Returned (s s' : State) (l : Block) : Prop where
  memory : ∀ a, s'.memory a = if a = l.head then some (.poolFree (sizeToList l.size)) else s.memory a
  tails : s'.tails = s.tails
  free : ∀ t i, (s'.mPoolHead t).freeList i =
    if t = l.type ∧ i = sizeToList l.size then l.head :: (s.mPoolHead t).freeList i else (s.mPoolHead t).freeList i
  owned : s'.owned = s.owned
  live : s'.live = s.live.filter (·.head ≠ l.head)
  pools : s'.mPoolHeadList = s.mPoolHeadList

namespace Returned
variable {s s' : State} {r r₀ : PageRange} {l l' : Block}

theorem mem_live (c : Returned s s' l) : l' ∈ s'.live ↔ l' ∈ s.live ∧ l'.head ≠ l.head := by
  rw [c.live, List.mem_filter, decide_eq_true_iff]

theorem index (c : Returned s s' l) (h : Shape s) (hl : l ∈ s.live) (a : Nat) (hd : Header)
    (ha : s.memory a = some hd) : ∃ hd', s'.memory a = some hd' ∧ hd'.index = hd.index := by
  rw [c.memory]
  split
  · rename_i he
    rw [he, (h.live l hl).header] at ha
    obtain rfl := Option.some.inj ha
    exact ⟨_, rfl, rfl⟩
  · exact ⟨hd, ha, rfl⟩

theorem isBlock (c : Returned s s' l) (h : Shape s) (hl : l ∈ s.live) {b : Nat × Nat} (hb : IsBlock s r b) :
    IsBlock s' r b :=
  hb.transfer (c.owned ▸ hb.1) (c.index h hl r.base)

theorem tiled (c : Returned s s' l) (h : Shape s) (hl : l ∈ s.live) (hs : sizeToList l.size < maxPoolList)
    (hr : r ∈ s'.owned) : ∃ hd, RangeOk s' r hd := by
  rw [c.owned] at hr
  obtain ⟨hd, ok⟩ := h.tiled r hr
  obtain ⟨hd', hd1, hd2⟩ := c.index h hl _ _ ok.header
  obtain ⟨r₀, hb₀, hr₀⟩ := (h.live l hl).block
  refine ⟨hd', hd1, hd2 ▸ ok.page, ?_, ?_⟩
  · intro hi
    obtain ⟨size', type', rfl, hp⟩ := ok.large (hd2 ▸ hi)
    rw [c.memory] at hd1
    split at hd1
    · obtain rfl := Option.some.inj hd1
      exact absurd hs (Nat.not_lt.mpr hi)
    · obtain rfl := Option.some.inj (ok.header.symm.trans hd1)
      exact ⟨_, _, rfl, hp⟩
  · rw [hd2]
    intro b hb
    have hib : IsBlock s r b := ⟨hr, hd, ok.header, hb⟩
    by_cases he : b.1 = l.head
    · obtain ⟨rfl, rfl⟩ := h.isBlock_eq hib hb₀ he
      refine .inl ⟨by rw [c.memory, if_pos rfl], ?_⟩
      rw [c.free, if_pos ⟨hr₀, rfl⟩]
      exact List.mem_cons_self
    · rcases ok.blocks b hb with ⟨hf, hf'⟩ | ⟨l', hl', h1, h2⟩
      · refine .inl ⟨by rw [c.memory, if_neg he]; exact hf, ?_⟩
        rw [c.free]
        split
        · exact List.mem_cons_of_mem _ hf'
        · exact hf'
      · exact .inr ⟨l', c.mem_live.mpr ⟨hl', h1 ▸ he⟩, h1, h2⟩

theorem notMem_free (h : Shape s) (hl : l ∈ s.live) (t : MemoryType) (i : Nat) :
    l.head ∉ (s.mPoolHead t).freeList i := by
  intro ha
  have h1 := (h.listed t i _ ha).1
  rw [(h.live l hl).header] at h1
  cases h1

theorem shape (c : Returned s s' l) (h : Shape s) (hl : l ∈ s.live) (hs : sizeToList l.size < maxPoolList)
    (hp : ∀ p ∈ s.mPoolHeadList, p.2 ≠ l.head + sizeOfPoolHead) : Shape s' where
  ranges := c.owned ▸ h.ranges
  tiled _ := c.tiled h hl hs
  live l' hl' := by
    obtain ⟨hl', hne⟩ := c.mem_live.mp hl'
    have ok := h.live l' hl'
    obtain ⟨r, hb, hr⟩ := ok.block
    refine ⟨?_, c.tails ▸ ok.tail, ok.overhead, ok.small, r, c.isBlock h hl hb, hr⟩
    rw [c.memory, if_neg hne]
    exact ok.header
  heads := by
    rw [c.live]
    exact h.heads.sublist (List.filter_sublist.map _)
  listed t i a ha := by
    rw [c.free] at ha
    have hold : a ∈ (s.mPoolHead t).freeList i →
        s'.memory a = some (.poolFree i) ∧ ∃ r, IsBlock s' r (a, i) ∧ r.type = t := by
      intro ha
      obtain ⟨hm, r, hb, hr⟩ := h.listed t i a ha
      refine ⟨?_, r, c.isBlock h hl hb, hr⟩
      rw [c.memory, if_neg fun he : a = l.head => notMem_free h hl t i (he ▸ ha)]
      exact hm
    split at ha
    · rename_i hti
      rcases List.mem_cons.mp ha with rfl | ha
      · obtain ⟨r, hb, hr⟩ := (h.live l hl).block
        refine ⟨?_, r, hti.2 ▸ c.isBlock h hl hb, hr.trans hti.1.symm⟩
        rw [c.memory, if_pos rfl, hti.2]
      · exact hold ha
    · exact hold ha
  nodup t i := by
    rw [c.free]
    split
    · exact List.nodup_cons.mpr ⟨notMem_free h hl t i, h.nodup t i⟩
    · exact h.nodup t i
  pools := by
    rw [c.pools]
    intro p hp'
    obtain ⟨h1, l', hl', h2, h3⟩ := h.pools p hp'
    refine ⟨h1, l', c.mem_live.mpr ⟨hl', fun he => hp p hp' ?_⟩, h2, h3⟩
    rw [h2, he]
  poolTypes := c.pools ▸ h.poolTypes
  poolAddresses := c.pools ▸ h.poolAddresses
  types l' hl' := by
    rw [State.hasPool, c.pools]
    exact h.types l' (c.mem_live.mp hl').1

end Returned

/-! ## Back to the page allocator -/

/-- What giving up a range changes. -/
structure Released (s s' : State) (r₀ : PageRange) : Prop where
  memory : s'.memory = s.memory
  tails : s'.tails = s.tails
  owned : s'.owned = s.owned.filter (· ≠ r₀)
  live : ∀ l ∈ s'.live, l ∈ s.live ∧ ¬(r₀.base ≤ l.head ∧ l.head < r₀.limit)
  liveOther : ∀ l ∈ s.live, ¬(r₀.base ≤ l.head ∧ l.head < r₀.limit) → l ∈ s'.live
  heads : (s'.live.map Block.head).Nodup
  free : ∀ t i a, a ∈ (s'.mPoolHead t).freeList i → a ∈ (s.mPoolHead t).freeList i ∧ ¬(r₀.base ≤ a ∧ a < r₀.limit)
  freeOther : ∀ t i a, a ∈ (s.mPoolHead t).freeList i → ¬(r₀.base ≤ a ∧ a < r₀.limit) →
    a ∈ (s'.mPoolHead t).freeList i
  nodup : ∀ t i, ((s'.mPoolHead t).freeList i).Nodup
  pools : s'.mPoolHeadList = s.mPoolHeadList

namespace Released
variable {s s' : State} {r r₀ : PageRange} {l : Block} {b : Nat × Nat}

theorem isBlock (c : Released s s' r₀) (h : Shape s) (hb : IsBlock s r b) (hne : ¬(r₀.base ≤ b.1 ∧ b.1 < r₀.limit)) :
    IsBlock s' r b := by
  refine hb.transfer ?_ fun hd hm => ⟨hd, by rw [c.memory]; exact hm, rfl⟩
  rw [c.owned, List.mem_filter]
  refine ⟨hb.1, decide_eq_true ?_⟩
  rintro rfl
  have h1 := h.isBlock_mem hb
  exact hne ⟨h1.1, Nat.lt_of_lt_of_le h1.2.1 h1.2.2⟩

theorem outside (h : Shape s) (hr₀ : r₀ ∈ s.owned) (hne : r ≠ r₀) (hb : IsBlock s r b) :
    ¬(r₀.base ≤ b.1 ∧ b.1 < r₀.limit) := by
  have h1 := h.isBlock_mem hb
  rcases h.ranges.apart r hb.1 r₀ hr₀ with he | ha | ha
  · exact absurd he hne
  · omega
  · omega

theorem shape (c : Released s s' r₀) (h : Shape s) (hr₀ : r₀ ∈ s.owned)
    (hp : ∀ p ∈ s.mPoolHeadList, ∀ l ∈ s.live, p.2 = l.head + sizeOfPoolHead →
      ¬(r₀.base ≤ l.head ∧ l.head < r₀.limit)) : Shape s' where
  ranges := h.ranges.subset fun r hr => by
    rw [c.owned] at hr
    exact List.mem_of_mem_filter hr
  tiled r hr := by
    rw [c.owned, List.mem_filter, decide_eq_true_iff] at hr
    obtain ⟨hd, ok⟩ := h.tiled r hr.1
    refine ⟨hd, by rw [c.memory]; exact ok.header, ok.page, ok.large, fun b hb => ?_⟩
    have ho := outside h hr₀ hr.2 ⟨hr.1, hd, ok.header, hb⟩
    refine (ok.blocks b hb).imp (fun hf => ⟨by rw [c.memory]; exact hf.1, c.freeOther _ _ _ hf.2 ho⟩) ?_
    rintro ⟨l, hl, h1, h2⟩
    exact ⟨l, c.liveOther l hl (h1 ▸ ho), h1, h2⟩
  live l hl := by
    obtain ⟨hl, hne⟩ := c.live l hl
    have ok := h.live l hl
    obtain ⟨r, hb, hr⟩ := ok.block
    exact ⟨by rw [c.memory]; exact ok.header, by rw [c.tails]; exact ok.tail, ok.overhead, ok.small, r,
      c.isBlock h hb hne, hr⟩
  heads := c.heads
  listed t i a ha := by
    obtain ⟨ha, hne⟩ := c.free t i a ha
    obtain ⟨hm, r, hb, hr⟩ := h.listed t i a ha
    exact ⟨by rw [c.memory]; exact hm, r, c.isBlock h hb hne, hr⟩
  nodup := c.nodup
  pools := by
    rw [c.pools]
    intro p hp'
    obtain ⟨h1, l, hl, h2, h3⟩ := h.pools p hp'
    exact ⟨h1, l, c.liveOther l hl (hp p hp' l hl h2), h2, h3⟩
  poolTypes := c.pools ▸ h.poolTypes
  poolAddresses := c.pools ▸ h.poolAddresses
  types l hl := by
    rw [State.hasPool, c.pools]
    exact h.types l (c.live l hl).1

end Released

/-! ## The accounts -/

section
variable {s : State} {type t : MemoryType} {l : Block} {live : List Block}

theorem liveSize_filter (hn : (live.map Block.head).Nodup) (hl : l ∈ live) :
    liveSize live t = (if t = l.type then l.size else 0) + liveSize (live.filter (·.head ≠ l.head)) t := by
  induction live with
  | nil => cases hl
  | cons x live ih =>
    rw [List.map_cons, List.nodup_cons] at hn
    have hx : ∀ y : List Block, liveSize (x :: y) t = (if t = x.type then x.size else 0) + liveSize y t :=
      fun y => liveSize_cons
    rcases List.mem_cons.mp hl with rfl | hl
    · have hrest : live.filter (·.head ≠ l.head) = live := by
        refine List.filter_eq_self.mpr fun y hy => decide_eq_true fun he => hn.1 ?_
        exact List.mem_map.mpr ⟨y, hy, he⟩
      rw [hx, List.filter_cons_of_neg (by simp), hrest]
    · have hne : x.head ≠ l.head := fun he => hn.1 (List.mem_map.mpr ⟨l, hl, he.symm⟩)
      rw [hx, List.filter_cons_of_pos (by simpa using hne), hx, ih hn.2 hl]
      omega

/-- The accounts after a block came back. -/
theorem Inv.returned_used (h : Inv s) (hl : l ∈ s.live) (t : MemoryType) :
    (if t = l.type then uintn ((s.mPoolHead l.type).used + (2 ^ 64 - l.size)) else (s.mPoolHead t).used) =
      liveSize (s.live.filter (·.head ≠ l.head)) t := by
  have h1 := liveSize_filter (t := t) h.heads hl
  have h2 := h.liveSize_lt t
  have h3 := (h.live l hl).small
  rw [← h.used] at h1 h2
  split
  · rename_i he
    subst he
    rw [if_pos rfl] at h1
    rw [uintn]
    omega
  · rename_i he
    rw [if_neg he] at h1
    omega

end

/-! ## `CoreFreePoolI` -/

/-- The block as it is before the page is looked at. -/
def entryReturned (s : State) (l : Block) : State :=
  insertFree l.type (({ s with live := s.live.filter (·.head ≠ l.head) } : State).setUsed l.type
    (uintn ((s.mPoolHead l.type).used + (2 ^ 64 - l.size)))) (l.head, sizeToList l.size)

section
variable {s : State} {type t : MemoryType} {l : Block} {r : PageRange}

theorem entryReturned_returned : Returned s (entryReturned s l) l := by
  refine ⟨fun a => insertFree_memory, rfl, fun t i => ?_, rfl, rfl, rfl⟩
  rw [entryReturned, insertFree_freeList, setUsed_freeList, setUsed_freeList]
  split
  · rename_i h
    rw [h.1, h.2]
  · rfl

theorem entryReturned_inv (h : Inv s) (hl : l ∈ s.live) (hs : sizeToList l.size < maxPoolList)
    (hp : ∀ p ∈ s.mPoolHeadList, p.2 ≠ l.head + sizeOfPoolHead) : Inv (entryReturned s l) := by
  refine ⟨entryReturned_returned.shape h.toShape hl hs hp, fun t => ?_⟩
  rw [entryReturned, insertFree_used, setUsed_used]
  exact h.returned_used hl t

/-- What a free leaves behind. -/
structure Freed (s s' : State) (l : Block) : Prop where
  inv : Inv s'
  busy : Busy s'
  live : s'.live = s.live.filter (·.head ≠ l.head)
  pools : s'.mPoolHeadList = s.mPoolHeadList

/-- The ranges other than the one of the block are still in use. -/
theorem busy_other (h : Shape s) (hb : Busy s) (hr : r ∈ s.owned) (hl : r.base ≤ l.head ∧ l.head < r.limit)
    {r' : PageRange} (hr' : r' ∈ s.owned) (hne : r' ≠ r) :
    ∃ l' ∈ s.live.filter (·.head ≠ l.head), r'.base ≤ l'.head ∧ l'.head < r'.limit := by
  obtain ⟨l', hl', h1⟩ := hb r' hr'
  refine ⟨l', List.mem_filter.mpr ⟨hl', decide_eq_true fun he => ?_⟩, h1⟩
  rcases h.ranges.apart r hr r' hr' with rfl | ha | ha
  · exact hne rfl
  · omega
  · omega

theorem Shape.range_eq (h : Shape s) {r' : PageRange} {b : Nat × Nat} (hb : IsBlock s r' b) (hr : r ∈ s.owned)
    (h1 : r.base ≤ b.1 ∧ b.1 < r.limit) : r' = r := by
  have h2 := h.isBlock_mem hb
  rcases h.ranges.apart r' hb.1 r hr with he | ha | ha
  · exact he
  · omega
  · omega

theorem busy_of_liveBlock (h : Shape s) (hr : r ∈ s.owned) {hd : Header} (ok : RangeOk s r hd) {b : Nat × Nat}
    (hb : b ∈ blocksOf r hd.index) (hnf : Header.isFree (s.memory b.1) = false) :
    ∃ l ∈ s.live, r.base ≤ l.head ∧ l.head < r.limit := by
  have h1 := h.isBlock_mem ⟨hr, hd, ok.header, hb⟩
  rcases ok.blocks b hb with hf | ⟨l, hl, he, -⟩
  · rw [hf.1] at hnf
    cases hnf
  · exact ⟨l, hl, he ▸ h1.1, he ▸ Nat.lt_of_lt_of_le h1.2.1 h1.2.2⟩

/-- A page all of whose blocks are free. -/
theorem freePage_released (h : Shape s) (hr : r ∈ s.owned) {index : Nat} (ok : RangeOk s r (.poolFree index))
    (hi : index < maxPoolList) (hall : ∀ b ∈ pageBlocks r.base index, Header.isFree (s.memory b.1) = true) :
    Released s
      (coreFreePoolPages
        { s with mPoolHead := fun t =>
            { s.mPoolHead t with freeList := fun i =>
                ((s.mPoolHead t).freeList i).filter (· ∉ (pageBlocks r.base index).map Prod.fst) } }
        r.base (efiSizeToPages efiPageSize)) r := by
  have hlim : r.limit = r.base + efiPageSize := by
    rw [PageRange.limit_eq, ok.page hi]
    rfl
  have hblocks : ∀ r' b, IsBlock s r' b → r.base ≤ b.1 ∧ b.1 < r.limit → b ∈ pageBlocks r.base index := by
    intro r' b hb h1
    obtain rfl := h.range_eq hb hr h1
    obtain ⟨-, hd, hm, hb⟩ := hb
    obtain rfl := Option.some.inj (hm.symm.trans ok.header)
    exact (blocksOf_page hi).subst hb
  have hmem : ∀ a, a ∈ (pageBlocks r.base index).map Prod.fst → r.base ≤ a ∧ a < r.limit := by
    intro a ha
    obtain ⟨b, hb, rfl⟩ := List.mem_map.mp ha
    rw [hlim]
    exact mem_pageBlocks_outside hb
  have hlive : ∀ l ∈ s.live, ¬(r.base ≤ l.head ∧ l.head < r.limit) := by
    intro l hl h1
    obtain ⟨r', hb, -⟩ := (h.live l hl).block
    have h2 := hall _ (hblocks r' _ hb h1)
    rw [(h.live l hl).header] at h2
    cases h2
  refine ⟨rfl, rfl, ?_, fun l hl => ⟨hl, hlive l hl⟩, fun l hl _ => hl, h.heads, ?_, ?_, ?_, rfl⟩
  · rw [← h.ranges.without hr, hlim]
    rfl
  · intro t i a ha
    obtain ⟨ha, hne⟩ := List.mem_filter.mp ha
    refine ⟨ha, fun h1 => of_decide_eq_true hne ?_⟩
    obtain ⟨-, r', hb, -⟩ := h.listed t i a ha
    exact List.mem_map.mpr ⟨_, hblocks r' _ hb h1, rfl⟩
  · exact fun t i a ha h1 => List.mem_filter.mpr ⟨ha, decide_eq_true fun hm => h1 (hmem a hm)⟩
  · exact fun t i => (h.nodup t i).filter _

theorem freePage_spec (h : Inv s) (hr : r ∈ s.owned) {hd : Header} (ok : RangeOk s r hd) (hi : hd.index < maxPoolList)
    (hbusy : ∀ r' ∈ s.owned, r' ≠ r → ∃ l ∈ s.live, r'.base ≤ l.head ∧ l.head < r'.limit) :
    Inv (freePage s r.base) ∧ Busy (freePage s r.base) ∧ (freePage s r.base).live = s.live ∧
      (freePage s r.base).mPoolHeadList = s.mPoolHeadList := by
  have hkeep : (∃ b ∈ blocksOf r hd.index, Header.isFree (s.memory b.1) = false) → Inv s ∧ Busy s := by
    rintro ⟨b, hb, hnf⟩
    refine ⟨h, fun r' hr' => ?_⟩
    by_cases he : r' = r
    · exact he ▸ busy_of_liveBlock h.toShape hr ok hb hnf
    · exact hbusy r' hr' he
  rw [freePage, ok.header]
  cases hd with
  | poolFree index =>
    simp only
    split
    · rename_i hall
      rw [List.all_eq_true] at hall
      have c := freePage_released h.toShape hr ok hi hall
      refine ⟨⟨c.shape h.toShape hr fun p _ l hl _ => (c.live l hl).2, h.used⟩, fun r' hr' => ?_, rfl, rfl⟩
      rw [c.owned, List.mem_filter, decide_eq_true_iff] at hr'
      exact hbusy r' hr'.1 hr'.2
    · rename_i hall
      rw [List.all_eq_true] at hall
      push Not at hall
      obtain ⟨b, hb, hnf⟩ := hall
      have hk := hkeep ⟨b, (blocksOf_page hi).symm ▸ hb, by simpa using hnf⟩
      exact ⟨hk.1, hk.2, rfl, rfl⟩
  | poolHead size type =>
    obtain ⟨rest, hhead⟩ := pageBlocks_head r.base hi
    have hk := hkeep ⟨(r.base, _), by rw [blocksOf_page hi, hhead]; exact List.mem_cons_self, by rw [ok.header]; rfl⟩
    exact ⟨hk.1, hk.2, rfl, rfl⟩

/-- A block that is a range of its own. -/
theorem freeEntry_large (h : Inv s) (hb : Busy s) (hl : l ∈ s.live) (hs : maxPoolList ≤ sizeToList l.size)
    (hp : ∀ p ∈ s.mPoolHeadList, p.2 ≠ l.head + sizeOfPoolHead) : Freed s (freeEntry s l.head l.size l.type) l := by
  have ok := h.live l hl
  obtain ⟨r, hib, hrt⟩ := ok.block
  obtain ⟨he, size, type, hm, hpages⟩ := h.isBlock_large hib hs
  simp only at he
  have hsize : size = l.size := by
    have h1 := ok.header
    rw [he, hm] at h1
    exact (Header.poolHead.inj (Option.some.inj h1)).1
  have hlim : r.limit = l.head + efiSizeToPages l.size * efiPageSize := by
    rw [PageRange.limit_eq, hpages, hsize, he]
    rfl
  have hin : r.base ≤ l.head ∧ l.head < r.limit := by
    have h1 := h.isBlock_mem hib
    exact ⟨h1.1, Nat.lt_of_lt_of_le h1.2.1 h1.2.2⟩
  have honly : ∀ b, IsBlock s r b → b.1 = l.head := by
    intro b hb'
    obtain ⟨-, hd, hm', hb'⟩ := hb'
    obtain rfl := Option.some.inj (hm'.symm.trans hm)
    rw [blocksOf, Header.index, hsize, if_neg (Nat.not_lt.mpr hs)] at hb'
    rw [List.mem_singleton.mp hb', he]
  have hlive : ∀ l' ∈ s.live, r.base ≤ l'.head ∧ l'.head < r.limit → l'.head = l.head := by
    intro l' hl' h1
    obtain ⟨r', hb', -⟩ := (h.live l' hl').block
    obtain rfl := h.range_eq hb' hib.1 h1
    exact honly _ hb'
  have howned : (freeEntry s l.head l.size l.type).owned = s.owned.filter (· ≠ r) := by
    rw [← h.ranges.without hib.1, hlim, ← he, freeEntry]
    simp only
    rw [if_pos hs]
    rfl
  have hrest : (freeEntry s l.head l.size l.type).memory = s.memory ∧
      (freeEntry s l.head l.size l.type).tails = s.tails ∧
      (freeEntry s l.head l.size l.type).live = s.live.filter (·.head ≠ l.head) ∧
      (freeEntry s l.head l.size l.type).mPoolHeadList = s.mPoolHeadList ∧
      ∀ t, ((freeEntry s l.head l.size l.type).mPoolHead t).freeList = (s.mPoolHead t).freeList ∧
        ((freeEntry s l.head l.size l.type).mPoolHead t).used = liveSize (s.live.filter (·.head ≠ l.head)) t := by
    rw [freeEntry]
    simp only
    rw [if_pos hs]
    refine ⟨rfl, rfl, rfl, rfl, fun t => ⟨setUsed_freeList, ?_⟩⟩
    rw [← h.returned_used hl t]
    exact setUsed_used
  obtain ⟨h1, h2, h3, h4, h5⟩ := hrest
  have hmem : ∀ l', l' ∈ (freeEntry s l.head l.size l.type).live ↔ l' ∈ s.live ∧ l'.head ≠ l.head := by
    intro l'
    rw [h3, List.mem_filter, decide_eq_true_iff]
  have c : Released s (freeEntry s l.head l.size l.type) r := by
    refine ⟨h1, h2, howned, ?_, ?_, ?_, ?_, ?_, ?_, h4⟩
    · intro l' hl'
      obtain ⟨hl', hne⟩ := (hmem l').mp hl'
      exact ⟨hl', fun hin' => hne (hlive l' hl' hin')⟩
    · exact fun l' hl' hne => (hmem l').mpr ⟨hl', fun he' => hne (he' ▸ hin)⟩
    · rw [h3]
      exact h.heads.sublist (List.filter_sublist.map _)
    · intro t i a ha
      rw [(h5 t).1] at ha
      refine ⟨ha, fun hin' => Returned.notMem_free h.toShape hl t i ?_⟩
      obtain ⟨-, r', hb', -⟩ := h.listed t i a ha
      obtain rfl := h.range_eq hb' hib.1 hin'
      exact honly _ hb' ▸ ha
    · intro t i a ha _
      rw [(h5 t).1]
      exact ha
    · intro t i
      rw [(h5 t).1]
      exact h.nodup t i
  refine ⟨⟨c.shape h.toShape hib.1 ?_, fun t => ?_⟩, fun r' hr' => ?_, h3, h4⟩
  · intro p hp' l' hl' he' hin'
    exact hp p hp' (by rw [he', hlive l' hl' hin'])
  · rw [h3]
    exact (h5 t).2
  · rw [howned, List.mem_filter, decide_eq_true_iff] at hr'
    rw [h3]
    exact busy_other h.toShape hb hib.1 hin hr'.1 hr'.2

theorem freeEntry_small (h : Inv s) (hb : Busy s) (hl : l ∈ s.live) (hs : sizeToList l.size < maxPoolList)
    (hp : ∀ p ∈ s.mPoolHeadList, p.2 ≠ l.head + sizeOfPoolHead) : Freed s (freeEntry s l.head l.size l.type) l := by
  obtain ⟨r, hib, -⟩ := (h.live l hl).block
  have hin := h.isBlock_mem hib
  have hin' : r.base ≤ l.head ∧ l.head < r.limit := ⟨hin.1, Nat.lt_of_lt_of_le hin.2.1 hin.2.2⟩
  have hinv := entryReturned_inv h hl hs hp
  have c := @entryReturned_returned s l
  have hr : r ∈ (entryReturned s l).owned := c.owned ▸ hib.1
  obtain ⟨-, hd, hm, hbl⟩ := hib
  obtain ⟨hd', hm', hi'⟩ := c.index h.toShape hl _ _ hm
  obtain ⟨hd₁, ok⟩ := hinv.tiled r hr
  obtain rfl := Option.some.inj (hm'.symm.trans ok.header)
  have hsmall : hd'.index < maxPoolList := by
    rw [hi']
    refine Nat.lt_of_not_le fun hge => ?_
    rw [blocksOf, if_neg (Nat.not_lt.mpr hge)] at hbl
    have h1 := congrArg Prod.snd (List.mem_singleton.mp hbl)
    simp only at h1
    omega
  have hbase : l.head / efiPageSize * efiPageSize = r.base := by
    have h1 := h.ranges.aligned r (c.owned ▸ hr)
    have h2 := r.limit_eq
    rw [ok.page hsmall] at h2
    rw [efiPageSize] at h1 ⊢
    omega
  have h1 := freePage_spec hinv hr ok hsmall fun r' hr' hne => by
    rw [c.live]
    rw [c.owned] at hr hr'
    exact busy_other h.toShape hb hr hin' hr' hne
  have he : freeEntry s l.head l.size l.type = freePage (entryReturned s l) r.base := by
    rw [freeEntry]
    simp only
    rw [if_neg (Nat.not_le.mpr hs), hbase]
    rfl
  rw [he]
  exact ⟨h1.1, h1.2.1, h1.2.2.1.trans c.live, h1.2.2.2.trans c.pools⟩

theorem freeEntry_freed (h : Inv s) (hb : Busy s) (hl : l ∈ s.live)
    (hp : ∀ p ∈ s.mPoolHeadList, p.2 ≠ l.head + sizeOfPoolHead) : Freed s (freeEntry s l.head l.size l.type) l := by
  rcases Nat.lt_or_ge (sizeToList l.size) maxPoolList with hs | hs
  · exact freeEntry_small h hb hl hs hp
  · exact freeEntry_large h hb hl hs hp

/-! ## `CoreFreePool` -/

theorem checkHead_live (h : Shape s) (hl : l ∈ s.live) :
    checkHead s (l.head + sizeOfPoolHead) = some (l.size, l.type) := by
  have ok := h.live l hl
  have htail : uintn (l.head + l.size + (2 ^ 64 - sizeOfPoolTail)) = l.head + l.size - sizeOfPoolTail := by
    obtain ⟨r, hr, -, h1, h2⟩ := h.live_range hl
    have h3 := h.ranges.limit r hr
    have h4 := ok.overhead
    simp only [uintn, poolOverhead, sizeOfPoolHead, sizeOfPoolTail] at *
    omega
  rw [checkHead, Nat.add_sub_cancel, ok.header]
  simp only
  rw [htail, if_pos ok.tail]

/-- A type of which there is nothing does not need its `POOL`. -/
theorem Inv.dropPool (h : Inv s) (hno : ∀ l ∈ s.live, l.type ≠ type) :
    Inv { s with mPoolHeadList := s.mPoolHeadList.filter (·.1 ≠ type) } where
  ranges := h.ranges
  tiled r hr := by
    obtain ⟨hd, ok⟩ := h.tiled r hr
    exact ⟨hd, ok.header, ok.page, ok.large, ok.blocks⟩
  live l hl := by
    have ok := h.live l hl
    exact ⟨ok.header, ok.tail, ok.overhead, ok.small, ok.block⟩
  heads := h.heads
  listed := h.listed
  nodup := h.nodup
  used := h.used
  pools p hp := h.pools p (List.mem_of_mem_filter hp)
  poolTypes := h.poolTypes.sublist (List.filter_sublist.map _)
  poolAddresses := h.poolAddresses.sublist (List.filter_sublist.map _)
  types l hl := by
    refine (h.types l hl).imp_right fun h1 => ⟨h1.1, ?_⟩
    obtain ⟨p, hp, he⟩ := List.mem_map.mp h1.2
    exact List.mem_map.mpr ⟨p, List.mem_filter.mpr ⟨hp, decide_eq_true (he ▸ hno l hl)⟩, he⟩

theorem Inv.no_live (h : Inv s) (hused : (s.mPoolHead type).used = 0) : ∀ l ∈ s.live, l.type ≠ type := by
  rintro l hl rfl
  have h1 := liveSize_filter (t := l.type) h.heads hl
  have h2 := (h.live l hl).overhead
  rw [← h.used, hused, if_pos rfl] at h1
  simp only [poolOverhead, sizeOfPoolHead, sizeOfPoolTail] at h2
  omega

/-- The blocks that are not a `POOL` stay. -/
theorem releasePool_spec (type : MemoryType) (h : Inv s) (hb : Busy s) :
    Inv (releasePool s type) ∧ Busy (releasePool s type) ∧
      ∀ l ∈ s.live, l.head + sizeOfPoolHead ∉ s.mPoolHeadList.map Prod.snd → l ∈ (releasePool s type).live := by
  rw [releasePool]
  split
  · rename_i hcond
    split
    · exact ⟨h, hb, fun l hl _ => hl⟩
    · rename_i t pool hfind
      have hmem := List.mem_of_find?_eq_some hfind
      have htype := List.find?_some hfind
      rw [decide_eq_true_iff] at htype
      obtain ⟨-, l, hl, ha, -⟩ := h.pools _ hmem
      have hs := h.dropPool (h.no_live hcond.2)
      have hp : ∀ p ∈ s.mPoolHeadList.filter (·.1 ≠ type), p.2 ≠ l.head + sizeOfPoolHead := by
        intro p hp he
        obtain ⟨hp, hne⟩ := List.mem_filter.mp hp
        have h1 := List.inj_on_of_nodup_map h.poolAddresses hp hmem (he.trans ha.symm)
        exact of_decide_eq_true hne (h1 ▸ htype)
      have hf := freeEntry_freed hs hb hl hp
      have hc := checkHead_live hs.toShape hl
      simp only at ha
      simp only [ha, hc, Nat.add_sub_cancel]
      refine ⟨hf.inv, hf.busy, fun l' hl' hne => ?_⟩
      rw [hf.live]
      refine List.mem_filter.mpr ⟨hl', decide_eq_true fun he => hne ?_⟩
      exact List.mem_map.mpr ⟨_, hmem, by rw [he]; exact ha⟩
  · exact ⟨h, hb, fun l hl _ => hl⟩

theorem lookupPoolHead_of_hasPool {start : Nat} (h : s.hasPool type) : lookupPoolHead s type start = (true, s) := by
  rw [lookupPoolHead]
  rcases h with h | ⟨h, h1⟩
  · rw [if_pos h]
  · rw [if_neg fun h2 => absurd h (Int.not_lt.mpr h2.1), if_pos h, if_pos h1]

/-- A buffer that was handed out is freed, and the others stay. -/
theorem coreFreePool_live {start : Nat} (h : Inv s) (hb : Busy s) (hl : l ∈ s.live)
    (hne : l.head + sizeOfPoolHead ∉ s.mPoolHeadList.map Prod.snd) :
    (coreFreePool s (l.head + sizeOfPoolHead) start).1 = .success ∧
      Inv (coreFreePool s (l.head + sizeOfPoolHead) start).2 ∧
      Busy (coreFreePool s (l.head + sizeOfPoolHead) start).2 := by
  have hf := freeEntry_freed h hb hl fun p hp he => hne (List.mem_map.mpr ⟨p, hp, he⟩)
  have h1 := releasePool_spec l.type hf.inv hf.busy
  have hpos : l.head + sizeOfPoolHead ≠ 0 := Nat.succ_ne_zero _
  rw [coreFreePool, if_neg hpos, coreFreePoolI, checkHead_live h.toShape hl]
  simp only
  rw [lookupPoolHead_of_hasPool (h.types l hl), if_pos rfl, Nat.add_sub_cancel]
  exact ⟨rfl, h1.1, h1.2.1⟩

theorem coreFreePool_inv {buffer start : Nat} (h : Inv s) (hb : Busy s) (hm : s.mayFree buffer) :
    Inv (coreFreePool s buffer start).2 ∧ Busy (coreFreePool s buffer start).2 := by
  rcases hm with hm | ⟨⟨l, hl, rfl⟩, hne⟩
  · rw [coreFreePool]
    split
    · exact ⟨h, hb⟩
    · rw [coreFreePoolI, hm]
      exact ⟨h, hb⟩
  · exact (coreFreePool_live h hb hl hne).2

end

end Udk.Pool
