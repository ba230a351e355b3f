import Udk.Pool.Invariant

/-! # Handing out blocks -/

namespace Udk.Pool

section
variable {s : State} {type t : MemoryType} {size head i a : Nat} {l : List Nat} {b : Nat × Nat}

theorem setFreeList_freeList :
    ((s.setFreeList type i l).mPoolHead t).freeList a =
      if t = type ∧ a = i then l else (s.mPoolHead t).freeList a := by
  simp only [State.setFreeList]
  by_cases ht : t = type <;> simp [ht]

theorem setFreeList_used : ((s.setFreeList type i l).mPoolHead t).used = (s.mPoolHead t).used := by
  simp only [State.setFreeList]
  split <;> rfl

theorem setUsed_freeList {used : Nat} :
    ((s.setUsed type used).mPoolHead t).freeList = (s.mPoolHead t).freeList := by
  simp only [State.setUsed]
  split <;> rfl

theorem setUsed_used {used : Nat} :
    ((s.setUsed type used).mPoolHead t).used = if t = type then used else (s.mPoolHead t).used := by
  simp only [State.setUsed]
  split <;> rfl

theorem fillHead_memory :
    (fillHead s type size head).memory a = if a = head then some (.poolHead (uint32 size) type) else s.memory a := rfl

theorem fillHead_freeList : ((fillHead s type size head).mPoolHead t).freeList = (s.mPoolHead t).freeList :=
  setUsed_freeList

theorem fillHead_used :
    ((fillHead s type size head).mPoolHead t).used =
      if t = type then uintn ((s.mPoolHead type).used + size) else (s.mPoolHead t).used :=
  setUsed_used

theorem uintn_of_lt (h : a < 2 ^ 64) : uintn a = a := Nat.mod_eq_of_lt h

theorem uint32_of_lt (h : a < 2 ^ 32) : uint32 a = a := Nat.mod_eq_of_lt h

theorem fillHead_tails (h32 : size < 2 ^ 32) (h8 : sizeOfPoolTail ≤ size) (hl : head + size ≤ 2 ^ 64) :
    (fillHead s type size head).tails a =
      if a = head + size - sizeOfPoolTail then some size else s.tails a := by
  have h1 : uintn (head + size + (2 ^ 64 - sizeOfPoolTail)) = head + size - sizeOfPoolTail := by
    simp only [uintn, sizeOfPoolTail] at *
    omega
  show (if a = uintn (head + uint32 size + (2 ^ 64 - sizeOfPoolTail)) then some (uint32 size) else s.tails a) = _
  rw [uint32_of_lt h32, h1]

theorem liveSize_cons {live : List Block} :
    liveSize (⟨head, size, type⟩ :: live) t = (if t = type then size else 0) + liveSize live t := by
  rw [liveSize, liveSize, List.filter_cons]
  by_cases ht : t = type
  · simp [ht]
  · simp [ht, Ne.symm ht]

end

/-! ## A block from a list -/

namespace Shape
variable {s : State} {type : MemoryType} {size head : Nat} {rest : List Nat}

/-- The accounts after a block was handed out. -/
theorem fillHead_inv {live : List Block} (h : Shape (fillHead s type size head)) (hlive : s.live = live)
    (hused : ∀ t, (s.mPoolHead t).used = liveSize live t) : Inv (fillHead s type size head) := by
  refine ⟨h, fun t => ?_⟩
  subst hlive
  have h1 := h.liveSize_lt t
  have h2 : (fillHead s type size head).live = ⟨head, size, type⟩ :: s.live := rfl
  rw [h2, liveSize_cons] at h1 ⊢
  rw [fillHead_used]
  by_cases ht : t = type
  · subst ht
    rw [if_pos rfl] at h1 ⊢
    rw [if_pos rfl, hused, Nat.add_comm]
    exact uintn_of_lt h1
  · rw [if_neg ht, if_neg ht, hused, Nat.zero_add]

end Shape

/-- What a block that is taken off its list changes. -/
structure Handed (s s' : State) (type : MemoryType) (size head : Nat) (rest : List Nat) : Prop where
  memory : ∀ a, s'.memory a = if a = head then some (.poolHead size type) else s.memory a
  tails : ∀ a, s'.tails a = if a = head + size - sizeOfPoolTail then some size else s.tails a
  free : ∀ t i, (s'.mPoolHead t).freeList i =
    if t = type ∧ i = sizeToList size then rest else (s.mPoolHead t).freeList i
  owned : s'.owned = s.owned
  live : s'.live = ⟨head, size, type⟩ :: s.live
  pools : s'.mPoolHeadList = s.mPoolHeadList

/-- The block at `head` is on its list. -/
structure OnList (s : State) (r : PageRange) (type : MemoryType) (size head : Nat) (rest : List Nat) : Prop where
  list : (s.mPoolHead type).freeList (sizeToList size) = head :: rest
  memory : s.memory head = some (.poolFree (sizeToList size))
  block : IsBlock s r (head, sizeToList size)
  type : r.type = type

namespace Shape
variable {s s' : State} {r r₀ : PageRange} {type : MemoryType} {size head : Nat} {rest : List Nat}

theorem onList (h : Shape s) (hlist : (s.mPoolHead type).freeList (sizeToList size) = head :: rest) :
    ∃ r, OnList s r type size head rest := by
  obtain ⟨hm, r, hb, hr⟩ := h.listed type (sizeToList size) head (by simp [hlist])
  exact ⟨r, hlist, hm, hb, hr⟩

end Shape

namespace Handed
variable {s s' : State} {r r₀ : PageRange} {type : MemoryType} {size head : Nat} {rest : List Nat}

/-- The header of the block still names its class. -/
theorem index (c : Handed s s' type size head rest) (o : OnList s r₀ type size head rest) (a : Nat) (hd : Header)
    (ha : s.memory a = some hd) : ∃ hd', s'.memory a = some hd' ∧ hd'.index = hd.index := by
  rw [c.memory]
  split
  · rename_i he
    rw [he, o.memory] at ha
    obtain rfl := Option.some.inj ha
    exact ⟨_, rfl, rfl⟩
  · exact ⟨hd, ha, rfl⟩

theorem isBlock (c : Handed s s' type size head rest) (o : OnList s r₀ type size head rest) {b : Nat × Nat}
    (hb : IsBlock s r b) : IsBlock s' r b :=
  hb.transfer (c.owned ▸ hb.1) (c.index o r.base)

theorem tiled (c : Handed s s' type size head rest) (o : OnList s r₀ type size head rest) (h : Shape s)
    (hr : r ∈ s'.owned) : ∃ hd, RangeOk s' r hd := by
  rw [c.owned] at hr
  obtain ⟨hd, ok⟩ := h.tiled r hr
  obtain ⟨hd', hd1, hd2⟩ := c.index o _ _ ok.header
  refine ⟨hd', hd1, hd2 ▸ ok.page, ?_, ?_⟩
  · intro hi
    obtain ⟨size', type', rfl, hp⟩ := ok.large (hd2 ▸ hi)
    rw [c.memory] at hd1
    split at hd1
    · rename_i he
      have h1 := ok.header
      rw [he, o.memory] at h1
      cases h1
    · obtain rfl := Option.some.inj (ok.header.symm.trans hd1)
      exact ⟨_, _, rfl, hp⟩
  · rw [hd2]
    intro b hb
    have hib : IsBlock s r b := ⟨hr, hd, ok.header, hb⟩
    by_cases he : b.1 = head
    · obtain ⟨rfl, rfl⟩ := h.isBlock_eq hib o.block he
      exact .inr ⟨_, c.live ▸ List.mem_cons_self, rfl, o.type.symm, rfl⟩
    · rcases ok.blocks b hb with ⟨hf, hf'⟩ | ⟨l, hl, h1⟩
      · refine .inl ⟨by rw [c.memory, if_neg he]; exact hf, ?_⟩
        rw [c.free]
        split
        · rename_i hti
          rw [hti.1, hti.2, o.list] at hf'
          exact (List.mem_cons.mp hf').resolve_left he
        · exact hf'
      · exact .inr ⟨l, c.live ▸ List.mem_cons_of_mem _ hl, h1⟩

theorem ne_head (o : OnList s r₀ type size head rest) (h : Shape s) {l : Block} (hl : l ∈ s.live) : l.head ≠ head := by
  rintro rfl
  have h1 := (h.live l hl).header
  rw [o.memory] at h1
  cases h1

theorem liveOk (c : Handed s s' type size head rest) (o : OnList s r₀ type size head rest) (h : Shape s)
    (ho : poolOverhead ≤ size) (hs : size < 2 ^ 32) {l : Block} (hl : l ∈ s'.live) : LiveOk s' l := by
  have hlim : head + size ≤ blockLimit r₀ (head, sizeToList size) := by
    rw [blockLimit, if_pos (h.listed_small (o.list ▸ List.mem_cons_self))]
    exact Nat.le_of_lt (Nat.add_lt_add_left size_lt_listToSize _)
  rw [c.live, List.mem_cons] at hl
  rcases hl with rfl | hl
  · refine ⟨?_, ?_, ho, hs, r₀, c.isBlock o o.block, o.type⟩
    · rw [c.memory, if_pos rfl]
    · rw [c.tails, if_pos rfl]
  · have ok := h.live l hl
    obtain ⟨r, hb, hr⟩ := ok.block
    refine ⟨?_, ?_, ok.overhead, ok.small, r, c.isBlock o hb, hr⟩
    · rw [c.memory, if_neg (ne_head o h hl)]
      exact ok.header
    · have h1 := h.live_fits hl hb
      have h2 := ok.overhead
      rw [c.tails, if_neg ?_]
      · exact ok.tail
      · rcases h.isBlock_apart hb o.block with ⟨-, he⟩ | ha
        · exact absurd (congrArg Prod.fst he) (ne_head o h hl)
        · simp only [poolOverhead, sizeOfPoolHead, sizeOfPoolTail] at *
          rcases ha with ha | ha <;> omega

theorem mem_free (c : Handed s s' type size head rest) (o : OnList s r₀ type size head rest) (h : Shape s)
    {t : MemoryType} {i a : Nat} (ha : a ∈ (s'.mPoolHead t).freeList i) :
    a ∈ (s.mPoolHead t).freeList i ∧ a ≠ head := by
  have hnd := h.nodup type (sizeToList size)
  rw [o.list, List.nodup_cons] at hnd
  rw [c.free] at ha
  split at ha
  · rename_i hti
    rw [hti.1, hti.2, o.list]
    exact ⟨List.mem_cons_of_mem _ ha, fun he => hnd.1 (he ▸ ha)⟩
  · rename_i hti
    refine ⟨ha, fun he => hti ?_⟩
    obtain ⟨-, r, hb, hr⟩ := h.listed t i a ha
    obtain ⟨rfl, he'⟩ := h.isBlock_eq hb o.block he
    exact ⟨hr.symm.trans o.type, congrArg Prod.snd he'⟩

theorem shape (c : Handed s s' type size head rest) (o : OnList s r₀ type size head rest) (h : Shape s)
    (ho : poolOverhead ≤ size) (hs : size < 2 ^ 32) (ht : s.hasPool type) : Shape s' where
  ranges := c.owned ▸ h.ranges
  tiled _ := c.tiled o h
  live _ := c.liveOk o h ho hs
  heads := by
    rw [c.live, List.map_cons, List.nodup_cons]
    refine ⟨?_, h.heads⟩
    rw [List.mem_map]
    rintro ⟨l, hl, he⟩
    exact ne_head o h hl he
  listed t i a ha := by
    obtain ⟨ha, hne⟩ := c.mem_free o h ha
    obtain ⟨hm, r, hb, hr⟩ := h.listed t i a ha
    refine ⟨?_, r, c.isBlock o hb, hr⟩
    rw [c.memory, if_neg hne]
    exact hm
  nodup t i := by
    have hnd := h.nodup type (sizeToList size)
    rw [o.list, List.nodup_cons] at hnd
    rw [c.free]
    split
    · exact hnd.2
    · exact h.nodup t i
  pools := by
    rw [c.pools, c.live]
    intro p hp
    obtain ⟨h1, l, hl, h2⟩ := h.pools p hp
    exact ⟨h1, l, List.mem_cons_of_mem _ hl, h2⟩
  poolTypes := c.pools ▸ h.poolTypes
  poolAddresses := c.pools ▸ h.poolAddresses
  types := by
    rw [c.live]
    refine List.forall_mem_cons.mpr ⟨?_, fun l hl => ?_⟩
    · rw [State.hasPool, c.pools]
      exact ht
    · rw [State.hasPool, c.pools]
      exact h.types l hl

end Handed

/-- A block off a list, for a size that is not too large. -/
theorem Inv.takeFree {s : State} {type : MemoryType} {size head : Nat} {rest : List Nat} (h : Inv s)
    (hlist : (s.mPoolHead type).freeList (sizeToList size) = head :: rest)
    (ho : poolOverhead ≤ size) (hs : size < 2 ^ 32) (ht : s.hasPool type) :
    Inv (fillHead (s.setFreeList type (sizeToList size) rest) type size head) := by
  obtain ⟨r, o⟩ := h.onList hlist
  have hend : head + size ≤ 2 ^ 64 := by
    have h1 := h.isBlock_mem o.block
    have h2 := h.ranges.limit r o.block.1
    rw [blockLimit, if_pos (h.listed_small (hlist ▸ List.mem_cons_self))] at h1
    have h3 := @size_lt_listToSize size
    simp only at h1
    omega
  have c : Handed s (fillHead (s.setFreeList type (sizeToList size) rest) type size head) type size head rest := by
    refine ⟨fun a => ?_, fun a => ?_, fun t i => ?_, rfl, rfl, rfl⟩
    · rw [fillHead_memory, uint32_of_lt hs]
      rfl
    · exact fillHead_tails hs (Nat.le_trans (by decide) ho) hend
    · rw [fillHead_freeList, setFreeList_freeList]
  refine (c.shape o h.toShape ho hs ht).fillHead_inv rfl fun t => ?_
  rw [setFreeList_used]
  exact h.used t

end Udk.Pool
