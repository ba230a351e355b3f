import Udk.Pool.Pages

/-! # `CoreAllocatePool` -/

namespace Udk.Pool

/-- The size fits in the 32 bits of the header, rounded up and with header and tail. -/
def Fits (size : Nat) : Prop := size ≤ 2 ^ 32 - 40

instance (size : Nat) : Decidable (Fits size) := inferInstanceAs (Decidable (_ ≤ _))

def totalSize (size : Nat) : Nat := uintn (alignVariable size + poolOverhead)

/-- What an allocation leaves behind. -/
structure Allocated (s s' : State) (type : MemoryType) (size buffer : Nat) : Prop where
  inv : Inv s'
  busy : Busy s'
  live : ∃ head, s'.live = ⟨head, totalSize size, type⟩ :: s.live ∧ buffer = head + sizeOfPoolHead
  pools : s'.mPoolHeadList = s.mPoolHeadList

section
variable {s s' : State} {type : MemoryType} {size start : Nat}

theorem totalSize_of_fits (h : Fits size) :
    size + poolOverhead ≤ totalSize size ∧ totalSize size < 2 ^ 32 ∧ totalSize size % 8 = 0 := by
  simp only [Fits, totalSize, alignVariable, uintn, poolOverhead, sizeOfPoolHead, sizeOfPoolTail] at *
  omega

theorem fillHead_busy {r : PageRange} {head : Nat}
    (hbusy : ∀ r' ∈ s.owned, r' ≠ r → ∃ l ∈ s.live, r'.base ≤ l.head ∧ l.head < r'.limit)
    (hr : r.base ≤ head ∧ head < r.limit) : Busy (fillHead s type size head) := by
  intro r' hr'
  by_cases he : r' = r
  · exact ⟨_, List.mem_cons_self, he ▸ hr⟩
  · obtain ⟨l, hl, h1⟩ := hbusy r' hr' he
    exact ⟨l, List.mem_cons_of_mem _ hl, h1⟩

/-! ## The parts of `CoreAllocatePoolI` -/

theorem coreAllocatePoolPages_eq {pages : Nat} :
    (coreAllocatePoolPages s type pages start = (0, s)) ∨
      s.mayFind pages start ∧
        coreAllocatePoolPages s type pages start = (start, { s with owned := ⟨start, pages, type⟩ :: s.owned }) := by
  rw [coreAllocatePoolPages]
  split
  · rename_i h
    exact .inr ⟨h, rfl⟩
  · exact .inl rfl

/-- Nothing happens, or a block is handed out. -/
def Outcome (s : State) (type : MemoryType) (size : Nat) (r : Nat × State) : Prop :=
  r = (0, s) ∨ Allocated s r.2 type size r.1

theorem takeFree_outcome {s₀ : State} {head : Nat} {rest : List Nat} {r : PageRange} (h : Inv s)
    (hlist : (s.mPoolHead type).freeList (sizeToList (totalSize size)) = head :: rest) (hfit : Fits size)
    (ht : s.hasPool type) (hlive : s.live = s₀.live) (hpools : s.mPoolHeadList = s₀.mPoolHeadList)
    (hbusy : ∀ r' ∈ s.owned, r' ≠ r → ∃ l ∈ s.live, r'.base ≤ l.head ∧ l.head < r'.limit)
    (hr : r.base ≤ head ∧ head < r.limit) : Outcome s₀ type size (takeFree s type (totalSize size)) := by
  obtain ⟨h1, h2, -⟩ := totalSize_of_fits hfit
  have hinv := h.takeFree hlist (by omega) h2 ht
  rw [takeFree, hlist]
  refine .inr ⟨hinv, fillHead_busy hbusy hr, ⟨head, ?_, rfl⟩, hpools⟩
  rw [← hlive]
  rfl

theorem allocateEntry_outcome (start : Nat) (h : Inv s) (hb : Busy s) (hfit : Fits size) (ht : s.hasPool type) :
    Outcome s type size (allocateEntry s type size start) := by
  obtain ⟨h1, h2, -⟩ := totalSize_of_fits hfit
  simp only [allocateEntry]
  rw [← totalSize]
  by_cases hi : maxPoolList ≤ sizeToList (totalSize size)
  · rw [if_pos hi]
    rcases @coreAllocatePoolPages_eq s type start (efiSizeToPages (totalSize size)) with he | ⟨hok, he⟩
    · rw [he]
      exact .inl (if_pos rfl)
    · rw [he]
      simp only
      rw [if_neg hok.1]
      have hinv := h.takeLarge hok hi h2 ht
      refine .inr ⟨hinv, fillHead_busy (r := ⟨start, efiSizeToPages (totalSize size), type⟩) ?_ ?_, ⟨start, rfl, rfl⟩, rfl⟩
      · intro r' hr' hne
        exact hb r' ((List.mem_cons.mp hr').resolve_left hne)
      · have h3 := @size_le_limit (totalSize size) start
        rw [PageRange.limit_eq]
        simp only [poolOverhead, sizeOfPoolHead, efiPageSize] at *
        omega
  · rw [if_neg hi]
    by_cases hl : (s.mPoolHead type).freeList (sizeToList (totalSize size)) = []
    · rw [if_pos hl]
      rcases @coreAllocatePoolPages_eq s type start (efiSizeToPages efiPageSize) with he | ⟨hok, he⟩
      · rw [he]
        exact .inl (if_pos rfl)
      · rw [he]
        simp only
        rw [if_neg hok.1]
        have hsmall := Nat.lt_of_not_le hi
        show Outcome s type size
          (takeFree (carved s type (sizeToList (totalSize size)) start) type (totalSize size))
        have hshape := carved_shape type h.toShape hsmall hok
        obtain ⟨e1, e2, -, e4⟩ := @insertFrees_rest { s with owned := ⟨start, 1, type⟩ :: s.owned } type
          (pageBlocks start (sizeToList (totalSize size)))
        obtain ⟨head, rest, hlist, hmem⟩ := carved_list start hl hsmall
        refine takeFree_outcome (r := ⟨start, 1, type⟩) ⟨hshape, fun t => ?_⟩ hlist hfit ?_ e2 e4 ?_ ?_
        · rw [carved, insertFrees_used, e2]
          exact h.used t
        · rw [State.hasPool, carved, e4]
          exact ht
        · rw [carved, e1, e2]
          intro r' hr' hne
          exact hb r' ((List.mem_cons.mp hr').resolve_left hne)
        · have h3 := mem_pageBlocks_outside hmem
          rw [PageRange.limit_eq]
          rw [efiPageSize] at h3
          exact ⟨h3.1, by simp only; omega⟩
    · rw [if_neg hl]
      obtain ⟨head, rest, hlist⟩ := List.exists_cons_of_ne_nil hl
      obtain ⟨r, o⟩ := h.onList hlist
      have h3 := h.isBlock_mem o.block
      exact takeFree_outcome (r := r) h hlist hfit ht rfl rfl (fun r' hr' _ => hb r' hr')
        ⟨h3.1, Nat.lt_of_lt_of_le h3.2.1 h3.2.2⟩

end

/-! ## The `POOL` of a type -/

section
variable {s : State} {type : MemoryType} {size start : Nat} {r : PageRange} {l : Block}

theorem Shape.type_of_mem (h : Shape s) (hr : r ∈ s.owned) (hl : l ∈ s.live) (h1 : r.base ≤ l.head)
    (h2 : l.head < r.limit) : r.type = l.type := by
  obtain ⟨r', hr', ht, h3, h4⟩ := h.live_range hl
  have h5 := (h.live l hl).overhead
  simp only [poolOverhead, sizeOfPoolHead, sizeOfPoolTail] at h5
  rcases h.ranges.apart r hr r' hr' with rfl | ha | ha
  · exact ht
  · omega
  · omega

/-- A type of which nothing is handed out has no pages. -/
theorem Shape.no_range (h : Shape s) (hb : Busy s) (hno : ∀ l ∈ s.live, l.type ≠ type) (hr : r ∈ s.owned) :
    r.type ≠ type := by
  obtain ⟨l, hl, h1, h2⟩ := hb r hr
  rw [h.type_of_mem hr hl h1 h2]
  exact hno l hl

theorem Shape.no_list (h : Shape s) (hb : Busy s) (hno : ∀ l ∈ s.live, l.type ≠ type) (i : Nat) :
    (s.mPoolHead type).freeList i = [] := by
  refine List.eq_nil_iff_forall_not_mem.mpr fun a ha => ?_
  obtain ⟨-, r, hib, hr⟩ := h.listed type i a ha
  exact h.no_range hb hno hib.1 hr

theorem liveSize_eq_zero {live : List Block} (hno : ∀ l ∈ live, l.type ≠ type) : liveSize live type = 0 := by
  rw [liveSize, List.filter_eq_nil_iff.mpr (by simpa using hno)]
  rfl

/-- A new `POOL` for a type of which there is nothing. -/
theorem Inv.newPool (h : Inv s) (hb : Busy s) (hno : ∀ l ∈ s.live, l.type ≠ type) (hneg : type < 0)
    (hl : l ∈ s.live) (ht : l.type = efiBootServicesData) (hs : sizeOfPool + poolOverhead ≤ l.size)
    (htype : type ∉ s.mPoolHeadList.map Prod.fst) (haddr : l.head + sizeOfPoolHead ∉ s.mPoolHeadList.map Prod.snd) :
    Inv { s with
      mPoolHead := fun t => if t = type then ⟨0, fun _ => []⟩ else s.mPoolHead t
      mPoolHeadList := (type, l.head + sizeOfPoolHead) :: s.mPoolHeadList } where
  ranges := h.ranges
  tiled r hr := by
    obtain ⟨hd, ok⟩ := h.tiled r hr
    refine ⟨hd, ok.header, ok.page, ok.large, fun b hb' => (ok.blocks b hb').imp_left fun hf => ⟨hf.1, ?_⟩⟩
    simp only
    rw [if_neg (h.no_range hb hno hr)]
    exact hf.2
  live l hl := by
    have ok := h.live l hl
    exact ⟨ok.header, ok.tail, ok.overhead, ok.small, ok.block⟩
  heads := h.heads
  listed t i a ha := by
    simp only at ha
    split at ha
    · cases ha
    · exact h.listed t i a ha
  nodup t i := by
    simp only
    split
    · exact List.nodup_nil
    · exact h.nodup t i
  used t := by
    simp only
    split
    · rename_i he
      exact (liveSize_eq_zero (he ▸ hno)).symm
    · exact h.used t
  pools := List.forall_mem_cons.mpr ⟨⟨hneg, l, hl, rfl, ht, hs⟩, h.pools⟩
  poolTypes := List.nodup_cons.mpr ⟨htype, h.poolTypes⟩
  poolAddresses := List.nodup_cons.mpr ⟨haddr, h.poolAddresses⟩
  types l hl := (h.types l hl).imp_right fun h1 => ⟨h1.1, List.mem_cons_of_mem _ h1.2⟩

/-- What a search for a `POOL` leaves behind. -/
structure LookedUp (s : State) (type : MemoryType) (r : Bool × State) : Prop where
  inv : Inv r.2
  busy : Busy r.2
  live : ∀ l ∈ s.live, l ∈ r.2.live
  found : r.1 = true → r.2.hasPool type

theorem lookupPoolHead_spec (h : Inv s) (hb : Busy s) : LookedUp s type (lookupPoolHead s type start) := by
  rw [lookupPoolHead]
  split
  · rename_i ht
    exact ⟨h, hb, fun _ hl => hl, fun _ => .inl ht⟩
  · rename_i hreg
    split
    · rename_i hneg
      split
      · rename_i hmem
        exact ⟨h, hb, fun _ hl => hl, fun _ => .inr ⟨hneg, hmem⟩⟩
      · rename_i hmem
        have hno : ∀ l ∈ s.live, l.type ≠ type := by
          rintro l hl rfl
          rcases h.types l hl with h1 | h1
          · exact hreg h1
          · exact hmem h1.2
        have hboot : s.hasPool efiBootServicesData := .inl (by decide)
        rcases allocateEntry_outcome start h hb (by decide : Fits sizeOfPool) hboot with he | ha
        · rw [he]
          exact ⟨h, hb, fun _ hl => hl, nofun⟩
        · obtain ⟨head, hlive, hbuf⟩ := ha.live
          have hne : ¬(allocateEntry s efiBootServicesData sizeOfPool start).1 = 0 := by
            rw [hbuf]
            exact Nat.succ_ne_zero _
          simp only
          rw [if_neg hne]
          have hno' : ∀ l ∈ (allocateEntry s efiBootServicesData sizeOfPool start).2.live, l.type ≠ type := by
            rw [hlive]
            refine List.forall_mem_cons.mpr ⟨?_, hno⟩
            intro he
            rw [← he] at hneg
            exact absurd hneg (by decide : ¬efiBootServicesData < 0)
          have hsize : sizeOfPool + poolOverhead ≤ totalSize sizeOfPool := by decide
          have haddr : head + sizeOfPoolHead ∉ s.mPoolHeadList.map Prod.snd := by
            rw [List.mem_map]
            rintro ⟨p, hp, he⟩
            obtain ⟨-, l, hl, h1, -⟩ := h.pools p hp
            have h2 := ha.inv.heads
            rw [hlive, List.map_cons, List.nodup_cons] at h2
            exact h2.1 (List.mem_map.mpr ⟨l, hl, Nat.add_right_cancel (h1.symm.trans he)⟩)
          have hinv := ha.inv.newPool ha.busy hno' hneg (hlive ▸ List.mem_cons_self) rfl hsize (ha.pools ▸ hmem)
            (ha.pools ▸ haddr)
          refine ⟨?_, ha.busy, fun l hl => ?_, fun _ => .inr ⟨hneg, List.mem_cons_self⟩⟩
          · rw [hbuf]
            exact hinv
          · exact hlive ▸ List.mem_cons_of_mem _ hl
    · exact ⟨h, hb, fun _ hl => hl, nofun⟩

/-- The state before the block itself is handed out. -/
theorem coreAllocatePoolI_outcome (type : MemoryType) (poolStart start : Nat) (h : Inv s) (hb : Busy s) (hfit : Fits size) :
    ∃ s₁, Inv s₁ ∧ Busy s₁ ∧ (∀ l ∈ s.live, l ∈ s₁.live) ∧
      Outcome s₁ type size (coreAllocatePoolI s type size poolStart start) := by
  have hl := @lookupPoolHead_spec s type poolStart h hb
  refine ⟨_, hl.inv, hl.busy, hl.live, ?_⟩
  rw [coreAllocatePoolI]
  simp only
  split
  · rename_i hf
    exact allocateEntry_outcome start hl.inv hl.busy hfit (hl.found hf)
  · exact .inl rfl

end

end Udk.Pool
