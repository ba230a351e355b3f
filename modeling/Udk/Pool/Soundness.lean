import Udk.Pool.Freeing

/-! # What the pools promise -/

namespace Udk.Pool

/-- The size fits, or is refused. -/
def FitsIfTaken (size : Nat) : Prop := Fits size ∨ maxPoolSize < size

instance : DecidablePred FitsIfTaken := fun _ => inferInstanceAs (Decidable (_ ∨ _))

/-- The buffer is a block of its own, with room for the header, the bytes and the tail. -/
def Sound (s s' : State) (type : MemoryType) (size buffer : Nat) : Prop :=
  buffer % 8 = 0 ∧ ∃ head total,
    buffer = head + sizeOfPoolHead ∧ size + poolOverhead ≤ total ∧
    s'.memory head = some (.poolHead total type) ∧ s'.tails (head + total - sizeOfPoolTail) = some total ∧
    (∃ r ∈ s'.owned, r.type = type ∧ r.base ≤ head ∧ head + total ≤ r.limit) ∧
    (∀ l ∈ s.live, Apart head (head + total) l.head (l.head + l.size)) ∧
    (∀ t i, ∀ a ∈ (s'.mPoolHead t).freeList i, Apart head (head + total) a (a + listToSize i)) ∧
    ∀ p ∈ s'.mPoolHeadList, Apart head (head + total) p.2 (p.2 + sizeOfPool)

/-- Every page is tiled, every free block is on the list of its class, and what is freed goes back. -/
structure Conserved (s : State) : Prop where
  tiled : ∀ r ∈ s.owned, ∃ index, Tiles Prod.fst (blockLimit r · - 1) r.base (blocksOf r index) r.limit ∧
    ∀ b ∈ blocksOf r index, FreeBlock s r.type b ∨ LiveBlock s r.type b
  fits : ∀ l ∈ s.live, ∃ r ∈ s.owned, r.type = l.type ∧ r.base ≤ l.head ∧ l.head + l.size ≤ r.limit ∧
    (maxPoolList ≤ sizeToList l.size → l.head = r.base ∧ r.pages = efiSizeToPages l.size)
  listed : ∀ t i, ∀ a ∈ (s.mPoolHead t).freeList i, s.memory a = some (.poolFree i) ∧
    ((s.mPoolHead t).freeList i).count a = 1 ∧ ∀ t' i', a ∈ (s.mPoolHead t').freeList i' → t' = t ∧ i' = i
  used : ∀ t, (s.mPoolHead t).used = liveSize s.live t
  returned : ∀ t, (∀ l ∈ s.live, l.type ≠ t) →
    (∀ i, (s.mPoolHead t).freeList i = []) ∧ (s.mPoolHead t).used = 0 ∧ ∀ r ∈ s.owned, r.type ≠ t

/-! ## Runs -/

section
variable {s s' : State} {type : MemoryType} {size poolStart start : Nat} {e : Event}

theorem inv_initialState : Inv initialState where
  ranges := ⟨nofun, nofun, nofun, nofun⟩
  tiled := nofun
  live := nofun
  heads := List.nodup_nil
  listed := nofun
  nodup _ _ := List.nodup_nil
  used _ := rfl
  pools := nofun
  poolTypes := List.nodup_nil
  poolAddresses := List.nodup_nil
  types := nofun

/-- The call is refused, or comes to `CoreAllocatePoolI`. -/
theorem coreAllocatePool_cases :
    (coreAllocatePool s type size poolStart start).1 ≠ .success ∧
        (coreAllocatePool s type size poolStart start).2.2 = s ∨
      size ≤ maxPoolSize ∧
        coreAllocatePool s type size poolStart start =
          if (coreAllocatePoolI s type size poolStart start).1 = 0 then
            (.outOfResources, some 0, (coreAllocatePoolI s type size poolStart start).2)
          else
            (.success, some (coreAllocatePoolI s type size poolStart start).1,
              (coreAllocatePoolI s type size poolStart start).2) := by
  rw [coreAllocatePool]
  split
  · exact .inl ⟨nofun, rfl⟩
  · split
    · exact .inl ⟨nofun, rfl⟩
    · rename_i h
      exact .inr ⟨Nat.le_of_not_lt h, rfl⟩

theorem coreAllocatePool_inv (h : Inv s) (hb : Busy s) (hfit : FitsIfTaken size) :
    Inv (coreAllocatePool s type size poolStart start).2.2 ∧
      Busy (coreAllocatePool s type size poolStart start).2.2 := by
  rcases @coreAllocatePool_cases s type size poolStart start with ⟨-, he⟩ | ⟨hmax, he⟩
  · rw [he]
    exact ⟨h, hb⟩
  · have hfit := hfit.resolve_right (Nat.not_lt.mpr hmax)
    obtain ⟨s₁, h1, hb1, -, ho⟩ := coreAllocatePoolI_outcome type poolStart start h hb hfit
    have h2 : (coreAllocatePool s type size poolStart start).2.2 = (coreAllocatePoolI s type size poolStart start).2 := by
      rw [he]
      split <;> rfl
    rw [h2]
    rcases ho with ho | ho
    · rw [ho]
      exact ⟨h1, hb1⟩
    · exact ⟨ho.inv, ho.busy⟩

theorem step_inv (h : Inv s ∧ Busy s) (hok : e.Asks FitsIfTaken) (hs : step s e = some s') : Inv s' ∧ Busy s' := by
  cases e with
  | allocate type size poolStart start =>
    obtain rfl := Option.some.inj hs
    exact coreAllocatePool_inv h.1 h.2 hok
  | free buffer poolStart =>
    rw [step] at hs
    split at hs
    · rename_i hm
      obtain rfl := Option.some.inj hs
      exact coreFreePool_inv h.1 h.2 hm
    · cases hs

theorem reachable_inv (h : Reachable FitsIfTaken s) : Inv s ∧ Busy s := by
  obtain ⟨es, hrun⟩ := h
  exact hrun.invariant (fun s => Inv s ∧ Busy s) ⟨inv_initialState, nofun⟩ fun _ _ _ => step_inv

/-! ## Allocation -/

theorem Allocated.sound {s₁ : State} {buffer : Nat} (h : Inv s₁) (hfit : Fits size)
    (ha : Allocated s₁ s' type size buffer) (hsub : ∀ l ∈ s.live, l ∈ s₁.live) : Sound s s' type size buffer := by
  obtain ⟨head, hlive, rfl⟩ := ha.live
  obtain ⟨hsize, -, -⟩ := totalSize_of_fits hfit
  have hmem : (⟨head, totalSize size, type⟩ : Block) ∈ s'.live := hlive ▸ List.mem_cons_self
  have ok := ha.inv.live _ hmem
  obtain ⟨r, hb, -⟩ := ok.block
  have hfits := ha.inv.live_fits hmem hb
  have hapart : ∀ l ∈ s₁.live, Apart head (head + totalSize size) l.head (l.head + l.size) := by
    intro l hl
    have hn := ha.inv.heads
    rw [hlive, List.map_cons, List.nodup_cons] at hn
    refine ha.inv.live_apart hmem (hlive ▸ List.mem_cons_of_mem _ hl) ?_
    rintro rfl
    exact hn.1 (List.mem_map_of_mem hl)
  refine ⟨?_, head, totalSize size, rfl, hsize, ok.header, ok.tail, ha.inv.live_range hmem, ?_, ?_, ?_⟩
  · have h1 := blocksOf_dvd hb.2.choose_spec.2 (ha.inv.ranges.aligned r hb.1)
    simp only at h1
    rw [sizeOfPoolHead]
    omega
  · exact fun l hl => hapart l (hsub l hl)
  · intro t i a hin
    obtain ⟨hm, r', hb', -⟩ := ha.inv.listed t i a hin
    have hi := ha.inv.listed_small hin
    rcases ha.inv.isBlock_apart hb hb' with ⟨-, he⟩ | h1
    · have h2 := ok.header
      have h3 : head = a := congrArg Prod.fst he
      rw [← h3] at hm
      cases hm.symm.trans h2
    · simp only at h1 hfits
      rw [blockLimit, blockLimit, if_pos hi] at h1
      rw [blockLimit] at hfits
      exact h1.imp (fun h3 => Nat.le_trans hfits h3) id
  · rw [ha.pools]
    intro p hp
    obtain ⟨-, l, hl, h1, -, h2⟩ := h.pools p hp
    have h3 := hapart l hl
    rw [h1]
    simp only [poolOverhead, sizeOfPoolHead, sizeOfPoolTail, sizeOfPool] at *
    rcases h3 with h3 | h3
    · exact .inl (by omega)
    · exact .inr (by omega)

/-- The header of the block holds 32 bits of its size. -/
def WritesHeader (type : MemoryType) (total : Nat) (r : Nat × State) : Prop :=
  r.1 ≠ 0 → ∃ head, r.1 = head + sizeOfPoolHead ∧ r.2.memory head = some (.poolHead (uint32 total) type)

theorem takeFree_header {total : Nat} : WritesHeader type total (takeFree s type total) := by
  rw [takeFree]
  split
  · exact fun h => absurd rfl h
  · exact fun _ => ⟨_, rfl, if_pos rfl⟩

theorem allocateEntry_header : WritesHeader type (totalSize size) (allocateEntry s type size start) := by
  simp only [allocateEntry]
  rw [← totalSize]
  split
  · split
    · exact fun h => absurd rfl h
    · exact fun _ => ⟨_, rfl, if_pos rfl⟩
  · split
    · split
      · exact fun h => absurd rfl h
      · exact takeFree_header
    · exact takeFree_header

theorem coreAllocatePoolI_header :
    WritesHeader type (totalSize size) (coreAllocatePoolI s type size poolStart start) := by
  rw [coreAllocatePoolI]
  simp only
  split
  · exact allocateEntry_header
  · exact fun h => absurd rfl h

/-- In a run whose sizes fit, an allocation that succeeds hands out a block of its own if and only if its size
fits. -/
theorem coreAllocatePool_sound (h : Reachable FitsIfTaken s)
    (hs : (coreAllocatePool s type size poolStart start).1 = .success) :
    (∃ buffer, (coreAllocatePool s type size poolStart start).2.1 = some buffer ∧
      Sound s (coreAllocatePool s type size poolStart start).2.2 type size buffer) ↔ Fits size := by
  obtain ⟨hinv, hb⟩ := reachable_inv h
  rcases @coreAllocatePool_cases s type size poolStart start with ⟨hne, -⟩ | ⟨hmax, he⟩
  · exact absurd hs hne
  · rw [he] at hs ⊢
    split at hs
    · cases hs
    · rename_i hne
      rw [if_neg hne]
      constructor
      · rintro ⟨buffer, hbuf, -, head, total, rfl, hsize, hm, -⟩
        obtain ⟨head', hh, hm'⟩ := coreAllocatePoolI_header hne
        obtain rfl : head' = head := Nat.add_right_cancel (hh.symm.trans (Option.some.inj hbuf))
        obtain ⟨ht, -⟩ := Header.poolHead.inj (Option.some.inj (hm'.symm.trans hm))
        simp only [Fits, totalSize, alignVariable, uintn, uint32, maxPoolSize, maxAddress, poolOverhead,
          sizeOfPoolHead, sizeOfPoolTail] at *
        omega
      · intro hfit
        obtain ⟨s₁, h1, hb1, hsub, ho⟩ :=
          coreAllocatePoolI_outcome type poolStart start hinv hb hfit
        rcases ho with ho | ho
        · rw [ho] at hne
          exact absurd rfl hne
        · exact ⟨_, rfl, ho.sound h1 hfit hsub⟩

/-! ## Conservation -/

theorem tiles_blocksOf {r : PageRange} {hd : Header} (ok : RangeOk s r hd) (hp : 0 < r.pages) :
    Tiles Prod.fst (blockLimit r · - 1) r.base (blocksOf r hd.index) r.limit := by
  have hlim := r.limit_eq
  by_cases hi : hd.index < maxPoolList
  · rw [blocksOf_page hi, hlim, ok.page hi]
    refine tiles_pageBlocks.congr fun b hb => ⟨rfl, ?_⟩
    have h1 := pageBlocks_mem hb
    rw [blockLimit, if_pos (Nat.lt_of_le_of_lt h1.2.2 hi)]
    rfl
  · have hb : blocksOf r hd.index = [(r.base, hd.index)] := if_neg hi
    rw [hb]
    refine ⟨rfl, ?_, ?_⟩
    · show r.base ≤ blockLimit r (r.base, hd.index) - 1
      rw [blockLimit, if_neg hi]
      omega
    · show blockLimit r (r.base, hd.index) - 1 + 1 = r.limit
      rw [blockLimit, if_neg hi]
      omega

theorem Inv.conserved (h : Inv s) (hb : Busy s) : Conserved s where
  tiled r hr := by
    obtain ⟨hd, ok⟩ := h.tiled r hr
    exact ⟨hd.index, tiles_blocksOf ok (h.ranges.pos r hr).2, ok.blocks⟩
  fits l hl := by
    obtain ⟨r, hib, ht⟩ := (h.live l hl).block
    have h1 := h.isBlock_mem hib
    have h2 := h.live_fits hl hib
    refine ⟨r, hib.1, ht, h1.1, Nat.le_trans h2 h1.2.2, fun hs => ?_⟩
    obtain ⟨he, size, type, hm, hp⟩ := h.isBlock_large hib hs
    have h3 := (h.live l hl).header
    simp only at he
    rw [he, hm] at h3
    rw [← (Header.poolHead.inj (Option.some.inj h3)).1]
    exact ⟨he, hp⟩
  listed t i a ha := by
    obtain ⟨hm, r, hib, ht⟩ := h.listed t i a ha
    refine ⟨hm, List.count_eq_one_of_mem (h.nodup t i) ha, fun t' i' ha' => ?_⟩
    obtain ⟨hm', r', hib', ht'⟩ := h.listed t' i' a ha'
    obtain ⟨rfl, he⟩ := h.isBlock_eq hib' hib rfl
    exact ⟨ht'.symm.trans ht, congrArg Prod.snd he⟩
  used := h.used
  returned t hno := by
    refine ⟨h.no_list hb hno, ?_, fun r hr => h.no_range hb hno hr⟩
    rw [h.used, liveSize_eq_zero hno]

end

/-! ## Single runs -/

def runEvents (es : List Event) : State := (es.foldlM step initialState).getD initialState

theorem reachable_runEvents {p : Nat → Prop} {es : List Event} (hok : ∀ e ∈ es, e.Asks p)
    (h : (es.foldlM step initialState).isSome = true) : Reachable p (runEvents es) := by
  obtain ⟨s, hs⟩ := Option.isSome_iff_exists.mp h
  exact ⟨es, Run.of_foldlM (fun _ => hok) (by rw [runEvents, hs]; rfl)⟩

/-- A small block, a block of an OS loader's type, a range of its own, and the small block is freed. -/
def poolEvents : List Event :=
  [.allocate 4 100 0 0x8000, .allocate (-5) 1000 0x9000 0xa000, .allocate 4 100000 0 0x40000, .free 0x8f18 0]

example : (runEvents poolEvents).live.map Block.head = [0x40000, 0xa900, 0x9c80] := by decide +kernel

theorem coreAllocatePool_sound_sample :
    ∃ buffer, (coreAllocatePool (runEvents poolEvents) 4 3000 0 0x8000).2.1 = some buffer ∧
      Sound (runEvents poolEvents) (coreAllocatePool (runEvents poolEvents) 4 3000 0 0x8000).2.2 4 3000 buffer :=
  (coreAllocatePool_sound (reachable_runEvents (by decide +kernel) (by decide +kernel)) (by decide +kernel)).mpr
    (by decide)

/-- The largest size wraps to an empty block. -/
theorem coreAllocatePool_maxPoolSize :
    Reachable (· ≤ maxPoolSize) initialState ∧
      (coreAllocatePool initialState 4 maxPoolSize 0 0x8000).1 = .success ∧
      ¬∃ buffer, (coreAllocatePool initialState 4 maxPoolSize 0 0x8000).2.1 = some buffer ∧
        Sound initialState (coreAllocatePool initialState 4 maxPoolSize 0 0x8000).2.2 4 maxPoolSize buffer := by
  refine ⟨⟨[], .nil⟩, by decide +kernel, ?_⟩
  rintro ⟨buffer, hb, -, head, total, rfl, hsize, hm, -⟩
  have h1 : (coreAllocatePool initialState 4 maxPoolSize 0 0x8000).2.1 = some (0x8f80 + sizeOfPoolHead) := by
    decide +kernel
  have h2 : (coreAllocatePool initialState 4 maxPoolSize 0 0x8000).2.2.memory 0x8f80 = some (.poolHead 0 4) := by
    decide +kernel
  obtain rfl : 0x8f80 = head := Nat.add_right_cancel (Option.some.inj (h1.symm.trans hb))
  obtain ⟨rfl, -⟩ := Header.poolHead.inj (Option.some.inj (h2.symm.trans hm))
  exact absurd hsize (by decide)

/-- A block whose size has more than 32 bits in all, and its pages when it is freed. -/
def truncatedEvents : List Event := [.allocate 4 (2 ^ 32 - 8) 0 0x8000, .free 0x8018 0]

end Udk.Pool
