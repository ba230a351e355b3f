import Udk.DevicePath.Paths

/-! # Copies and concatenations of device paths

The functions that return a new path: what is in its block, and that every other block is left as it is.
-/

namespace Udk.DevicePath
open Bytes

/-! ## Blocks -/

/-- The blocks that `h` has are the same in `h'`. -/
structure Heap.Extends (h h' : Heap) : Prop where
  next : h.next ≤ h'.next
  bytes : ∀ b < h.next, h'.bytes b = h.bytes b
  size : ∀ b < h.next, h'.size b = h.size b

/-- A block that `h` does not have, with these bytes and no more. -/
structure Heap.New (h h' : Heap) (p : Pointer) (bs : List UInt8) : Prop where
  start : p.offset = 0
  fresh : h.next ≤ p.block
  allocated : p.block < h'.next
  holds : h'.Holds p bs
  size : h'.size p.block = bs.length

/-- A path in a block of its own, and `NULL` if the pool has no memory. -/
structure Gives (env : Environment) (h : Heap) (bs : List UInt8) (r : Option Pointer) (h' : Heap) : Prop where
  keeps : h.Extends h'
  granted : r.isSome = true ↔ ∀ k, h.next ≤ k → k < h'.next → env.grants k = true
  path : ∀ p ∈ r, h.New h' p bs

section
variable {env : Environment} {h h' h'' : Heap} {p q : Pointer} {xs ys bs : List UInt8} {n k fuel : Nat}
  {items items' : List Item}

theorem Heap.Extends.refl : h.Extends h := ⟨Nat.le_refl _, fun _ _ => rfl, fun _ _ => rfl⟩

theorem Heap.Extends.trans (h₁ : h.Extends h') (h₂ : h'.Extends h'') : h.Extends h'' where
  next := Nat.le_trans h₁.next h₂.next
  bytes b hb := (h₂.bytes b (Nat.lt_of_lt_of_le hb h₁.next)).trans (h₁.bytes b hb)
  size b hb := (h₂.size b (Nat.lt_of_lt_of_le hb h₁.next)).trans (h₁.size b hb)

theorem Heap.Holds.congr (hp : h.Holds p bs) (hb : h'.bytes p.block = h.bytes p.block) : h'.Holds p bs := by
  unfold Heap.Holds at *
  rwa [hb]

theorem Heap.Owns.mono (hp : h.Owns p bs) (he : h.Extends h') : h'.Owns p bs :=
  ⟨hp.holds.congr (he.bytes _ hp.allocated), Nat.lt_of_lt_of_le hp.allocated he.next⟩

theorem Heap.New.owns (hp : h.New h' p bs) : h'.Owns p bs := ⟨hp.holds, hp.allocated⟩

theorem Heap.New.mono (hp : h.New h' p bs) (he : h'.Extends h'') : h.New h'' p bs :=
  ⟨hp.start, hp.fresh, Nat.lt_of_lt_of_le hp.allocated he.next, (hp.owns.mono he).holds,
    (he.size _ hp.allocated).trans hp.size⟩

theorem Heap.New.earlier (hp : h'.New h'' p bs) (he : h.Extends h') : h.New h'' p bs :=
  ⟨hp.start, Nat.le_trans he.next hp.fresh, hp.allocated, hp.holds, hp.size⟩

/-- The new block at the end of `h`. -/
def Heap.newBlock (h : Heap) : Pointer := ⟨h.next, 0⟩

/-- `h` with a block of `n` bytes at its end, which starts with `bs`. -/
structure Heap.Filled (h h' : Heap) (n : Nat) (bs : List UInt8) : Prop where
  keeps : h.Extends h'
  next : h'.next = h.next + 1
  size : h'.size h.next = n
  holds : h'.Holds h.newBlock bs

/-- `AllocatePool` gets a block, or nothing. -/
theorem allocatePool_cases (env : Environment) (n : Nat) (h : Heap) :
    ∃ h', h.Extends h' ∧ h'.next = h.next + 1 ∧
      (env.grants h.next = true ∧ allocatePool env n h = (some h.newBlock, h') ∧ h.Filled h' n [] ∨
        env.grants h.next = false ∧ allocatePool env n h = (none, h')) := by
  cases hg : env.grants h.next with
  | false =>
    refine ⟨_, ⟨?_, ?_, ?_⟩, ?_, .inr ⟨rfl, by rw [allocatePool, if_neg (by rw [hg]; decide)]⟩⟩
    · exact Nat.le_succ _
    · exact fun _ _ => rfl
    · exact fun _ _ => rfl
    · rfl
  | true =>
    have hkeeps : h.Extends (allocatePool env n h).2 := by
      rw [allocatePool, if_pos hg]
      exact ⟨Nat.le_succ _, fun b hb => if_neg (Nat.ne_of_lt hb), fun b hb => if_neg (Nat.ne_of_lt hb)⟩
    refine ⟨(allocatePool env n h).2, hkeeps, ?_, .inl ⟨rfl, ?_, hkeeps, ?_, ?_, at_nil _ _⟩⟩
    · rw [allocatePool, if_pos hg]
    · rw [allocatePool, if_pos hg]
      rfl
    · rw [allocatePool, if_pos hg]
    · rw [allocatePool, if_pos hg]
      exact if_pos rfl

/-- `h'` is `h` with these bytes at the pointer. -/
structure Stored (p : Pointer) (bs : List UInt8) (h h' : Heap) : Prop where
  inside : h'.bytes p.block = write (h.bytes p.block) p.offset bs
  outside : ∀ b ≠ p.block, h'.bytes b = h.bytes b
  size : h'.size = h.size
  next : h'.next = h.next

theorem store_spec (hroom : p.offset + bs.length ≤ h.size p.block) : ∃ h', store p bs h = some h' ∧ Stored p bs h h' :=
  ⟨_, if_pos hroom, if_pos rfl, fun _ hb => if_neg hb, rfl, rfl⟩

theorem Heap.Filled.front (hf : h.Filled h' n (xs ++ ys)) : h.Filled h' n xs :=
  ⟨hf.keeps, hf.next, hf.size, (Heap.holds_append.mp hf.holds).1⟩

theorem Stored.replaced {ys' zs : List UInt8} (hst : Stored (p.add xs.length) ys' h h')
    (hp : h.Holds p (xs ++ (ys ++ zs))) (hlength : ys'.length = ys.length) : h'.Holds p (xs ++ (ys' ++ zs)) := by
  have hbytes : h'.bytes p.block = write (h.bytes p.block) (p.offset + xs.length) ys' := hst.inside
  obtain ⟨hx, hyz⟩ := (at_append _ _ _ _).mp hp
  unfold Heap.Holds
  rw [hbytes]
  refine (at_append _ _ _ _).mpr ⟨(at_write _ _ _ _ _ (.inr (Nat.le_refl _))).mpr hx,
    (at_append _ _ _ _).mpr ⟨write_at _ _ _, (at_write _ _ _ _ _ (.inl (Nat.le_refl _))).mpr ?_⟩⟩
  rw [hlength]
  exact ((at_append _ _ _ _).mp hyz).2

/-- A store into the new block. -/
theorem Heap.Filled.stored (hf : h.Filled h' n xs) (hst : Stored (h.newBlock.add k) bs h' h'')
    (hp : h''.Holds h.newBlock ys) : h.Filled h'' n ys where
  keeps :=
    { next := hst.next ▸ hf.keeps.next
      bytes := fun b hb => (hst.outside b (Nat.ne_of_lt hb)).trans (hf.keeps.bytes b hb)
      size := fun b hb => (congrFun hst.size b).trans (hf.keeps.size b hb) }
  next := hst.next.trans hf.next
  size := (congrFun hst.size _).trans hf.size
  holds := hp

theorem Heap.Filled.room (hf : h.Filled h' n xs) (hroom : k + ys.length ≤ n) :
    (h.newBlock.add k).offset + ys.length ≤ h'.size (h.newBlock.add k).block := by
  rw [Pointer.add_block, Heap.newBlock, hf.size, Pointer.add_offset, Nat.zero_add]
  exact hroom

/-- A store behind the bytes that the new block has to keep. -/
theorem store_filled (hf : h.Filled h' n xs) (hroom : xs.length + ys.length ≤ n) :
    ∃ h'', store (h.newBlock.add xs.length) ys h' = some h'' ∧ h.Filled h'' n (xs ++ ys) := by
  obtain ⟨h'', hs, hst⟩ := store_spec (hf.room hroom)
  have hbytes : h''.bytes h.newBlock.block = write (h'.bytes h.newBlock.block) (h.newBlock.add xs.length).offset ys :=
    hst.inside
  refine ⟨h'', hs, hf.stored hst ((at_append _ _ _ _).mpr ⟨?_, ?_⟩)⟩
  · rw [hbytes]
    exact (at_write _ _ _ _ _ (.inr (Nat.le_refl _))).mpr hf.holds
  · rw [hbytes]
    exact write_at _ _ _

/-- A copy into the new block from another one. -/
theorem copyMem_filled (hf : h.Filled h' n xs) (hq : h.Owns q ys) (hroom : xs.length + ys.length ≤ n) :
    ∃ h'', copyMem (h.newBlock.add xs.length) q ys.length h' = some h'' ∧ h.Filled h'' n (xs ++ ys) := by
  have hread : read (h'.bytes q.block) q.offset ys.length = ys := (hq.mono hf.keeps).holds
  rw [copyMem, hread]
  exact store_filled hf hroom

theorem Heap.Filled.gives (hf : h.Filled h' bs.length bs) (hg : env.grants h.next = true) :
    Gives env h bs (some h.newBlock) h' where
  keeps := hf.keeps
  granted := by
    refine ⟨fun _ k hk hlt => ?_, fun _ => rfl⟩
    rw [hf.next] at hlt
    obtain rfl : k = h.next := by omega
    exact hg
  path p hp := by
    obtain rfl := Option.some.inj hp
    exact ⟨rfl, Nat.le_refl _, Nat.lt_of_lt_of_eq (Nat.lt_succ_self _) hf.next.symm, hf.holds, hf.size⟩

theorem gives_none (hk : h.Extends h') (hn : h'.next = h.next + 1) (hg : env.grants h.next = false) :
    Gives env h bs none h' where
  keeps := hk
  granted := by
    refine ⟨nofun, fun hall => ?_⟩
    rw [hall h.next (Nat.le_refl _) (by omega)] at hg
    cases hg
  path p hp := by cases hp

/-! ## Copies -/

theorem allocateCopyPool_spec (env : Environment) (hp : h.Owns p bs) :
    ∃ r h', allocateCopyPool env bs.length p h = some (r, h') ∧ h'.next = h.next + 1 ∧ Gives env h bs r h' := by
  obtain ⟨h₁, hk, hn, ⟨hg, ha, hf⟩ | ⟨hg, ha⟩⟩ := allocatePool_cases env bs.length h
  · obtain ⟨h₂, hc, hf₂⟩ := copyMem_filled hf hp (by simp)
    refine ⟨some h.newBlock, h₂, ?_, hf₂.next, hf₂.gives hg⟩
    rw [allocateCopyPool, ha]
    simp only
    rw [show copyMem h.newBlock p bs.length h₁ = some h₂ from hc, Option.map_some]
  · refine ⟨none, h₁, ?_, hn, gives_none hk hn hg⟩
    rw [allocateCopyPool, ha]

theorem duplicateDevicePath_spec (env : Environment) (hp : h.Owns p (encode items)) (hfuel : items.length < fuel) :
    ∃ r h', duplicateDevicePath env fuel (some p) h = some (r, h') ∧ h'.next = h.next + 1 ∧
      Gives env h (encode items) r h' := by
  have hne : (encode items).length ≠ 0 := by rw [encode_length]; exact Nat.succ_ne_zero _
  obtain ⟨r, h', hr, hg⟩ := allocateCopyPool_spec env hp
  refine ⟨r, h', ?_, hg⟩
  rw [duplicateDevicePath, getDevicePathSize_path hp.holds hfuel]
  simp only [Option.bind_eq_bind, Option.bind_some, if_neg hne]
  exact hr

/-! ## Concatenations -/

theorem appendDevicePath_spec (env : Environment) (hp : h.Owns p (encode items)) (hq : h.Owns q (encode items'))
    (hfuel : (items ++ items').length < fuel) :
    ∃ r h', appendDevicePath env fuel (some p) (some q) h = some (r, h') ∧ h'.next = h.next + 1 ∧
      Gives env h (encode (items ++ items')) r h' := by
  rw [List.length_append] at hfuel
  have hlength : (encode items).length + (encode items').length - endDevicePathLength =
      (encode (items ++ items')).length := by
    rw [encode_append, List.length_append, encode_length items]
    omega
  have hle : (encode items).length ≤ (encode (items ++ items')).length := by
    rw [← hlength, encode_length items']
    omega
  have hstart : (encode items).length - endDevicePathLength = (encodeItems items).length := by
    rw [encode_length, Nat.add_sub_cancel]
  rw [appendDevicePath, getDevicePathSize_path hp.holds (by omega), getDevicePathSize_path hq.holds (by omega)]
  simp only [Option.bind_eq_bind, Option.bind_some, hlength, hstart]
  obtain ⟨h₁, hk, hn, ⟨hg, ha, hf⟩ | ⟨hg, ha⟩⟩ := allocatePool_cases env (encode (items ++ items')).length h
  · obtain ⟨h₂, hc₁, hf₁⟩ := copyMem_filled hf hp (by simpa using hle)
    have hc₁' : copyMem h.newBlock p (encode items).length h₁ = some h₂ := hc₁
    -- the end node of the first path is overwritten
    have hfront : h.Filled h₂ (encode (items ++ items')).length (encodeItems items) := by
      rw [List.nil_append, encode] at hf₁
      exact hf₁.front
    obtain ⟨h₃, hc₂, hf₂⟩ := copyMem_filled hfront hq (Nat.le_of_eq (by
      rw [encode_append, List.length_append]))
    rw [← encode_append] at hf₂
    refine ⟨some h.newBlock, h₃, ?_, hf₂.next, hf₂.gives hg⟩
    rw [ha]
    simp only [hc₁', Option.bind_some]
    rw [show copyMem { h.newBlock with offset := h.newBlock.offset + (encodeItems items).length } q
      (encode items').length h₂ = some h₃ from hc₂, Option.bind_some]
  · refine ⟨none, h₁, ?_, hn, gives_none hk hn hg⟩
    rw [ha]

/-- A node that is not the end of anything. -/
theorem appendDevicePathNode_spec (env : Environment) {n : Node} (hp : h.Owns p (encode items))
    (hq : h.Owns q (Item.node n).encode) (hfuel : items.length + 1 < fuel) :
    ∃ r h', appendDevicePathNode env fuel (some p) (some q) h = some (r, h') ∧
      Gives env h (encode (items ++ [.node n])) r h' := by
  have hlength : devicePathNodeLength h q = (Item.node n).encode.length := by
    rw [(hq.holds.header (Item.fits _)).2.2, Item.encode_length]
  rw [appendDevicePathNode]
  simp only [hlength]
  obtain ⟨h₁, hk, hn, ⟨hg, ha, hf⟩ | ⟨hg, ha⟩⟩ :=
    allocatePool_cases env ((Item.node n).encode.length + endDevicePathLength) h
  · obtain ⟨h₂, hc₁, hf₁⟩ := copyMem_filled hf hq (by simp)
    have hc₁' : copyMem h.newBlock q (Item.node n).encode.length h₁ = some h₂ := hc₁
    obtain ⟨h₃, hc₂, hf₂⟩ := store_filled hf₁ (show _ + (endNode endEntireDevicePathSubType).length ≤ _ by simp)
    have hnext : nextDevicePathNode h₂ h.newBlock = h.newBlock.add (Item.node n).encode.length := hf₁.holds.item.2.2
    have htemp : h₃.Owns h.newBlock (encode [.node n]) := by
      refine ⟨?_, Nat.lt_of_lt_of_eq (Nat.lt_succ_self _) hf₂.next.symm⟩
      rw [encode, encodeItems_cons, encodeItems, List.flatMap_nil, List.append_nil]
      exact hf₂.holds
    obtain ⟨r, h₄, hr, hn₄, hgives⟩ := appendDevicePath_spec env (hp.mono hf₂.keeps) htemp
      (show (items ++ [Item.node n]).length < fuel by simpa using hfuel)
    have hn₃ := hf₂.next
    have hfree : h₄.Extends (freePool h.newBlock h₄) := ⟨Nat.le_refl _, fun _ _ => rfl, fun _ _ => rfl⟩
    refine ⟨r, freePool h.newBlock h₄, ?_, ⟨hf₂.keeps.trans (hgives.keeps.trans hfree), ?_,
      fun p' hp' => ((hgives.path p' hp').earlier hf₂.keeps).mono hfree⟩⟩
    · rw [ha]
      simp only [hc₁', Option.bind_eq_bind, Option.bind_some, hnext]
      rw [setDevicePathEndNode, show store (h.newBlock.add (Item.node n).encode.length) _ h₂ = some h₃ from hc₂,
        Option.bind_some, hr, Option.bind_some]
    · rw [hgives.granted]
      refine ⟨fun hall k hle hlt => ?_, fun hall k hle hlt => hall k (by omega) hlt⟩
      by_cases hfirst : k = h.next
      · rwa [hfirst]
      · exact hall k (by omega) hlt
  · refine ⟨none, h₁, ?_, gives_none hk hn hg⟩
    rw [ha]

end

end Udk.DevicePath
