import Udk.NetBuffer.Flat

/-! # The ends of a network buffer -/

namespace Udk.NetBuffer

open Bytes

section
variable {nbuf : NetBuf} {len : Nat} {fromHead : Bool}

/-! ## `NetbufAllocSpace` -/

theorem indexOf_eq (h : nbuf.Good) {offset : Nat} {pre rest : List BlockOp} {op : BlockOp}
    (hp : Place nbuf.blockOps offset pre op rest) : indexOf nbuf offset = pre.length := by
  have htotal := h.total
  have hlt := h.lt
  have hsizes := hp.sizes_eq
  have h1 := hp.le
  have h2 := hp.lt
  unfold indexOf netbufGetByte
  rw [if_neg (by omega), hp.eq, getByteLoop_append (by omega) (by omega) (by omega)]
  simp

/-- The block that the space is taken from: only empty ones are in front of it, or behind. -/
structure AtEnd (nbuf : NetBuf) (fromHead : Bool) (pre : List BlockOp) (op : BlockOp) (rest : List BlockOp) : Prop where
  eq : nbuf.blockOps = pre ++ op :: rest
  head : fromHead = true → sizes pre = 0
  tail : fromHead = false → sizes rest = 0

theorem spaceIndex_spec (h : nbuf.Good) :
    ∃ pre op rest, AtEnd nbuf fromHead pre op rest ∧ spaceIndex nbuf len fromHead = some pre.length := by
  have htotal := h.total
  unfold spaceIndex
  by_cases hzero : nbuf.totalSize = 0
  · rw [if_pos hzero]
    obtain ⟨op, rest, heq⟩ := List.exists_cons_of_ne_nil h.nonempty
    refine ⟨[], op, rest, ⟨heq, fun _ => rfl, fun _ => ?_⟩, rfl⟩
    rw [heq, sizes_cons] at htotal
    omega
  rw [if_neg hzero]
  cases fromHead with
  | true =>
    simp only [if_true]
    obtain ⟨pre, op, rest, hp⟩ := exists_place nbuf.blockOps 0 (by omega)
    have hle := hp.le
    rw [indexOf_eq h hp, hp.getElem?, Option.map_some]
    split
    · rename_i hmove
      -- The block in front, which is empty.
      obtain ⟨pre', o, rfl⟩ := List.eq_nil_or_concat' pre |>.resolve_left (by rintro rfl; simp at hmove)
      rw [sizes_append] at hle
      refine ⟨pre', o, op :: rest, ⟨by rw [hp.eq]; simp, fun _ => by omega, nofun⟩, ?_⟩
      simp
    · exact ⟨pre, op, rest, ⟨hp.eq, fun _ => by omega, nofun⟩, rfl⟩
  | false =>
    simp only [Bool.false_eq_true, if_false]
    obtain ⟨pre, op, rest, hp⟩ := exists_place nbuf.blockOps (nbuf.totalSize - 1) (by omega)
    have hsizes := hp.sizes_eq
    have hlt := hp.lt
    rw [indexOf_eq h hp, hp.getElem?, Option.map_some]
    split
    · rename_i hmove
      -- The block behind, which is empty.
      have hlength : nbuf.blockOps.length = pre.length + (rest.length + 1) := by rw [hp.eq]; simp
      obtain ⟨o, rest', rfl⟩ := List.exists_cons_of_ne_nil (l := rest) (by rintro rfl; simp at hlength; omega)
      rw [sizes_cons] at hsizes
      refine ⟨pre ++ [op], o, rest', ⟨by rw [hp.eq]; simp, nofun, fun _ => by omega⟩, ?_⟩
      simp
    · exact ⟨pre, op, rest, ⟨hp.eq, nofun, fun _ => by omega⟩, rfl⟩

/-- A block whose bytes grow by `len`. -/
def grownOp (op : BlockOp) (len : Nat) (fromHead : Bool) : BlockOp :=
  if fromHead then { op with head := op.head - len, size := op.size + len }
  else { op with tail := op.tail + len, size := op.size + len }

theorem grownOp_good {op : BlockOp} (h : op.Good)
    (hroom : len ≤ if fromHead then op.head - op.blockHead else op.blockTail - op.tail) :
    (grownOp op len fromHead).Good := by
  have h1 := h.head
  have h2 := h.tail
  have h3 := h.blockTail
  cases fromHead with
  | true =>
    simp only [if_true] at hroom
    refine ⟨?_, ?_, h.blockTail, h.pointer, h.len⟩
    · simp only [grownOp, if_true]
      omega
    · simp only [grownOp, if_true]
      omega
  | false =>
    simp only [Bool.false_eq_true, if_false] at hroom
    refine ⟨h1, ?_, ?_, h.pointer, h.len⟩
    · simp only [grownOp, Bool.false_eq_true, if_false]
      omega
    · simp only [grownOp, Bool.false_eq_true, if_false]
      omega

/-- The new space, and what is in the buffer then. -/
structure HasSpace (nbuf : NetBuf) (len : Nat) (fromHead : Bool) (p : Nat) (nbuf' : NetBuf) : Prop where
  good : nbuf'.Good
  flat : ∀ m, flat m nbuf' = if fromHead then read m p len ++ flat m nbuf else flat m nbuf ++ read m p len
  room : ∃ op ∈ nbuf.blockOps, op.blockHead ≤ p ∧ p + len ≤ op.blockTail
  blocks : nbuf'.blockOps.map (fun op => (op.blockHead, op.blockTail)) =
    nbuf.blockOps.map fun op => (op.blockHead, op.blockTail)

theorem netbufAllocSpace_spec (h : nbuf.Good) (hsum : nbuf.totalSize + len < 2 ^ 32) :
    ∃ r nbuf', netbufAllocSpace nbuf len fromHead = some (r, nbuf') ∧ (r = none → nbuf' = nbuf) ∧
      ∀ p, r = some p → HasSpace nbuf len fromHead p nbuf' := by
  obtain ⟨pre, op, rest, hend, hindex⟩ := @spaceIndex_spec nbuf len fromHead h
  have htotal := h.total
  have hop : op ∈ nbuf.blockOps := by rw [hend.eq]; simp
  have hgood := h.ops op hop
  have hget : nbuf.blockOps[pre.length]? = some op := by rw [hend.eq]; simp
  have hsizes : sizes nbuf.blockOps = sizes pre + (op.size + sizes rest) := by rw [hend.eq, sizes_append, sizes_cons]
  unfold netbufAllocSpace
  simp only [hindex, hget, hgood.headSpace_eq, hgood.tailSpace_eq]
  by_cases hroom : (if fromHead then op.head - op.blockHead else op.blockTail - op.tail) < len
  · rw [if_pos hroom]
    exact ⟨none, nbuf, rfl, fun _ => rfl, nofun⟩
  rw [if_neg hroom]
  have hgrown := grownOp_good hgood (Nat.not_lt.mp hroom)
  have hset : nbuf.blockOps.set pre.length (grownOp op len fromHead) = pre ++ grownOp op len fromHead :: rest := by
    rw [hend.eq]
    simp
  have hsize : (grownOp op len fromHead).size = op.size + len := by
    cases fromHead <;> rfl
  rw [uint32_of_lt hsum, uint32_of_lt (by omega)]
  refine ⟨_, _, rfl, nofun, fun p hp => ?_⟩
  obtain rfl := Option.some.inj hp
  have hbufOps : nbuf.blockOps.set pre.length (if fromHead then
      { op with head := op.head - len, size := op.size + len }
      else { op with tail := op.tail + len, size := op.size + len }) = pre ++ grownOp op len fromHead :: rest := hset
  simp only [hbufOps]
  have hmem : ∀ o ∈ pre ++ grownOp op len fromHead :: rest, o.Good := by
    intro o ho
    simp only [List.mem_append, List.mem_cons] at ho
    rcases ho with ho | rfl | ho
    · exact h.ops o (by rw [hend.eq]; simp [ho])
    · exact hgrown
    · exact h.ops o (by rw [hend.eq]; simp [ho])
  refine ⟨⟨hmem, ?_, hsum, by simp, ?_⟩, fun m => ?_, ⟨op, hop, ?_⟩, ?_⟩
  · simp only [sizes_append, sizes_cons, hsize]
    omega
  · have := h.num
    rw [hend.eq] at this
    simpa using this
  · have hhead := hend.head
    have htail := hend.tail
    rw [flat, flat, hend.eq]
    cases fromHead with
    | true =>
      have h1 := hgood.head
      simp only [if_true] at hroom ⊢
      rw [flatOps_append, flatOps_eq_nil m (hhead rfl), List.nil_append, flatOps_append, flatOps_eq_nil m (hhead rfl),
        List.nil_append, flatOps_cons, flatOps_cons, ← List.append_assoc]
      simp only [BlockOp.bytes, grownOp, if_true]
      rw [Nat.add_comm op.size, read_add, show op.head - len + len = op.head by omega]
    | false =>
      simp only [Bool.false_eq_true, if_false]
      rw [flatOps_append, flatOps_append, flatOps_cons, flatOps_cons, flatOps_eq_nil m (htail rfl), List.append_nil,
        List.append_nil, List.append_assoc]
      simp only [BlockOp.bytes, grownOp, Bool.false_eq_true, if_false]
      rw [read_add, hgood.tail]
  · have h1 := hgood.head
    have h2 := hgood.tail
    have h3 := hgood.blockTail
    cases fromHead with
    | true =>
      simp only [if_true] at hroom ⊢
      omega
    | false =>
      simp only [Bool.false_eq_true, if_false] at hroom ⊢
      omega
  · rw [hend.eq]
    cases fromHead <;> simp [grownOp]

/-! ## `NetbufTrim` -/

theorem netblockTrim_good {op : BlockOp} (h : op.Good) (hlen : len ≤ op.size) : (netblockTrim op len fromHead).Good := by
  have h1 := h.head
  have h2 := h.tail
  have h3 := h.blockTail
  cases fromHead with
  | true =>
    refine ⟨?_, ?_, h.blockTail, h.pointer, h.len⟩
    · simp only [netblockTrim, if_true]
      omega
    · simp only [netblockTrim, if_true]
      omega
  | false =>
    refine ⟨h1, ?_, ?_, h.pointer, h.len⟩
    · simp only [netblockTrim, Bool.false_eq_true, if_false]
      omega
    · simp only [netblockTrim, Bool.false_eq_true, if_false]
      omega

/-- Which bytes of blocks stay when `len` of them are trimmed. -/
def trimBytes (bytes : List UInt8) (len : Nat) (fromHead : Bool) : List UInt8 :=
  if fromHead then bytes.drop len else bytes.take (bytes.length - len)

/-- The blocks in the order of the list, or in that of the array when they are looked at from the tail. -/
def inOrder (fromHead : Bool) (ops : List BlockOp) : List BlockOp := if fromHead then ops else ops.reverse

theorem netblockTrim_bytes (op : BlockOp) (m : Memory) :
    (netblockTrim op len fromHead).bytes m = trimBytes (op.bytes m) len fromHead := by
  cases fromHead with
  | true => simp only [netblockTrim, if_true, BlockOp.bytes, trimBytes, read_drop]
  | false =>
    simp only [netblockTrim, Bool.false_eq_true, if_false, BlockOp.bytes, trimBytes, read_length]
    rw [read_take _ _ _ _ (Nat.sub_le _ _)]

/-- What the loop leaves of the blocks. -/
structure Trimmed (fromHead : Bool) (ops : List BlockOp) (len : Nat) (ops' : List BlockOp) : Prop where
  good : ∀ op ∈ ops', op.Good
  sizes : sizes ops' = sizes ops - len
  length : ops'.length = ops.length
  flat : ∀ m, flatOps m (inOrder fromHead ops') = trimBytes (flatOps m (inOrder fromHead ops)) len fromHead

theorem sizes_reverse (ops : List BlockOp) : sizes ops.reverse = sizes ops := by
  simp [sizes, List.sum_reverse]

@[simp] theorem sizes_inOrder (ops : List BlockOp) : sizes (inOrder fromHead ops) = sizes ops := by
  unfold inOrder
  split
  · rfl
  · exact sizes_reverse ops

theorem flatOps_inOrder_cons (m : Memory) (op : BlockOp) (ops : List BlockOp) :
    flatOps m (inOrder fromHead (op :: ops)) =
      if fromHead then op.bytes m ++ flatOps m (inOrder fromHead ops)
      else flatOps m (inOrder fromHead ops) ++ op.bytes m := by
  cases fromHead with
  | true => simp [inOrder]
  | false => simp [inOrder]

theorem trimBytes_min (bytes : List UInt8) :
    trimBytes bytes (min len bytes.length) fromHead = trimBytes bytes len fromHead := by
  unfold trimBytes
  split
  · rcases Nat.le_total len bytes.length with h | h
    · rw [Nat.min_eq_left h]
    · rw [Nat.min_eq_right h, List.drop_length, List.drop_of_length_le h]
  · congr 1
    omega

theorem trimBytes_append (xs ys : List UInt8) :
    trimBytes (if fromHead then xs ++ ys else ys ++ xs) len fromHead =
      if fromHead then trimBytes xs len fromHead ++ trimBytes ys (len - xs.length) fromHead
      else trimBytes ys (len - xs.length) fromHead ++ trimBytes xs len fromHead := by
  cases fromHead with
  | true => simp only [trimBytes, if_true, List.drop_append]
  | false =>
    simp only [trimBytes, Bool.false_eq_true, if_false, List.length_append, List.take_append]
    rcases Nat.le_total len xs.length with h | h
    · rw [show len - xs.length = 0 by omega, Nat.sub_zero, List.take_length, List.take_of_length_le (by omega),
        show ys.length + xs.length - len - ys.length = xs.length - len by omega]
    · rw [show ys.length + xs.length - len = ys.length - (len - xs.length) by omega,
        show ys.length - (len - xs.length) - ys.length = 0 by omega, show xs.length - len = 0 by omega]

theorem Trimmed.refl {ops : List BlockOp} (h : ∀ op ∈ ops, op.Good) : Trimmed fromHead ops 0 ops := by
  refine ⟨h, rfl, rfl, fun m => ?_⟩
  unfold trimBytes
  split
  · rfl
  · rw [Nat.sub_zero, List.take_length]

theorem Trimmed.cons {op : BlockOp} {ops ops' : List BlockOp} (hop : op.Good)
    (h : Trimmed fromHead ops (len - op.size) ops') :
    Trimmed fromHead (op :: ops) len (netblockTrim op (min len op.size) fromHead :: ops') := by
  refine ⟨fun o ho => ?_, ?_, ?_, fun m => ?_⟩
  · rcases List.mem_cons.mp ho with rfl | ho
    · exact netblockTrim_good hop (Nat.min_le_right _ _)
    · exact h.good o ho
  · have hsize : (netblockTrim op (min len op.size) fromHead).size = op.size - min len op.size := by
      cases fromHead <;> rfl
    rw [sizes_cons, sizes_cons, h.sizes, hsize]
    omega
  · rw [List.length_cons, List.length_cons, h.length]
  · have hbytes : trimBytes (op.bytes m) (min len op.size) fromHead = trimBytes (op.bytes m) len fromHead := by
      rw [← bytes_length m op, trimBytes_min]
    rw [flatOps_inOrder_cons, flatOps_inOrder_cons, trimBytes_append, netblockTrim_bytes, hbytes, h.flat m, bytes_length]

/-- The loop trims the blocks of a buffer that has bytes. -/
theorem trimLoop_spec {ops : List BlockOp} (hgood : ∀ op ∈ ops, op.Good) (hpos : 0 < sizes ops) (hlen : len ≤ sizes ops) :
    ∃ ops', trimLoop fromHead ops len = some (len, ops') ∧ Trimmed fromHead ops len ops' := by
  induction ops generalizing len with
  | nil => cases hpos
  | cons op ops ih =>
    rw [sizes_cons] at hpos hlen
    have hop := hgood op List.mem_cons_self
    have hrest : ∀ o ∈ ops, o.Good := fun o ho => hgood o (List.mem_cons_of_mem _ ho)
    unfold trimLoop
    by_cases hzero : op.size = 0
    · rw [if_pos hzero]
      obtain ⟨ops', hloop, ht⟩ := @ih len hrest (by omega) (by omega)
      have hsame : netblockTrim op (min len op.size) fromHead = op := by
        rw [hzero, Nat.min_zero]
        cases fromHead <;> rfl
      have hcons := Trimmed.cons hop (show Trimmed fromHead ops (len - op.size) ops' by rw [hzero]; exact ht)
      rw [hsame] at hcons
      exact ⟨op :: ops', by rw [hloop]; rfl, hcons⟩
    rw [if_neg hzero]
    by_cases hlong : op.size < len
    · rw [if_pos hlong]
      obtain ⟨ops', hloop, ht⟩ := @ih (len - op.size) hrest (by omega) (by omega)
      have hcons := Trimmed.cons hop ht
      rw [Nat.min_eq_right (by omega)] at hcons
      refine ⟨_, ?_, hcons⟩
      rw [hloop, Option.map_some]
      simp only [Option.some.injEq, Prod.mk.injEq, and_true]
      omega
    · rw [if_neg hlong]
      have hcons := Trimmed.cons hop
        (show Trimmed fromHead ops (len - op.size) ops by rw [show len - op.size = 0 by omega]; exact Trimmed.refl hrest)
      rw [Nat.min_eq_left (by omega)] at hcons
      exact ⟨_, rfl, hcons⟩

/-- A buffer that has bytes is trimmed by as many of them as it has. -/
theorem netbufTrim_spec (h : nbuf.Good) (hpos : nbuf.totalSize ≠ 0) :
    ∃ nbuf', netbufTrim nbuf len fromHead = some (min len nbuf.totalSize, nbuf') ∧ nbuf'.Good ∧
      nbuf'.totalSize = nbuf.totalSize - min len nbuf.totalSize ∧
      ∀ m, flat m nbuf' = trimBytes (flat m nbuf) len fromHead := by
  have htotal := h.total
  have hlt := h.lt
  have horder : (if fromHead then nbuf.blockOps else nbuf.blockOps.reverse) = inOrder fromHead nbuf.blockOps := rfl
  have hgood : ∀ op ∈ inOrder fromHead nbuf.blockOps, op.Good := by
    intro op hop
    refine h.ops op ?_
    unfold inOrder at hop
    split at hop
    · exact hop
    · exact List.mem_reverse.mp hop
  obtain ⟨ops', hloop, ht⟩ := @trimLoop_spec (min len nbuf.totalSize) fromHead (inOrder fromHead nbuf.blockOps) hgood
    (by rw [sizes_inOrder]; omega) (by rw [sizes_inOrder]; omega)
  have horder' : ∀ ops : List BlockOp, inOrder fromHead (inOrder fromHead ops) = ops := by
    intro ops
    unfold inOrder
    cases fromHead
    · exact List.reverse_reverse ops
    · rfl
  have hlength : (inOrder fromHead ops').length = nbuf.blockOps.length := by
    have hl : ∀ ops : List BlockOp, (inOrder fromHead ops).length = ops.length := by
      intro ops
      unfold inOrder
      split
      · rfl
      · exact List.length_reverse
    rw [hl, ht.length, hl]
  unfold netbufTrim
  simp only [horder, hloop, Option.map_some]
  refine ⟨_, rfl, ⟨fun op hop => ?_, ?_, ?_, ?_, ?_⟩, rfl, fun m => ?_⟩
  · refine ht.good op ?_
    split at hop
    · exact hop
    · exact List.mem_reverse.mp hop
  · show nbuf.totalSize - _ = sizes (inOrder fromHead ops')
    rw [sizes_inOrder, ht.sizes, sizes_inOrder, htotal]
  · simp only
    omega
  · refine List.ne_nil_of_length_pos ?_
    have hne := List.length_pos_of_ne_nil h.nonempty
    rw [← hlength] at hne
    exact hne
  · have hnum := h.num
    rw [← hlength] at hnum
    exact hnum
  · have hflat := ht.flat m
    rw [horder'] at hflat
    show flatOps m (inOrder fromHead ops') = _
    rw [hflat, flat, htotal, ← flatOps_length m, trimBytes_min]

end

end Udk.NetBuffer
