import Udk.NetBuffer.Flat

/-! # A fragment of a network buffer -/

namespace Udk.NetBuffer

open Bytes

/-- The data blocks of the pool lie in the address space. -/
def Allocator.Valid (pool : Allocator) : Prop := ∀ n p, pool.bulk n = some p → p + n < 2 ^ 64

/-- The block is a part of the bytes of another one. -/
def BlockOp.Inside (op op' : BlockOp) : Prop := op'.head ≤ op.blockHead ∧ op.blockTail ≤ op'.head + op'.size

theorem setBlockOp_good {bulk len : Nat} (hp : bulk + len < 2 ^ 64) (hlen : len < 2 ^ 32) :
    (setBlockOp bulk len).Good :=
  ⟨Nat.le_refl _, rfl, Nat.le_refl _, hp, by simp only [setBlockOp]; omega⟩

/-- A part of the bytes of a block, as a block of its own. -/
theorem setBlockOp_part {op : BlockOp} (h : op.Good) (skip len : Nat) (hlen : skip + len ≤ op.size) :
    (setBlockOp (op.head + skip) len).Good ∧ (setBlockOp (op.head + skip) len).Inside op := by
  have h1 := h.head
  have h2 := h.tail
  have h3 := h.blockTail
  have h4 := h.pointer
  have h5 := h.len
  refine ⟨setBlockOp_good (by omega) (by omega), ?_, ?_⟩
  · simp only [setBlockOp]
    omega
  · simp only [setBlockOp]
    omega

theorem flatOps_setBlockOp (m : Memory) (ops : List BlockOp) :
    flatOps m (ops.map fun op => setBlockOp op.head op.size) = flatOps m ops := by
  induction ops with
  | nil => rfl
  | cons op ops ih =>
    rw [List.map_cons, flatOps_cons, flatOps_cons, ih]
    rfl

theorem findLast_append {pre rest : List BlockOp} {op : BlockOp} {stop cur index : Nat} (hlt : cur + sizes pre < stop)
    (hle : stop ≤ cur + sizes pre + op.size) (hsum : cur + sizes pre + op.size < 2 ^ 32) :
    findLast stop (pre ++ op :: rest) index cur = (index + pre.length, stop - (cur + sizes pre)) := by
  induction pre generalizing cur index with
  | nil =>
    rw [sizes_nil, Nat.add_zero] at *
    rw [List.nil_append, findLast, uint32_of_lt hsum, if_pos hle, subtract32_eq (by omega) (by omega)]
    rfl
  | cons o pre ih =>
    rw [sizes_cons] at *
    rw [List.cons_append, findLast, uint32_of_lt (by omega), if_neg (by omega), ih (by omega) (by omega) (by omega),
      List.length_cons, Nat.add_assoc cur, Nat.add_assoc index, Nat.add_comm 1]

/-- The blocks that a child needs for the bytes, as they are found. -/
structure Parts (nbuf : NetBuf) (offset len first firstSkip firstLen last lastLen : Nat) (set : List BlockOp) : Prop where
  set_eq : ∃ firstOp lastOp, nbuf.blockOps[first]? = some firstOp ∧ nbuf.blockOps[last]? = some lastOp ∧
    set = setBlockOp (firstOp.head + firstSkip) firstLen :: middleOps nbuf.blockOps first last ++
      if first ≠ last then [setBlockOp lastOp.head lastLen] else []
  order : first ≤ last
  length : set.length = last - first + 1
  good : ∀ op ∈ set, op.Good ∧ ∃ op' ∈ nbuf.blockOps, op.Inside op'
  flat : ∀ m, flatOps m set = ((flat m nbuf).drop offset).take len

/-- What a child is. -/
structure IsFragment (pool : Allocator) (nbuf : NetBuf) (offset len headSpace : Nat) (child : NetBuf) : Prop where
  good : child.Good
  range : 0 < len ∧ offset + len ≤ nbuf.totalSize
  flat : ∀ m, flat m child = ((flat m nbuf).drop offset).take len
  blocks : ∀ op ∈ child.blockOps, (∃ op' ∈ nbuf.blockOps, op.Inside op') ∨
    pool.bulk headSpace = some op.blockHead ∧ op.blockTail = op.blockHead + headSpace

theorem childOps_eq {n : Nat} {ops : List BlockOp} (h : ops.length = n) : childOps n ops = some ops := by
  subst h
  simp [childOps]

theorem buildFragment_spec {pool : Allocator} (hpool : pool.Valid) {nbuf : NetBuf} (h : nbuf.Good)
    {offset len headSpace first firstSkip firstLen last lastLen : Nat} {set : List BlockOp}
    (hp : Parts nbuf offset len first firstSkip firstLen last lastLen set)
    (hnum : nbuf.blockOps.length + 1 < 2 ^ 32) (hspace : headSpace < 2 ^ 32)
    (hlen : 0 < len) (hrange : offset + len ≤ nbuf.totalSize) :
    ∃ r, buildFragment pool nbuf len headSpace first firstSkip firstLen last lastLen = some r ∧
      ∀ child, r = some child → IsFragment pool nbuf offset len headSpace child := by
  obtain ⟨firstOp, lastOp, hfirst, hlast, hset⟩ := hp.set_eq
  have horder := hp.order
  have hlength := hp.length
  have hlt := h.lt
  obtain ⟨hbound, -⟩ := List.getElem?_eq_some_iff.mp hlast
  have hsize : sizes set = len := by
    have hflat := congrArg List.length (hp.flat fun _ => 0)
    rw [flatOps_length, List.length_take, List.length_drop, flat, flatOps_length, ← h.total] at hflat
    omega
  have hblocks : uint32 (subtract32 last first + 1) = set.length := by
    rw [subtract32_eq horder (by omega), uint32_of_lt (by omega), hlength]
  unfold buildFragment
  simp only [hfirst, hlast, ← hset, hblocks]
  split
  · rename_i hhead
    split
    · rename_i firstBulk _ hbulk
      have hheadOp : (⟨firstBulk, firstBulk + headSpace, firstBulk + headSpace, firstBulk + headSpace, 0⟩ : BlockOp).Good :=
        ⟨Nat.le_add_right _ _, rfl, Nat.le_refl _, hpool _ _ hbulk, by simp only; omega⟩
      rw [childOps_eq (by rw [List.length_cons, uint32_of_lt (by omega)])]
      refine ⟨_, rfl, fun child hchild => ?_⟩
      obtain rfl := Option.some.inj hchild
      refine ⟨⟨fun op hop => ?_, ?_, ?_, by simp, ?_⟩, ⟨hlen, hrange⟩, fun m => ?_, fun op hop => ?_⟩
      · rcases List.mem_cons.mp hop with rfl | hop
        · exact hheadOp
        · exact (hp.good op hop).1
      · simp [hsize]
      · simp only
        omega
      · simp only [List.length_cons]
        omega
      · rw [← hp.flat m, flat, flatOps_cons]
        rfl
      · rcases List.mem_cons.mp hop with rfl | hop
        · exact .inr ⟨hbulk, rfl⟩
        · exact .inl (hp.good op hop).2
    · exact ⟨none, rfl, fun child hchild => by cases hchild⟩
  · split
    · rw [childOps_eq rfl]
      refine ⟨_, rfl, fun child hchild => ?_⟩
      obtain rfl := Option.some.inj hchild
      refine ⟨⟨fun op hop => (hp.good op hop).1, hsize.symm, by simp only; omega, ?_, ?_⟩, ⟨hlen, hrange⟩, hp.flat,
        fun op hop => .inl (hp.good op hop).2⟩
      · intro hnil
        simp only at hnil
        rw [hnil] at hlength
        simp at hlength
      · simp only
        omega
    · exact ⟨none, rfl, fun child hchild => by cases hchild⟩

section
variable {nbuf : NetBuf} {offset len : Nat} {pre rest : List BlockOp} {op : BlockOp}

/-- All bytes in one block. -/
theorem Parts.one (h : nbuf.Good) (hp : Place nbuf.blockOps offset pre op rest)
    (hlen : len ≤ op.size - (offset - sizes pre)) :
    Parts nbuf offset len pre.length (offset - sizes pre) len pre.length len
      [setBlockOp (op.head + (offset - sizes pre)) len] := by
  have hle := hp.le
  have hlt := hp.lt
  have hpart := setBlockOp_part (h.ops op hp.mem) (offset - sizes pre) len (by omega)
  refine ⟨⟨op, op, hp.getElem?, hp.getElem?, ?_⟩, Nat.le_refl _, ?_, fun o ho => ?_, fun m => ?_⟩
  · have hmiddle : middleOps nbuf.blockOps pre.length pre.length = [] := by
      rw [middleOps, List.drop_of_length_le, List.map_nil]
      rw [List.length_take]
      omega
    rw [hmiddle]
    simp
  · simp
  · rw [List.mem_singleton.mp ho]
    exact ⟨hpart.1, op, hp.mem, hpart.2⟩
  · have hdrop := flatOps_drop m pre op rest (offset - sizes pre) (by omega)
    rw [show sizes pre + (offset - sizes pre) = offset by omega] at hdrop
    rw [NetBuffer.flat, hp.eq, hdrop, List.take_append, read_length,
      show len - (op.size - (offset - sizes pre)) = 0 by omega,
      List.take_zero, List.append_nil, read_take _ _ _ _ hlen]
    simp [BlockOp.bytes, setBlockOp]

/-- The bytes in several blocks: the rest of the first one, those between, and the start of the last one. -/
theorem Parts.several (h : nbuf.Good) (hp : Place nbuf.blockOps offset pre op rest) {mid tail : List BlockOp}
    {lastOp : BlockOp} (hrest : rest = mid ++ lastOp :: tail)
    (hlow : op.size - (offset - sizes pre) + sizes mid < len)
    (hhigh : len ≤ op.size - (offset - sizes pre) + sizes mid + lastOp.size) :
    Parts nbuf offset len pre.length (offset - sizes pre) (op.size - (offset - sizes pre))
      (pre.length + 1 + mid.length) (len - (op.size - (offset - sizes pre) + sizes mid))
      (setBlockOp (op.head + (offset - sizes pre)) (op.size - (offset - sizes pre)) ::
        mid.map (fun o => setBlockOp o.head o.size) ++
          [setBlockOp lastOp.head (len - (op.size - (offset - sizes pre) + sizes mid))]) := by
  have hle := hp.le
  have hlt := hp.lt
  have heq : nbuf.blockOps = pre ++ op :: (mid ++ lastOp :: tail) := by rw [← hrest]; exact hp.eq
  have hmem : ∀ o ∈ mid, o ∈ nbuf.blockOps := fun o ho => by rw [heq]; simp [ho]
  have hlastMem : lastOp ∈ nbuf.blockOps := by rw [heq]; simp
  refine ⟨⟨op, lastOp, hp.getElem?, ?_, ?_⟩, by omega, ?_, fun o ho => ?_, fun m => ?_⟩
  · rw [heq, List.getElem?_append_right (by omega), show pre.length + 1 + mid.length - pre.length = mid.length + 1 by omega]
    simp
  · have hmiddle : middleOps nbuf.blockOps pre.length (pre.length + 1 + mid.length) =
        mid.map fun o => setBlockOp o.head o.size := by
      have htake : nbuf.blockOps.take (pre.length + 1 + mid.length) = (pre ++ [op]) ++ mid := by
        rw [heq, show pre ++ op :: (mid ++ lastOp :: tail) = (pre ++ [op] ++ mid) ++ lastOp :: tail by simp]
        exact List.take_left' (by simp; omega)
      rw [middleOps, htake, List.drop_left' (by simp)]
    rw [hmiddle, if_pos (by omega)]
  · simp
    omega
  · simp only [List.cons_append, List.mem_cons, List.mem_append, List.mem_map, List.not_mem_nil, or_false] at ho
    rcases ho with rfl | ⟨o', ho', rfl⟩ | rfl
    · have hpart := setBlockOp_part (h.ops op hp.mem) (offset - sizes pre) (op.size - (offset - sizes pre)) (by omega)
      exact ⟨hpart.1, op, hp.mem, hpart.2⟩
    · have hpart := setBlockOp_part (h.ops o' (hmem o' ho')) 0 o'.size (by omega)
      exact ⟨hpart.1, o', hmem o' ho', hpart.2⟩
    · have hpart := setBlockOp_part (h.ops lastOp hlastMem) 0 (len - (op.size - (offset - sizes pre) + sizes mid)) (by omega)
      exact ⟨hpart.1, lastOp, hlastMem, hpart.2⟩
  · have hdrop := flatOps_drop m pre op rest (offset - sizes pre) (by omega)
    rw [show sizes pre + (offset - sizes pre) = offset by omega] at hdrop
    have hlong : (read m (op.head + (offset - sizes pre)) (op.size - (offset - sizes pre))).take len =
        read m (op.head + (offset - sizes pre)) (op.size - (offset - sizes pre)) :=
      List.take_of_length_le (by rw [read_length]; omega)
    have hmid : (flatOps m mid).take (len - (op.size - (offset - sizes pre))) = flatOps m mid :=
      List.take_of_length_le (by rw [flatOps_length]; omega)
    have hlast : (lastOp.bytes m).take (len - (op.size - (offset - sizes pre)) - sizes mid) =
        read m lastOp.head (len - (op.size - (offset - sizes pre) + sizes mid)) := by
      rw [BlockOp.bytes, read_take _ _ _ _ (by omega), Nat.sub_sub]
    have hbehind : (flatOps m rest).take (len - (op.size - (offset - sizes pre))) =
        flatOps m mid ++ read m lastOp.head (len - (op.size - (offset - sizes pre) + sizes mid)) := by
      rw [hrest, flatOps_append, List.take_append, hmid, flatOps_length, flatOps_cons, List.take_append, hlast,
        bytes_length, show len - (op.size - (offset - sizes pre)) - sizes mid - lastOp.size = 0 by omega, List.take_zero,
        List.append_nil]
    rw [NetBuffer.flat, hp.eq, hdrop, List.take_append, hlong, read_length, hbehind, List.cons_append, flatOps_cons,
      flatOps_append, flatOps_setBlockOp, flatOps_cons, flatOps_nil, List.append_nil]
    rfl

/-- Without a wrap of the sum, a child has exactly the bytes of the range. -/
theorem netbufGetFragment_spec {pool : Allocator} (hpool : pool.Valid) (h : nbuf.Good)
    (hnum : nbuf.blockOps.length + 1 < 2 ^ 32) {headSpace : Nat} (hspace : headSpace < 2 ^ 32)
    (hwrap : offset + len < 2 ^ 32) :
    ∃ r, netbufGetFragment pool nbuf offset len headSpace = some r ∧
      ∀ child, r = some child → IsFragment pool nbuf offset len headSpace child := by
  have htotal := h.total
  have hsmall := h.lt
  unfold netbufGetFragment
  rw [uint32_of_lt hwrap]
  by_cases hnone : len = 0 ∨ nbuf.totalSize < offset + len
  · rw [if_pos hnone]
    exact ⟨none, rfl, fun child hchild => by cases hchild⟩
  rw [if_neg hnone]
  obtain ⟨pre, op, rest, hp⟩ := exists_place nbuf.blockOps offset (by omega)
  have hsizes := hp.sizes_eq
  have hle := hp.le
  have hlt := hp.lt
  have hfirst : findFirst offset nbuf.blockOps 0 0 = (pre.length, sizes pre) := by
    rw [hp.eq, findFirst_append (by omega) (by omega) (by omega), Nat.zero_add, Nat.zero_add]
  simp only [hfirst, hp.getElem?]
  rw [subtract32_eq hle (by omega), subtract32_eq (by omega) (by omega), uint32_of_lt (by omega)]
  by_cases hlong : op.size - (offset - sizes pre) < len
  · rw [if_pos hlong]
    obtain ⟨mid, lastOp, tail, hlast⟩ := exists_place rest (len - (op.size - (offset - sizes pre)) - 1)
      (by omega)
    have hlastLe := hlast.le
    have hlastLt := hlast.lt
    have hrestSizes := hlast.sizes_eq
    have hdrop : nbuf.blockOps.drop (pre.length + 1) = rest := by
      rw [hp.eq, show pre ++ op :: rest = (pre ++ [op]) ++ rest by simp]
      exact List.drop_left' (by simp)
    rw [hdrop]
    have hfind : findLast (offset + len) rest (pre.length + 1) (sizes pre + op.size) =
        (pre.length + 1 + mid.length, len - (op.size - (offset - sizes pre) + sizes mid)) := by
      rw [hlast.eq, findLast_append (by omega) (by omega) (by omega)]
      congr 1
      omega
    rw [hfind]
    exact buildFragment_spec hpool h (Parts.several h hp hlast.eq (by omega) (by omega)) hnum hspace (by omega) (by omega)
  · rw [if_neg hlong]
    exact buildFragment_spec hpool h (Parts.one h hp (by omega)) hnum hspace (by omega) (by omega)

end

end Udk.NetBuffer
