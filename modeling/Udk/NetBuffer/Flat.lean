import Udk.NetBuffer.Service

/-! # A network buffer as a byte sequence -/

namespace Udk.NetBuffer

open Bytes

def sizes (ops : List BlockOp) : Nat := (ops.map BlockOp.size).sum

def BlockOp.bytes (m : Memory) (op : BlockOp) : List UInt8 := read m op.head op.size

/-- The bytes of the blocks, one behind the other. -/
def flatOps (m : Memory) (ops : List BlockOp) : List UInt8 := ops.flatMap (BlockOp.bytes m)

def flat (m : Memory) (nbuf : NetBuf) : List UInt8 := flatOps m nbuf.blockOps

/-- The bytes of the block lie inside of it. -/
structure BlockOp.Good (op : BlockOp) : Prop where
  head : op.blockHead ≤ op.head
  tail : op.tail = op.head + op.size
  blockTail : op.tail ≤ op.blockTail
  pointer : op.blockTail < 2 ^ 64
  len : op.blockTail - op.blockHead < 2 ^ 32

structure NetBuf.Good (nbuf : NetBuf) : Prop where
  ops : ∀ op ∈ nbuf.blockOps, op.Good
  total : nbuf.totalSize = sizes nbuf.blockOps
  lt : nbuf.totalSize < 2 ^ 32
  nonempty : nbuf.blockOps ≠ []
  num : nbuf.blockOps.length < 2 ^ 32

/-! ## Sizes and bytes -/

@[simp] theorem sizes_nil : sizes [] = 0 := rfl

@[simp] theorem sizes_cons (op : BlockOp) (ops : List BlockOp) : sizes (op :: ops) = op.size + sizes ops := by
  simp [sizes]

@[simp] theorem sizes_append (xs ys : List BlockOp) : sizes (xs ++ ys) = sizes xs + sizes ys := by
  simp [sizes]

@[simp] theorem flatOps_nil (m : Memory) : flatOps m [] = [] := rfl

@[simp] theorem flatOps_cons (m : Memory) (op : BlockOp) (ops : List BlockOp) :
    flatOps m (op :: ops) = op.bytes m ++ flatOps m ops := by
  simp [flatOps]

@[simp] theorem flatOps_append (m : Memory) (xs ys : List BlockOp) :
    flatOps m (xs ++ ys) = flatOps m xs ++ flatOps m ys := by
  simp [flatOps]

@[simp] theorem bytes_length (m : Memory) (op : BlockOp) : (op.bytes m).length = op.size := read_length _ _ _

@[simp] theorem flatOps_length (m : Memory) (ops : List BlockOp) : (flatOps m ops).length = sizes ops := by
  induction ops with
  | nil => rfl
  | cons op ops ih => simp [ih]

theorem flatOps_eq_nil (m : Memory) {ops : List BlockOp} (h : sizes ops = 0) : flatOps m ops = [] :=
  List.eq_nil_of_length_eq_zero (by rw [flatOps_length, h])

theorem read_drop (m : Memory) (a n k : Nat) : (read m a n).drop k = read m (a + k) (n - k) := by
  rcases Nat.le_total k n with h | h
  · conv_lhs => rw [show n = k + (n - k) by omega, read_add]
    exact List.drop_left' (read_length _ _ _)
  · rw [List.drop_of_length_le (by simpa using h), show n - k = 0 by omega]
    rfl

theorem read_take (m : Memory) (a n k : Nat) (h : k ≤ n) : (read m a n).take k = read m a k := by
  conv_lhs => rw [show n = k + (n - k) by omega, read_add]
  exact List.take_left' (read_length _ _ _)

/-- Dropping bytes up to a place in a block. -/
theorem flatOps_drop (m : Memory) (pre : List BlockOp) (op : BlockOp) (rest : List BlockOp) (skip : Nat)
    (h : skip ≤ op.size) :
    (flatOps m (pre ++ op :: rest)).drop (sizes pre + skip) =
      read m (op.head + skip) (op.size - skip) ++ flatOps m rest := by
  rw [flatOps_append, flatOps_cons, ← List.append_assoc, List.drop_append, List.drop_append]
  simp only [flatOps_length, List.length_append, bytes_length]
  rw [List.drop_of_length_le (by simp), List.nil_append, Nat.add_sub_cancel_left, BlockOp.bytes, read_drop,
    show sizes pre + skip - (sizes pre + op.size) = 0 by omega, List.drop_zero]

theorem uint32_of_lt {n : Nat} (h : n < 2 ^ 32) : uint32 n = n := Nat.mod_eq_of_lt h

theorem subtract32_eq {a b : Nat} (h : b ≤ a) (ha : a < 2 ^ 32) : subtract32 a b = a - b := by
  unfold subtract32
  omega

theorem subtract64_eq {a b : Nat} (h : b ≤ a) (ha : a < 2 ^ 64) : subtract64 a b = a - b := by
  unfold subtract64
  omega

theorem BlockOp.Good.headSpace_eq {op : BlockOp} (h : op.Good) : headSpace op = op.head - op.blockHead := by
  have h1 := h.tail
  have h2 := h.blockTail
  have h3 := h.pointer
  exact subtract64_eq h.head (by omega)

theorem BlockOp.Good.tailSpace_eq {op : BlockOp} (h : op.Good) : tailSpace op = op.blockTail - op.tail :=
  subtract64_eq h.blockTail h.pointer

/-! ## Copying -/

/-- The bytes of the block are not in the range. -/
def Apart (dest n : Nat) (op : BlockOp) : Prop := op.head + op.size ≤ dest ∨ dest + n ≤ op.head

def Within (a n : Nat) (t : Nat × Nat) : Prop := a ≤ t.1 ∧ t.1 + t.2 ≤ a + n

/-- Accesses to the range and the bytes of the blocks only. -/
def Touches (dest n : Nat) (ops : List BlockOp) (s s' : State) : Prop :=
  ∀ t ∈ s'.touched, t ∈ s.touched ∨ Within dest n t ∨ ∃ op ∈ ops, Within op.head op.size t

theorem flatOps_congr {m m' : Memory} {ops : List BlockOp}
    (h : ∀ op ∈ ops, ∀ i, op.head ≤ i → i < op.head + op.size → m' i = m i) : flatOps m' ops = flatOps m ops := by
  induction ops with
  | nil => rfl
  | cons op ops ih =>
    rw [flatOps_cons, flatOps_cons, ih fun o ho => h o (List.mem_cons_of_mem _ ho), BlockOp.bytes, BlockOp.bytes,
      read_congr _ _ _ _ (h op List.mem_cons_self)]

theorem flatOps_write {m : Memory} {ops : List BlockOp} {dest n : Nat} {bs : List UInt8} (hn : bs.length ≤ n)
    (h : ∀ op ∈ ops, Apart dest n op) : flatOps (write m dest bs) ops = flatOps m ops := by
  refine flatOps_congr fun op hop i h1 h2 => write_outside _ _ _ _ ?_
  have := h op hop
  unfold Apart at this
  omega

/-- The loop over the blocks that follow copies a prefix of their bytes. -/
theorem copyLoop_spec {ops : List BlockOp} {len copied dest : Nat} {s : State} (hlen : len ≤ sizes ops)
    (hap : ∀ op ∈ ops, Apart dest len op) :
    ∃ s', copyLoop ops len copied dest s = (copied + len, s') ∧
      s'.memory = write s.memory dest ((flatOps s.memory ops).take len) ∧ Touches dest len ops s s' := by
  induction ops generalizing len copied dest s with
  | nil =>
    obtain rfl : len = 0 := by simpa using hlen
    exact ⟨s, rfl, by simp, fun t ht => .inl ht⟩
  | cons op ops ih =>
    rw [sizes_cons] at hlen
    unfold copyLoop
    split
    · rename_i hlt
      obtain ⟨s', hloop, hmem, htouch⟩ := @ih (len - op.size) (copied + op.size) (dest + op.size)
        (copyMem dest op.head op.size s) (by omega) fun o ho => by
          have := hap o (List.mem_cons_of_mem _ ho)
          unfold Apart at *
          omega
      refine ⟨s', by rw [hloop]; congr 1; omega, ?_, fun t ht => ?_⟩
      · have hop : (op.bytes s.memory).take len = op.bytes s.memory :=
          List.take_of_length_le (by rw [bytes_length]; omega)
        have hrest : flatOps (write s.memory dest (op.bytes s.memory)) ops = flatOps s.memory ops :=
          flatOps_write (n := len) (by rw [bytes_length]; omega) fun o ho => hap o (List.mem_cons_of_mem _ ho)
        rw [hmem]
        simp only [copyMem]
        rw [show read s.memory op.head op.size = op.bytes s.memory from rfl, hrest, flatOps_cons, List.take_append,
          hop, write_append, bytes_length]
      · rcases htouch t ht with h | h | ⟨o, ho, h⟩
        · simp only [copyMem, List.mem_cons] at h
          rcases h with rfl | rfl | h
          · exact .inr (.inl ⟨Nat.le_refl _, by simp only; omega⟩)
          · exact .inr (.inr ⟨op, List.mem_cons_self, Nat.le_refl _, Nat.le_refl _⟩)
          · exact .inl h
        · refine .inr (.inl ?_)
          unfold Within at *
          omega
        · exact .inr (.inr ⟨o, List.mem_cons_of_mem _ ho, h⟩)
    · refine ⟨_, rfl, ?_, fun t ht => ?_⟩
      · simp only [copyMem]
        rw [flatOps_cons, List.take_append, bytes_length, show len - op.size = 0 by omega, List.take_zero,
          List.append_nil, BlockOp.bytes, read_take _ _ _ _ (by omega)]
      · simp only [copyMem, List.mem_cons] at ht
        rcases ht with rfl | rfl | h
        · exact .inr (.inl ⟨Nat.le_refl _, Nat.le_refl _⟩)
        · exact .inr (.inr ⟨op, List.mem_cons_self, Nat.le_refl _, by simp only; omega⟩)
        · exact .inl h

/-! ## The block of a byte -/

/-- The block that has the byte at an offset, with the ones before and behind it. -/
structure Place (ops : List BlockOp) (offset : Nat) (pre : List BlockOp) (op : BlockOp) (rest : List BlockOp) : Prop where
  eq : ops = pre ++ op :: rest
  le : sizes pre ≤ offset
  lt : offset < sizes pre + op.size

theorem exists_place (ops : List BlockOp) (offset : Nat) (h : offset < sizes ops) :
    ∃ pre op rest, Place ops offset pre op rest := by
  induction ops generalizing offset with
  | nil => cases h
  | cons op ops ih =>
    rw [sizes_cons] at h
    by_cases hop : offset < op.size
    · exact ⟨[], op, ops, rfl, Nat.zero_le _, by simpa using hop⟩
    · obtain ⟨pre, o, rest, heq, hle, hlt⟩ := ih (offset - op.size) (by omega)
      refine ⟨op :: pre, o, rest, by rw [heq, List.cons_append], ?_, ?_⟩
      · rw [sizes_cons]
        omega
      · rw [sizes_cons]
        omega

theorem Place.sizes_eq {ops pre rest : List BlockOp} {offset : Nat} {op : BlockOp} (h : Place ops offset pre op rest) :
    sizes ops = sizes pre + (op.size + sizes rest) := by
  rw [h.eq, sizes_append, sizes_cons]

theorem Place.mem {ops pre rest : List BlockOp} {offset : Nat} {op : BlockOp} (h : Place ops offset pre op rest) :
    op ∈ ops := by
  rw [h.eq]
  simp

theorem Place.getElem? {ops pre rest : List BlockOp} {offset : Nat} {op : BlockOp} (h : Place ops offset pre op rest) :
    ops[pre.length]? = some op := by
  rw [h.eq]
  simp

section
variable {pre rest : List BlockOp} {op : BlockOp} {offset cur index : Nat}

theorem skipLoop_append (hle : cur + sizes pre ≤ offset) (hlt : offset < cur + sizes pre + op.size)
    (hsum : cur + sizes pre + op.size < 2 ^ 32) :
    skipLoop offset (pre ++ op :: rest) cur = (op :: rest, cur + sizes pre) := by
  induction pre generalizing cur with
  | nil =>
    rw [sizes_nil, Nat.add_zero] at *
    rw [List.nil_append, skipLoop, if_neg (by omega), uint32_of_lt hsum, if_pos hlt]
  | cons o pre ih =>
    rw [sizes_cons] at *
    rw [List.cons_append, skipLoop, uint32_of_lt (by omega)]
    by_cases ho : o.size = 0
    · rw [if_pos ho, ih (by omega) (by omega) (by omega), ho, Nat.zero_add]
    · rw [if_neg ho, if_neg (by omega), ih (by omega) (by omega) (by omega), Nat.add_assoc]

theorem findFirst_append (hle : cur + sizes pre ≤ offset) (hlt : offset < cur + sizes pre + op.size)
    (hsum : cur + sizes pre + op.size < 2 ^ 32) :
    findFirst offset (pre ++ op :: rest) index cur = (index + pre.length, cur + sizes pre) := by
  induction pre generalizing cur index with
  | nil =>
    rw [sizes_nil, Nat.add_zero] at *
    rw [List.nil_append, findFirst, uint32_of_lt hsum, if_pos hlt]
    rfl
  | cons o pre ih =>
    rw [sizes_cons] at *
    rw [List.cons_append, findFirst, uint32_of_lt (by omega), if_neg (by omega), ih (by omega) (by omega) (by omega),
      List.length_cons, Nat.add_assoc cur, Nat.add_assoc index, Nat.add_comm 1]

theorem getByteLoop_append (hle : cur + sizes pre ≤ offset) (hlt : offset < cur + sizes pre + op.size)
    (hsum : cur + sizes pre + op.size < 2 ^ 32) :
    getByteLoop offset (pre ++ op :: rest) index cur =
      some (op.head + (offset - (cur + sizes pre)), index + pre.length) := by
  induction pre generalizing cur index with
  | nil =>
    rw [sizes_nil, Nat.add_zero] at *
    rw [List.nil_append, getByteLoop, uint32_of_lt hsum, if_neg (by omega), subtract32_eq hle (by omega)]
    rfl
  | cons o pre ih =>
    rw [sizes_cons] at *
    rw [List.cons_append, getByteLoop, uint32_of_lt (by omega), if_pos (by omega), ih (by omega) (by omega) (by omega),
      List.length_cons, Nat.add_assoc cur, Nat.add_assoc index, Nat.add_comm 1]

end

/-! ## `NetbufCopy` -/

/-- `NetbufCopy` copies exactly the bytes of the range that are there. -/
theorem netbufCopy_spec {nbuf : NetBuf} (h : nbuf.Good) {offset len dest : Nat} (s : State)
    (hap : ∀ op ∈ nbuf.blockOps, Apart dest (min len (nbuf.totalSize - offset)) op) :
    ∃ s', netbufCopy nbuf offset len dest s = some (((flat s.memory nbuf).drop offset).take len |>.length, s') ∧
      s'.memory = write s.memory dest (((flat s.memory nbuf).drop offset).take len) ∧
      Touches dest (min len (nbuf.totalSize - offset)) nbuf.blockOps s s' := by
  have htotal := h.total
  have hlt := h.lt
  have hlength : (((flat s.memory nbuf).drop offset).take len).length = min len (nbuf.totalSize - offset) := by
    rw [List.length_take, List.length_drop, flat, flatOps_length, htotal]
  rw [hlength]
  unfold netbufCopy
  by_cases hnone : len = 0 ∨ nbuf.totalSize ≤ offset
  · rw [if_pos hnone]
    have hzero : min len (nbuf.totalSize - offset) = 0 := by omega
    refine ⟨s, by rw [hzero], ?_, fun t ht => .inl ht⟩
    rw [List.eq_nil_of_length_eq_zero (hlength.trans hzero), write_nil]
  rw [if_neg hnone]
  obtain ⟨pre, op, rest, hp⟩ := exists_place nbuf.blockOps offset (by omega)
  have hsizes := hp.sizes_eq
  have hle := hp.le
  have hop := hp.lt
  have hloop : skipLoop offset nbuf.blockOps 0 = (op :: rest, sizes pre) := by
    rw [hp.eq, skipLoop_append (by omega) (by omega) (by omega), Nat.zero_add]
  simp only [hloop]
  rw [subtract32_eq hle (by omega), subtract32_eq (by omega) (by omega)]
  -- The bytes from the offset on: the rest of one block, and the blocks behind.
  have hdrop : (flat s.memory nbuf).drop offset =
      read s.memory (op.head + (offset - sizes pre)) (op.size - (offset - sizes pre)) ++ flatOps s.memory rest := by
    rw [flat, hp.eq]
    conv_lhs => rw [show offset = sizes pre + (offset - sizes pre) by omega]
    exact flatOps_drop _ _ _ _ _ (by omega)
  have htake : ((flat s.memory nbuf).drop offset).take len =
      ((flat s.memory nbuf).drop offset).take (min len (nbuf.totalSize - offset)) := by
    rw [List.take_eq_take_min, List.length_drop, flat, flatOps_length, htotal]
  rw [htake, hdrop]
  have hmem : op ∈ nbuf.blockOps := hp.mem
  have hrest : ∀ o ∈ rest, o ∈ nbuf.blockOps := fun o ho => by rw [hp.eq]; simp [ho]
  generalize hn : min len (nbuf.totalSize - offset) = n at hap ⊢
  generalize hskip : offset - sizes pre = skip at *
  have htouch : ∀ k, k ≤ n → k ≤ op.size - skip → ∀ t ∈ (copyMem dest (op.head + skip) k s).touched,
      t ∈ s.touched ∨ Within dest n t ∨ ∃ op ∈ nbuf.blockOps, Within op.head op.size t := by
    intro k hk hk' t ht
    simp only [copyMem, List.mem_cons] at ht
    rcases ht with rfl | rfl | h
    · exact .inr (.inl ⟨Nat.le_refl _, by simp only; omega⟩)
    · exact .inr (.inr ⟨op, hmem, by simp only; omega, by simp only; omega⟩)
    · exact .inl h
  by_cases hleft : n ≤ op.size - skip
  · rw [if_pos hleft]
    refine ⟨_, rfl, ?_, htouch n (Nat.le_refl _) hleft⟩
    simp only [copyMem]
    rw [List.take_append, read_length, show n - (op.size - skip) = 0 by omega, List.take_zero, List.append_nil,
      read_take _ _ _ _ hleft]
  · rw [if_neg hleft]
    have hflat : flatOps (write s.memory dest (read s.memory (op.head + skip) (op.size - skip))) rest =
        flatOps s.memory rest :=
      flatOps_write (n := n) (by rw [read_length]; omega) fun o ho => hap o (hrest o ho)
    obtain ⟨s', hloop, hwritten, htouched⟩ := @copyLoop_spec rest (n - (op.size - skip)) (op.size - skip)
      (dest + (op.size - skip)) (copyMem dest (op.head + skip) (op.size - skip) s) (by omega) fun o ho => by
        have := hap o (hrest o ho)
        unfold Apart at *
        omega
    refine ⟨s', by rw [hloop, show op.size - skip + (n - (op.size - skip)) = n by omega], ?_, fun t ht => ?_⟩
    · have hwhole : (read s.memory (op.head + skip) (op.size - skip)).take n =
          read s.memory (op.head + skip) (op.size - skip) := List.take_of_length_le (by rw [read_length]; omega)
      rw [hwritten]
      simp only [copyMem]
      rw [hflat, List.take_append, hwhole, write_append, read_length]
    · rcases htouched t ht with h' | h' | ⟨o, ho, h'⟩
      · exact htouch _ (by omega) (Nat.le_refl _) t h'
      · refine .inr (.inl ?_)
        unfold Within at *
        omega
      · exact .inr (.inr ⟨o, hrest o ho, h'⟩)

end Udk.NetBuffer
