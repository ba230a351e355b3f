import Udk.Variable.Flash

/-! # The calls of `Fvb->Write` in `UpdateVariableStore` -/

open Udk.Bytes

namespace Udk.Variable.BlockWrite

/-! ## The model -/

/-- An `EFI_FV_BLOCK_MAP_ENTRY` in front of the terminator. -/
structure BlockMapEntry where
  numBlocks : Nat
  length : Nat
  numBlocks_pos : 0 < numBlocks
  numBlocks_lt : numBlocks < 2 ^ 32
  length_lt : length < 2 ^ 32

/-- `FvVolHdr` and the fields of the header that the routine reads. -/
structure Volume where
  base : Nat
  fvLength : Nat
  blockMap : List BlockMapEntry
  addressable : base + fvLength < maxAddress

/-- One call of `Fvb->Write`: the `*NumBytes` bytes at `Buffer`, and where to. -/
structure FvbCall where
  lba : Nat
  offset : Nat
  buffer : List UInt8

/-- What `Fvb->Write` answers, after the calls before: the status and `*NumBytes`. -/
abbrev Fvb := List FvbCall → FvbCall → EfiStatus × Nat

/-- Arithmetic of `UINTN`. -/
def uintn (n : Nat) : Nat := n % maxAddress

/-- The variables of the loops, and the calls so far. -/
structure Cursor where
  linearOffset : Nat
  currWritePtr : Nat
  currWriteSize : Nat
  currBuffer : List UInt8
  lbaNumber : Nat
  calls : List FvbCall

/-- The body of the inner loop. An error is a `return`. -/
def writeBlock (fvb : Fvb) (length : Nat) (s : Cursor) : Except (EfiStatus × List FvbCall) Cursor :=
  let blockEnd := uintn (s.linearOffset + length)
  if s.linearOffset ≤ s.currWritePtr ∧ s.currWritePtr < blockEnd then
    let offset := s.currWritePtr - s.linearOffset
    if uintn (s.currWritePtr + s.currWriteSize) ≤ blockEnd then
      let call : FvbCall := ⟨s.lbaNumber, offset, s.currBuffer.take s.currWriteSize⟩
      .error ((fvb s.calls call).1, s.calls ++ [call])
    else
      let call : FvbCall := ⟨s.lbaNumber, offset, s.currBuffer.take ((blockEnd - s.currWritePtr) % 2 ^ 32)⟩
      match fvb s.calls call with
      | (status, size) =>
        if status.isError then .error (status, s.calls ++ [call])
        else .ok ⟨blockEnd, blockEnd, uintn (s.currWriteSize + maxAddress - size), s.currBuffer.drop size,
          s.lbaNumber + 1, s.calls ++ [call]⟩
  else .ok { s with linearOffset := blockEnd, lbaNumber := s.lbaNumber + 1 }

/-- `for (BlockIndex2 = 0; BlockIndex2 < PtrBlockMapEntry->NumBlocks; BlockIndex2++)`. -/
def writeRun (fvb : Fvb) (length : Nat) : Nat → Cursor → Except (EfiStatus × List FvbCall) Cursor
  | 0, s => .ok s
  | n + 1, s => do writeRun fvb length n (← writeBlock fvb length s)

/-- `for (PtrBlockMapEntry = FwVolHeader->BlockMap; PtrBlockMapEntry->NumBlocks != 0; PtrBlockMapEntry++)`. -/
def writeRuns (fvb : Fvb) : List BlockMapEntry → Cursor → Except (EfiStatus × List FvbCall) Cursor
  | [], s => .ok s
  | e :: blockMap, s => do writeRuns fvb blockMap (← writeRun fvb e.length e.numBlocks s)

/-- `DataPtr`. -/
def dataPtr (nonVolatileVariableBase : Nat) (setByIndex : Bool) (dataPtrIndex : Nat) : Nat :=
  if setByIndex then uintn (dataPtrIndex + nonVolatileVariableBase) else dataPtrIndex

/-- `UpdateVariableStore` for a non-volatile variable: its status, and the calls in their order. -/
def updateVariableStore (V : Volume) (nonVolatileVariableBase : Nat) (fvb : Fvb) (setByIndex : Bool)
    (dataPtrIndex : Nat) (buffer : List UInt8) : EfiStatus × List FvbCall :=
  let p := dataPtr nonVolatileVariableBase setByIndex dataPtrIndex
  if uintn (V.base + V.fvLength) ≤ uintn (p + buffer.length) then (.invalidParameter, [])
  else if p < V.base then (.invalidParameter, [])
  else
    match writeRuns fvb V.blockMap ⟨V.base, p, buffer.length, buffer, 0, []⟩ with
    | .error result => result
    | .ok s => (.success, s.calls)

/-! ## What the calls program -/

/-- The bytes at their addresses, one after the other from `a` on. -/
def placed (a : Nat) : List UInt8 → List (Nat × UInt8)
  | [] => []
  | b :: bs => (a, b) :: placed (a + 1) bs

/-- The length of each block, by its LBA. -/
def Volume.blockLengths (V : Volume) : List Nat := V.blockMap.flatMap fun e => List.replicate e.numBlocks e.length

/-- The address of a block. -/
def Volume.blockBase (V : Volume) (lba : Nat) : Nat := V.base + (V.blockLengths.take lba).sum

/-- The call stays in its block. -/
def FvbCall.InBlock (V : Volume) (c : FvbCall) : Prop :=
  ∃ length, V.blockLengths[c.lba]? = some length ∧ c.offset + c.buffer.length ≤ length

/-- The bytes that a call programs, each with its address. -/
def FvbCall.programs (V : Volume) (c : FvbCall) : List (Nat × UInt8) := placed (V.blockBase c.lba + c.offset) c.buffer

/-- The calls program the bytes at `p`, each once, and nothing else, and each stays in its block. -/
structure FlatWrite (V : Volume) (p : Nat) (bs : List UInt8) (calls : List FvbCall) : Prop where
  in_block : ∀ c ∈ calls, c.InBlock V
  programs : calls.flatMap (·.programs V) = placed p bs

/-- A success means that all bytes are written. -/
def Fvb.Documented (fvb : Fvb) : Prop :=
  ∀ calls c, (fvb calls c).1 = .success → (fvb calls c).2 = c.buffer.length

/-- The first blocks reach `e`, within the address space. -/
def Volume.Reaches (V : Volume) (e : Nat) : Prop := ∃ k, e ≤ V.blockBase k ∧ V.blockBase k < maxAddress

/-! ## One block -/

theorem uintn_of_lt {n : Nat} (h : n < maxAddress) : uintn n = n := Nat.mod_eq_of_lt h

theorem uintn_lt (n : Nat) : uintn n < maxAddress := Nat.mod_lt _ (by decide)

/-- A sum that wraps is behind both summands. -/
theorem uintn_wraps {a b : Nat} (ha : a < maxAddress) (hb : b < 2 ^ 32) (h : maxAddress ≤ a + b) : uintn (a + b) < a := by
  have hmax : 2 ^ 32 ≤ maxAddress := by decide
  rw [uintn, Nat.mod_eq_sub_mod h, Nat.mod_eq_of_lt (by omega)]
  omega

/-- The cursor after a block that the write does not touch. -/
def Cursor.skip (s : Cursor) (length : Nat) : Cursor :=
  { s with linearOffset := uintn (s.linearOffset + length), lbaNumber := s.lbaNumber + 1 }

/-- The call that writes the next `n` bytes. -/
def Cursor.call (s : Cursor) (n : Nat) : FvbCall := ⟨s.lbaNumber, s.currWritePtr - s.linearOffset, s.currBuffer.take n⟩

/-- The cursor after the first `n` of the bytes are written up to the end of a block. -/
def Cursor.cross (s : Cursor) (length n : Nat) : Cursor :=
  ⟨s.linearOffset + length, s.linearOffset + length, s.currWriteSize - n, s.currBuffer.drop n, s.lbaNumber + 1,
    s.calls ++ [s.call n]⟩

/-- The cursor stands for a write below the end of the address space. -/
structure Cursor.Sound (s : Cursor) : Prop where
  linear_lt : s.linearOffset < maxAddress
  size_eq : s.currWriteSize = s.currBuffer.length
  size_lt : s.currBuffer.length < 2 ^ 32
  end_lt : s.currWritePtr + s.currBuffer.length < maxAddress

/-- The write starts in the block. -/
def Cursor.StartsIn (s : Cursor) (length : Nat) : Prop :=
  s.linearOffset ≤ s.currWritePtr ∧ s.currWritePtr < s.linearOffset + length ∧ s.linearOffset + length < maxAddress

section
variable {V : Volume} {fvb : Fvb} {s : Cursor} {length : Nat} {rest : List Nat}

/-- What the block does: it is passed, takes the rest of the bytes, or takes as many as it can. -/
theorem writeBlock_cases (hfvb : fvb.Documented) (hs : s.Sound) (hl : length < 2 ^ 32) :
    (¬s.StartsIn length ∧ writeBlock fvb length s = .ok (s.skip length)) ∨
    (s.StartsIn length ∧ s.currWritePtr + s.currBuffer.length ≤ s.linearOffset + length ∧
      ∃ status, writeBlock fvb length s = .error (status, s.calls ++ [s.call s.currBuffer.length])) ∨
    ∃ n, s.StartsIn length ∧ s.currWritePtr + n = s.linearOffset + length ∧ n < s.currBuffer.length ∧
      ((∃ status, status ≠ .success ∧ writeBlock fvb length s = .error (status, s.calls ++ [s.call n])) ∨
        writeBlock fvb length s = .ok (s.cross length n)) := by
  have hlinear := hs.linear_lt
  have hbytes := hs.end_lt
  have hend : uintn (s.currWritePtr + s.currWriteSize) = s.currWritePtr + s.currBuffer.length := by
    rw [hs.size_eq, uintn_of_lt hs.end_lt]
  unfold writeBlock
  rw [hend]
  by_cases hin : s.StartsIn length
  · obtain ⟨h1, h2, h3⟩ := hin
    simp only [uintn_of_lt h3]
    rw [if_pos ⟨h1, h2⟩]
    by_cases hfit : s.currWritePtr + s.currBuffer.length ≤ s.linearOffset + length
    · rw [if_pos hfit, hs.size_eq]
      exact .inr (.inl ⟨⟨h1, h2, h3⟩, hfit, _, rfl⟩)
    · rw [if_neg hfit, Nat.mod_eq_of_lt (show s.linearOffset + length - s.currWritePtr < 2 ^ 32 by omega)]
      refine .inr (.inr ⟨s.linearOffset + length - s.currWritePtr, ⟨h1, h2, h3⟩, by omega, by omega, ?_⟩)
      obtain hsuccess | hfail := eq_or_ne (fvb s.calls (s.call (s.linearOffset + length - s.currWritePtr))).1 .success
      · right
        have hsize := hfvb _ _ hsuccess
        have hlen : (s.call (s.linearOffset + length - s.currWritePtr)).buffer.length =
            s.linearOffset + length - s.currWritePtr := List.length_take_of_le (by omega)
        have hleft : uintn (s.currBuffer.length + maxAddress - (s.linearOffset + length - s.currWritePtr)) =
            s.currBuffer.length - (s.linearOffset + length - s.currWritePtr) := by
          rw [uintn, show s.currBuffer.length + maxAddress - (s.linearOffset + length - s.currWritePtr) =
            s.currBuffer.length - (s.linearOffset + length - s.currWritePtr) + maxAddress by omega,
            Nat.add_mod_right, Nat.mod_eq_of_lt (by omega)]
        rw [Cursor.call] at hsuccess hsize hlen
        rw [hsuccess, if_neg (by decide), hsize, hlen, hs.size_eq, hleft, Cursor.cross, hs.size_eq]
        rfl
      · left
        rw [Cursor.call] at hfail
        exact ⟨_, hfail, if_pos (by simpa [EfiStatus.isError] using hfail)⟩
  · left
    refine ⟨hin, if_neg fun ⟨h1, h2⟩ => ?_⟩
    obtain hlt | hle := Nat.lt_or_ge (s.linearOffset + length) maxAddress
    · exact hin ⟨h1, uintn_of_lt hlt ▸ h2, hlt⟩
    · have := uintn_wraps hlinear hl hle
      omega

/-! ## All blocks -/

/-- Both loops as one over the lengths of the blocks. -/
def writeEach (fvb : Fvb) : List Nat → Cursor → Except (EfiStatus × List FvbCall) Cursor
  | [], s => .ok s
  | length :: rest, s => do writeEach fvb rest (← writeBlock fvb length s)

/-- What the routine returns after the loops. -/
def finish : Except (EfiStatus × List FvbCall) Cursor → EfiStatus × List FvbCall
  | .error result => result
  | .ok s => (.success, s.calls)

theorem writeEach_append (l₁ l₂ : List Nat) (s : Cursor) :
    writeEach fvb (l₁ ++ l₂) s = (do writeEach fvb l₂ (← writeEach fvb l₁ s)) := by
  induction l₁ generalizing s with
  | nil => rfl
  | cons length l₁ ih =>
    rw [List.cons_append, writeEach, writeEach]
    cases writeBlock fvb length s with
    | error r => rfl
    | ok s' => exact ih s'

theorem writeRun_eq (length n : Nat) (s : Cursor) :
    writeRun fvb length n s = writeEach fvb (List.replicate n length) s := by
  induction n generalizing s with
  | zero => rfl
  | succ n ih =>
    rw [writeRun, List.replicate_succ, writeEach]
    exact congrArg _ (funext ih)

theorem writeRuns_eq (blockMap : List BlockMapEntry) (s : Cursor) :
    writeRuns fvb blockMap s = writeEach fvb (blockMap.flatMap fun e => List.replicate e.numBlocks e.length) s := by
  induction blockMap generalizing s with
  | nil => rfl
  | cons e blockMap ih =>
    rw [writeRuns, List.flatMap_cons, writeEach_append, writeRun_eq]
    exact congrArg _ (funext ih)

theorem updateVariableStore_eq (V : Volume) (base : Nat) (fvb : Fvb) (setByIndex : Bool) (idx p : Nat)
    (buffer : List UInt8) (hp : p = dataPtr base setByIndex idx) (hlo : V.base ≤ p)
    (hhi : p + buffer.length ≤ V.base + V.fvLength) :
    updateVariableStore V base fvb setByIndex idx buffer =
      if p + buffer.length = V.base + V.fvLength then (.invalidParameter, [])
      else finish (writeEach fvb V.blockLengths ⟨V.base, p, buffer.length, buffer, 0, []⟩) := by
  have := V.addressable
  unfold updateVariableStore
  simp only [← hp, uintn_of_lt V.addressable, uintn_of_lt (show p + buffer.length < maxAddress by omega)]
  split
  · rw [if_pos (by omega)]
  · rw [if_neg (by omega), if_neg (by omega), writeRuns_eq]
    rfl

/-! ## The addresses of the blocks -/

theorem length_lt_of_mem (h : length ∈ V.blockLengths) : length < 2 ^ 32 := by
  obtain ⟨e, -, h⟩ := List.mem_flatMap.mp h
  rw [List.eq_of_mem_replicate h]
  exact e.length_lt

theorem blockBase_succ {k : Nat} (h : V.blockLengths.drop k = length :: rest) :
    V.blockBase (k + 1) = V.blockBase k + length ∧ V.blockLengths.drop (k + 1) = rest ∧
      V.blockLengths[k]? = some length ∧ length < 2 ^ 32 := by
  have hk : V.blockLengths[k]? = some length := by
    rw [← Nat.add_zero k, ← List.getElem?_drop, h]
    rfl
  refine ⟨?_, ?_, hk, length_lt_of_mem (List.mem_of_getElem? hk)⟩
  · rw [Volume.blockBase, Volume.blockBase, List.take_add_one, hk, List.sum_append]
    simp [Nat.add_assoc]
  · rw [← List.drop_drop, h]
    rfl

theorem blockBase_mono {j k : Nat} (h : j ≤ k) : V.blockBase j ≤ V.blockBase k := by
  obtain ⟨d, rfl⟩ := Nat.exists_eq_add_of_le h
  rw [Volume.blockBase, Volume.blockBase, List.take_add, List.sum_append]
  omega

theorem blockBase_end {k : Nat} (h : V.blockLengths.drop k = []) (j : Nat) : V.blockBase j ≤ V.blockBase k := by
  have hk : V.blockLengths.length ≤ k := List.drop_eq_nil_iff.mp h
  have hall : V.blockBase (max j k) = V.blockBase k := by
    rw [Volume.blockBase, Volume.blockBase, List.take_of_length_le hk, List.take_of_length_le (by omega)]
  exact hall ▸ blockBase_mono (Nat.le_max_left j k)

/-! ## Bytes at their addresses -/

theorem placed_append (a : Nat) (xs ys : List UInt8) :
    placed a (xs ++ ys) = placed a xs ++ placed (a + xs.length) ys := by
  induction xs generalizing a with
  | nil => rfl
  | cons x xs ih =>
    rw [List.cons_append, placed, placed, ih, List.length_cons, Nat.add_right_comm, Nat.add_assoc a]
    rfl

theorem mem_placed {a : Nat} {bs : List UInt8} {x : Nat × UInt8} (h : x ∈ placed a bs) :
    a ≤ x.1 ∧ x.1 < a + bs.length := by
  induction bs generalizing a with
  | nil => simp [placed] at h
  | cons b bs ih =>
    rw [List.length_cons]
    rcases List.mem_cons.mp h with rfl | h
    · exact ⟨Nat.le_refl _, Nat.lt_add_of_pos_right (Nat.succ_pos _)⟩
    · have := ih h
      omega

theorem last_placed (a : Nat) {bs : List UInt8} (h : bs ≠ []) : ∃ b, (a + bs.length - 1, b) ∈ placed a bs := by
  refine ⟨bs.getLast h, ?_⟩
  conv => arg 1; rw [← List.dropLast_concat_getLast h]
  rw [placed_append, List.length_dropLast]
  have := List.length_pos_of_ne_nil h
  rw [show a + bs.length - 1 = a + (bs.length - 1) by omega]
  exact List.mem_append_right _ List.mem_cons_self

/-! ## A whole write -/

/-- The cursor is at the block with its LBA, and the write starts there or behind. -/
structure Cursor.InStep (V : Volume) (s : Cursor) (rest : List Nat) : Prop where
  sound : s.Sound
  rest_eq : V.blockLengths.drop s.lbaNumber = rest
  linear_eq : s.linearOffset = V.blockBase s.lbaNumber
  linear_le : s.linearOffset ≤ s.currWritePtr

theorem Cursor.InStep.skip (h : s.InStep V (length :: rest)) (hp : s.linearOffset + length ≤ s.currWritePtr) :
    (s.skip length).InStep V rest := by
  obtain ⟨hs, hrest, hlinear, -⟩ := h
  have hend := hs.end_lt
  obtain ⟨hbase, hdrop, -, -⟩ := blockBase_succ hrest
  have hsum : uintn (s.linearOffset + length) = s.linearOffset + length := uintn_of_lt (by omega)
  exact ⟨⟨uintn_lt _, hs.size_eq, hs.size_lt, hs.end_lt⟩, hdrop,
    by rw [Cursor.skip, hsum, hbase, hlinear], by rw [Cursor.skip, hsum]; exact hp⟩

theorem Cursor.InStep.cross {n : Nat} (h : s.InStep V (length :: rest)) (hin : s.StartsIn length)
    (hn : s.currWritePtr + n = s.linearOffset + length) (hlt : n < s.currBuffer.length) :
    (s.cross length n).InStep V rest := by
  obtain ⟨hs, hrest, hlinear, -⟩ := h
  have hend := hs.end_lt
  have hsize := hs.size_lt
  have hlen : (s.cross length n).currBuffer.length = s.currBuffer.length - n := List.length_drop
  obtain ⟨hbase, hdrop, -, -⟩ := blockBase_succ hrest
  refine ⟨⟨hin.2.2, ?_, by omega, ?_⟩, hdrop, ?_, Nat.le_refl _⟩
  · rw [hlen, Cursor.cross, hs.size_eq]
  · rw [hlen]
    change s.linearOffset + length + _ < _
    omega
  · rw [Cursor.cross, hbase, hlinear]

/-- What a call of the next `n` bytes programs. -/
theorem Cursor.InStep.call_programs {n : Nat} (h : s.InStep V (length :: rest))
    (hn : s.currWritePtr + n ≤ s.linearOffset + length) :
    (s.call n).InBlock V ∧ (s.call n).programs V = placed s.currWritePtr (s.currBuffer.take n) := by
  obtain ⟨-, -, hget, -⟩ := blockBase_succ h.rest_eq
  have hle := h.linear_le
  refine ⟨⟨length, hget, ?_⟩, ?_⟩
  · have : (s.call n).buffer.length ≤ n := List.length_take_le n s.currBuffer
    change s.currWritePtr - s.linearOffset + (s.call n).buffer.length ≤ length
    omega
  · change placed (V.blockBase s.lbaNumber + (s.currWritePtr - s.linearOffset)) _ = _
    rw [← h.linear_eq, Nat.add_sub_cancel' hle]
    rfl

/-- Where the blocks reach the end of the write, a success has written all of it. -/
theorem writeEach_reaches (hfvb : fvb.Documented) (h : s.InStep V rest) (hne : s.currBuffer ≠ [])
    (hreach : V.Reaches (s.currWritePtr + s.currBuffer.length)) :
    ∃ status calls, writeEach fvb rest s = .error (status, s.calls ++ calls) ∧
      (status = .success → FlatWrite V s.currWritePtr s.currBuffer calls) := by
  induction rest generalizing s with
  | nil =>
    obtain ⟨k, hk, -⟩ := hreach
    have hend := blockBase_end h.rest_eq k
    have hle := h.linear_le
    have hpos := List.length_pos_of_ne_nil hne
    rw [h.linear_eq] at hle
    omega
  | cons length rest ih =>
    have hpos := List.length_pos_of_ne_nil hne
    obtain ⟨hbase, -, -, hl⟩ := blockBase_succ h.rest_eq
    rw [writeEach]
    rcases writeBlock_cases hfvb h.sound hl with ⟨hin, hw⟩ | ⟨hin, hfit, status, hw⟩ | ⟨n, hin, hn, hlt, hw⟩
    · have hskip : s.linearOffset + length ≤ s.currWritePtr := by
        by_contra hlt
        obtain ⟨k, hk, hkmax⟩ := hreach
        -- the block that the write starts in is within the address space, as the blocks reach further
        have hsucc : s.lbaNumber + 1 ≤ k := by
          by_contra hle
          have := blockBase_mono (V := V) (show k ≤ s.lbaNumber by omega)
          have := h.linear_le
          have := h.linear_eq
          omega
        have := blockBase_mono (V := V) hsucc
        have := h.linear_eq
        exact hin ⟨h.linear_le, by omega, by omega⟩
      rw [hw]
      exact ih (h.skip hskip) hne hreach
    · obtain ⟨hblock, hprog⟩ := h.call_programs hfit
      rw [hw]
      refine ⟨status, [_], rfl, fun _ => ⟨by simpa using hblock, ?_⟩⟩
      rw [List.flatMap_cons, List.flatMap_nil, List.append_nil, hprog, List.take_length]
    · obtain ⟨hblock, hprog⟩ := h.call_programs (Nat.le_of_eq hn)
      obtain ⟨status, hstatus, hw⟩ | hw := hw
      · rw [hw]
        exact ⟨status, [_], rfl, fun hsuccess => absurd hsuccess hstatus⟩
      · have hlen : (s.cross length n).currBuffer.length = s.currBuffer.length - n := List.length_drop
        have hstart : (s.cross length n).currWritePtr = s.currWritePtr + n := hn.symm
        have hnext := ih (h.cross hin hn hlt) (List.ne_nil_of_length_pos (by omega))
          (by rw [hlen, hstart, show s.currWritePtr + n + (s.currBuffer.length - n) = s.currWritePtr +
            s.currBuffer.length by omega]; exact hreach)
        obtain ⟨status, calls, hrest, hflat⟩ := hnext
        rw [hw]
        refine ⟨status, s.call n :: calls, ?_, fun hsuccess => ?_⟩
        · change writeEach fvb rest (s.cross length n) = _
          rw [hrest, Cursor.cross, List.append_assoc]
          rfl
        · obtain ⟨hin', hprog'⟩ := hflat hsuccess
          refine ⟨?_, ?_⟩
          · rintro c (_ | ⟨_, hc⟩)
            · exact hblock
            · exact hin' c hc
          · rw [List.flatMap_cons, hprog, hprog', hstart]
            conv_rhs => rw [← List.take_append_drop n s.currBuffer, placed_append,
              List.length_take_of_le (Nat.le_of_lt hlt)]
            rfl

/-- Every call is of the block the cursor is at or of a later one. -/
theorem writeEach_lba (s : Cursor) {c : FvbCall} (hc : c ∈ (finish (writeEach fvb rest s)).2) :
    c ∈ s.calls ∨ s.lbaNumber ≤ c.lba := by
  induction rest generalizing s with
  | nil => exact .inl hc
  | cons length rest ih =>
    have hstep : (∃ r, writeBlock fvb length s = .error r ∧ ∀ c ∈ r.2, c ∈ s.calls ∨ s.lbaNumber ≤ c.lba) ∨
        ∃ s', writeBlock fvb length s = .ok s' ∧ s'.lbaNumber = s.lbaNumber + 1 ∧
          ∀ c ∈ s'.calls, c ∈ s.calls ∨ s.lbaNumber ≤ c.lba := by
      have hnew (call : FvbCall) (hlba : call.lba = s.lbaNumber) :
          ∀ c ∈ s.calls ++ [call], c ∈ s.calls ∨ s.lbaNumber ≤ c.lba := by
        intro c hc
        rcases List.mem_append.mp hc with hc | hc
        · exact .inl hc
        · rw [List.mem_singleton.mp hc, hlba]
          exact .inr (Nat.le_refl _)
      unfold writeBlock
      dsimp only
      split
      · split
        · exact .inl ⟨_, rfl, hnew _ rfl⟩
        · split
          · exact .inl ⟨_, rfl, hnew _ rfl⟩
          · exact .inr ⟨_, rfl, rfl, hnew _ rfl⟩
      · exact .inr ⟨_, rfl, rfl, fun _ => .inl⟩
    rw [writeEach] at hc
    obtain ⟨r, hw, hr⟩ | ⟨s', hw, hlba, hs'⟩ := hstep
    · rw [hw] at hc
      exact hr c hc
    · rw [hw] at hc
      rcases ih s' hc with hc | hc
      · exact hs' c hc
      · exact .inr (by omega)

/-- Where the blocks don't reach the end of the write, no call programs its last byte. -/
theorem writeEach_misses (hfvb : fvb.Documented) (h : s.InStep V rest) (hne : s.currBuffer ≠ [])
    (hreach : ¬V.Reaches (s.currWritePtr + s.currBuffer.length)) {c : FvbCall}
    (hc : c ∈ (finish (writeEach fvb rest s)).2) :
    c ∈ s.calls ∨ V.blockBase c.lba + c.offset + c.buffer.length < s.currWritePtr + s.currBuffer.length ∨
      maxAddress ≤ V.blockBase c.lba := by
  induction rest generalizing s with
  | nil => exact .inl hc
  | cons length rest ih =>
    obtain ⟨hbase, hdrop, -, hl⟩ := blockBase_succ h.rest_eq
    have hlinear := h.linear_eq
    rw [writeEach] at hc
    rcases writeBlock_cases hfvb h.sound hl with ⟨hin, hw⟩ | ⟨hin, hfit, status, hw⟩ | ⟨n, hin, hn, hlt, hw⟩
    · rw [hw] at hc
      by_cases hskip : s.linearOffset + length ≤ s.currWritePtr
      · exact @ih (s.skip length) (h.skip hskip) hne hreach hc
      · -- the block goes beyond the address space, and so do all later ones
        have hmax : maxAddress ≤ V.blockBase (s.lbaNumber + 1) := by
          by_contra hlt
          exact hin ⟨h.linear_le, by omega, by omega⟩
        rcases writeEach_lba (s.skip length) hc with hc | hc
        · exact .inl hc
        · exact .inr (.inr (Nat.le_trans hmax (blockBase_mono hc)))
    · exact absurd ⟨s.lbaNumber + 1, by omega, by have := hin.2.2; omega⟩ hreach
    · have hcall : V.blockBase s.lbaNumber + (s.call n).offset + (s.call n).buffer.length <
          s.currWritePtr + s.currBuffer.length := by
        have hlen : (s.call n).buffer.length = n := List.length_take_of_le (Nat.le_of_lt hlt)
        have hoff : (s.call n).offset = s.currWritePtr - s.linearOffset := rfl
        have := h.linear_le
        omega
      have hnew (hc : c ∈ s.calls ++ [s.call n]) : c ∈ s.calls ∨
          V.blockBase c.lba + c.offset + c.buffer.length < s.currWritePtr + s.currBuffer.length ∨
          maxAddress ≤ V.blockBase c.lba := by
        rcases List.mem_append.mp hc with hc | hc
        · exact .inl hc
        · rw [List.mem_singleton.mp hc]
          exact .inr (.inl hcall)
      obtain ⟨status, -, hw⟩ | hw := hw
      · rw [hw] at hc
        exact hnew hc
      · rw [hw] at hc
        have hlen : (s.cross length n).currBuffer.length = s.currBuffer.length - n := List.length_drop
        have hstart : (s.cross length n).currWritePtr = s.currWritePtr + n := hn.symm
        have hend : s.currWritePtr + n + (s.currBuffer.length - n) = s.currWritePtr + s.currBuffer.length := by omega
        rcases ih (h.cross hin hn hlt) (List.ne_nil_of_length_pos (by omega))
          (by rw [hlen, hstart, hend]; exact hreach) hc with hc | hc
        · exact hnew hc
        · rw [hlen, hstart, hend] at hc
          exact .inr hc

/-- A write of no byte makes at most one call, of no byte. -/
theorem writeEach_empty (h : s.Sound) (hrest : V.blockLengths.drop s.lbaNumber = rest) (hb : s.currBuffer = [])
    (hfvb : fvb.Documented) {c : FvbCall} (hc : c ∈ (finish (writeEach fvb rest s)).2) :
    c ∈ s.calls ∨ c.InBlock V ∧ c.buffer = [] := by
  induction rest generalizing s with
  | nil => exact .inl hc
  | cons length rest ih =>
    obtain ⟨-, hdrop, hget, hl⟩ := blockBase_succ hrest
    rw [writeEach] at hc
    rcases writeBlock_cases hfvb h hl with ⟨hin, hw⟩ | ⟨hin, hfit, status, hw⟩ | ⟨n, hin, hn, hlt, hw⟩
    · rw [hw] at hc
      exact @ih (s.skip length) ⟨uintn_lt _, h.size_eq, h.size_lt, h.end_lt⟩ hdrop hb hc
    · rw [hw] at hc
      rcases List.mem_append.mp hc with hc | hc
      · exact .inl hc
      · have hempty : (s.call s.currBuffer.length).buffer = [] := by rw [Cursor.call, hb]; rfl
        rw [List.mem_singleton.mp hc]
        refine .inr ⟨⟨length, hget, ?_⟩, hempty⟩
        rw [hempty]
        have := hin.2.1
        change s.currWritePtr - s.linearOffset + 0 ≤ length
        omega
    · rw [hb] at hlt
      exact absurd hlt (Nat.not_lt_zero _)

/-- A volume whose every write succeeds. -/
def willing : Fvb := fun _ c => (.success, c.buffer.length)

theorem writeEach_willing (rest : List Nat) (s : Cursor) : (finish (writeEach willing rest s)).1 = .success := by
  induction rest generalizing s with
  | nil => rfl
  | cons length rest ih =>
    have hstep : (∃ calls, writeBlock willing length s = .error (.success, calls)) ∨
        ∃ s', writeBlock willing length s = .ok s' := by
      unfold writeBlock
      dsimp only
      split
      · split
        · exact .inl ⟨_, rfl⟩
        · exact .inr ⟨_, rfl⟩
      · exact .inr ⟨_, rfl⟩
    rw [writeEach]
    obtain ⟨calls, hw⟩ | ⟨s', hw⟩ := hstep
    · rw [hw]
      rfl
    · rw [hw]
      exact ih s'

end

/-! ## `UpdateVariableStore` is a flat write -/

/-- The cursor that the loops start with. -/
def start (V : Volume) (p : Nat) (buffer : List UInt8) : Cursor := ⟨V.base, p, buffer.length, buffer, 0, []⟩

theorem start_inStep {V : Volume} {p : Nat} {buffer : List UInt8} (hlo : V.base ≤ p)
    (hhi : p + buffer.length ≤ V.base + V.fvLength) (hsize : buffer.length < 2 ^ 32) :
    (start V p buffer).InStep V V.blockLengths := by
  have hmax := V.addressable
  exact ⟨⟨show V.base < maxAddress by omega, rfl, hsize, show p + buffer.length < maxAddress by omega⟩, rfl, rfl, hlo⟩

theorem flat_of_reaches {V : Volume} {p : Nat} {buffer : List UInt8} {fvb : Fvb} (hfvb : fvb.Documented)
    (hs : (start V p buffer).InStep V V.blockLengths) (hne : buffer ≠ []) (hreach : V.Reaches (p + buffer.length))
    (hsuccess : (finish (writeEach fvb V.blockLengths (start V p buffer))).1 = .success) :
    FlatWrite V p buffer (finish (writeEach fvb V.blockLengths (start V p buffer))).2 := by
  obtain ⟨status, calls, hw, hflat⟩ := writeEach_reaches hfvb hs hne hreach
  rw [hw] at hsuccess ⊢
  exact hflat hsuccess

theorem flat_of_empty {V : Volume} {p : Nat} {fvb : Fvb} (hfvb : fvb.Documented)
    (hs : (start V p []).InStep V V.blockLengths) :
    FlatWrite V p [] (finish (writeEach fvb V.blockLengths (start V p []))).2 := by
  have hall (c) (hc : c ∈ (finish (writeEach fvb V.blockLengths (start V p []))).2) : c.InBlock V ∧ c.buffer = [] :=
    (writeEach_empty hs.sound rfl rfl hfvb hc).resolve_left List.not_mem_nil
  refine ⟨fun c hc => (hall c hc).1, ?_⟩
  rw [placed, List.flatMap_eq_nil_iff]
  intro c hc
  rw [FvbCall.programs, (hall c hc).2, placed]

theorem not_flat_of_not_reaches {V : Volume} {p : Nat} {buffer : List UInt8}
    (hs : (start V p buffer).InStep V V.blockLengths) (hne : buffer ≠ []) (hreach : ¬V.Reaches (p + buffer.length)) :
    ¬FlatWrite V p buffer (finish (writeEach willing V.blockLengths (start V p buffer))).2 := by
  intro hflat
  have hmax : p + buffer.length < maxAddress := hs.sound.end_lt
  have hpos := List.length_pos_of_ne_nil hne
  obtain ⟨b, hb⟩ := last_placed p hne
  rw [← hflat.programs] at hb
  obtain ⟨c, hc, hb⟩ := List.mem_flatMap.mp hb
  obtain ⟨hfrom, hto⟩ := mem_placed hb
  rcases writeEach_misses (fun _ _ _ => rfl) hs hne hreach hc with hc | hc | hc
  · cases hc
  · rw [show (start V p buffer).currWritePtr + (start V p buffer).currBuffer.length = p + buffer.length from rfl] at hc
    omega
  · omega

/-- Each success writes the bytes, each once, and nothing else, if and only if the range ends with the volume
(and is refused), is empty or ends in a block of the block map. -/
theorem updateVariableStore_flat_iff (V : Volume) (nonVolatileVariableBase : Nat) (setByIndex : Bool)
    (dataPtrIndex p : Nat) (buffer : List UInt8)
    (hp : p = dataPtr nonVolatileVariableBase setByIndex dataPtrIndex) (hlo : V.base ≤ p)
    (hhi : p + buffer.length ≤ V.base + V.fvLength) (hsize : buffer.length < 2 ^ 32) :
    (∀ fvb : Fvb, fvb.Documented →
      (updateVariableStore V nonVolatileVariableBase fvb setByIndex dataPtrIndex buffer).1 = .success →
      FlatWrite V p buffer (updateVariableStore V nonVolatileVariableBase fvb setByIndex dataPtrIndex buffer).2) ↔
    p + buffer.length = V.base + V.fvLength ∨ buffer = [] ∨ V.Reaches (p + buffer.length) := by
  have heq (fvb : Fvb) := updateVariableStore_eq V nonVolatileVariableBase fvb setByIndex dataPtrIndex p buffer hp hlo hhi
  have hs := start_inStep hlo hhi hsize
  by_cases hrefused : p + buffer.length = V.base + V.fvLength
  · refine ⟨fun _ => .inl hrefused, fun _ fvb _ hsuccess => ?_⟩
    rw [heq, if_pos hrefused] at hsuccess
    cases hsuccess
  have heq' (fvb : Fvb) : updateVariableStore V nonVolatileVariableBase fvb setByIndex dataPtrIndex buffer =
      finish (writeEach fvb V.blockLengths (start V p buffer)) := by rw [heq, if_neg hrefused, start]
  constructor
  · intro h
    by_contra hcond
    obtain ⟨-, hne, hreach⟩ : ¬_ ∧ buffer ≠ [] ∧ ¬V.Reaches (p + buffer.length) := by
      simpa only [not_or] using hcond
    have hflat := h willing (fun _ _ _ => rfl) (by rw [heq']; exact writeEach_willing _ _)
    rw [heq'] at hflat
    exact not_flat_of_not_reaches hs hne hreach hflat
  · intro hcond fvb hfvb hsuccess
    rw [heq'] at hsuccess ⊢
    by_cases hne : buffer = []
    · subst hne
      exact flat_of_empty hfvb hs
    · exact flat_of_reaches hfvb hs hne ((hcond.resolve_left hrefused).resolve_left hne) hsuccess

/-- Blocks of 8, 8 and 32 bytes. -/
def threeBlocks : Volume where
  base := 0x1000
  fvLength := 48
  blockMap := [⟨2, 8, by decide, by decide, by decide⟩, ⟨1, 32, by decide, by decide, by decide⟩]
  addressable := by decide

theorem updateVariableStore_flat_sample :
    FlatWrite threeBlocks 0x1006 (List.replicate 20 7)
      (updateVariableStore threeBlocks 0x1004 willing true 2 (List.replicate 20 7)).2 :=
  (updateVariableStore_flat_iff threeBlocks 0x1004 true 2 0x1006 (List.replicate 20 7) (by decide) (by decide)
    (by decide) (by decide)).mpr (.inr (.inr ⟨3, by decide, by decide⟩)) willing (fun _ _ _ => rfl) rfl

/-- 64 bytes, of which the block map has 16. -/
def shortMap : Volume where
  base := 0x1000
  fvLength := 64
  blockMap := [⟨1, 16, by decide, by decide, by decide⟩]
  addressable := by decide

theorem short_block_map_loses_bytes :
    updateVariableStore shortMap 0x1000 willing true 12 [1, 2, 3, 4, 5, 6] = (.success, [⟨0, 12, [1, 2, 3, 4]⟩]) ∧
    ¬FlatWrite shortMap 0x100c [1, 2, 3, 4, 5, 6]
      (updateVariableStore shortMap 0x1000 willing true 12 [1, 2, 3, 4, 5, 6]).2 := by
  have hrun : updateVariableStore shortMap 0x1000 willing true 12 [1, 2, 3, 4, 5, 6] =
      (.success, [⟨0, 12, [1, 2, 3, 4]⟩]) := rfl
  refine ⟨hrun, fun h => ?_⟩
  have hprog := h.programs
  rw [hrun] at hprog
  exact absurd hprog (by decide)

/-! ## The write of the driver's model -/

theorem flashWrite_placed (P : Platform) (m : Memory) (a : Nat) (bs : List UInt8) :
    flashWrite P m a bs = (placed a bs).foldl (fun m x => flashWrite P m x.1 [x.2]) m := by
  induction bs generalizing m a with
  | nil =>
    unfold flashWrite
    split
    · exact (clearBits_eq_write m a [] nofun).trans (write_nil m a)
    · exact write_nil m a
  | cons b bs ih => rw [show b :: bs = [b] ++ bs from rfl, flashWrite_append, ih]; rfl

/-- The volume after a call of `Fvb->Write` that succeeds. -/
def FvbCall.apply (P : Platform) (V : Volume) (m : Memory) (c : FvbCall) : Memory :=
  fvbWrite P m (V.blockBase c.lba) c.offset c.buffer

theorem FlatWrite.apply {P : Platform} {V : Volume} {p : Nat} {bs : List UInt8} {calls : List FvbCall}
    (h : FlatWrite V p bs calls) (m : Memory) : calls.foldl (FvbCall.apply P V) m = flashWrite P m p bs := by
  have hcall : FvbCall.apply P V = fun m c => (c.programs V).foldl (fun m x => flashWrite P m x.1 [x.2]) m := by
    funext m c
    exact flashWrite_placed P m _ c.buffer
  rw [flashWrite_placed, ← h.programs, List.foldl_flatMap, hcall]

/-- The driver's model of `UpdateVariableStore` has the memory that the calls leave. -/
theorem updateVariableStore_refines (P : Platform) (V : Volume) (setByIndex : Bool) (idx p : Nat)
    (bs : List UInt8) (s : State) (hV : V.base = P.fvBase ∧ V.fvLength = P.fvLength ∧ V.blockLengths = P.blockLengths)
    (hp : p = if setByIndex then idx + P.nonVolatileVariableBase else idx) (hbs : bs ≠ []) (hsize : bs.length < 2 ^ 32)
    (hlo : P.fvBase ≤ p) (hhi : p + bs.length < P.fvBase + P.fvLength) :
    (updateVariableStore V P.nonVolatileVariableBase willing setByIndex idx bs).1 = .success ∧
    (Variable.updateVariableStore P false setByIndex idx bs s).2.mem =
      (updateVariableStore V P.nonVolatileVariableBase willing setByIndex idx bs).2.foldl (FvbCall.apply P V) s.mem := by
  obtain ⟨hbase, hlen, hblocks⟩ := hV
  have hmax := V.addressable
  have hptr : p = dataPtr P.nonVolatileVariableBase setByIndex idx := by
    unfold dataPtr
    cases setByIndex with
    | false => exact hp
    | true =>
      rw [if_pos rfl] at hp ⊢
      rw [uintn_of_lt (by omega)]
      exact hp
  have hreach : V.Reaches (p + bs.length) := by
    refine ⟨V.blockLengths.length, ?_⟩
    rw [Volume.blockBase, List.take_length, hblocks, blockLengths_sum, ← hlen]
    exact ⟨by omega, hmax⟩
  have heq : updateVariableStore V P.nonVolatileVariableBase willing setByIndex idx bs =
      finish (writeEach willing V.blockLengths (start V p bs)) := by
    rw [updateVariableStore_eq V _ willing setByIndex idx p bs hptr (by omega) (by omega), if_neg (by omega), start]
  have hs := @start_inStep V p bs (by omega) (by omega) hsize
  rw [heq, (flat_of_reaches (fun _ _ _ => rfl) hs hbs hreach (writeEach_willing _ _)).apply]
  refine ⟨writeEach_willing _ _, ?_⟩
  unfold Variable.updateVariableStore
  simp only [Bool.false_eq_true, if_false, ← hp]
  rw [if_neg (by omega), if_neg (by omega)]
  exact writeBlocks_eq P _ _ _ _ _ hbs hlo (by rw [blockLengths_sum]; omega)

end Udk.Variable.BlockWrite
