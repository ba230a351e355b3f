import Udk.Bytes

/-! # Network buffers

Pointers have 64 bits, lengths and indices 32. A result `none` stands for an access behind the `BlockOp` array or
through a NULL pointer.
-/

namespace Udk.NetBuffer

open Bytes

def uint32 (n : Nat) : Nat := n % 2 ^ 32
def subtract32 (a b : Nat) : Nat := (a + 2 ^ 32 - b) % 2 ^ 32
def subtract64 (a b : Nat) : Nat := (a + 2 ^ 64 - b) % 2 ^ 64

/-- `NET_BLOCK_OP`. -/
structure BlockOp where
  blockHead : Nat
  blockTail : Nat
  head : Nat
  tail : Nat
  size : Nat
  deriving DecidableEq

/-- `NET_BUF`; `BlockOpNum` is the length of the array. -/
structure NetBuf where
  totalSize : Nat
  blockOps : List BlockOp
  deriving DecidableEq

/-- `NET_FRAGMENT`. -/
structure NetFragment where
  len : Nat
  bulk : Nat

/-- Whether the structures can be allocated, and where `AllocatePool` puts a block of so many bytes. -/
structure Allocator where
  structs : Bool
  bulk : Nat → Option Nat

structure State where
  memory : Memory
  /-- The address and the length of each access to the data. -/
  touched : List (Nat × Nat)

def copyMem (destination source length : Nat) (s : State) : State where
  memory := write s.memory destination (read s.memory source length)
  touched := (destination, length) :: (source, length) :: s.touched

def headSpace (op : BlockOp) : Nat := subtract64 op.head op.blockHead

def tailSpace (op : BlockOp) : Nat := subtract64 op.blockTail op.tail

/-- An operation that `AllocateZeroPool` left zero. -/
def zeroOp : BlockOp := ⟨0, 0, 0, 0, 0⟩

def netbufAlloc (pool : Allocator) (len : Nat) : Option NetBuf :=
  if pool.structs then (pool.bulk len).map fun bulk => ⟨0, [⟨bulk, bulk + len, bulk, bulk, 0⟩]⟩ else none

def netbufClone (pool : Allocator) (nbuf : NetBuf) : Option NetBuf :=
  if pool.structs then some nbuf else none

def getByteLoop (offset : Nat) : List BlockOp → Nat → Nat → Option (Nat × Nat)
  | [], _, _ => none
  | op :: ops, index, len =>
    if uint32 (len + op.size) ≤ offset then getByteLoop offset ops (index + 1) (uint32 (len + op.size))
    else some (op.head + subtract32 offset len, index)

/-- The pointer to a byte, and the index of its block. -/
def netbufGetByte (nbuf : NetBuf) (offset : Nat) : Option (Nat × Nat) :=
  if nbuf.totalSize ≤ offset then none else getByteLoop offset nbuf.blockOps 0 0

/-- `NetbufSetBlock` and `NetbufSetBlockOp`. -/
def setBlockOp (bulk len : Nat) : BlockOp := ⟨bulk, bulk + len, bulk, bulk + len, len⟩

/-! ## `NetbufGetFragment` -/

/-- The index of the first block that has the offset, and the offset of the block. -/
def findFirst (offset : Nat) : List BlockOp → Nat → Nat → Nat × Nat
  | [], index, cur => (index, cur)
  | op :: ops, index, cur =>
    if offset < uint32 (cur + op.size) then (index, cur) else findFirst offset ops (index + 1) (uint32 (cur + op.size))

/-- The index of the last block and the bytes in it; both stay 0 when there is none. -/
def findLast (stop : Nat) : List BlockOp → Nat → Nat → Nat × Nat
  | [], _, _ => (0, 0)
  | op :: ops, index, cur =>
    if stop ≤ uint32 (cur + op.size) then (index, subtract32 stop cur)
    else findLast stop ops (index + 1) (uint32 (cur + op.size))

/-- The blocks of the child between its first and its last one. -/
def middleOps (blockOps : List BlockOp) (first last : Nat) : List BlockOp :=
  ((blockOps.take last).drop (first + 1)).map fun op => setBlockOp op.head op.size

/-- The array of the child: what is set in it, and zeroes behind. -/
def childOps (blockOpNum : Nat) (ops : List BlockOp) : Option (List BlockOp) :=
  if ops.length ≤ blockOpNum then some (ops ++ List.replicate (blockOpNum - ops.length) zeroOp) else none

/-- The child once the first and the last block are known. -/
def buildFragment (pool : Allocator) (nbuf : NetBuf) (len headSpace first firstSkip firstLen last lastLen : Nat) :
    Option (Option NetBuf) :=
  match nbuf.blockOps[first]?, nbuf.blockOps[last]? with
  | some firstOp, some lastOp =>
    let set := setBlockOp (firstOp.head + firstSkip) firstLen :: middleOps nbuf.blockOps first last ++
      if first ≠ last then [setBlockOp lastOp.head lastLen] else []
    let blockOpNum := uint32 (subtract32 last first + 1)
    if headSpace ≠ 0 then
      match pool.structs, pool.bulk headSpace with
      | true, some firstBulk =>
        let headOp : BlockOp :=
          ⟨firstBulk, firstBulk + headSpace, firstBulk + headSpace, firstBulk + headSpace, 0⟩
        (childOps (uint32 (blockOpNum + 1)) (headOp :: set)).map fun ops => some ⟨len, ops⟩
      | _, _ => some none
    else if pool.structs then (childOps blockOpNum set).map fun ops => some ⟨len, ops⟩
    else some none
  | _, _ => none

def netbufGetFragment (pool : Allocator) (nbuf : NetBuf) (offset len headSpace : Nat) : Option (Option NetBuf) :=
  if len = 0 ∨ nbuf.totalSize < uint32 (offset + len) then some none
  else
    let (first, cur) := findFirst offset nbuf.blockOps 0 0
    match nbuf.blockOps[first]? with
    | none => none
    | some op =>
      let firstSkip := subtract32 offset cur
      let firstLen := subtract32 op.size firstSkip
      if firstLen < len then
        let (last, lastLen) :=
          findLast (uint32 (offset + len)) (nbuf.blockOps.drop (first + 1)) (first + 1) (uint32 (cur + op.size))
        buildFragment pool nbuf len headSpace first firstSkip firstLen last lastLen
      else buildFragment pool nbuf len headSpace first firstSkip len first len

/-! ## `NetbufFromExt` and `NetbufFromBufList` -/

/-- What is left of the fragments once the header is copied, and how many bytes were. -/
structure Headed where
  fragments : List NetFragment
  copied : Nat
  consumed : Nat
  state : State

def copyHeader : List NetFragment → Nat → Nat → State → Headed
  | [], _, _, s => ⟨[], 0, 0, s⟩
  | f :: fs, len, header, s =>
    if f.len ≤ len then
      let s := copyMem header f.bulk f.len s
      if len - f.len = 0 then ⟨fs, f.len, 1, s⟩
      else
        let rest := copyHeader fs (len - f.len) (header + f.len) s
        { rest with copied := f.len + rest.copied, consumed := rest.consumed + 1 }
    else ⟨⟨f.len - len, f.bulk + len⟩ :: fs, len, 0, copyMem header f.bulk len s⟩

/-- The buffer over the first block, if there is one, and the fragments that are left. -/
def buildExt (pool : Allocator) (firstBlock : Option Nat) (firstBlockLen headSpace blockNum : Nat) (h : Headed) :
    Option (Option NetBuf × State) :=
  if pool.structs then
    let firstOps := match firstBlock with
      | some bulk =>
        if firstBlockLen = 0 then []
        else
          let stop := bulk + uint32 (headSpace + h.copied)
          [⟨bulk, stop, bulk + headSpace, stop, uint32 h.copied⟩]
      | none => []
    (childOps blockNum (firstOps ++ h.fragments.map fun f => setBlockOp f.bulk f.len)).map fun ops =>
      (some ⟨uint32 (h.copied + (h.fragments.map NetFragment.len).sum), ops⟩, h.state)
  else some (none, h.state)

def netbufFromExt (pool : Allocator) (ext : List NetFragment) (headSpace headLen : Nat) (s : State) :
    Option (Option NetBuf × State) :=
  match ext with
  | [] => none
  | f :: fs =>
    let headLen := if headLen ≤ f.len ∨ fs = [] then 0 else headLen
    if headSpace = 0 ∧ headLen = 0 then buildExt pool none 0 0 (uint32 (fs.length + 1)) ⟨f :: fs, 0, 0, s⟩
    else
      let firstBlockLen := uint32 (headLen + headSpace)
      match pool.bulk firstBlockLen with
      | none => some (none, s)
      | some bulk =>
        let h : Headed := if headLen = 0 then ⟨f :: fs, 0, 0, s⟩ else copyHeader (f :: fs) headLen (bulk + headSpace) s
        buildExt pool (some bulk) firstBlockLen headSpace (subtract32 (fs.length + 2) h.consumed) h

/-- The blocks of a buffer that have bytes. -/
def fragmentsOf (nbuf : NetBuf) : List NetFragment :=
  (nbuf.blockOps.filter fun op => op.size ≠ 0).map fun op => ⟨op.size, op.head⟩

def netbufFromBufList (pool : Allocator) (bufList : List NetBuf) (headSpace headerLen : Nat) (s : State) :
    Option (Option NetBuf × State) :=
  let fragmentNum := uint32 (bufList.map fun nbuf => nbuf.blockOps.length).sum
  if pool.structs then
    let fragment := bufList.flatMap fragmentsOf
    if fragment.length ≤ fragmentNum then netbufFromExt pool fragment headSpace headerLen s else none
  else some (none, s)

/-! ## Space at the ends -/

def netbufReserve (nbuf : NetBuf) (len : Nat) : Option NetBuf :=
  match nbuf.blockOps with
  | [] => none
  | op :: ops => some { nbuf with blockOps := { op with head := op.head + len, tail := op.tail + len } :: ops }

/-- The index of the block that has a byte, or 0. -/
def indexOf (nbuf : NetBuf) (offset : Nat) : Nat := ((netbufGetByte nbuf offset).map Prod.snd).getD 0

/-- The block that the space is taken from. -/
def spaceIndex (nbuf : NetBuf) (len : Nat) (fromHead : Bool) : Option Nat :=
  if nbuf.totalSize = 0 then some 0
  else if fromHead then
    let index := indexOf nbuf 0
    (nbuf.blockOps[index]?).map fun op => if headSpace op < len ∧ 0 < index then index - 1 else index
  else
    let index := indexOf nbuf (nbuf.totalSize - 1)
    (nbuf.blockOps[index]?).map fun op =>
      if tailSpace op < len ∧ index < nbuf.blockOps.length - 1 then index + 1 else index

/-- The pointer to the new space, and the buffer. -/
def netbufAllocSpace (nbuf : NetBuf) (len : Nat) (fromHead : Bool) : Option (Option Nat × NetBuf) :=
  match spaceIndex nbuf len fromHead with
  | none => none
  | some index =>
    match nbuf.blockOps[index]? with
    | none => none
    | some op =>
      if (if fromHead then headSpace op else tailSpace op) < len then some (none, nbuf)
      else
        let grown : BlockOp := if fromHead then { op with head := op.head - len, size := uint32 (op.size + len) }
          else { op with tail := op.tail + len, size := uint32 (op.size + len) }
        some (some (if fromHead then op.head - len else op.tail),
          ⟨uint32 (nbuf.totalSize + len), nbuf.blockOps.set index grown⟩)

/-! ## `NetbufTrim` -/

def netblockTrim (op : BlockOp) (len : Nat) (fromHead : Bool) : BlockOp :=
  if fromHead then { op with size := op.size - len, head := op.head + len }
  else { op with size := op.size - len, tail := op.tail - len }

/-- The loop over the blocks from the end that is trimmed. -/
def trimLoop (fromHead : Bool) : List BlockOp → Nat → Option (Nat × List BlockOp)
  | [], _ => none
  | op :: ops, len =>
    if op.size = 0 then (trimLoop fromHead ops len).map fun (trimmed, ops) => (trimmed, op :: ops)
    else if op.size < len then
      (trimLoop fromHead ops (len - op.size)).map fun (trimmed, ops) =>
        (op.size + trimmed, netblockTrim op op.size fromHead :: ops)
    else some (len, netblockTrim op len fromHead :: ops)

def netbufTrim (nbuf : NetBuf) (len : Nat) (fromHead : Bool) : Option (Nat × NetBuf) :=
  let len := min len nbuf.totalSize
  let ops := if fromHead then nbuf.blockOps else nbuf.blockOps.reverse
  (trimLoop fromHead ops len).map fun (trimmed, ops) =>
    (trimmed, ⟨nbuf.totalSize - len, if fromHead then ops else ops.reverse⟩)

/-! ## `NetbufCopy` and `NetbufDuplicate` -/

/-- The blocks from the one with the offset on, and the offset of that block. -/
def skipLoop (offset : Nat) : List BlockOp → Nat → List BlockOp × Nat
  | [], cur => ([], cur)
  | op :: ops, cur =>
    if op.size = 0 then skipLoop offset ops cur
    else if offset < uint32 (cur + op.size) then (op :: ops, cur)
    else skipLoop offset ops (uint32 (cur + op.size))

def copyLoop : List BlockOp → Nat → Nat → Nat → State → Nat × State
  | [], _, copied, _, s => (copied, s)
  | op :: ops, len, copied, dest, s =>
    if op.size < len then copyLoop ops (len - op.size) (copied + op.size) (dest + op.size) (copyMem dest op.head op.size s)
    else (copied + len, copyMem dest op.head len s)

def netbufCopy (nbuf : NetBuf) (offset len dest : Nat) (s : State) : Option (Nat × State) :=
  if len = 0 ∨ nbuf.totalSize ≤ offset then some (0, s)
  else
    let len := min len (nbuf.totalSize - offset)
    match skipLoop offset nbuf.blockOps 0 with
    | ([], _) => none
    | (op :: ops, cur) =>
      let skip := subtract32 offset cur
      let left := subtract32 op.size skip
      if len ≤ left then some (len, copyMem dest (op.head + skip) len s)
      else some (copyLoop ops (len - left) left (dest + left) (copyMem dest (op.head + skip) left s))

/-- The bytes are copied to space at the tail of the duplicate. -/
def fillDuplicate (nbuf duplicate : NetBuf) (headSpace : Nat) (s : State) : Option (Option NetBuf × State) :=
  match netbufReserve duplicate headSpace with
  | none => none
  | some duplicate =>
    match netbufAllocSpace duplicate nbuf.totalSize false with
    | none => none
    | some (none, duplicate) => if nbuf.totalSize = 0 then some (some duplicate, s) else none
    | some (some dst, duplicate) =>
      (netbufCopy nbuf 0 nbuf.totalSize dst s).map fun (_, s) => (some duplicate, s)

def netbufDuplicate (pool : Allocator) (nbuf : NetBuf) (duplicate : Option NetBuf) (headSpace : Nat) (s : State) :
    Option (Option NetBuf × State) :=
  match duplicate with
  | some duplicate => fillDuplicate nbuf duplicate headSpace s
  | none =>
    match netbufAlloc pool (uint32 (nbuf.totalSize + headSpace)) with
    | none => some (none, s)
    | some duplicate => fillDuplicate nbuf duplicate headSpace s

end Udk.NetBuffer
