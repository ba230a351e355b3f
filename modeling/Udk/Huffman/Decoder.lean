import Udk.ArrayTrie
import Udk.Huffman.Encoder

/-! # The decoding tables of the decompressor, from `BaseUefiDecompressLib.c`

`Table`, `mLeft` and `mRight` are the three arrays of a trie.
-/

namespace Udk.Huffman

open Function (update)
open ArrayTrie

/-- The size of `mLeft` and `mRight`. -/
def treeSize : Nat := 2 * charLenSize - 1

def badTable : Nat := 65535

/-- The loop that counts the lengths: `k` symbols are left, `i` is the next one. -/
def countLengths (bitLen : Nat → Nat) : Nat → Nat → (Nat → Nat) → (Nat → Nat)
  | 0, _, count => count
  | k + 1, i, count => countLengths bitLen k (i + 1) (update count (bitLen i) ((count (bitLen i) + 1) % 65536))

def tableStart (count : Nat → Nat) : Nat → Nat
  | 0 => 0
  | 1 => 0
  | i + 2 => (tableStart count (i + 1) + count (i + 1) * 2 ^ (16 - (i + 1))) % 65536

/-- `v` goes to the entries from `lo` up to `hi`. -/
def fill (table : Nat → Nat) (lo hi v : Nat) : Nat → Nat := fun i => if lo ≤ i ∧ i < hi then v else table i

/-- `*Pointer = Avail++` if there is no node and room for one. -/
def enter (pointer : Cell) (s : Arrays × Nat) : Arrays × Nat :=
  if s.1.get pointer = 0 ∧ s.2 < treeSize then
    (((s.1.set (.left s.2) 0).set (.right s.2) 0).set pointer s.2, s.2 + 1)
  else s

/-- The loop over the bits of a long code, `Index` of them left; the last argument is `Index3`. -/
def insertLong (tableBits : Nat) : Nat → Cell → Arrays × Nat → Nat → Cell × (Arrays × Nat)
  | 0, pointer, s, _ => (pointer, s)
  | index + 1, pointer, s, index3 =>
    let s := enter pointer s
    let v := s.1.get pointer
    let pointer :=
      if v < treeSize then
        if index3 &&& 2 ^ (15 - tableBits) ≠ 0 then .right v else .left v
      else pointer
    insertLong tableBits index pointer s (index3 * 2 % 65536)

def tableWeight (tableBits len : Nat) : Nat :=
  if len = 0 then 0 else if len ≤ tableBits then 2 ^ (tableBits - len) else 2 ^ (16 - len)

/-- One turn of the loop over the symbols; the state is `Start`, the arrays and `Avail`. -/
def insertChar (bitLen : Nat → Nat) (tableBits char : Nat) (s : (Nat → Nat) × Arrays × Nat) :
    (Nat → Nat) × Arrays × Nat :=
  let len := bitLen char
  if len = 0 ∨ len ≥ 17 then s
  else
    let (start, arrays, avail) := s
    let nextCode := (start len + tableWeight tableBits len) % 65536
    let (arrays, avail) :=
      if len ≤ tableBits then ({ arrays with table := fill arrays.table (start len) nextCode char }, avail)
      else
        let (pointer, arrays, avail) :=
          insertLong tableBits (len - tableBits) (.table (start len / 2 ^ (16 - tableBits))) (arrays, avail) (start len)
        (arrays.set pointer char, avail)
    (update start len nextCode, arrays, avail)

/-- The symbols below `n`. -/
def insertChars (bitLen : Nat → Nat) (tableBits : Nat) (s : (Nat → Nat) × Arrays × Nat) : Nat → (Nat → Nat) × Arrays × Nat
  | 0 => s
  | char + 1 => insertChar bitLen tableBits char (insertChars bitLen tableBits s char)

/-- The status and the arrays. -/
def makeTable (numOfChar : Nat) (bitLen : Nat → Nat) (tableBits : Nat) (arrays : Arrays) : Nat × Arrays :=
  let start := tableStart (countLengths bitLen numOfChar 0 fun _ => 0)
  if start 17 ≠ 0 then (badTable, arrays)
  else
    let juBits := 16 - tableBits
    let start := fun i => if 1 ≤ i ∧ i ≤ tableBits then start i / 2 ^ juBits else start i
    let index := start (tableBits + 1) / 2 ^ juBits
    let arrays := if index ≠ 0 then { arrays with table := fill arrays.table index (2 ^ tableBits) 0 } else arrays
    (0, (insertChars bitLen tableBits (start, arrays, numOfChar) numOfChar).2.1)

/-- The `do … while` loop of `DecodeP`, `ReadCLen` and `DecodeC` over the bits after the table's. -/
def decodeLong (limit : Nat) (arrays : Arrays) (mBitBuf : Nat) : Nat → Nat → Nat → Option Nat
  | 0, _, _ => none
  | fuel + 1, val, mask =>
    let val := if mBitBuf &&& mask ≠ 0 then arrays.right val else arrays.left val
    if val ≥ limit then decodeLong limit arrays mBitBuf fuel val (mask / 2) else some val

/-- How these three functions look a symbol up; `mBitBuf` has 32 bits. -/
def decodeSymbol (fuel limit tableBits : Nat) (arrays : Arrays) (mBitBuf : Nat) : Option Nat :=
  let val := arrays.table (mBitBuf / 2 ^ (32 - tableBits))
  if val ≥ limit then decodeLong limit arrays mBitBuf fuel val (2 ^ (31 - tableBits)) else some val

end Udk.Huffman
