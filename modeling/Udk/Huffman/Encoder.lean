import Mathlib.Algebra.GroupWithZero.Nat
import Mathlib.Logic.Function.Basic
import Mathlib.Data.Nat.Notation

/-! # The Huffman codes of the compressor, from `EfiCompress.c`

Arrays are functions from the index. A loop that is not counted takes fuel and gives `none` when it runs out.
-/

namespace Udk.Huffman

open Function (update)

/-- The size of the Char&Len set, the largest of the symbol sets. -/
def charLenSize : Nat := 510

/-- What `MakeTree` works on. `code` is `CodeParm`, which also holds the symbols in the order of their
frequencies; `mSortPtr` is an index into it. -/
structure TreeState where
  mHeap : Nat → Nat
  mHeapSize : Nat
  mFreq : Nat → Nat
  mLeft : Nat → Nat
  mRight : Nat → Nat
  code : Nat → Nat
  mSortPtr : Nat
  avail : Nat

/-! ## The priority queue -/

/-- The loop of `DownHeap`; `k` is the entry that goes down. -/
def downHeapLoop (mFreq : Nat → Nat) (mHeapSize k : Nat) : Nat → (Nat → Nat) → Nat → Option (Nat → Nat)
  | 0, _, _ => none
  | fuel + 1, mHeap, i =>
    if 2 * i ≤ mHeapSize then
      let j := if 2 * i < mHeapSize ∧ mFreq (mHeap (2 * i)) > mFreq (mHeap (2 * i + 1)) then 2 * i + 1 else 2 * i
      if mFreq k ≤ mFreq (mHeap j) then some (update mHeap i k)
      else downHeapLoop mFreq mHeapSize k fuel (update mHeap i (mHeap j)) j
    else some (update mHeap i k)

def downHeap (fuel : Nat) (mFreq : Nat → Nat) (mHeapSize : Nat) (mHeap : Nat → Nat) (i : Nat) : Option (Nat → Nat) :=
  downHeapLoop mFreq mHeapSize (mHeap i) fuel mHeap i

/-- The heap and its size after the symbols below `n` have been looked at. -/
def collect (mFreq : Nat → Nat) (mHeap : Nat → Nat) : Nat → (Nat → Nat) × Nat
  | 0 => (update mHeap 1 0, 0)
  | i + 1 =>
    let (mHeap, mHeapSize) := collect mFreq mHeap i
    if mFreq i ≠ 0 then (update mHeap (mHeapSize + 1) i, mHeapSize + 1) else (mHeap, mHeapSize)

/-- `for (i = mHeapSize / 2; i >= 1; i--) DownHeap(i)`. -/
def makeQueue (fuel : Nat) (mFreq : Nat → Nat) (mHeapSize : Nat) : Nat → (Nat → Nat) → Option (Nat → Nat)
  | 0, mHeap => some mHeap
  | i + 1, mHeap => do
    let mHeap ← downHeap fuel mFreq mHeapSize mHeap (i + 1)
    makeQueue fuel mFreq mHeapSize i mHeap

/-! ## The tree -/

/-- `*mSortPtr++ = i` for a symbol. -/
def popSymbol (mN i : Nat) (s : TreeState) : TreeState :=
  if i < mN then { s with code := update s.code s.mSortPtr i, mSortPtr := s.mSortPtr + 1 } else s

/-- One turn of the loop: the two entries of the least frequency become the children of a new node. -/
def joinLeast (fuel mN : Nat) (s : TreeState) : Option TreeState := do
  let i := s.mHeap 1
  let s := popSymbol mN i s
  let mHeap := update s.mHeap 1 (s.mHeap s.mHeapSize)
  let mHeapSize := s.mHeapSize - 1
  let mHeap ← downHeap fuel s.mFreq mHeapSize mHeap 1
  let j := mHeap 1
  let s := popSymbol mN j s
  let k := s.avail
  let mFreq := update s.mFreq k ((s.mFreq i + s.mFreq j) % 65536)
  let mHeap ← downHeap fuel mFreq mHeapSize (update mHeap 1 k) 1
  some { s with mHeap, mHeapSize, mFreq, mLeft := update s.mLeft k i, mRight := update s.mRight k j, avail := k + 1 }

/-- `do … while (mHeapSize > 1)`. -/
def treeLoop (fuel mN : Nat) : Nat → TreeState → Option TreeState
  | 0, _ => none
  | turns + 1, s => do
    let s ← joinLeast fuel mN s
    if s.mHeapSize > 1 then treeLoop fuel mN turns s else some s

/-! ## The lengths -/

def countLen (mN : Nat) (mLeft mRight : Nat → Nat) : Nat → Nat → Nat → (Nat → Nat) → Option (Nat → Nat)
  | 0, _, _, _ => none
  | fuel + 1, depth, i, mLenCnt =>
    if i < mN then
      let d := if depth < 16 then depth else 16
      some (update mLenCnt d ((mLenCnt d + 1) % 65536))
    else do
      let mLenCnt ← countLen mN mLeft mRight fuel (depth + 1) (mLeft i) mLenCnt
      countLen mN mLeft mRight fuel (depth + 1) (mRight i) mLenCnt

/-- The sum of `mLenCnt[i] << (16 - i)` for `i` from `n` down to 1. -/
def cumulate (mLenCnt : Nat → Nat) : Nat → Nat
  | 0 => 0
  | i + 1 => (mLenCnt (i + 1) * 2 ^ (16 - (i + 1)) + cumulate mLenCnt i) % 4294967296

/-- `for (i = n; i > 0; i--)`: a symbol of the greatest length up to `n` moves one level down with another one. -/
def moveDown (mLenCnt : Nat → Nat) : Nat → (Nat → Nat)
  | 0 => mLenCnt
  | i + 1 =>
    if mLenCnt (i + 1) ≠ 0 then
      let mLenCnt := update mLenCnt (i + 1) ((mLenCnt (i + 1) + 65535) % 65536)
      update mLenCnt (i + 2) ((mLenCnt (i + 2) + 2) % 65536)
    else moveDown mLenCnt i

/-- `while (Cum != (1U << 16))`. -/
def limitLoop : Nat → (Nat → Nat) → Nat → Option (Nat → Nat)
  | 0, _, _ => none
  | fuel + 1, mLenCnt, cum =>
    if cum ≠ 65536 then
      let mLenCnt := update mLenCnt 16 ((mLenCnt 16 + 65535) % 65536)
      limitLoop fuel (moveDown mLenCnt 15) ((cum + 4294967295) % 4294967296)
    else some mLenCnt

/-- The next `k` symbols get length `i`; the state is `mSortPtr` and `mLen`. -/
def giveLength (code : Nat → Nat) (i : Nat) : Nat → Nat × (Nat → Nat) → Nat × (Nat → Nat)
  | 0, s => s
  | k + 1, (mSortPtr, mLen) => giveLength code i k (mSortPtr + 1, update mLen (code mSortPtr) (i % 256))

/-- `for (i = n; i > 0; i--)`. -/
def giveLengths (code mLenCnt : Nat → Nat) : Nat → Nat × (Nat → Nat) → Nat × (Nat → Nat)
  | 0, s => s
  | i + 1, s => giveLengths code mLenCnt i (giveLength code (i + 1) (mLenCnt (i + 1)) s)

/-- The counts and the lengths. -/
def makeLen (fuel mN root : Nat) (mLeft mRight code mLen : Nat → Nat) : Option ((Nat → Nat) × (Nat → Nat)) := do
  let mLenCnt ← countLen mN mLeft mRight fuel 0 root fun _ => 0
  let mLenCnt ← limitLoop fuel mLenCnt (cumulate mLenCnt 16)
  some (mLenCnt, (giveLengths code mLenCnt 16 (0, mLen)).2)

/-! ## The codes -/

/-- `Start[0]` is not set. -/
def codeStart (start0 : Nat) (mLenCnt : Nat → Nat) : Nat → Nat
  | 0 => start0
  | 1 => 0
  | i + 2 => (codeStart start0 mLenCnt (i + 1) + mLenCnt (i + 1)) * 2 % 65536

/-- `Start` and `Code` after the symbols below `n`. -/
def makeCode (start0 : Nat) (mLenCnt len code : Nat → Nat) : Nat → (Nat → Nat) × (Nat → Nat)
  | 0 => (codeStart start0 mLenCnt, code)
  | i + 1 =>
    let (start, code) := makeCode start0 mLenCnt len code i
    (update start (len i) ((start (len i) + 1) % 65536), update code i (start (len i)))

/-- What `MakeTree` gives back: the root, `LenParm` and `CodeParm`. -/
structure Codes where
  root : Nat
  len : Nat → Nat
  code : Nat → Nat

/-- `mLen[i] = 0` for the symbols below `n`. -/
def clearLengths (mLen : Nat → Nat) : Nat → (Nat → Nat)
  | 0 => mLen
  | i + 1 => update (clearLengths mLen i) i 0

/-- `s` holds what the globals and `CodeParm` hold before the call. -/
def makeTree (fuel start0 nParm : Nat) (freqParm lenParm : Nat → Nat) (s : TreeState) : Option Codes := do
  let mLen := clearLengths lenParm nParm
  let (mHeap, mHeapSize) := collect freqParm s.mHeap nParm
  if mHeapSize < 2 then
    some { root := mHeap 1, len := mLen, code := update s.code (mHeap 1) 0 }
  else
    let mHeap ← makeQueue fuel freqParm mHeapSize (mHeapSize / 2) mHeap
    let s ← treeLoop fuel nParm fuel
      { s with mHeap, mHeapSize, mFreq := freqParm, mSortPtr := 0, avail := nParm }
    let k := s.avail - 1
    let (mLenCnt, mLen) ← makeLen fuel nParm k s.mLeft s.mRight s.code mLen
    some { root := k, len := mLen, code := (makeCode start0 mLenCnt mLen s.code nParm).2 }

end Udk.Huffman
