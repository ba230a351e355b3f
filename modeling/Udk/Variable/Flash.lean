import Udk.Variable.Layout

/-! # What `UpdateVariableStore` writes -/

open Udk.Bytes

namespace Udk.Variable

/-! ## The loop over the blocks -/

/-- One write to the volume, whatever the blocks. -/
def flashWrite (P : Platform) (m : Memory) (p : Nat) (bs : List UInt8) : Memory :=
  if P.stickyWrite then clearBits m p bs else write m p bs

theorem flashWrite_append (P : Platform) (m : Memory) (p : Nat) (xs ys : List UInt8) :
    flashWrite P m p (xs ++ ys) = flashWrite P (flashWrite P m p xs) (p + xs.length) ys := by
  unfold flashWrite
  split
  · exact clearBits_append m p xs ys
  · exact write_append m p xs ys

theorem fvbWrite_eq (P : Platform) (m : Memory) (blockBase p : Nat) (bs : List UInt8) (h : blockBase ≤ p) :
    fvbWrite P m blockBase (p - blockBase) bs = flashWrite P m p bs := by
  unfold fvbWrite flashWrite
  rw [show blockBase + (p - blockBase) = p by omega]

/-- The blocks only cut the write into pieces. -/
theorem writeBlocks_eq (P : Platform) (lengths : List Nat) (linear p : Nat) (bs : List UInt8) (m : Memory)
    (hbs : bs ≠ []) (hlo : linear ≤ p) (hhi : p + bs.length ≤ linear + lengths.sum) :
    writeBlocks P lengths linear p bs m = flashWrite P m p bs := by
  induction lengths generalizing linear p bs m with
  | nil =>
    have := List.length_pos_of_ne_nil hbs
    simp at hhi; omega
  | cons length rest ih =>
    have := List.length_pos_of_ne_nil hbs
    rw [List.sum_cons] at hhi
    rw [writeBlocks]
    split
    · rename_i hin
      split
      · exact fvbWrite_eq P m linear p bs hlo
      · rename_i hcross
        have htake : (bs.take (linear + length - p)).length = linear + length - p := by
          rw [List.length_take]; omega
        have hdrop : (bs.drop (linear + length - p)).length = bs.length - (linear + length - p) :=
          List.length_drop
        have hne : bs.drop (linear + length - p) ≠ [] := by
          apply List.ne_nil_of_length_pos; omega
        simp only
        rw [fvbWrite_eq P m linear p _ hlo, ih _ _ _ _ hne (Nat.le_refl _) (by rw [hdrop]; omega)]
        conv_rhs => rw [← List.take_append_drop (linear + length - p) bs, flashWrite_append, htake]
        congr 1; omega
    · exact ih _ _ _ _ hbs (by omega) (by omega)

theorem blockLengths_sum (P : Platform) : P.blockLengths.sum = P.fvLength := by
  rw [← P.blocks_cover, Platform.blockLengths]
  induction P.blockMap with
  | nil => rfl
  | cons e es ih => simp [ih]

/-! ## Writes that only clear bits -/

/-- A write to the non-volatile store, and the state of the flash after it. -/
def State.flash (s : State) (p : Nat) (bs : List UInt8) : State :=
  { s with mem := write s.mem p bs, flashTrace := write s.mem p bs :: s.flashTrace }

/-- A write to the volatile store. -/
def State.poke (s : State) (p : Nat) (bs : List UInt8) : State := { s with mem := write s.mem p bs }

/-- The bytes at `p` can become `bs` without an erase. -/
def Programmable (m : Memory) (p : Nat) (bs : List UInt8) : Prop :=
  ∀ i (hi : i < bs.length), m (p + i) &&& bs[i] = bs[i]

theorem programmable_erased (m : Memory) (p : Nat) (bs : List UInt8)
    (h : ∀ i, p ≤ i → i < p + bs.length → m i = 0xff) : Programmable m p bs := by
  intro i hi
  rw [h _ (by omega) (by omega)]
  exact UInt8.neg_one_and

theorem programmable_same (m : Memory) (p : Nat) (bs : List UInt8) (h : At m p bs) : Programmable m p bs := by
  intro i hi
  rw [at_getElem m p bs h i hi, UInt8.and_self]

theorem programmable_append (m : Memory) (p : Nat) (xs ys : List UInt8) (hx : Programmable m p xs)
    (hy : Programmable m (p + xs.length) ys) : Programmable m p (xs ++ ys) := by
  intro i hi
  by_cases h : i < xs.length
  · rw [List.getElem_append_left h]; exact hx i h
  · have := hy (i - xs.length) (by simp at hi; omega)
    rw [List.getElem_append_right (by omega)]
    rw [show p + xs.length + (i - xs.length) = p + i by omega] at this
    exact this

theorem programmable_cons (m : Memory) (p : Nat) (b : UInt8) (bs : List UInt8) (hb : m p &&& b = b)
    (hbs : Programmable m (p + 1) bs) : Programmable m p (b :: bs) := by
  refine programmable_append m p [b] bs ?_ hbs
  intro i hi
  have : i = 0 := by simpa using hi
  subst this
  exact hb

theorem updateVariableStore_nonVolatile (P : Platform) (setByIndex : Bool) (idx p : Nat) (bs : List UInt8)
    (s : State) (hp : p = if setByIndex then idx + P.nonVolatileVariableBase else idx) (hbs : bs ≠ [])
    (hlo : P.fvBase ≤ p) (hhi : p + bs.length < P.fvBase + P.fvLength) (hc : Programmable s.mem p bs) :
    updateVariableStore P false setByIndex idx bs s = (.success, s.flash p bs) := by
  unfold updateVariableStore
  simp only [Bool.false_eq_true, if_false, ← hp]
  rw [if_neg (by omega), if_neg (by omega),
    writeBlocks_eq P _ _ _ _ _ hbs hlo (by rw [blockLengths_sum]; omega)]
  have : flashWrite P s.mem p bs = write s.mem p bs := by
    unfold flashWrite
    split
    · exact clearBits_eq_write s.mem p bs hc
    · rfl
  rw [this]
  rfl

theorem updateVariableStore_volatile (P : Platform) (setByIndex : Bool) (idx p : Nat) (bs : List UInt8)
    (s : State) (hp : p = if setByIndex then idx + P.volatileVariableBase else idx) :
    updateVariableStore P true setByIndex idx bs s =
      if P.volatileVariableBase + storeSizeOf s.mem P.volatileVariableBase ≤ p + bs.length then
        (.invalidParameter, s)
      else (.success, s.poke p bs) := by
  unfold updateVariableStore
  simp only [if_true, ← hp]
  rfl

end Udk.Variable
