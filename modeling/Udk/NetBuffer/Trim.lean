import Udk.NetBuffer.Sequence

/-! # When a trim is exact -/

namespace Udk.NetBuffer
variable {nbuf : NetBuf} {ops : List BlockOp} {len : Nat} {fromHead : Bool}

/-- The trim stays in the array of blocks, and takes exactly the bytes that it is asked for, or all of them. -/
def TrimsExactly (nbuf : NetBuf) (len : Nat) (fromHead : Bool) : Prop :=
  ∃ nbuf', netbufTrim nbuf len fromHead = some (min len nbuf.totalSize, nbuf') ∧ nbuf'.Good ∧
    nbuf'.totalSize = nbuf.totalSize - min len nbuf.totalSize ∧
    ∀ m, flat m nbuf' = trimBytes (flat m nbuf) len fromHead

/-- Without a byte in the blocks the loop has nothing to stop at. -/
theorem trimLoop_overruns (h : sizes ops = 0) : trimLoop fromHead ops len = none := by
  induction ops with
  | nil => rfl
  | cons op ops ih =>
    rw [sizes_cons] at h
    rw [trimLoop, if_pos (by omega), ih (by omega)]
    rfl

theorem netbufTrim_overruns (h : nbuf.Good) (hzero : nbuf.totalSize = 0) : netbufTrim nbuf len fromHead = none := by
  have hsizes : sizes (inOrder fromHead nbuf.blockOps) = 0 := by rw [sizes_inOrder, ← h.total, hzero]
  unfold netbufTrim
  simp only [show (if fromHead then nbuf.blockOps else nbuf.blockOps.reverse) = inOrder fromHead nbuf.blockOps from rfl,
    trimLoop_overruns hsizes, Option.map_none]

/-- A trim is exact if and only if the buffer has a byte. -/
theorem netbufTrim_exact_iff (nbuf : NetBuf) (len : Nat) (fromHead : Bool) (h : nbuf.Good) :
    TrimsExactly nbuf len fromHead ↔ nbuf.totalSize ≠ 0 := by
  constructor
  · rintro ⟨nbuf', htrim, -⟩ hzero
    rw [netbufTrim_overruns h hzero] at htrim
    cases htrim
  · exact fun hpos => netbufTrim_spec h hpos

theorem netbufTrim_exact_sample : TrimsExactly sampleBuf 3 false ↔ sampleBuf.totalSize ≠ 0 :=
  netbufTrim_exact_iff sampleBuf 3 false built_sampleBuf.good

/-- The buffer of a segment without data. -/
theorem empty_trim_overruns :
    ∃ nbuf, netbufAlloc samplePool 0 = some nbuf ∧ nbuf.Good ∧ ∀ len fromHead, ¬TrimsExactly nbuf len fromHead := by
  refine ⟨⟨0, [⟨2000, 2000, 2000, 2000, 0⟩]⟩, rfl, ?_, fun len fromHead => ?_⟩
  · exact (netbufAlloc_good samplePool_valid (show 0 < 2 ^ 32 by decide) rfl).1
  · rintro ⟨nbuf', htrim, -⟩
    have : netbufTrim ⟨0, [⟨2000, 2000, 2000, 2000, 0⟩]⟩ len fromHead = none := by
      unfold netbufTrim
      cases fromHead <;> rfl
    rw [this] at htrim
    cases htrim

end Udk.NetBuffer
