import Udk.Compress.Reader
import Udk.Compress.Writer

/-! # What the compressor puts out, the decompressor takes in

Fields of 1 to 16 bits, one after the other, closed by the seven zeros of `HufEncodeEnd`.
-/

namespace Udk.Compress

open BitString

/-- `PutBits` for every field, given by its width and its value. -/
def putFields : List (Nat × Nat) → BitWriter → BitWriter
  | [], w => w
  | (n, x) :: fields, w => putFields fields (putBits n x w)

/-- `GetBits` for every width. -/
def getFields : List Nat → BitReader → List Nat × BitReader
  | [], d => ([], d)
  | n :: widths, d =>
    let (x, d) := getBits n d
    let (values, d) := getFields widths d
    (x :: values, d)

/-- `PutBits(UINT8_BIT - 1, 0)`. -/
def flushBits (w : BitWriter) : BitWriter := putBits 7 0 w

/-- The scratch buffer over the bytes behind the header. -/
def readerOf (dst : Nat → Nat) (mCompSize : Nat) : BitReader :=
  { mSrcBase := fun i => dst (8 + i), mInBuf := 0, mCompSize, mBitCount := 0, mBitBuf := 0, mSubBitBuf := 0 }

def fieldBits (fields : List (Nat × Nat)) : List Bool := fields.flatMap fun f => bits f.1 f.2

variable {w : BitWriter} {fields : List (Nat × Nat)} {l : List Bool}

/-! ## Writing -/

theorem store_lt {b : Nat} (hdst : ∀ i, w.dst i < 256) (hb : b < 256) (i : Nat) : (store b w).dst i < 256 := by
  unfold store
  split
  · simp only [Function.update_apply]
    split
    · exact hb
    · exact hdst i
  · exact hdst i

theorem putByte_lt {b : Nat} (hdst : ∀ i, w.dst i < 256) (hb : b < 256) (i : Nat) : (putByte b w).dst i < 256 :=
  store_lt hdst hb i

theorem putBits_lt (hdst : ∀ i, w.dst i < 256) (n x i : Nat) : (putBits n x w).dst i < 256 := by
  unfold putBits
  split
  · exact hdst i
  · have hfirst := putByte_lt hdst (Nat.mod_lt (w.mSubBitBuf ||| x / 2 ^ (n - w.mBitCount)) (by decide : 0 < 256))
    simp only
    split
    · exact hfirst i
    · exact putByte_lt hfirst (Nat.mod_lt _ (by decide)) i

theorem putFields_lt (hdst : ∀ i, w.dst i < 256) (i : Nat) : (putFields fields w).dst i < 256 := by
  induction fields generalizing w with
  | nil => exact hdst i
  | cons f fields ih => exact ih fun i => putBits_lt hdst f.1 f.2 i

theorem putFields_limit : (putFields fields w).mDstUpperLimit = w.mDstUpperLimit := by
  induction fields generalizing w with
  | nil => rfl
  | cons f fields ih => exact ih.trans (putBits_limit f.1 f.2 w)

theorem Holds.putFields (h : Holds w l) (hfields : ∀ f ∈ fields, f.1 ≤ 16 ∧ f.2 < 2 ^ f.1) :
    Holds (putFields fields w) (l ++ fieldBits fields) := by
  induction fields generalizing w l with
  | nil => rwa [fieldBits, List.flatMap_nil, List.append_nil]
  | cons f fields ih =>
    obtain ⟨hn, hx⟩ := hfields f List.mem_cons_self
    have hrest := ih (h.putBits hn hx) fun g hg => hfields g (List.mem_cons_of_mem _ hg)
    rw [fieldBits, List.flatMap_cons, ← List.append_assoc]
    exact hrest

/-- Nothing has been put out yet. -/
theorem holds_start (hdst : w.mDst = min w.mDstUpperLimit 8) (hsize : w.mCompSize = 0) : Holds (initPutBits w) [] := by
  refine ⟨show 1 ≤ 8 by decide, Nat.le_refl 8, [], 0, ⟨hdst, hsize, fun i hi => absurd hi (Nat.not_lt_zero i)⟩, ?_, rfl, ?_⟩
  · exact Nat.one_pos
  · exact (Nat.zero_mul _).symm

/-- After the flush the fields are in whole bytes. -/
theorem Holds.flushed (h : Holds w l) :
    ∃ bytes t, Stored (flushBits w) bytes ∧ ofBytes bytes = l ++ t := by
  obtain ⟨hpos, -, bytes, v, hstored, -, hbits, -⟩ := h.putBits (n := 7) (x := 0) (by decide) (by decide)
  have hlen := congrArg List.length hbits
  rw [List.length_append, List.length_append, length_bits, length_bits, length_ofBytes] at hlen
  have hle : l.length ≤ (ofBytes bytes).length := by
    rw [length_ofBytes]
    omega
  obtain ⟨t, ht⟩ := List.prefix_of_prefix_length_le ⟨_, rfl⟩ ⟨_, hbits.symm⟩ hle
  exact ⟨bytes, t, hstored, ht.symm⟩

/-! ## Reading -/

theorem Reads.getFields {src : Nat → Nat} {size p : Nat} {d : BitReader} (hsrc : ∀ i, src i < 256) (h : Reads src size p d)
    (hfields : ∀ f ∈ fields, f.1 ≤ 16 ∧ f.2 < 2 ^ f.1) (hahead : Ahead (sourceBits src size) p (fieldBits fields)) :
    (getFields (fields.map Prod.fst) d).1 = fields.map Prod.snd := by
  induction fields generalizing p d with
  | nil => rfl
  | cons f fields ih =>
    obtain ⟨hn, hx⟩ := hfields f List.mem_cons_self
    rw [fieldBits, List.flatMap_cons, ahead_append, length_bits] at hahead
    obtain ⟨d', hget, hreads⟩ := h.getBits hsrc (by omega) hx hahead.1
    have hrest := ih hreads (fun g hg => hfields g (List.mem_cons_of_mem _ hg)) hahead.2
    simp only [List.map_cons, Compress.getFields, hget, hrest]

/-- Whatever fields are put out, the same widths take the same values in again, if the destination had room. -/
theorem getFields_putFields (fields : List (Nat × Nat)) (w : BitWriter) (hdst : ∀ i, w.dst i < 256)
    (hstart : w.mDst = min w.mDstUpperLimit 8) (hsize : w.mCompSize = 0)
    (hfields : ∀ f ∈ fields, 1 ≤ f.1 ∧ f.1 ≤ 16 ∧ f.2 < 2 ^ f.1)
    (hroom : 8 + (flushBits (putFields fields (initPutBits w))).mCompSize ≤ w.mDstUpperLimit) :
    (getFields (fields.map Prod.fst) (fillBuf 32
      (readerOf (flushBits (putFields fields (initPutBits w))).dst
        (flushBits (putFields fields (initPutBits w))).mCompSize))).1 = fields.map Prod.snd := by
  have hfields' : ∀ f ∈ fields, f.1 ≤ 16 ∧ f.2 < 2 ^ f.1 := fun f hf => (hfields f hf).2
  have hholds := (holds_start hstart hsize).putFields hfields'
  rw [List.nil_append] at hholds
  obtain ⟨bytes, t, hstored, hbytes⟩ := hholds.flushed
  have hlimit : (flushBits (putFields fields (initPutBits w))).mDstUpperLimit = w.mDstUpperLimit :=
    (putBits_limit 7 0 _).trans putFields_limit
  have hbyte := hstored.byte
  have hlt : ∀ i, (flushBits (putFields fields (initPutBits w))).dst (8 + i) < 256 := fun i =>
    putBits_lt (putFields_lt (w := initPutBits w) hdst) 7 0 (8 + i)
  rw [hlimit] at hbyte
  rw [hstored.size] at hroom ⊢
  generalize (flushBits (putFields fields (initPutBits w))).dst = dst at hbyte hlt ⊢
  have hempty : Reads (fun i => dst (8 + i)) bytes.length 8 (readerOf dst bytes.length) := .start _ rfl rfl rfl rfl rfl rfl
  refine (hempty.fillBuf hlt 32).getFields hlt hfields' ?_
  -- the fields are the beginning of the bytes, which follow five bytes of zeros
  have hahead : Ahead (sourceBits (fun i => dst (8 + i)) bytes.length) (8 * 5) (ofBytes bytes) := by
    refine ahead_ofBytes fun i hi => ?_
    rw [padded, if_pos ⟨by omega, by omega⟩, Nat.add_sub_cancel_left]
    exact hbyte i hi (by omega)
  rw [hbytes, ahead_append] at hahead
  exact hahead.1

/-- A destination of 64 bytes. -/
def roomFor64 : BitWriter :=
  { dst := fun _ => 0, mDst := 8, mDstUpperLimit := 64, mCompSize := 0, mBitCount := 0, mSubBitBuf := 0 }

theorem getFields_putFields_sample :
    (getFields [3, 16, 5, 9] (fillBuf 32
      (readerOf (flushBits (putFields [(3, 5), (16, 0xABCD), (5, 0), (9, 300)] (initPutBits roomFor64))).dst 5))).1 =
        [5, 0xABCD, 0, 300] :=
  getFields_putFields [(3, 5), (16, 0xABCD), (5, 0), (9, 300)] roomFor64
    (fun _ => show 0 < 256 by decide) rfl rfl (by decide)
    (by decide +kernel)

end Udk.Compress
