import Udk.NetBuffer.Sequence

/-! # TCP segments -/

namespace Udk.Tcp4

open NetBuffer Bytes

/-! ## Sequence numbers and flags -/

/-- `(INT32) (SeqA - SeqB)`. -/
def seqDiff (a b : Nat) : Int := ((a : Int) - b).bmod (2 ^ 32)

def seqLt (a b : Nat) : Bool := seqDiff a b < 0
def seqLeq (a b : Nat) : Bool := seqDiff a b ≤ 0
def seqGt (a b : Nat) : Bool := seqDiff b a < 0
def seqGeq (a b : Nat) : Bool := seqDiff b a ≤ 0

def subSeq (a b : Nat) : Nat := subtract32 a b

def tcpFlgFin : BitVec 8 := 0x01
def tcpFlgSyn : BitVec 8 := 0x02
def tcpFlgUrg : BitVec 8 := 0x20

def flgOn (value flag : BitVec 8) : Bool := value &&& flag ≠ 0
def clearFlg (value flag : BitVec 8) : BitVec 8 := value &&& ~~~flag

/-- The comparisons are those of the positions that are less than half of the space apart. -/
theorem seqDiff_eq {p q : Nat} (hpq : p < q + 2 ^ 31) (hqp : q ≤ p + 2 ^ 31) :
    seqDiff (uint32 p) (uint32 q) = (p : Int) - q := by
  unfold seqDiff uint32
  rw [Int.natCast_emod, Int.natCast_emod, Int.emod_sub_bmod, Int.sub_emod_bmod, Int.bmod_eq_of_le]
  · omega
  · omega

section
variable {p q : Nat} (hpq : p < q + 2 ^ 31) (hqp : q < p + 2 ^ 31)
include hpq hqp

theorem seqLt_iff : seqLt (uint32 p) (uint32 q) = true ↔ p < q := by
  unfold seqLt
  rw [seqDiff_eq hpq (by omega), decide_eq_true_eq]
  omega

theorem seqLeq_iff : seqLeq (uint32 p) (uint32 q) = true ↔ p ≤ q := by
  unfold seqLeq
  rw [seqDiff_eq hpq (by omega), decide_eq_true_eq]
  omega

theorem seqGt_iff : seqGt (uint32 p) (uint32 q) = true ↔ q < p := by
  unfold seqGt
  rw [seqDiff_eq hqp (by omega), decide_eq_true_eq]
  omega

theorem seqGeq_iff : seqGeq (uint32 p) (uint32 q) = true ↔ q ≤ p := by
  unfold seqGeq
  rw [seqDiff_eq hqp (by omega), decide_eq_true_eq]
  omega

theorem uint32_eq_iff : uint32 p = uint32 q ↔ p = q := by
  unfold uint32
  omega

end

theorem subSeq_eq {p q : Nat} (hqp : q ≤ p) (hpq : p < q + 2 ^ 32) : subSeq (uint32 p) (uint32 q) = p - q := by
  unfold subSeq subtract32 uint32
  omega

theorem uint32_add (p n : Nat) : uint32 (uint32 p + n) = uint32 (p + n) := by
  unfold uint32
  omega

theorem flgOn_clear_self (v f : BitVec 8) : flgOn (clearFlg v f) f = false := by
  unfold flgOn clearFlg
  rw [BitVec.and_assoc, BitVec.not_and_self]
  simp

/-- Another bit is not cleared with a flag. -/
theorem flgOn_clear_of_disjoint (v : BitVec 8) {f g : BitVec 8} (h : f &&& g = 0) :
    flgOn (clearFlg v f) g = flgOn v g := by
  have hkeep : ~~~f &&& g = g := by
    ext i hi
    have hbit := congrArg (fun b : BitVec 8 => b[i]) h
    simp only [BitVec.getElem_and, BitVec.getElem_not, BitVec.ofNat_eq_ofNat, BitVec.getElem_zero] at hbit ⊢
    revert hbit
    cases f[i] <;> simp
  unfold flgOn clearFlg
  rw [BitVec.and_assoc, hkeep]

theorem flgOn_off (v f : BitVec 8) : flgOn (if flgOn v f then clearFlg v f else v) f = false := by
  split
  · exact flgOn_clear_self v f
  · rename_i h
    exact Bool.eq_false_iff.mpr h

theorem flgOn_off_of_disjoint (v : BitVec 8) {f g : BitVec 8} (h : f &&& g = 0) :
    flgOn (if flgOn v f then clearFlg v f else v) g = flgOn v g := by
  split
  · exact flgOn_clear_of_disjoint v h
  · rfl

/-! ## Segments -/

/-- `TCP_SEG`. -/
structure TcpSeg where
  seq : Nat
  endSeq : Nat
  ack : Nat
  flag : BitVec 8
  urg : Nat
  wnd : Nat

/-- What is read of a `TCP_HEAD`. -/
structure TcpHead where
  flag : BitVec 8
  headLen : Nat

/-- A network buffer with a `TCP_SEG` as its protocol data. -/
structure Segment where
  seg : TcpSeg
  tcp : Option TcpHead
  refCnt : Nat
  nbuf : NetBuf

/-- Without the header, that has the flags of the segment. -/
def lenOf (s : Segment) : Option Nat :=
  match s.tcp with
  | none => some s.nbuf.totalSize
  | some head => if head.flag ≠ s.seg.flag then none else some (subtract32 s.nbuf.totalSize (head.headLen * 4))

def tcpVerifySegment (s : Segment) : Bool :=
  match lenOf s with
  | none => false
  | some len =>
    let len := if flgOn s.seg.flag tcpFlgSyn then uint32 (len + 1) else len
    let len := if flgOn s.seg.flag tcpFlgFin then uint32 (len + 1) else len
    uint32 (s.seg.seq + len) == s.seg.endSeq

/-! ## `TcpTrimSegment` -/

def Segment.trim (s : Segment) (len : Nat) (fromHead : Bool) : Option Segment :=
  (netbufTrim s.nbuf len fromHead).map fun r => { s with nbuf := r.2 }

def Segment.withSeg (s : Segment) (seg : TcpSeg) : Segment := { s with seg := seg }

/-- Adjust the urgent point. -/
def trimUrg (seg : TcpSeg) (urg : Nat) : TcpSeg :=
  if flgOn seg.flag tcpFlgUrg then
    if seqLt urg seg.seq then { seg with flag := clearFlg seg.flag tcpFlgUrg }
    else { seg with urg := subSeq urg seg.seq % 2 ^ 16 }
  else seg

/-- The fields with a new head. -/
def headSeg (seg : TcpSeg) (left : Nat) : TcpSeg :=
  let urg := uint32 (seg.seq + seg.urg)
  let flag := if flgOn seg.flag tcpFlgSyn then clearFlg seg.flag tcpFlgSyn else seg.flag
  trimUrg { seg with seq := left, flag := flag } urg

/-- The fields with a new tail. -/
def tailSeg (seg : TcpSeg) (right : Nat) : TcpSeg :=
  let flag := if flgOn seg.flag tcpFlgFin then clearFlg seg.flag tcpFlgFin else seg.flag
  { seg with endSeq := right, flag := flag }

/-- A flag takes a sequence number, but no byte. -/
def dropBytes (drop : Nat) (flag : Bool) : Nat := if flag then subtract32 drop 1 else drop

/-- Adjust the buffer header. -/
def trimHead (s : Segment) (left : Nat) : Option Segment :=
  if seqLt s.seg.seq left then
    let drop := dropBytes (subSeq left s.seg.seq) (flgOn s.seg.flag tcpFlgSyn)
    let s' := s.withSeg (headSeg s.seg left)
    if drop ≠ 0 then s'.trim drop true else some s'
  else some s

/-- Adjust the buffer tail. -/
def trimTail (s : Segment) (right : Nat) : Option Segment :=
  if seqGt s.seg.endSeq right then
    let drop := dropBytes (subSeq s.seg.endSeq right) (flgOn s.seg.flag tcpFlgFin)
    let s' := s.withSeg (tailSeg s.seg right)
    if drop ≠ 0 then s'.trim drop false else some s'
  else some s

def tcpTrimSegment (s : Segment) (left right : Nat) : Option Segment :=
  -- out of the window, with SYN and FIN
  if seqLeq s.seg.endSeq left || seqLeq right s.seg.seq then
    let flag := clearFlg (clearFlg s.seg.flag tcpFlgSyn) tcpFlgFin
    (s.withSeg { s.seg with flag := flag, seq := s.seg.endSeq }).trim s.nbuf.totalSize true
  else (trimHead s left).bind fun s' => trimTail s' right

end Udk.Tcp4
