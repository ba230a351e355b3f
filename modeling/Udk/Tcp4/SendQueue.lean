import Udk.Tcp4.Trim

/-! # The send queue -/

namespace Udk.Tcp4

open NetBuffer Bytes

/-! ## The routines -/

/-- What the sending routines read of a `TCP_CB`. -/
structure TcpCb where
  sndUna : Nat
  sndNxt : Nat
  sndWl2 : Nat
  sndWnd : Nat
  sndMss : Nat
  sndQue : List Segment

def tcpMaxHead : Nat := 192

def checkFrom (seq : Nat) : List Segment → Bool
  | [] => true
  | s :: rest => tcpVerifySegment s && seq == s.seg.seq && checkFrom s.seg.endSeq rest

def tcpCheckSndQue : List Segment → Bool
  | [] => true
  | s :: rest => checkFrom s.seg.seq (s :: rest)

def holdsSeq (seq : Nat) (s : Segment) : Bool := seqLt seq s.seg.endSeq && seqLeq s.seg.seq seq

/-- The segment that contains the sequence number, with those before and behind it. -/
def findSegment (seq : Nat) : List Segment → Option (List Segment × Segment × List Segment)
  | [] => none
  | s :: rest =>
    if holdsSeq seq s then some ([], s, rest)
    else (findSegment seq rest).map fun (pre, node, post) => (s :: pre, node, post)

def Segment.getRef (s : Segment) : Segment := { s with refCnt := s.refCnt + 1 }

/-- The locals of `TcpGetSegmentSndQue`. -/
structure Piece where
  flag : BitVec 8
  endSeq : Nat
  offset : Nat
  copyLen : Nat

def Piece.adjustSyn (piece : Piece) (seg : TcpSeg) (seq : Nat) : Piece :=
  if flgOn seg.flag tcpFlgSyn then
    if seqLt seg.seq seq then
      { piece with flag := clearFlg piece.flag tcpFlgSyn, offset := subtract32 piece.offset 1 }
    else { piece with copyLen := subtract32 piece.copyLen 1 }
  else piece

def Piece.adjustFin (piece : Piece) (seg : TcpSeg) : Piece :=
  if flgOn seg.flag tcpFlgFin then
    if seg.endSeq = piece.endSeq then { piece with copyLen := subtract32 piece.copyLen 1 }
    else { piece with flag := clearFlg piece.flag tcpFlgFin }
  else piece

def pieceOf (seg : TcpSeg) (seq len : Nat) : Piece :=
  let endSeq := if seqLt (uint32 (seq + len)) seg.endSeq then uint32 (seq + len) else seg.endSeq
  let piece : Piece := ⟨seg.flag, endSeq, subSeq seq seg.seq, subSeq endSeq seq⟩
  (piece.adjustSyn seg seq).adjustFin seg

/-- A new buffer with the fields of the segment that it is copied from. -/
def Piece.toSegment (piece : Piece) (seg : TcpSeg) (seq : Nat) (nbuf : NetBuf) : Segment :=
  ⟨{ seg with seq := seq, endSeq := piece.endSeq, flag := piece.flag }, none, 1, nbuf⟩

/-- Copy data to the segment. -/
def copyData (node nbuf : NetBuf) (offset copyLen : Nat) (st : State) : Option (Option NetBuf × State) :=
  if copyLen ≠ 0 then
    match netbufAllocSpace nbuf copyLen false with
    | some (some data, nbuf) =>
      (netbufCopy node offset copyLen data st).map fun (n, st) => (if n ≠ copyLen then none else some nbuf, st)
    | _ => none
  else some (some nbuf, st)

/-- Create a new buffer and copy data there. -/
def copySegment (pool : Allocator) (s : Segment) (seq len : Nat) (st : State) : Option (Option Segment × State) :=
  match netbufAlloc pool (uint32 (len + tcpMaxHead)) with
  | none => some (none, st)
  | some nbuf =>
    (netbufReserve nbuf tcpMaxHead).bind fun nbuf =>
      let piece := pieceOf s.seg seq len
      if 2 ^ 31 ≤ piece.copyLen then none
      else
        (copyData s.nbuf nbuf piece.offset piece.copyLen st).map fun (nbuf, st) =>
          (nbuf.map (piece.toSegment s.seg seq), st)

/-- An assertion that fails has no result. -/
def tcpGetSegmentSndQue (pool : Allocator) (tcb : TcpCb) (seq len : Nat) (st : State) :
    Option (Option Segment × List Segment × State) :=
  if !(seqLeq seq tcb.sndNxt) || len == 0 then none
  else
    (findSegment seq tcb.sndQue).bind fun (pre, s, post) =>
      if s.seg.seq = seq ∧ seqLeq s.seg.endSeq (uint32 (s.seg.seq + len)) ∧ ¬1 < s.refCnt then
        some (some s.getRef, pre ++ s.getRef :: post, st)
      else (copySegment pool s seq len st).map fun (r, st) => (r, tcb.sndQue, st)

/-- The length that `TcpRetransmit` asks for, if the send window is not too small. -/
def retransmitLen (tcb : TcpCb) (seq : Nat) : Option Nat :=
  let right := uint32 (tcb.sndWl2 + tcb.sndWnd)
  if seqLt right seq then none else some (min (subSeq right seq) tcb.sndMss)

/-- `TcpRetransmit` up to the transmission. -/
def tcpRetransmit (pool : Allocator) (tcb : TcpCb) (seq : Nat) (st : State) :
    Option (Option Segment × List Segment × State) :=
  match retransmitLen tcb seq with
  | none => some (none, tcb.sndQue, st)
  | some len => tcpGetSegmentSndQue pool tcb seq len st

/-! ## The queue as a stream -/

/-- The segments follow each other from the position `p` to the position `e`. -/
def QueueAt : List Segment → Nat → Nat → Prop
  | [], p, e => p = e
  | s :: rest, p, e => ∃ k, IsAt s p k ∧ QueueAt rest k e

def streamOf (m : Memory) (sndQue : List Segment) : List Octet := sndQue.flatMap (octets m)

def items (s : Segment) : Nat := (syns s).length + s.nbuf.totalSize + (fins s).length

/-- A headless segment of the queue. -/
structure Queued (s : Segment) : Prop where
  good : s.nbuf.Good
  headless : s.tcp = none
  urg : s.seg.urg < 2 ^ 16

section
variable {sndQue pre post : List Segment} {s : Segment} {p e q a b : Nat}

/-- A queue that passes is where its first segment is. -/
theorem queueAt_of_checkFrom (hqueued : ∀ s ∈ sndQue, Queued s) (hsize : (sndQue.map items).sum < 2 ^ 31)
    (h : checkFrom (uint32 p) sndQue = true) : QueueAt sndQue p (p + (sndQue.map items).sum) := by
  induction sndQue generalizing p with
  | nil => rfl
  | cons s rest ih =>
    obtain ⟨hgood, hhead, hurg⟩ := hqueued s List.mem_cons_self
    rw [List.map_cons, List.sum_cons] at hsize ⊢
    unfold checkFrom at h
    rw [Bool.and_eq_true, Bool.and_eq_true, beq_iff_eq] at h
    obtain ⟨⟨hverify, hseq⟩, hrest⟩ := h
    have hitems : items s = (syns s).length + s.nbuf.totalSize + (fins s).length := rfl
    rw [tcpVerifySegment_eq hhead (by omega), beq_iff_eq, ← hseq, uint32_add, ← hitems] at hverify
    refine ⟨p + items s, ⟨hgood, hhead, hseq.symm, hverify.symm, by omega, hurg⟩, ?_⟩
    rw [← Nat.add_assoc]
    exact ih (fun s' hs' => hqueued s' (List.mem_cons_of_mem _ hs')) (by omega) (by rw [hverify]; exact hrest)

theorem IsAt.le (h : IsAt s p e) : p ≤ e := by
  have hlength := h.length
  omega

theorem QueueAt.le (h : QueueAt sndQue p e) : p ≤ e := by
  induction sndQue generalizing p with
  | nil => exact Nat.le_of_eq h
  | cons s rest ih =>
    obtain ⟨k, hs, hrest⟩ := h
    exact Nat.le_trans hs.le (ih hrest)

theorem QueueAt.length (h : QueueAt sndQue p e) (m : Memory) : p + (streamOf m sndQue).length = e := by
  induction sndQue generalizing p with
  | nil => exact h
  | cons s rest ih =>
    obtain ⟨k, hs, hrest⟩ := h
    have hlength := ih hrest
    have hs' := hs.length
    unfold streamOf at hlength ⊢
    rw [List.flatMap_cons, List.length_append, octets_length hs.good]
    omega

/-- The position is in the segment that is found. -/
structure Found (sndQue : List Segment) (p e q : Nat) (pre : List Segment) (s : Segment) (post : List Segment) (a b : Nat) :
    Prop where
  eq : sndQue = pre ++ s :: post
  before : QueueAt pre p a
  isAt : IsAt s a b
  behind : QueueAt post b e
  lower : a ≤ q
  upper : q < b

theorem findSegment_spec (h : QueueAt sndQue p e) (hpq : p ≤ q) (hqe : q < e) (hspan : e < p + 2 ^ 31) :
    ∃ pre s post a b, findSegment (uint32 q) sndQue = some (pre, s, post) ∧ Found sndQue p e q pre s post a b := by
  induction sndQue generalizing p with
  | nil =>
    have : p = e := h
    omega
  | cons s rest ih =>
    obtain ⟨k, hs, hrest⟩ := h
    have hpk := hs.le
    have hke := hrest.le
    have hlt : seqLt (uint32 q) s.seg.endSeq = true ↔ q < k := by
      rw [hs.endSeq]
      exact seqLt_iff (by omega) (by omega)
    have hle : seqLeq s.seg.seq (uint32 q) = true ↔ p ≤ q := by
      rw [hs.seq]
      exact seqLeq_iff (by omega) (by omega)
    unfold findSegment holdsSeq
    by_cases hin : q < k
    · rw [if_pos (by rw [Bool.and_eq_true, hlt, hle]; exact ⟨hin, hpq⟩)]
      exact ⟨[], s, rest, p, k, rfl, rfl, rfl, hs, hrest, hpq, hin⟩
    · rw [if_neg (by rw [Bool.and_eq_true, hlt]; exact fun hand => hin hand.1)]
      obtain ⟨pre, node, post, a, b, hfind, hf⟩ := ih hrest (by omega) (by omega)
      exact ⟨s :: pre, node, post, a, b, by rw [hfind]; rfl,
        congrArg (s :: ·) hf.eq, ⟨k, hs, hf.before⟩, hf.isAt, hf.behind, hf.lower, hf.upper⟩

/-- What the queue assigns to numbers of one segment is a slice of it. -/
theorem stream_slice (h : Found sndQue p e q pre s post a b) (m : Memory) {stop : Nat} (hstop : stop ≤ b) :
    ((streamOf m sndQue).zipIdx p).filter (fun x => q ≤ x.2 ∧ x.2 < stop) =
      (((octets m s).drop (q - a)).take (stop - q)).zipIdx q := by
  have hpa := h.before.le
  have hlower := h.lower
  have hupper := h.upper
  have hbefore := h.before.length m
  have hlength := h.isAt.length
  have hoctets := octets_length h.isAt.good m
  have hstream : streamOf m sndQue = streamOf m pre ++ (octets m s ++ streamOf m post) := by
    unfold streamOf
    rw [h.eq, List.flatMap_append, List.flatMap_cons]
  rw [zipIdx_filter_between, Nat.max_eq_right (by omega), hstream, List.drop_append, List.drop_eq_nil_of_le (by omega),
    List.nil_append, show q - p - (streamOf m pre).length = q - a by omega, List.drop_append_of_le_length (by omega),
    List.take_append_of_le_length (by rw [List.length_drop]; omega)]

end

end Udk.Tcp4
