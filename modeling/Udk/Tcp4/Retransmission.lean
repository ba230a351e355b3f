import Udk.Tcp4.SendQueue

/-! # Retransmission keeps the stream -/

namespace Udk.Tcp4

open NetBuffer Bytes

variable {s : Segment} {p e q a b len stop : Nat}

/-! ## The piece of a segment -/

/-- The part `[q, stop)` of a segment at `[a, b)`. -/
structure IsPiece (s : Segment) (a b q stop : Nat) (piece : Piece) : Prop where
  endSeq : piece.endSeq = uint32 stop
  syn : flgOn piece.flag tcpFlgSyn = if a = q then flgOn s.seg.flag tcpFlgSyn else false
  fin : flgOn piece.flag tcpFlgFin = if stop = b then flgOn s.seg.flag tcpFlgFin else false
  offset : piece.offset = q - a - (syns s).length
  copyLen : piece.copyLen =
    stop - q - (if a = q then (syns s).length else 0) - (if stop = b then (fins s).length else 0)

/-- SYN is the first item. -/
theorem adjustSyn_spec (h : IsAt s a b) (haq : a ≤ q) (hqb : q < b) (hspan : b < a + 2 ^ 31) {endSeq copyLen : Nat}
    (hpos : 0 < copyLen) (hcopy : copyLen < 2 ^ 32) :
    let piece := (⟨s.seg.flag, endSeq, q - a, copyLen⟩ : Piece).adjustSyn s.seg (uint32 q)
    piece.endSeq = endSeq ∧ piece.offset = q - a - (syns s).length ∧
      piece.copyLen = copyLen - (if a = q then (syns s).length else 0) ∧
      flgOn piece.flag tcpFlgSyn = (if a = q then flgOn s.seg.flag tcpFlgSyn else false) ∧
      flgOn piece.flag tcpFlgFin = flgOn s.seg.flag tcpFlgFin := by
  have hlt : seqLt s.seg.seq (uint32 q) = true ↔ a < q := by
    rw [h.seq]
    exact seqLt_iff (by omega) (by omega)
  have hsyns := syns_length s
  unfold Piece.adjustSyn
  by_cases hsyn : flgOn s.seg.flag tcpFlgSyn = true
  · rw [if_pos hsyn]
    rw [hsyn, Bool.toNat_true] at hsyns
    by_cases hin : a < q
    · rw [if_pos (hlt.mpr hin)]
      refine ⟨rfl, ?_, ?_, ?_, ?_⟩
      · show subtract32 (q - a) 1 = _
        rw [subtract32_eq (by omega) (by omega), hsyns]
      · rw [if_neg (by omega), Nat.sub_zero]
      · rw [if_neg (by omega)]
        exact flgOn_clear_self _ _
      · exact flgOn_clear_of_disjoint _ (by decide)
    · rw [if_neg (by rw [hlt]; exact hin)]
      refine ⟨rfl, ?_, ?_, ?_, rfl⟩
      · show q - a = _
        omega
      · show subtract32 copyLen 1 = _
        rw [if_pos (by omega), subtract32_eq hpos hcopy, hsyns]
      · rw [if_pos (by omega)]
  · rw [if_neg hsyn]
    rw [Bool.eq_false_iff.mpr hsyn, Bool.toNat_false] at hsyns
    refine ⟨rfl, ?_, ?_, ?_, rfl⟩
    · rw [hsyns]
      rfl
    · rw [hsyns]
      split <;> rfl
    · rw [Bool.eq_false_iff.mpr hsyn]
      split <;> rfl

theorem pieceOf_spec (h : IsAt s a b) (haq : a ≤ q) (hqb : q < b) (hspan : b < a + 2 ^ 31) (hpos : 0 < len)
    (hlen : len ≤ 2 ^ 31) : IsPiece s a b q (min (q + len) b) (pieceOf s.seg (uint32 q) len) := by
  have hlt : seqLt (uint32 (q + len)) s.seg.endSeq = true ↔ q + len < b := by
    rw [h.endSeq]
    exact seqLt_iff (by omega) (by omega)
  have hend : (if seqLt (uint32 (uint32 q + len)) s.seg.endSeq = true then uint32 (uint32 q + len) else s.seg.endSeq) =
      uint32 (min (q + len) b) := by
    rw [uint32_add]
    by_cases hin : q + len < b
    · rw [if_pos (hlt.mpr hin), Nat.min_eq_left (Nat.le_of_lt hin)]
    · rw [if_neg (by rw [hlt]; exact hin), Nat.min_eq_right (by omega), h.endSeq]
  generalize hstop : min (q + len) b = stop at hend ⊢
  have hqs : q < stop := by omega
  have hsb : stop ≤ b := by omega
  have hsame : s.seg.endSeq = uint32 stop ↔ stop = b := by
    rw [h.endSeq]
    constructor
    · intro heq
      unfold uint32 at heq
      omega
    · intro heq
      rw [heq]
  unfold pieceOf
  rw [hend]
  dsimp only
  rw [subSeq_eq (Nat.le_of_lt hqs) (by omega), show subSeq (uint32 q) s.seg.seq = q - a by
    rw [h.seq]; exact subSeq_eq haq (by omega)]
  obtain ⟨h1, h2, h3, h4, h5⟩ := @adjustSyn_spec s q a b h haq hqb hspan (uint32 stop) (stop - q) (by omega) (by omega)
  generalize (⟨s.seg.flag, uint32 stop, q - a, stop - q⟩ : Piece).adjustSyn s.seg (uint32 q) = piece at h1 h2 h3 h4 h5 ⊢
  have hlength := h.length
  have hfins := fins_length s
  have hsyns : (if a = q then (syns s).length else 0) ≤ (syns s).length := by split <;> omega
  unfold Piece.adjustFin
  by_cases hfin : flgOn s.seg.flag tcpFlgFin = true
  · rw [← h1] at hsame
    rw [if_pos hfin]
    rw [hfin, Bool.toNat_true] at hfins
    by_cases hlast : stop = b
    · rw [if_pos (hsame.mpr hlast)]
      refine ⟨h1, h4, ?_, h2, ?_⟩
      · rw [if_pos hlast]
        exact h5
      · show subtract32 piece.copyLen 1 = _
        rw [if_pos hlast, subtract32_eq (by split at h3 <;> omega) (by omega), h3, hfins]
    · rw [if_neg (fun heq => hlast (hsame.mp heq))]
      refine ⟨h1, ?_, ?_, h2, ?_⟩
      · exact (flgOn_clear_of_disjoint _ (by decide)).trans h4
      · rw [if_neg hlast]
        exact flgOn_clear_self _ _
      · rw [if_neg hlast]
        exact h3
  · rw [if_neg hfin]
    rw [Bool.eq_false_iff.mpr hfin] at hfins h5
    refine ⟨h1, h4, ?_, h2, ?_⟩
    · rw [h5, Bool.eq_false_iff.mpr hfin]
      split <;> rfl
    · rw [hfins, h3, Bool.toNat_false, ite_self, Nat.sub_zero]

/-- The same part of what the segment carries. -/
theorem slice_octets (h : IsAt s a b) (m : Memory) (haq : a ≤ q) (hqs : q < stop) (hsb : stop ≤ b) :
    ((octets m s).drop (q - a)).take (stop - q) =
      (if a = q then syns s else []) ++
        (((flat m s.nbuf).drop (q - a - (syns s).length)).take
          (stop - q - (if a = q then (syns s).length else 0) - (if stop = b then (fins s).length else 0))).map .byte ++
        (if stop = b then fins s else []) := by
  have hlength := h.length
  have hflat := flat_length h.good m
  have hsyns := syns_length_le s
  have hfins := fins_length_le s
  have hoctets := octets_length h.good m
  by_cases hfirst : a = q
  · rw [if_pos hfirst, if_pos hfirst, show q - a = 0 by omega, List.drop_zero, Nat.zero_sub, List.drop_zero]
    by_cases hlast : stop = b
    · rw [if_pos hlast, if_pos hlast, List.take_of_length_le (by omega), List.take_of_length_le (by omega)]
      rfl
    · rw [if_neg hlast, if_neg hlast, take_octets m s (by omega) (by omega), List.append_nil, Nat.sub_zero]
  · have hdrop := drop_octets m s (k := q - a) (by omega) (by omega)
    rw [if_neg hfirst, if_neg hfirst, hdrop, List.nil_append, Nat.sub_zero]
    have hlen : (((flat m s.nbuf).drop (q - a - (syns s).length)).map Octet.byte).length =
        s.nbuf.totalSize - (q - a - (syns s).length) := by
      rw [List.length_map, List.length_drop, hflat]
    by_cases hlast : stop = b
    · rw [if_pos hlast, if_pos hlast, List.take_of_length_le (by rw [List.length_append, hlen]; omega),
        List.take_of_length_le (by rw [List.length_drop]; omega)]
    · rw [if_neg hlast, if_neg hlast, List.take_append_of_le_length (by omega), List.append_nil, Nat.sub_zero,
        List.map_take]

/-! ## The copy -/

/-- The bytes are copied to the room of an empty block, and nothing else is written. -/
theorem copyData_spec {node : NetBuf} (h : node.Good) {op : BlockOp} (hop : op.Good) (hzero : op.size = 0)
    {offset copyLen : Nat} (hin : offset + copyLen ≤ node.totalSize) (hroom : copyLen ≤ op.blockTail - op.tail)
    (hap : ∀ o ∈ node.blockOps, Apart op.tail copyLen o) (st : State) :
    ∃ nbuf st', copyData node ⟨0, [op]⟩ offset copyLen st = some (some nbuf, st') ∧ nbuf.Good ∧
      flat st'.memory nbuf = ((flat st.memory node).drop offset).take copyLen ∧
      ∀ ops, (∀ o ∈ ops, Apart op.tail copyLen o) → flatOps st'.memory ops = flatOps st.memory ops := by
  have hempty := emptyOp_good hop hzero
  have hnone : ∀ m, flat m ⟨0, [op]⟩ = [] := fun m => flatOps_eq_nil _ (by rw [sizes_cons, hzero]; rfl)
  unfold copyData
  by_cases hnot : copyLen = 0
  · rw [if_neg (by omega), hnot]
    exact ⟨_, st, rfl, hempty, by rw [hnone, List.take_zero], fun ops _ => rfl⟩
  rw [if_pos hnot]
  have hlength : (((flat st.memory node).drop offset).take copyLen).length = copyLen := by
    rw [List.length_take, List.length_drop, flat, flatOps_length, ← h.total]
    omega
  obtain ⟨d, hspace, -⟩ := netbufAllocSpace_single hop hroom
  have hlt := h.lt
  obtain ⟨r, d', hspace', -, hsome⟩ := @netbufAllocSpace_spec _ copyLen false hempty (by simp only; omega)
  rw [hspace, Option.some.injEq, Prod.mk.injEq] at hspace'
  obtain ⟨rfl, rfl⟩ := hspace'
  have hnew := hsome _ rfl
  obtain ⟨st', hcopy, hmemory, -⟩ := @netbufCopy_spec node h offset copyLen op.tail st
    (by rw [Nat.min_eq_left (by omega)]; exact hap)
  rw [hlength] at hcopy
  refine ⟨d, st', ?_, hnew.good, ?_, fun ops hops => ?_⟩
  · simp only [hspace, hcopy, Option.map_some, ne_eq, not_true_eq_false, if_false]
  · have hat := write_at st.memory op.tail (((flat st.memory node).drop offset).take copyLen)
    rw [At, hlength, ← hmemory] at hat
    rw [hnew.flat, hnone]
    exact hat
  · rw [hmemory]
    exact flatOps_write (Nat.le_of_eq hlength) hops

/-- Allocations are in memory of their own. -/
def Fresh (pool : Allocator) (ops : List BlockOp) : Prop := ∀ n p, pool.bulk n = some p → ∀ op ∈ ops, Apart p n op

/-- A segment is the part `[q, stop)` of the one at `[a, b)`. -/
structure IsPart (m m' : Memory) (s : Segment) (a q stop : Nat) (s' : Segment) : Prop where
  isAt : IsAt s' q stop
  octets : octets m' s' = ((octets m s).drop (q - a)).take (stop - q)

theorem syns_of_flag {s' : Segment} {c : Prop} [Decidable c]
    (h : flgOn s'.seg.flag tcpFlgSyn = if c then flgOn s.seg.flag tcpFlgSyn else false) :
    syns s' = if c then syns s else [] := by
  unfold syns
  rw [h]
  split <;> rfl

theorem fins_of_flag {s' : Segment} {c : Prop} [Decidable c]
    (h : flgOn s'.seg.flag tcpFlgFin = if c then flgOn s.seg.flag tcpFlgFin else false) :
    fins s' = if c then fins s else [] := by
  unfold fins
  rw [h]
  split <;> rfl

theorem copySegment_spec (h : IsAt s a b) (haq : a ≤ q) (hqb : q < b) (hspan : b < a + 2 ^ 31) (hpos : 0 < len)
    (hlen : len ≤ 2 ^ 31) {pool : Allocator} (hpool : pool.Valid) (hfresh : Fresh pool s.nbuf.blockOps) (st : State) :
    ∃ r st', copySegment pool s (uint32 q) len st = some (r, st') ∧
      (r = none → netbufAlloc pool (len + tcpMaxHead) = none) ∧
      (∀ ops, Fresh pool ops → flatOps st'.memory ops = flatOps st.memory ops) ∧
      ∀ s', r = some s' → IsPart st.memory st'.memory s a q (min (q + len) b) s' := by
  have hmax : tcpMaxHead = 192 := rfl
  have hp := pieceOf_spec h haq hqb hspan hpos hlen
  generalize hstop : min (q + len) b = stop at hp ⊢
  have hqs : q < stop := by omega
  have hsb : stop ≤ b := by omega
  have hlength := h.length
  have hsyns := syns_length_le s
  have hfins := fins_length_le s
  have hin : (pieceOf s.seg (uint32 q) len).offset + (pieceOf s.seg (uint32 q) len).copyLen ≤ s.nbuf.totalSize := by
    rw [hp.offset, hp.copyLen]
    split <;> split <;> omega
  have hle : (pieceOf s.seg (uint32 q) len).copyLen ≤ stop - q := by
    rw [hp.copyLen]
    omega
  unfold copySegment
  rw [show uint32 (len + tcpMaxHead) = len + tcpMaxHead from uint32_of_lt (by omega)]
  cases halloc : netbufAlloc pool (len + tcpMaxHead) with
  | none => exact ⟨none, st, rfl, fun _ => rfl, fun ops _ => rfl, nofun⟩
  | some nbuf =>
    obtain ⟨hgood, bulk, hbulk, rfl⟩ := netbufAlloc_good hpool (by omega) halloc
    have hpointer := hpool _ _ hbulk
    have hop : (⟨bulk, bulk + (len + tcpMaxHead), bulk + tcpMaxHead, bulk + tcpMaxHead, 0⟩ : BlockOp).Good := by
      constructor
      all_goals
        simp only
        omega
    have hroom : ∀ o, Apart bulk (len + tcpMaxHead) o →
        Apart (bulk + tcpMaxHead) (pieceOf s.seg (uint32 q) len).copyLen o := by
      intro o ho
      unfold Apart at *
      omega
    obtain ⟨nbuf, st', hdata, hg, hflat, hkeep⟩ := copyData_spec h.good hop rfl hin (by simp only; omega)
      (fun o ho => hroom o (hfresh _ _ hbulk o ho)) st
    have htotal : nbuf.totalSize = (pieceOf s.seg (uint32 q) len).copyLen := by
      have hl : (flat st'.memory nbuf).length = nbuf.totalSize := by
        rw [hg.total]
        exact flatOps_length _ _
      rw [← hl, hflat, List.length_take, List.length_drop, flat_length h.good]
      omega
    have hreserve : netbufReserve ⟨0, [⟨bulk, bulk + (len + tcpMaxHead), bulk, bulk, 0⟩]⟩ tcpMaxHead =
        some ⟨0, [⟨bulk, bulk + (len + tcpMaxHead), bulk + tcpMaxHead, bulk + tcpMaxHead, 0⟩]⟩ := rfl
    simp only [hreserve, Option.bind_some, if_neg (show ¬2 ^ 31 ≤ (pieceOf s.seg (uint32 q) len).copyLen by omega), hdata,
      Option.map_some]
    refine ⟨_, st', rfl, nofun, fun ops hops => hkeep ops fun o ho => hroom o (hops _ _ hbulk o ho), fun s' hs' => ?_⟩
    obtain rfl := Option.some.inj hs'
    have hsyns' : syns ((pieceOf s.seg (uint32 q) len).toSegment s.seg (uint32 q) nbuf) = if a = q then syns s else [] :=
      syns_of_flag hp.syn
    have hfins' : fins ((pieceOf s.seg (uint32 q) len).toSegment s.seg (uint32 q) nbuf) = if stop = b then fins s else [] :=
      fins_of_flag hp.fin
    have hnbuf : ((pieceOf s.seg (uint32 q) len).toSegment s.seg (uint32 q) nbuf).nbuf = nbuf := rfl
    refine ⟨⟨hg, rfl, rfl, hp.endSeq, ?_, h.urg⟩, ?_⟩
    · rw [hsyns', hfins', hnbuf, htotal, hp.copyLen]
      have h1 : (if a = q then (syns s) else []).length = if a = q then (syns s).length else 0 := by split <;> rfl
      have h2 : (if stop = b then (fins s) else []).length = if stop = b then (fins s).length else 0 := by split <;> rfl
      rw [h1, h2]
      split <;> split <;> omega
    · rw [slice_octets h st.memory haq hqs hsb]
      unfold octets
      rw [hsyns', hfins', hnbuf, hflat, hp.offset, hp.copyLen]

/-! ## `TcpGetSegmentSndQue` -/

/-- A queue in good shape that holds what is from `SndUna` to `SndNxt`. -/
structure Sending (tcb : TcpCb) (p e u n : Nat) : Prop where
  queued : ∀ s ∈ tcb.sndQue, Queued s
  check : tcpCheckSndQue tcb.sndQue = true
  first : ∀ s ∈ tcb.sndQue.head?, s.seg.seq = uint32 p
  length : p + (tcb.sndQue.map items).sum = e
  span : e < p + 2 ^ 31
  una : tcb.sndUna = uint32 u
  nxt : tcb.sndNxt = uint32 n
  lower : p ≤ u
  upper : n ≤ e

theorem Sending.queueAt {tcb : TcpCb} {u n : Nat} (h : Sending tcb p e u n) : QueueAt tcb.sndQue p e := by
  have hlength := h.length
  have hspan := h.span
  have hcheck : checkFrom (uint32 p) tcb.sndQue = true := by
    have hfirst := h.first
    have hall := h.check
    cases hq : tcb.sndQue with
    | nil => rfl
    | cons s rest =>
      rw [hq] at hfirst hall
      rw [← hfirst s rfl]
      exact hall
  rw [← hlength]
  exact queueAt_of_checkFrom h.queued (by omega) hcheck

/-- The queue but for the reference counts. -/
def contents (sndQue : List Segment) : List (TcpSeg × Option TcpHead × NetBuf) :=
  sndQue.map fun s => (s.seg, s.tcp, s.nbuf)

/-- The segment from `q` of what the queue holds, or none without memory, and the same queue. -/
def GetsSegment (pool : Allocator) (tcb : TcpCb) (p q len : Nat) (st : State) : Prop :=
  ∃ r sndQue st', tcpGetSegmentSndQue pool tcb (uint32 q) len st = some (r, sndQue, st') ∧
    contents sndQue = contents tcb.sndQue ∧ (∀ s ∈ tcb.sndQue, flat st'.memory s.nbuf = flat st.memory s.nbuf) ∧
    (r = none → netbufAlloc pool (len + tcpMaxHead) = none) ∧
    ∀ s', r = some s' → ∃ s ∈ tcb.sndQue, ∃ a b, IsAt s a b ∧ a ≤ q ∧ q < b ∧
      s'.seg.seq = uint32 q ∧ s'.seg.endSeq = uint32 (min (q + len) b) ∧ tcpVerifySegment s' = true ∧
      (octets st'.memory s').zipIdx q =
        ((streamOf st.memory tcb.sndQue).zipIdx p).filter fun x => q ≤ x.2 ∧ x.2 < min (q + len) b

theorem getRef_isAt (h : IsAt s a b) : IsAt s.getRef a b := ⟨h.good, h.headless, h.seq, h.endSeq, h.length, h.urg⟩

theorem tcpGetSegmentSndQue_spec {tcb : TcpCb} {u n : Nat} (h : Sending tcb p e u n) (hu : u ≤ q) (hn : q < n)
    (hpos : 0 < len) (hlen : len ≤ 2 ^ 31) {pool : Allocator} (hpool : pool.Valid)
    (hfresh : ∀ s ∈ tcb.sndQue, Fresh pool s.nbuf.blockOps) (st : State) : GetsSegment pool tcb p q len st := by
  have hspan := h.span
  have hlower := h.lower
  have hupper := h.upper
  obtain ⟨pre, s, post, a, b, hfind, hf⟩ := findSegment_spec h.queueAt (show p ≤ q by omega) (show q < e by omega) hspan
  have hmem : s ∈ tcb.sndQue := by rw [hf.eq]; simp
  have hpa := hf.before.le
  have hbe := hf.behind.le
  have haq := hf.lower
  have hqb := hf.upper
  have hle : seqLeq (uint32 q) tcb.sndNxt = true := by
    rw [h.nxt]
    exact (seqLeq_iff (by omega) (by omega)).mpr (by omega)
  have hassert : ¬(!(seqLeq (uint32 q) tcb.sndNxt) || len == 0) = true := by
    rw [hle]
    simp only [Bool.not_true, Bool.false_or, beq_iff_eq]
    omega
  unfold GetsSegment tcpGetSegmentSndQue
  rw [if_neg hassert, hfind, Option.bind_some]
  dsimp only
  by_cases hdirect : s.seg.seq = uint32 q ∧ seqLeq s.seg.endSeq (uint32 (s.seg.seq + len)) = true ∧ ¬1 < s.refCnt
  · rw [if_pos hdirect]
    obtain ⟨hseq, hend, -⟩ := hdirect
    have hfirst : a = q := by
      rw [hf.isAt.seq] at hseq
      unfold uint32 at hseq
      omega
    rw [hf.isAt.endSeq, hseq, uint32_add, seqLeq_iff (by omega) (by omega)] at hend
    refine ⟨_, _, st, rfl, ?_, fun _ _ => rfl, nofun, fun s' hs' => ?_⟩
    · rw [hf.eq]
      unfold contents
      rw [List.map_append, List.map_append]
      rfl
    obtain rfl := Option.some.inj hs'
    have hat := getRef_isAt hf.isAt
    have hlength := hf.isAt.length
    have hmin : min (q + len) b = b := Nat.min_eq_right hend
    refine ⟨s, hmem, a, b, hf.isAt, haq, hqb, hseq, hmin.symm ▸ hf.isAt.endSeq, hat.verify (by omega), ?_⟩
    rw [hmin, stream_slice hf st.memory (Nat.le_refl b), show q - a = 0 by omega, List.drop_zero, List.take_of_length_le]
    · rfl
    · rw [octets_length hf.isAt.good]
      omega
  · rw [if_neg hdirect]
    obtain ⟨r, st', hcopy, hnone, hkeep, hpart⟩ := copySegment_spec hf.isAt haq hqb (by omega) hpos hlen hpool
      (hfresh s hmem) st
    rw [hcopy, Option.map_some]
    refine ⟨r, tcb.sndQue, st', rfl, rfl, fun s' hs' => hkeep _ (hfresh s' hs'), hnone, fun s' hs' => ?_⟩
    obtain ⟨hat, hoctets⟩ := hpart s' hs'
    refine ⟨s, hmem, a, b, hf.isAt, haq, hqb, hat.seq, hat.endSeq, hat.verify (by omega), ?_⟩
    rw [stream_slice hf st.memory (Nat.min_le_right _ _), hoctets]

/-! ## `TcpRetransmit` -/

/-- Neither a length of zero nor one that wraps. -/
def AsksWell (tcb : TcpCb) (seq : Nat) : Prop :=
  ∀ len, retransmitLen tcb seq = some len → 0 < len ∧ (len : Int) ≤ seqDiff (uint32 (tcb.sndWl2 + tcb.sndWnd)) seq

theorem uint32_lt (n : Nat) : uint32 n < 2 ^ 32 := Nat.mod_lt _ (by omega)

/-- A difference that is not negative is the number of the subtraction. -/
theorem seqDiff_eq_subSeq {x y : Nat} (hx : x < 2 ^ 32) (hy : y < 2 ^ 32) (h : 0 ≤ seqDiff x y) :
    seqDiff x y = subSeq x y := by
  unfold seqDiff subSeq subtract32 at *
  rw [Int.bmod_def] at h ⊢
  omega

theorem asksWell_iff (tcb : TcpCb) (q : Nat) :
    AsksWell tcb (uint32 q) ↔ seqLt (uint32 (tcb.sndWl2 + tcb.sndWnd)) (uint32 q) = true ∨
      (uint32 (tcb.sndWl2 + tcb.sndWnd) ≠ uint32 q ∧ tcb.sndMss ≠ 0) := by
  have hx := uint32_lt (tcb.sndWl2 + tcb.sndWnd)
  have hy := uint32_lt q
  unfold AsksWell retransmitLen
  generalize uint32 (tcb.sndWl2 + tcb.sndWnd) = right at *
  generalize uint32 q = seq at *
  by_cases hlt : seqLt right seq = true
  · refine iff_of_true (fun len hlen => ?_) (Or.inl hlt)
    simp only [hlt, if_true] at hlen
    cases hlen
  have hnonneg : 0 ≤ seqDiff right seq := by
    unfold seqLt at hlt
    rw [decide_eq_true_eq] at hlt
    omega
  have hsub := seqDiff_eq_subSeq hx hy hnonneg
  have hzero : subSeq right seq = 0 ↔ right = seq := by
    unfold subSeq subtract32
    omega
  simp only [hlt, Bool.false_eq_true, if_false, Option.some.injEq, false_or]
  constructor
  · intro h
    obtain ⟨hpos, -⟩ := h _ rfl
    exact ⟨fun heq => by rw [hzero.mpr heq] at hpos; omega, by omega⟩
  · rintro ⟨hne, hmss⟩ len rfl
    have hpos : subSeq right seq ≠ 0 := fun h0 => hne (hzero.mp h0)
    rw [hsub]
    omega

/-- A pool apart from the buffer of the sample. -/
def sendPool : Allocator := ⟨true, fun n => if n < 1000 then some 5000 else none⟩

theorem sendPool_valid : sendPool.Valid := by
  intro n p hp
  unfold sendPool at hp
  simp only at hp
  split at hp
  · cases hp
    omega
  · cases hp

theorem sendPool_fresh : ∀ s ∈ [sampleSegment], Fresh sendPool s.nbuf.blockOps := by
  intro s hs n p hp op hop
  rw [List.mem_singleton.mp hs] at hop
  rw [List.mem_singleton.mp (show op ∈ [⟨2000, 2030, 2004, 2014, 10⟩] from hop)]
  unfold sendPool at hp
  simp only at hp
  split at hp
  · cases hp
    exact Or.inl (by decide)
  · cases hp

def sampleTcb (sndWnd : Nat) : TcpCb := ⟨100, 112, 100, sndWnd, 536, [sampleSegment]⟩

theorem sampleTcb_sending (sndWnd : Nat) : Sending (sampleTcb sndWnd) 100 112 100 112 := by
  have hcheck : tcpCheckSndQue [sampleSegment] = true := by decide
  have hsum : 100 + ([sampleSegment].map items).sum = 112 := by decide
  refine ⟨fun s hs => ?_, hcheck, fun s hs => ?_, hsum, by decide, rfl, rfl, by decide, by decide⟩
  · rw [List.mem_singleton.mp hs]
    exact ⟨built_sampleBuf.good, rfl, by decide⟩
  · obtain rfl := Option.some.inj hs
    rfl

end Udk.Tcp4
