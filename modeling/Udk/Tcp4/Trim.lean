import Udk.NetBuffer.Trim
import Udk.Tcp4.Segment

/-! # Trimming a segment to a window -/

namespace Udk.Tcp4

open NetBuffer Bytes

variable {s s' : Segment} {p e l r left right len : Nat}

/-! ## What a segment carries -/

/-- What takes one sequence number. -/
inductive Octet where
  | syn
  | byte (b : UInt8)
  | fin
  deriving DecidableEq

def syns (s : Segment) : List Octet := if flgOn s.seg.flag tcpFlgSyn then [.syn] else []
def fins (s : Segment) : List Octet := if flgOn s.seg.flag tcpFlgFin then [.fin] else []

def octets (m : Memory) (s : Segment) : List Octet := syns s ++ (flat m s.nbuf).map .byte ++ fins s

/-- The segment is from the position `p` to the position `e`. -/
structure IsAt (s : Segment) (p e : Nat) : Prop where
  good : s.nbuf.Good
  headless : s.tcp = none
  seq : s.seg.seq = uint32 p
  endSeq : s.seg.endSeq = uint32 e
  length : p + (syns s).length + s.nbuf.totalSize + (fins s).length = e
  urg : s.seg.urg < 2 ^ 16

/-- The urgent pointer denotes the same sequence number, or is off. -/
def UrgKept (s s' : Segment) : Prop :=
  flgOn s'.seg.flag tcpFlgUrg = true →
    flgOn s.seg.flag tcpFlgUrg = true ∧ uint32 (s'.seg.seq + s'.seg.urg) = uint32 (s.seg.seq + s.seg.urg)

theorem UrgKept.trans {s'' : Segment} (h : UrgKept s s') (h' : UrgKept s' s'') : UrgKept s s'' := by
  intro hon
  obtain ⟨hon', hsame'⟩ := h' hon
  obtain ⟨hon'', hsame⟩ := h hon'
  exact ⟨hon'', hsame'.trans hsame⟩

theorem syns_length (s : Segment) : (syns s).length = (flgOn s.seg.flag tcpFlgSyn).toNat := by
  unfold syns
  cases flgOn s.seg.flag tcpFlgSyn <;> rfl

theorem fins_length (s : Segment) : (fins s).length = (flgOn s.seg.flag tcpFlgFin).toNat := by
  unfold fins
  cases flgOn s.seg.flag tcpFlgFin <;> rfl

theorem syns_length_le (s : Segment) : (syns s).length ≤ 1 := by
  unfold syns
  split <;> simp

theorem fins_length_le (s : Segment) : (fins s).length ≤ 1 := by
  unfold fins
  split <;> simp

theorem flat_length (h : s.nbuf.Good) (m : Memory) : (flat m s.nbuf).length = s.nbuf.totalSize := by
  rw [h.total]
  exact flatOps_length m s.nbuf.blockOps

theorem octets_length (h : s.nbuf.Good) (m : Memory) :
    (octets m s).length = (syns s).length + s.nbuf.totalSize + (fins s).length := by
  unfold octets
  rw [List.length_append, List.length_append, List.length_map, flat_length h]

/-! ## `TcpVerifySegment` is about the length -/

theorem tcpVerifySegment_eq (hhead : s.tcp = none) (hlen : s.nbuf.totalSize < 2 ^ 31) :
    tcpVerifySegment s =
      (uint32 (s.seg.seq + ((syns s).length + s.nbuf.totalSize + (fins s).length)) == s.seg.endSeq) := by
  have hlenOf : lenOf s = some s.nbuf.totalSize := by
    unfold lenOf
    rw [hhead]
  have h1 : uint32 (s.nbuf.totalSize + 1) = s.nbuf.totalSize + 1 := uint32_of_lt (by omega)
  have h2 : uint32 (s.nbuf.totalSize + 1 + 1) = s.nbuf.totalSize + 1 + 1 := uint32_of_lt (by omega)
  unfold tcpVerifySegment syns fins
  simp only [hlenOf]
  cases flgOn s.seg.flag tcpFlgSyn <;> cases flgOn s.seg.flag tcpFlgFin
  all_goals
    simp only [if_true, Bool.false_eq_true, if_false, List.length_nil, List.length_singleton, h1, h2, Nat.zero_add,
      Nat.add_zero, Nat.add_comm 1]

theorem IsAt.verify (h : IsAt s p e) (hpe : e < p + 2 ^ 31) : tcpVerifySegment s = true := by
  have hlength := h.length
  rw [tcpVerifySegment_eq h.headless (by omega), h.seq, h.endSeq, uint32_add, beq_iff_eq]
  congr 1
  omega

/-- A segment that passes is where its fields say. -/
theorem isAt_of_verify (hgood : s.nbuf.Good) (hhead : s.tcp = none) (hurg : s.seg.urg < 2 ^ 16)
    (hlen : s.nbuf.totalSize < 2 ^ 31) (hseq : s.seg.seq = uint32 p) (hend : s.seg.endSeq = uint32 e)
    (hpe : p ≤ e) (hep : e < p + 2 ^ 31) (hverify : tcpVerifySegment s = true) : IsAt s p e := by
  refine ⟨hgood, hhead, hseq, hend, ?_, hurg⟩
  have hs := syns_length_le s
  have hf := fins_length_le s
  rw [tcpVerifySegment_eq hhead hlen, hseq, hend, uint32_add, beq_iff_eq] at hverify
  unfold uint32 at hverify
  omega

/-! ## The trims -/

/-- The items of a segment whose data is trimmed. -/
theorem trim_isAt {s : Segment} (hgood : s.nbuf.Good) (hpos : len ≠ 0 → s.nbuf.totalSize ≠ 0) (hle : len ≤ s.nbuf.totalSize)
    (fromHead : Bool) : ∃ nbuf, (if len ≠ 0 then s.trim len fromHead else some s) = some { s with nbuf := nbuf } ∧
      nbuf.Good ∧ nbuf.totalSize = s.nbuf.totalSize - len ∧
      ∀ m, flat m nbuf = trimBytes (flat m s.nbuf) len fromHead := by
  by_cases hzero : len = 0
  · refine ⟨s.nbuf, ?_, hgood, ?_, fun m => ?_⟩
    · rw [if_neg (by omega)]
    · omega
    · rw [hzero]
      unfold trimBytes
      cases fromHead <;> simp
  · obtain ⟨nbuf, htrim, hg, htotal, hflat⟩ := @netbufTrim_spec s.nbuf len fromHead hgood (hpos hzero)
    rw [Nat.min_eq_left hle] at htotal
    refine ⟨nbuf, ?_, hg, htotal, hflat⟩
    rw [if_pos hzero, Segment.trim, htrim]
    rfl

/-- The header is the head of what the segment carries. -/
structure TrimmedHead (s : Segment) (p e l : Nat) (s' : Segment) : Prop where
  isAt : IsAt s' (max p l) e
  octets : ∀ m, octets m s' = (octets m s).drop (l - p)
  urg : UrgKept s s'
  syn : p < l → flgOn s'.seg.flag tcpFlgSyn = false

@[simp] theorem trimUrg_seq (seg : TcpSeg) (urg : Nat) : (trimUrg seg urg).seq = seg.seq := by
  unfold trimUrg
  split
  · split <;> rfl
  · rfl

@[simp] theorem trimUrg_endSeq (seg : TcpSeg) (urg : Nat) : (trimUrg seg urg).endSeq = seg.endSeq := by
  unfold trimUrg
  split
  · split <;> rfl
  · rfl

theorem trimUrg_flag (seg : TcpSeg) (urg : Nat) {f : BitVec 8} (h : tcpFlgUrg &&& f = 0) :
    flgOn (trimUrg seg urg).flag f = flgOn seg.flag f := by
  unfold trimUrg
  split
  · split
    · exact flgOn_clear_of_disjoint _ h
    · rfl
  · rfl

theorem trimUrg_urg {seg : TcpSeg} (h : seg.urg < 2 ^ 16) (urg : Nat) : (trimUrg seg urg).urg < 2 ^ 16 := by
  unfold trimUrg
  split
  · split
    · exact h
    · exact Nat.mod_lt _ (by omega)
  · exact h

/-- The pointer still denotes `p + u` if it is left on. -/
theorem trimUrg_kept {seg : TcpSeg} {u : Nat} (hseq : seg.seq = uint32 l) (hu : u < 2 ^ 16) (hpl : p < l)
    (hlp : l < p + 2 ^ 31) (hon : flgOn (trimUrg seg (uint32 (p + u))).flag tcpFlgUrg = true) :
    flgOn seg.flag tcpFlgUrg = true ∧ uint32 (uint32 l + (trimUrg seg (uint32 (p + u))).urg) = uint32 (p + u) := by
  have hlt : seqLt (uint32 (p + u)) (uint32 l) = true ↔ p + u < l := seqLt_iff (by omega) (by omega)
  unfold trimUrg at hon ⊢
  rw [hseq] at hon ⊢
  split at hon
  · rename_i hurg
    rw [if_pos hurg]
    split at hon
    · rw [flgOn_clear_self] at hon
      cases hon
    · rename_i hge
      have hle : l ≤ p + u := by
        rw [hlt] at hge
        omega
      refine ⟨hurg, ?_⟩
      rw [if_neg hge, subSeq_eq hle (by omega), Nat.mod_eq_of_lt (by omega), uint32_add]
      exact congrArg uint32 (show l + (p + u - l) = p + u by omega)
  · rename_i hoff
    exact absurd hon hoff

theorem drop_octets (m : Memory) (s : Segment) {k : Nat} (hlo : (syns s).length ≤ k)
    (hhi : k ≤ (syns s).length + (flat m s.nbuf).length) :
    (octets m s).drop k = ((flat m s.nbuf).drop (k - (syns s).length)).map .byte ++ fins s := by
  unfold octets
  rw [List.append_assoc, List.drop_append, List.drop_eq_nil_of_le hlo, List.nil_append,
    List.drop_append_of_le_length (by rw [List.length_map]; omega), List.map_drop]

/-- What the new fields keep. -/
theorem headSeg_fields (seg : TcpSeg) (left : Nat) :
    (headSeg seg left).seq = left ∧ (headSeg seg left).endSeq = seg.endSeq ∧
      flgOn (headSeg seg left).flag tcpFlgSyn = false ∧
      flgOn (headSeg seg left).flag tcpFlgFin = flgOn seg.flag tcpFlgFin := by
  unfold headSeg
  refine ⟨trimUrg_seq _ _, trimUrg_endSeq _ _, ?_, ?_⟩
  · rw [trimUrg_flag _ _ (by decide)]
    exact flgOn_off _ _
  · rw [trimUrg_flag _ _ (by decide)]
    exact flgOn_off_of_disjoint _ (by decide)

theorem headSeg_urg {seg : TcpSeg} (h : seg.urg < 2 ^ 16) (left : Nat) : (headSeg seg left).urg < 2 ^ 16 :=
  @trimUrg_urg { seg with seq := left, flag := _ } h _

theorem headSeg_kept {seg : TcpSeg} (hseq : seg.seq = uint32 p) (hurg : seg.urg < 2 ^ 16) (hpl : p < l)
    (hlp : l < p + 2 ^ 31) (hon : flgOn (headSeg seg (uint32 l)).flag tcpFlgUrg = true) :
    flgOn seg.flag tcpFlgUrg = true ∧
      uint32 ((headSeg seg (uint32 l)).seq + (headSeg seg (uint32 l)).urg) = uint32 (seg.seq + seg.urg) := by
  rw [(headSeg_fields seg (uint32 l)).1, hseq, uint32_add p]
  unfold headSeg at hon ⊢
  rw [hseq, uint32_add p] at hon ⊢
  dsimp only at hon ⊢
  obtain ⟨hflag, hsame⟩ := @trimUrg_kept p l { seg with seq := uint32 l, flag := if flgOn seg.flag tcpFlgSyn then
    (clearFlg seg.flag tcpFlgSyn) else seg.flag } seg.urg rfl hurg hpl hlp hon
  exact ⟨(@flgOn_off_of_disjoint seg.flag tcpFlgSyn tcpFlgUrg (by decide)).symm.trans hflag, hsame⟩

theorem dropBytes_eq {k : Nat} {flag : Bool} (hk : k < 2 ^ 32) (hpos : 0 < k) :
    dropBytes k flag = k - flag.toNat := by
  unfold dropBytes
  cases flag
  · rw [if_neg Bool.false_ne_true, Bool.toNat_false, Nat.sub_zero]
  · rw [if_pos rfl, Bool.toNat_true, subtract32_eq hpos hk]

theorem trimHead_spec (h : IsAt s p e) (hle : l < e) (hpe : e < p + 2 ^ 31) (hpl : p < l + 2 ^ 31) :
    ∃ s', trimHead s (uint32 l) = some s' ∧ TrimmedHead s p e l s' := by
  have hlt : seqLt s.seg.seq (uint32 l) = true ↔ p < l := by
    rw [h.seq]
    exact seqLt_iff (by omega) (by omega)
  unfold trimHead
  by_cases hin : p < l
  swap
  · rw [if_neg (by rw [hlt]; exact hin)]
    refine ⟨s, rfl, by rw [Nat.max_eq_left (by omega)]; exact h, fun m => ?_, fun hon => ⟨hon, rfl⟩,
      fun hpl => absurd hpl hin⟩
    rw [show l - p = 0 by omega, List.drop_zero]
  rw [if_pos (hlt.mpr hin)]
  have hlength := h.length
  have hsyns := syns_length_le s
  have hfins := fins_length_le s
  have hdrop : dropBytes (subSeq (uint32 l) s.seg.seq) (flgOn s.seg.flag tcpFlgSyn) = l - p - (syns s).length := by
    rw [h.seq, subSeq_eq (by omega) (by omega), dropBytes_eq (by omega) (by omega), syns_length]
  obtain ⟨hseq, hend, hsyn, hfin⟩ := headSeg_fields s.seg (uint32 l)
  obtain ⟨nbuf, htrim, hgood, htotal, hflat⟩ := @trim_isAt (l - p - (syns s).length) (s.withSeg (headSeg s.seg (uint32 l)))
    h.good (fun hne => show s.nbuf.totalSize ≠ 0 by omega) (show _ ≤ s.nbuf.totalSize by omega) true
  simp only [hdrop, htrim]
  have hsyns' : ∀ n, syns { s.withSeg (headSeg s.seg (uint32 l)) with nbuf := n } = [] := by
    intro n
    exact if_neg (by show ¬flgOn (headSeg s.seg (uint32 l)).flag tcpFlgSyn = true; rw [hsyn]; exact Bool.false_ne_true)
  have hfins' : ∀ n, fins { s.withSeg (headSeg s.seg (uint32 l)) with nbuf := n } = fins s := by
    intro n
    show (if flgOn (headSeg s.seg (uint32 l)).flag tcpFlgFin = true then _ else _) = _
    rw [hfin]
    rfl
  refine ⟨_, rfl, ⟨hgood, h.headless, ?_, hend.trans h.endSeq, ?_, ?_⟩, fun m => ?_, fun hon => ?_, fun _ => hsyn⟩
  · rw [Nat.max_eq_right (Nat.le_of_lt hin)]
    exact hseq
  · rw [Nat.max_eq_right (Nat.le_of_lt hin), hsyns', hfins']
    show l + 0 + nbuf.totalSize + (fins s).length = e
    rw [htotal]
    show l + 0 + (s.nbuf.totalSize - (l - p - (syns s).length)) + (fins s).length = e
    omega
  · exact headSeg_urg h.urg _
  · rw [drop_octets m s (by omega) (by rw [flat_length h.good]; omega)]
    unfold octets
    rw [hsyns', hfins', List.nil_append]
    show (flat m nbuf).map .byte ++ fins s = _
    rw [hflat]
    rfl
  · exact headSeg_kept h.seq h.urg hin (by omega) hon

/-- The tail is the tail of what the segment carries. -/
structure TrimmedTail (s : Segment) (p e r : Nat) (s' : Segment) : Prop where
  isAt : IsAt s' p (min e r)
  octets : ∀ m, octets m s' = (octets m s).take (r - p)
  urg : UrgKept s s'

theorem take_octets (m : Memory) (s : Segment) {k : Nat} (hlo : (syns s).length ≤ k)
    (hhi : k ≤ (syns s).length + (flat m s.nbuf).length) :
    (octets m s).take k = syns s ++ ((flat m s.nbuf).take (k - (syns s).length)).map .byte := by
  unfold octets
  rw [List.append_assoc, List.take_append, List.take_of_length_le hlo,
    List.take_append_of_le_length (by rw [List.length_map]; omega), List.map_take]

theorem tailSeg_flag (seg : TcpSeg) (right : Nat) {f : BitVec 8} (h : tcpFlgFin &&& f = 0) :
    flgOn (tailSeg seg right).flag f = flgOn seg.flag f := flgOn_off_of_disjoint _ h

theorem trimTail_spec (h : IsAt s p e) (hle : p ≤ r) (hsyn : (syns s).length ≤ r - p) (hpe : e < p + 2 ^ 31)
    (hre : r < e + 2 ^ 31) : ∃ s', trimTail s (uint32 r) = some s' ∧ TrimmedTail s p e r s' := by
  have hlt : seqGt s.seg.endSeq (uint32 r) = true ↔ r < e := by
    rw [h.endSeq]
    exact seqGt_iff (by omega) (by omega)
  have hlength := h.length
  unfold trimTail
  by_cases hin : r < e
  swap
  · rw [if_neg (by rw [hlt]; exact hin)]
    refine ⟨s, rfl, by rw [Nat.min_eq_left (by omega)]; exact h, fun m => ?_, fun hon => ⟨hon, rfl⟩⟩
    rw [List.take_of_length_le]
    rw [octets_length h.good]
    omega
  rw [if_pos (hlt.mpr hin)]
  have hfins := fins_length_le s
  have hdrop : dropBytes (subSeq s.seg.endSeq (uint32 r)) (flgOn s.seg.flag tcpFlgFin) = e - r - (fins s).length := by
    rw [h.endSeq, subSeq_eq (by omega) (by omega), dropBytes_eq (by omega) (by omega), fins_length]
  obtain ⟨nbuf, htrim, hgood, htotal, hflat⟩ := @trim_isAt (e - r - (fins s).length) (s.withSeg (tailSeg s.seg (uint32 r)))
    h.good (fun hne => show s.nbuf.totalSize ≠ 0 by omega) (show _ ≤ s.nbuf.totalSize by omega) false
  simp only [hdrop, htrim]
  have hsyns' : ∀ n, syns { s.withSeg (tailSeg s.seg (uint32 r)) with nbuf := n } = syns s := by
    intro n
    show (if flgOn (tailSeg s.seg (uint32 r)).flag tcpFlgSyn = true then _ else _) = _
    rw [tailSeg_flag _ _ (by decide)]
    rfl
  have hfins' : ∀ n, fins { s.withSeg (tailSeg s.seg (uint32 r)) with nbuf := n } = [] := by
    intro n
    refine if_neg ?_
    show ¬flgOn (tailSeg s.seg (uint32 r)).flag tcpFlgFin = true
    exact ne_true_of_eq_false (flgOn_off _ _)
  refine ⟨_, rfl, ⟨hgood, h.headless, h.seq, ?_, ?_, h.urg⟩, fun m => ?_, fun hon => ⟨?_, rfl⟩⟩
  · rw [Nat.min_eq_right (Nat.le_of_lt hin)]
    rfl
  · rw [Nat.min_eq_right (Nat.le_of_lt hin), hsyns', hfins']
    show p + (syns s).length + nbuf.totalSize + 0 = r
    rw [htotal]
    show p + (syns s).length + (s.nbuf.totalSize - (e - r - (fins s).length)) + 0 = r
    omega
  · rw [take_octets m s hsyn (by rw [flat_length h.good]; omega)]
    unfold octets
    rw [hsyns', hfins', List.append_nil]
    show syns s ++ (flat m nbuf).map .byte = _
    rw [hflat]
    show syns s ++ ((flat m s.nbuf).take ((flat m s.nbuf).length - (e - r - (fins s).length))).map .byte = _
    rw [flat_length h.good, show s.nbuf.totalSize - (e - r - (fins s).length) = r - p - (syns s).length by omega]
  · exact (tailSeg_flag s.seg (uint32 r) (by decide)).symm.trans hon

/-! ## The part of a segment in a window -/

/-- The items numbered from `p` whose number is in the window are a slice. -/
theorem zipIdx_filter_between {α : Type} (xs : List α) (p l r : Nat) :
    (xs.zipIdx p).filter (fun x => l ≤ x.2 ∧ x.2 < r) = ((xs.drop (l - p)).take (r - max p l)).zipIdx (max p l) := by
  induction xs generalizing p with
  | nil => simp
  | cons x xs ih =>
    rw [List.zipIdx_cons, List.filter_cons, ih (p + 1)]
    by_cases hl : p < l
    · rw [if_neg (by simp only [decide_eq_true_eq]; omega), show l - p = l - (p + 1) + 1 by omega, List.drop_succ_cons,
        Nat.max_eq_right hl, Nat.max_eq_right (Nat.le_of_lt hl)]
    rw [show l - p = 0 by omega, show l - (p + 1) = 0 by omega, Nat.max_eq_left (show l ≤ p + 1 by omega),
      Nat.max_eq_left (show l ≤ p by omega), List.drop_zero, List.drop_zero]
    by_cases hr : p < r
    · rw [if_pos (by simp only [decide_eq_true_eq]; omega), show r - p = r - (p + 1) + 1 by omega, List.take_succ_cons,
        List.zipIdx_cons]
    · rw [if_neg (by simp only [decide_eq_true_eq]; omega), show r - (p + 1) = 0 by omega, show r - p = 0 by omega]
      rfl

/-- A segment without its header that `TcpVerifySegment` accepts. -/
structure Accepted (s : Segment) : Prop where
  good : s.nbuf.Good
  headless : s.tcp = none
  urg : s.seg.urg < 2 ^ 16
  verify : tcpVerifySegment s = true

/-- The sequence numbers are those of positions of one half of the sequence space. -/
structure Near (s : Segment) (left right p e l r : Nat) : Prop where
  seq : s.seg.seq = uint32 p
  endSeq : s.seg.endSeq = uint32 e
  atLeft : left = uint32 l
  atRight : right = uint32 r
  size : s.nbuf.totalSize < 2 ^ 31
  segment : p ≤ e
  window : l ≤ r
  half : max e r < min p l + 2 ^ 31

/-- The part of the segment at `[p, e)` that is in `[l, r)`. -/
structure IsWindowPart (s : Segment) (p e l r : Nat) (s' : Segment) : Prop where
  meets : max p l < min e r → s'.seg.seq = uint32 (max p l) ∧ s'.seg.endSeq = uint32 (min e r)
  empty : min e r ≤ max p l → s'.seg.seq = s'.seg.endSeq ∧ ∀ m, octets m s' = []
  syn : flgOn s'.seg.flag tcpFlgSyn = true ↔ flgOn s.seg.flag tcpFlgSyn = true ∧ l ≤ p ∧ p < r
  fin : flgOn s'.seg.flag tcpFlgFin = true ↔ flgOn s.seg.flag tcpFlgFin = true ∧ l ≤ e - 1 ∧ e - 1 < r
  octets : ∀ m, (octets m s').zipIdx (max p l) = ((octets m s).zipIdx p).filter fun x => l ≤ x.2 ∧ x.2 < r
  urg : UrgKept s s'
  verify : tcpVerifySegment s' = true

theorem mem_zipIdx_octets (m : Memory) (x : Octet) (n : Nat) (hx : ∀ b, x ≠ .byte b) :
    (x, n) ∈ (octets m s).zipIdx p ↔
      (x, n) ∈ (syns s).zipIdx p ∨ (x, n) ∈ (fins s).zipIdx (p + ((syns s).length + (flat m s.nbuf).length)) := by
  have hbytes : ∀ k, (x, n) ∉ ((flat m s.nbuf).map Octet.byte).zipIdx k := by
    intro k hmem
    obtain ⟨b, -, hb⟩ := List.mem_map.mp (List.fst_mem_of_mem_zipIdx hmem)
    exact hx b hb.symm
  unfold octets
  rw [List.zipIdx_append, List.zipIdx_append, List.mem_append, List.mem_append, List.length_append, List.length_map]
  simp only [hbytes, or_false]

theorem mem_syn (m : Memory) (n : Nat) :
    (Octet.syn, n) ∈ (octets m s).zipIdx p ↔ flgOn s.seg.flag tcpFlgSyn = true ∧ n = p := by
  rw [mem_zipIdx_octets m .syn n (fun b => by simp)]
  unfold syns fins
  cases flgOn s.seg.flag tcpFlgSyn <;> cases flgOn s.seg.flag tcpFlgFin <;> simp

theorem mem_fin (h : IsAt s p e) (m : Memory) (n : Nat) :
    (Octet.fin, n) ∈ (octets m s).zipIdx p ↔ flgOn s.seg.flag tcpFlgFin = true ∧ n + 1 = e := by
  have hlength := h.length
  rw [fins_length] at hlength
  rw [mem_zipIdx_octets m .fin n (fun b => by simp), flat_length h.good]
  have hsyn : (Octet.fin, n) ∉ (syns s).zipIdx p := by
    unfold syns
    split <;> simp
  unfold fins
  cases hfin : flgOn s.seg.flag tcpFlgFin
  · simp [hsyn]
  · rw [hfin, Bool.toNat_true] at hlength
    simp only [hsyn, false_or, if_true, List.zipIdx_singleton, List.mem_singleton, Prod.mk.injEq, true_and]
    omega

theorem syn_mem_octets (m : Memory) : Octet.syn ∈ octets m s ↔ flgOn s.seg.flag tcpFlgSyn = true := by
  unfold octets syns fins
  cases flgOn s.seg.flag tcpFlgSyn <;> cases flgOn s.seg.flag tcpFlgFin <;> simp

theorem fin_mem_octets (m : Memory) : Octet.fin ∈ octets m s ↔ flgOn s.seg.flag tcpFlgFin = true := by
  unfold octets syns fins
  cases flgOn s.seg.flag tcpFlgSyn <;> cases flgOn s.seg.flag tcpFlgFin <;> simp

theorem mem_iff_numbered {α : Type} (xs : List α) (k : Nat) {x : α} : x ∈ xs ↔ ∃ n, (x, n) ∈ xs.zipIdx k := by
  constructor
  · intro hx
    rw [← List.zipIdx_map_fst k xs] at hx
    obtain ⟨⟨y, n⟩, hmem, rfl⟩ := List.mem_map.mp hx
    exact ⟨n, hmem⟩
  · exact fun ⟨n, hmem⟩ => List.fst_mem_of_mem_zipIdx hmem

/-- The flags follow what the segment carries. -/
theorem isWindowPart_of_octets {q k : Nat} (h : IsAt s p e) (hat : IsAt s' q k) (hkq : k < q + 2 ^ 31)
    (hmeets : max p l < min e r → q = max p l ∧ k = min e r) (hempty : min e r ≤ max p l → q = k)
    (hoctets : ∀ m, octets m s' = ((octets m s).drop (l - p)).take (r - max p l)) (hurg : UrgKept s s') :
    IsWindowPart s p e l r s' := by
  have hslice : ∀ m, (octets m s').zipIdx (max p l) = ((octets m s).zipIdx p).filter fun x => l ≤ x.2 ∧ x.2 < r := by
    intro m
    rw [zipIdx_filter_between, hoctets]
  have hlength := h.length
  have hlength' := hat.length
  refine ⟨fun hm => ?_, fun he => ⟨?_, fun m => ?_⟩, ?_, ?_, hslice, hurg, hat.verify hkq⟩
  · obtain ⟨rfl, rfl⟩ := hmeets hm
    exact ⟨hat.seq, hat.endSeq⟩
  · rw [hat.seq, hat.endSeq, hempty he]
  · refine List.eq_nil_of_length_eq_zero ?_
    have hk := hempty he
    rw [octets_length hat.good]
    omega
  · rw [← syn_mem_octets (fun _ => 0), mem_iff_numbered (octets _ s') (max p l), hslice]
    simp only [List.mem_filter, mem_syn, decide_eq_true_eq]
    constructor
    · rintro ⟨n, ⟨hon, rfl⟩, hin⟩
      exact ⟨hon, hin⟩
    · exact fun ⟨hon, hin⟩ => ⟨p, ⟨hon, rfl⟩, hin⟩
  · rw [← fin_mem_octets (fun _ => 0), mem_iff_numbered (octets _ s') (max p l), hslice]
    simp only [List.mem_filter, mem_fin h, decide_eq_true_eq]
    constructor
    · rintro ⟨n, ⟨hon, rfl⟩, hin⟩
      exact ⟨hon, hin⟩
    · rintro ⟨hon, hin⟩
      rw [fins_length, hon, Bool.toNat_true] at hlength
      exact ⟨e - 1, ⟨hon, by omega⟩, hin⟩

/-! ## `TcpTrimSegment` -/

/-- The routine does not read past the blocks, and leaves the part in the window. -/
def TrimsToWindow (s : Segment) (left right p e l r : Nat) : Prop :=
  ∃ s', tcpTrimSegment s left right = some s' ∧ IsWindowPart s p e l r s'

/-- The segment meets the window as the routine compares them. -/
theorem trimsToWindow_of_meets (h : IsAt s p e) (hn : Near s left right p e l r) (hle : l < e) (hpr : p < r) :
    TrimsToWindow s left right p e l r := by
  have hhalf := hn.half
  have hwindow := hn.window
  have hlength := h.length
  have hleft : seqLeq s.seg.endSeq (uint32 l) = true ↔ e ≤ l := by
    rw [h.endSeq]
    exact seqLeq_iff (by omega) (by omega)
  have hright : seqLeq (uint32 r) s.seg.seq = true ↔ r ≤ p := by
    rw [h.seq]
    exact seqLeq_iff (by omega) (by omega)
  obtain ⟨s1, htrim1, h1⟩ := trimHead_spec h hle (by omega) (by omega)
  have hsyn : (syns s1).length ≤ r - max p l := by
    have hle1 := syns_length_le s1
    by_cases hpl : p < l
    · rw [syns_length, h1.syn hpl]
      exact Nat.zero_le _
    · omega
  obtain ⟨s2, htrim2, h2⟩ := trimTail_spec h1.isAt (show max p l ≤ r by omega) hsyn (by omega) (by omega)
  refine ⟨s2, ?_, isWindowPart_of_octets h h2.isAt (by omega) (fun _ => ⟨rfl, rfl⟩) (fun he => ?_) (fun m => ?_)
    (h1.urg.trans h2.urg)⟩
  · unfold tcpTrimSegment
    rw [hn.atLeft, hn.atRight, if_neg (by rw [Bool.or_eq_true, hleft, hright]; omega), htrim1, Option.bind_some, htrim2]
  · have hlength2 := h2.isAt.length
    omega
  · rw [h2.octets, h1.octets]

/-- The fields of a segment out of the window. -/
def outsideSeg (seg : TcpSeg) : TcpSeg :=
  { seg with flag := clearFlg (clearFlg seg.flag tcpFlgSyn) tcpFlgFin, seq := seg.endSeq }

theorem tcpTrimSegment_outside (h : IsAt s p e) (hn : Near s left right p e l r) (hout : e ≤ l ∨ r ≤ p) :
    tcpTrimSegment s left right = (s.withSeg (outsideSeg s.seg)).trim s.nbuf.totalSize true := by
  have hhalf := hn.half
  have hwindow := hn.window
  have hsegment := hn.segment
  have hleft : seqLeq s.seg.endSeq (uint32 l) = true ↔ e ≤ l := by
    rw [h.endSeq]
    exact seqLeq_iff (by omega) (by omega)
  have hright : seqLeq (uint32 r) s.seg.seq = true ↔ r ≤ p := by
    rw [h.seq]
    exact seqLeq_iff (by omega) (by omega)
  unfold tcpTrimSegment
  rw [hn.atLeft, hn.atRight, if_pos (by rw [Bool.or_eq_true, hleft, hright]; exact hout)]
  rfl

theorem outsideSeg_flags (seg : TcpSeg) :
    flgOn (outsideSeg seg).flag tcpFlgSyn = false ∧ flgOn (outsideSeg seg).flag tcpFlgFin = false ∧
      flgOn (outsideSeg seg).flag tcpFlgUrg = flgOn seg.flag tcpFlgUrg := by
  unfold outsideSeg
  refine ⟨?_, flgOn_clear_self _ _, ?_⟩
  · rw [flgOn_clear_of_disjoint _ (by decide), flgOn_clear_self]
  · rw [flgOn_clear_of_disjoint _ (by decide), flgOn_clear_of_disjoint _ (by decide)]

theorem trimsToWindow_of_outside (h : IsAt s p e) (hn : Near s left right p e l r) (hout : e ≤ l ∨ r ≤ p)
    (hpos : s.nbuf.totalSize ≠ 0) (hurg : flgOn s.seg.flag tcpFlgUrg = false) : TrimsToWindow s left right p e l r := by
  obtain ⟨hsyn, hfin, hkeep⟩ := outsideSeg_flags s.seg
  obtain ⟨nbuf, htrim, hgood, htotal, hflat⟩ := @netbufTrim_spec s.nbuf s.nbuf.totalSize true h.good hpos
  rw [Nat.min_self, Nat.sub_self] at htotal
  let s' : Segment := { s.withSeg (outsideSeg s.seg) with nbuf := nbuf }
  have hsyns : syns s' = [] := if_neg (ne_true_of_eq_false hsyn)
  have hfins : fins s' = [] := if_neg (ne_true_of_eq_false hfin)
  have hempty : ∀ m, octets m s' = [] := by
    intro m
    have hnone : flat m s'.nbuf = [] := List.eq_nil_of_length_eq_zero ((@flat_length s' hgood m).trans htotal)
    unfold octets
    rw [hsyns, hfins, hnone]
    rfl
  have hat : IsAt s' e e := by
    refine ⟨hgood, h.headless, h.endSeq, h.endSeq, ?_, h.urg⟩
    rw [hsyns, hfins]
    show e + 0 + nbuf.totalSize + 0 = e
    omega
  have hlength := h.length
  refine ⟨s', ?_, isWindowPart_of_octets h hat (by omega) (fun hm => by omega) (fun _ => rfl) (fun m => ?_) (fun hon => ?_)⟩
  · rw [tcpTrimSegment_outside h hn hout, Segment.trim]
    show (netbufTrim s.nbuf s.nbuf.totalSize true).map _ = _
    rw [htrim]
    rfl
  · rw [hempty, eq_comm]
    refine List.eq_nil_of_length_eq_zero ?_
    rw [List.length_take, List.length_drop, octets_length h.good]
    omega
  · have hsame : flgOn s'.seg.flag tcpFlgUrg = false := hkeep.trans hurg
    rw [hsame] at hon
    cases hon

theorem outside_overruns (h : IsAt s p e) (hn : Near s left right p e l r) (hout : e ≤ l ∨ r ≤ p)
    (hzero : s.nbuf.totalSize = 0) : ¬TrimsToWindow s left right p e l r := by
  rintro ⟨s', htrim, -⟩
  rw [tcpTrimSegment_outside h hn hout, Segment.trim] at htrim
  rw [show netbufTrim (s.withSeg (outsideSeg s.seg)).nbuf s.nbuf.totalSize true = none from netbufTrim_overruns h.good hzero]
    at htrim
  cases htrim

/-- The urgent pointer moves with the sequence number. -/
theorem outside_urgent (h : IsAt s p e) (hn : Near s left right p e l r) (hout : e ≤ l ∨ r ≤ p)
    (hpos : s.nbuf.totalSize ≠ 0) (hurg : flgOn s.seg.flag tcpFlgUrg = true) : ¬TrimsToWindow s left right p e l r := by
  rintro ⟨s', htrim, hpart⟩
  obtain ⟨nbuf, hnbuf, -⟩ := @netbufTrim_spec s.nbuf s.nbuf.totalSize true h.good hpos
  rw [tcpTrimSegment_outside h hn hout, Segment.trim,
    show netbufTrim (s.withSeg (outsideSeg s.seg)).nbuf s.nbuf.totalSize true = _ from hnbuf] at htrim
  cases htrim
  have hlength := h.length
  have hhalf := hn.half
  obtain ⟨-, hsame⟩ := hpart.urg ((outsideSeg_flags s.seg).2.2.trans hurg)
  change uint32 (s.seg.endSeq + s.seg.urg) = uint32 (s.seg.seq + s.seg.urg) at hsame
  rw [h.endSeq, h.seq, uint32_add, uint32_add] at hsame
  unfold uint32 at hsame
  omega

/-- The routine trims to the window if and only if the segment meets it, or has data and no urgent pointer. -/
theorem tcpTrimSegment_window_iff (s : Segment) (left right p e l r : Nat) (h : Accepted s)
    (hn : Near s left right p e l r) :
    TrimsToWindow s left right p e l r ↔
      (l < e ∧ p < r) ∨ (s.nbuf.totalSize ≠ 0 ∧ flgOn s.seg.flag tcpFlgUrg = false) := by
  have hhalf := hn.half
  have hat : IsAt s p e :=
    isAt_of_verify h.good h.headless h.urg hn.size hn.seq hn.endSeq hn.segment (by omega) h.verify
  by_cases hin : l < e ∧ p < r
  · exact iff_of_true (trimsToWindow_of_meets hat hn hin.1 hin.2) (Or.inl hin)
  have hout : e ≤ l ∨ r ≤ p := by omega
  by_cases hzero : s.nbuf.totalSize = 0
  · exact iff_of_false (outside_overruns hat hn hout hzero) (fun hor => hor.elim hin fun hr => hr.1 hzero)
  cases hurg : flgOn s.seg.flag tcpFlgUrg
  · exact iff_of_true (trimsToWindow_of_outside hat hn hout hzero hurg) (Or.inr ⟨hzero, rfl⟩)
  · exact iff_of_false (outside_urgent hat hn hout hzero hurg)
      (fun hor => hor.elim hin fun hr => Bool.noConfusion hr.2)

/-- A segment of ten bytes with SYN, FIN and an urgent pointer to its sixth byte. -/
def sampleSegment : Segment := ⟨⟨100, 112, 0, 0x33, 6, 0⟩, none, 1, sampleBuf⟩

theorem sampleSegment_accepted : Accepted sampleSegment :=
  ⟨built_sampleBuf.good, rfl, by decide, by decide⟩

theorem tcpTrimSegment_window_sample :
    TrimsToWindow sampleSegment 103 108 100 112 103 108 ↔
      (103 < 112 ∧ 100 < 108) ∨
        (sampleSegment.nbuf.totalSize ≠ 0 ∧ flgOn sampleSegment.seg.flag tcpFlgUrg = false) :=
  tcpTrimSegment_window_iff sampleSegment 103 108 100 112 103 108 sampleSegment_accepted
    ⟨rfl, rfl, rfl, rfl, by decide, by decide, by decide, by decide⟩

/-- An acknowledgement without data. -/
def ackSegment : Segment := ⟨⟨100, 100, 0, 0x10, 0, 0⟩, none, 1, ⟨0, [⟨2000, 2000, 2000, 2000, 0⟩]⟩⟩

theorem ackSegment_accepted : Accepted ackSegment :=
  ⟨(netbufAlloc_good samplePool_valid (show 0 < 2 ^ 32 by decide) rfl).1, rfl, by decide, by decide⟩

/-- The blocks of an acknowledgement are overrun, and the urgent pointer of a segment before the window moves. -/
theorem acknowledgement_and_urgent_segment :
    (Accepted ackSegment ∧ Near ackSegment 100 200 100 100 100 200 ∧ ¬TrimsToWindow ackSegment 100 200 100 100 100 200) ∧
      Accepted sampleSegment ∧ Near sampleSegment 120 200 100 112 120 200 ∧
        ¬TrimsToWindow sampleSegment 120 200 100 112 120 200 := by
  have hack : Near ackSegment 100 200 100 100 100 200 :=
    ⟨rfl, rfl, rfl, rfl, by decide, by decide, by decide, by decide⟩
  have hurgent : Near sampleSegment 120 200 100 112 120 200 :=
    ⟨rfl, rfl, rfl, rfl, by decide, by decide, by decide, by decide⟩
  have hackAt : IsAt ackSegment 100 100 := ⟨ackSegment_accepted.good, rfl, rfl, rfl, by decide, by decide⟩
  have hurgentAt : IsAt sampleSegment 100 112 := ⟨sampleSegment_accepted.good, rfl, rfl, rfl, by decide, by decide⟩
  refine ⟨⟨ackSegment_accepted, hack, ?_⟩, sampleSegment_accepted, hurgent, ?_⟩
  · exact outside_overruns hackAt hack (Or.inl (Nat.le_refl _)) rfl
  · exact outside_urgent hurgentAt hurgent (Or.inl (by decide)) (by decide) (by decide)

end Udk.Tcp4
