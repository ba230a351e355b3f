import Udk.Tcp4.Inflation
import Udk.Tcp4.Retransmission

/-! # The edge of the send window

`TcpRetransmit` is called by the congestion control and by the timer. An acknowledgement keeps `SndNxt` before the edge
`SndWl2 + SndWnd`, and the point that a recovery ends at before `SndNxt`.
-/

namespace Udk.Tcp4

open NetBuffer

/-! ## The calls of `TcpRetransmit`

Each routine gives the sequence number that it passes, if it makes the call. The fields that it sets before the call are
none that `TcpRetransmit` reads.
-/

def fastRecoverCall (tcb : CongestCb) (ack : Nat) : Option Nat :=
  if tcb.congestState ≠ .congestRecover then some tcb.sndUna
  else if ack = tcb.sndUna then none
  else if seqGeq ack tcb.recover then none
  else some ack

def fastLossRecoverCall (tcb : CongestCb) (ack : Nat) : Option Nat :=
  if seqGt ack tcb.sndUna then
    if seqGeq ack tcb.lossRecover then none else some ack
  else none

def congestionCall (tcb : CongestCb) (ack : Nat) : Option Nat :=
  if (tcb.congestState = .congestOpen ∧ tcb.dupAck < 3) ∨ tcb.congestState = .congestLoss then
    if tcb.congestState = .congestLoss then fastLossRecoverCall tcb ack else none
  else fastRecoverCall tcb ack

/-- The call in `TcpInput`, with the control block at that time. -/
def ackCall (tcb : CongestCb) (seg : AckSeg) : Option (CongestCb × Nat) :=
  if accepts tcb seg.ack then
    let tcb := countDupAck (establish tcb seg) seg
    (congestionCall tcb seg.ack).map fun seq => (tcb, seq)
  else none

/-! ## The sending side of a connection -/

/-- The control block, and whether `TCP_TIMER_REXMIT` is on. -/
structure SendCb where
  tcb : CongestCb
  rexmit : Bool
  deriving DecidableEq

/-- What is read of the head of a segment with ACK, and the length that the segment takes. -/
structure AckHead where
  seq : UInt32
  ack : UInt32
  wnd : UInt16
  len : Nat

/-- What is read of the head and the options of a segment with SYN. -/
structure SynHead where
  seq : UInt32
  ack : Option UInt32
  wnd : UInt16
  mss : Option UInt16
  wndScale : Option Nat
  timestamp : Bool
  scale_le : ∀ k ∈ wndScale, k ≤ 14

/-- `TcpFormatNetbuf`. -/
def AckHead.format (head : AckHead) (sndWndScale : Nat) : AckSeg where
  seq := head.seq.toNat
  ack := head.ack.toNat
  wnd := head.wnd.toNat * 2 ^ sndWndScale
  len := head.len

/-- `TcpFormatNetbuf`, which does not scale the first window. -/
def SynHead.format (head : SynHead) : SynSeg where
  seq := head.seq.toNat
  ack := head.ack.map UInt32.toNat
  wnd := head.wnd.toNat
  mss := head.mss.map UInt16.toNat
  wndScale := head.wndScale
  timestamp := head.timestamp
  scale_le := head.scale_le

/-- The peer shrinks the window to nothing, which ends the timer. -/
def closesWindow (tcb : CongestCb) (seg : AckSeg) : Bool :=
  let right := uint32 (seg.ack + seg.wnd)
  (seqLt tcb.sndWl1 seg.seq || (tcb.sndWl1 == seg.seq && seqLeq tcb.sndWl2 seg.ack)) &&
    seqLt right (uint32 (tcb.sndWl2 + tcb.sndWnd)) &&
    !(tcb.sndWl1 == seg.seq && tcb.sndWl2 == seg.ack && seg.len == 0) &&
    seqLt right tcb.sndNxt && right == tcb.sndUna

/-- `tcpInputAck`, with the timer. -/
def sendAck (s : SendCb) (seg : AckSeg) : SendCb :=
  if accepts s.tcb seg.ack then
    let acked := advanceUna (congestionControl word32 (countDupAck (establish s.tcb seg) seg) seg.ack) seg.ack
    ⟨updateWindow acked seg, seg.ack != s.tcb.sndNxt && !closesWindow acked seg⟩
  else { s with tcb := tcpInputAck word32 s.tcb seg }

/-- The segment up to `endSeq` was transmitted. -/
def sent (s : SendCb) (endSeq : Nat) : SendCb :=
  ⟨if seqGt endSeq s.tcb.sndNxt then { s.tcb with sndNxt := endSeq } else s.tcb, true⟩

/-- `TcpToSendData` with `len` bytes, and with FIN if it is in the window. -/
def sendData (s : SendCb) (len : Nat) (fin : Bool) : SendCb :=
  let endSeq := uint32 (s.tcb.sndNxt + len)
  if fin && seqLt (uint32 (endSeq + 1)) (uint32 (s.tcb.sndWnd + s.tcb.sndWl2)) then sent s (uint32 (endSeq + 1))
  else if len = 0 then s
  else sent s endSeq

inductive SendEvent where
  | syn (head : SynHead)
  | ack (head : AckHead)
  | timeout (connectTimer : Bool)
  | sendSyn
  | sendData (len : Nat) (fin : Bool)
  | close
  | clearAllTimer

/-- No step from a connection that is closed. `TcpToSendData` finds at most a window and a segment of data, and whether
its segment goes out is up to the network. -/
def sendStep (rcvMss : Nat) (s : SendCb) : SendEvent → Option SendCb
  | .syn head =>
    if s.tcb.state ≠ .unsynchronized then none
    -- another acknowledgement is answered by a reset
    else if ∃ ack ∈ head.ack, ack.toNat ≠ uint32 (s.tcb.iss + 1) then some s
    else some ⟨synInput rcvMss s.tcb head.format, false⟩
  | .ack head => some (sendAck s (head.format s.tcb.sndWndScale))
  | .timeout connectTimer => if s.rexmit then (tcpRexmitTimeout connectTimer s.tcb).map (⟨·, true⟩) else none
  | .sendSyn => if s.tcb.state = .connected then none else some (sent s (uint32 (s.tcb.iss + 1)))
  | .sendData len fin =>
    if s.tcb.state = .connected ∧ len ≤ min (sendWindow s.tcb) s.tcb.sndMss then some (sendData s len fin) else none
  -- to `TCP_FIN_WAIT_1`
  | .close => if s.tcb.state = .synRcvd then some { s with tcb := { s.tcb with state := .connected } } else none
  | .clearAllTimer => some { s with rexmit := false }

/-- The window ends at `SndNxt`, and the edge of the congestion window is half of the space behind it. -/
def Tied (tcb : CongestCb) : Prop :=
  uint32 (tcb.sndWl2 + tcb.sndWnd) = tcb.sndNxt ∧ congestionEdge tcb = uint32 (tcb.sndNxt + 2 ^ 31)

/-- A `SYN` is acknowledged when it has been sent, and no data is sent where the comparison of the windows is tied. -/
def KeepsInWindow (s : SendCb) : SendEvent → Prop
  | .syn head => head.ack.map UInt32.toNat = some (uint32 (s.tcb.iss + 1)) → s.tcb.sndNxt = uint32 (s.tcb.iss + 1)
  | .ack head => s.tcb.state = .synRcvd → opens s.tcb head.ack.toNat = true → s.tcb.sndNxt = uint32 (s.tcb.iss + 1)
  | .sendData len _ => len ≠ 0 → ¬Tied s.tcb
  | _ => True

/-- The call of `TcpRetransmit` in a step, with the control block at that time. -/
def retransmitCall (s : SendCb) : SendEvent → Option (CongestCb × Nat)
  | .ack head => ackCall s.tcb (head.format s.tcb.sndWndScale)
  | .timeout connectTimer =>
    if s.rexmit then (tcpRexmitTimeout connectTimer s.tcb).map fun tcb => (tcb, s.tcb.sndUna) else none
  | _ => none

/-- What `TcpRetransmit` reads, with the queue. -/
def CongestCb.sending (tcb : CongestCb) (sndQue : List Segment) : TcpCb :=
  ⟨tcb.sndUna, tcb.sndNxt, tcb.sndWl2, tcb.sndWnd, tcb.sndMss, sndQue⟩

/-- As it is created, before the first event. -/
def createdSend (iss : UInt32) (maxRexmit : Nat) : SendCb := ⟨createdCb iss.toNat maxRexmit, false⟩

/-! ## The positions -/

/-- The point that the recovery ends at. -/
def recoverPoint (tcb : CongestCb) : Option Nat :=
  match tcb.congestState with
  | .congestOpen => none
  | .congestRecover => some tcb.recover
  | .congestLoss => some tcb.lossRecover

/-- The point of a recovery is at a position from `a` to `n`. -/
def PointIn (tcb : CongestCb) (a n : Nat) : Prop := ∀ x ∈ recoverPoint tcb, ∃ r, x = uint32 r ∧ a ≤ r ∧ r ≤ n

/-- `SndUna`, `SndNxt` and `SndWl2` are at the positions `u`, `n` and `w`, and `SndNxt` is not past the edge. -/
structure EdgeInv (tcb : CongestCb) (u n w : Nat) : Prop where
  una : tcb.sndUna = uint32 u
  nxt : tcb.sndNxt = uint32 n
  wl2 : tcb.sndWl2 = uint32 w
  lower : u ≤ n
  upper : n ≤ w + tcb.sndWnd
  behind : w ≤ u + 1
  wnd : tcb.sndWnd < 2 ^ 30
  scale : tcb.sndWndScale ≤ 14
  mss : 0 < tcb.sndMss
  point : PointIn tcb u n

variable {tcb : CongestCb} {seg : AckSeg} {u n w a ack : Nat}

/-- A number that is not before another one is less than half of the space behind it. -/
theorem position_of_seqLt {x : Nat} (hx : x < 2 ^ 32) (h : seqLt x (uint32 u) = false) :
    ∃ a, x = uint32 a ∧ u ≤ a ∧ a < u + 2 ^ 31 := by
  unfold seqLt seqDiff uint32 at h
  rw [decide_eq_false_iff_not, Int.bmod_def] at h
  refine ⟨u + (x + 2 ^ 32 - u % 2 ^ 32) % 2 ^ 32, ?_, by omega, by omega⟩
  unfold uint32
  omega

theorem EdgeInv.flight (h : EdgeInv tcb u n w) : n < u + 2 ^ 31 := by
  have hupper := h.upper
  have hbehind := h.behind
  have hwnd := h.wnd
  omega

theorem EdgeInv.edge (h : EdgeInv tcb u n w) : uint32 (tcb.sndWl2 + tcb.sndWnd) = uint32 (w + tcb.sndWnd) := by
  rw [h.wl2, uint32_add]

/-- The distance to a limit that is not behind the edge is that to the edge at most, unless it is half of the space. -/
theorem limit_le {limit edge : Nat} (hlimit : limit < 2 ^ 32) (hne : n ≤ edge) (hedge : edge < n + 2 ^ 31)
    (hle : seqDiff limit (uint32 edge) ≤ 0) (htied : ¬(edge = n ∧ limit = uint32 (n + 2 ^ 31))) :
    n + (if seqGt limit (uint32 n) then subSeq limit (uint32 n) else 0) ≤ edge := by
  unfold seqGt
  by_cases hgt : seqDiff (uint32 n) limit < 0
  · rw [if_pos (decide_eq_true hgt)]
    unfold seqDiff subSeq subtract32 uint32 at *
    rw [Int.bmod_def] at hle hgt
    omega
  · rw [if_neg (by rw [decide_eq_true_eq]; exact hgt)]
    exact hne

/-- A congestion window of less than half of the space is not tied. -/
theorem not_tied (h : EdgeInv tcb u n w) (h0 : 0 ≤ tcb.cWnd) (hwindow : tcb.cWnd < 2 ^ 31) : ¬Tied tcb := by
  have hflight := h.flight
  have hun := h.lower
  rintro ⟨-, htied⟩
  unfold congestionEdge at htied
  rw [h.una, h.nxt, uint32_add, uint32_add] at htied
  unfold uint32 at htied
  omega

/-- What is sent keeps within the window. -/
theorem sendWindow_le (h : EdgeInv tcb u n w) (htied : ¬Tied tcb) : n + sendWindow tcb ≤ w + tcb.sndWnd := by
  have hupper := h.upper
  have hbehind := h.behind
  have hlower := h.lower
  have hwnd := h.wnd
  have hedge : w + tcb.sndWnd < n + 2 ^ 31 := by omega
  unfold Tied at htied
  unfold sendWindow
  rw [h.edge, h.nxt] at *
  dsimp only
  generalize w + tcb.sndWnd = edge at *
  have hcongest : congestionEdge tcb < 2 ^ 32 := uint32_lt _
  by_cases hgt : seqGt (uint32 edge) (congestionEdge tcb) = true
  · rw [if_pos hgt]
    unfold seqGt at hgt
    rw [decide_eq_true_eq] at hgt
    refine limit_le hcongest hupper (by omega) (by omega) ?_
    rintro ⟨rfl, hlimit⟩
    exact htied ⟨rfl, by rw [hlimit, uint32_add]⟩
  · rw [if_neg hgt]
    refine limit_le (uint32_lt _) hupper (by omega) (by rw [seqDiff_eq (by omega) (by omega)]; omega) ?_
    rintro ⟨rfl, hlimit⟩
    unfold uint32 at hlimit
    omega

/-! ## An acknowledgement -/

/-- What is accepted is at a position from `SndUna` to `SndNxt`. -/
theorem accepts_position (h : EdgeInv tcb u n w) (hack : ack < 2 ^ 32) (haccepts : accepts tcb ack = true) :
    ∃ a, ack = uint32 a ∧ u ≤ a ∧ a ≤ n := by
  have hlower := h.lower
  have hflight := h.flight
  unfold accepts at haccepts
  rw [Bool.and_eq_true, Bool.and_eq_true, Bool.not_eq_true', Bool.not_eq_true', h.una, h.nxt] at haccepts
  obtain ⟨⟨-, hlt⟩, hgt⟩ := haccepts
  obtain ⟨a, rfl, hua, hau⟩ := position_of_seqLt hack hlt
  refine ⟨a, rfl, hua, ?_⟩
  by_contra hna
  rw [(seqGt_iff (by omega) (by omega)).mpr (by omega)] at hgt
  cases hgt

/-- The fields of the positions and of the window are the same. -/
structure SameEdge (tcb tcb' : CongestCb) : Prop where
  state : tcb'.state = tcb.state
  una : tcb'.sndUna = tcb.sndUna
  nxt : tcb'.sndNxt = tcb.sndNxt
  wnd : tcb'.sndWnd = tcb.sndWnd
  wl2 : tcb'.sndWl2 = tcb.sndWl2
  mss : tcb'.sndMss = tcb.sndMss
  scale : tcb'.sndWndScale = tcb.sndWndScale

theorem EdgeInv.of_same {tcb' : CongestCb} (h : EdgeInv tcb u n w) (hs : SameEdge tcb tcb') (hpoint : PointIn tcb' u n) :
    EdgeInv tcb' u n w := by
  obtain ⟨-, huna, hnxt, hwnd, hwl2, hmss, hscale⟩ := hs
  refine ⟨huna.trans h.una, hnxt.trans h.nxt, hwl2.trans h.wl2, h.lower, ?_, h.behind, ?_, ?_, ?_, hpoint⟩
  · rw [hwnd]
    exact h.upper
  · rw [hwnd]
    exact h.wnd
  · rw [hscale]
    exact h.scale
  · rw [hmss]
    exact h.mss

theorem countDupAck_sameEdge (tcb : CongestCb) (seg : AckSeg) : SameEdge tcb (countDupAck tcb seg) := by
  unfold countDupAck
  split <;> exact ⟨rfl, rfl, rfl, rfl, rfl, rfl, rfl⟩

theorem countDupAck_edge (h : EdgeInv tcb u n w) (seg : AckSeg) : EdgeInv (countDupAck tcb seg) u n w := by
  refine h.of_same (countDupAck_sameEdge tcb seg) ?_
  unfold countDupAck
  split <;> exact h.point

theorem tcpFastRecover_same (word : Int → Int) (tcb : CongestCb) (ack : Nat) :
    SameEdge tcb (tcpFastRecover word tcb ack) := by
  unfold tcpFastRecover
  dsimp only
  split
  · exact ⟨rfl, rfl, rfl, rfl, rfl, rfl, rfl⟩
  · split
    · exact ⟨rfl, rfl, rfl, rfl, rfl, rfl, rfl⟩
    · split <;> exact ⟨rfl, rfl, rfl, rfl, rfl, rfl, rfl⟩

theorem congestionControl_sameEdge (word : Int → Int) (tcb : CongestCb) (ack : Nat) :
    SameEdge tcb (congestionControl word tcb ack) := by
  have hgrown : SameEdge tcb (if seqGt ack tcb.sndUna = true then growWindow word tcb else tcb) := by
    split <;> exact ⟨rfl, rfl, rfl, rfl, rfl, rfl, rfl⟩
  unfold congestionControl
  split
  · dsimp only
    split
    · obtain ⟨times, state, -, heq⟩ := tcpFastLossRecover_eq
        (if seqGt ack tcb.sndUna = true then growWindow word tcb else tcb) ack
      rw [heq]
      exact ⟨hgrown.state, hgrown.una, hgrown.nxt, hgrown.wnd, hgrown.wl2, hgrown.mss, hgrown.scale⟩
    · exact hgrown
  · exact tcpFastRecover_same word tcb ack

section
variable (h : EdgeInv tcb u n w) (hua : u ≤ a) (han : a ≤ n)
include h hua han

theorem eq_una_iff : uint32 a = tcb.sndUna ↔ a = u := by
  have hflight := h.flight
  rw [h.una]
  exact uint32_eq_iff (by omega) (by omega)

theorem seqGt_una_iff : seqGt (uint32 a) tcb.sndUna = true ↔ u < a := by
  have hflight := h.flight
  rw [h.una]
  exact seqGt_iff (by omega) (by omega)

/-- A point that is not reached is behind the acknowledgement. -/
theorem point_behind {x : Nat} (hx : x ∈ recoverPoint tcb) (hgeq : ¬seqGeq (uint32 a) x = true) :
    ∃ r, x = uint32 r ∧ a < r ∧ r ≤ n := by
  have hflight := h.flight
  obtain ⟨r, rfl, hur, hrn⟩ := h.point x hx
  rw [seqGeq_iff (by omega) (by omega)] at hgeq
  exact ⟨r, rfl, by omega, hrn⟩

/-- The recovery goes on only if the acknowledgement is before its point. -/
theorem tcpFastRecover_point (word : Int → Int) : PointIn (tcpFastRecover word tcb (uint32 a)) a n := by
  unfold tcpFastRecover
  dsimp only
  by_cases hstate : tcb.congestState = .congestRecover
  swap
  · rw [if_pos hstate]
    rintro x hx
    obtain rfl := Option.some.inj hx
    exact ⟨n, h.nxt, han, Nat.le_refl n⟩
  have hpoint : recoverPoint tcb = some tcb.recover := by
    unfold recoverPoint
    rw [hstate]
  rw [if_neg (not_not_intro hstate)]
  by_cases huna : uint32 a = tcb.sndUna
  · rw [if_pos huna, (eq_una_iff h hua han).mp huna]
    exact h.point
  rw [if_neg huna]
  by_cases hgeq : seqGeq (uint32 a) tcb.recover = true
  · rw [if_pos hgeq]
    rintro x ⟨⟩
  · rw [if_neg hgeq]
    intro x hx
    obtain ⟨r, hr, har, hrn⟩ :=
      point_behind h hua han (show tcb.recover ∈ recoverPoint tcb by rw [hpoint]; rfl) hgeq
    have hkept : recoverPoint tcb = some x := hx
    rw [hpoint] at hkept
    obtain rfl := Option.some.inj hkept
    exact ⟨r, hr, by omega, hrn⟩

theorem tcpFastLossRecover_point (hstate : tcb.congestState = .congestLoss) :
    PointIn (tcpFastLossRecover tcb (uint32 a)) a n := by
  have hpoint : recoverPoint tcb = some tcb.lossRecover := by
    unfold recoverPoint
    rw [hstate]
  unfold tcpFastLossRecover
  by_cases hgt : seqGt (uint32 a) tcb.sndUna = true
  swap
  · have hau : a = u := by
      have := (seqGt_una_iff h hua han).not.mp hgt
      omega
    rw [if_neg hgt, hau]
    exact h.point
  rw [if_pos hgt]
  by_cases hgeq : seqGeq (uint32 a) tcb.lossRecover = true
  · rw [if_pos hgeq]
    rintro x ⟨⟩
  · rw [if_neg hgeq]
    intro x hx
    rw [hpoint] at hx
    obtain rfl := Option.some.inj hx
    obtain ⟨r, hr, har, hrn⟩ :=
      point_behind h hua han (show tcb.lossRecover ∈ recoverPoint tcb by rw [hpoint]; rfl) hgeq
    exact ⟨r, hr, by omega, hrn⟩

theorem congestionControl_point (word : Int → Int) : PointIn (congestionControl word tcb (uint32 a)) a n := by
  have hgrown : SameEdge tcb (if seqGt (uint32 a) tcb.sndUna = true then growWindow word tcb else tcb) := by
    split <;> exact ⟨rfl, rfl, rfl, rfl, rfl, rfl, rfl⟩
  have hpoint : recoverPoint (if seqGt (uint32 a) tcb.sndUna = true then growWindow word tcb else tcb) =
      recoverPoint tcb := by
    split <;> rfl
  have hstate : (if seqGt (uint32 a) tcb.sndUna = true then growWindow word tcb else tcb).congestState =
      tcb.congestState := by
    split <;> rfl
  have hedge := h.of_same hgrown (by unfold PointIn; rw [hpoint]; exact h.point)
  unfold congestionControl
  by_cases hcase : (tcb.congestState = .congestOpen ∧ tcb.dupAck < 3) ∨ tcb.congestState = .congestLoss
  swap
  · rw [if_neg hcase]
    exact tcpFastRecover_point h hua han word
  rw [if_pos hcase]
  dsimp only
  generalize (if seqGt (uint32 a) tcb.sndUna = true then growWindow word tcb else tcb) = grown at *
  by_cases hloss : tcb.congestState = .congestLoss
  · rw [if_pos hloss]
    exact tcpFastLossRecover_point hedge hua han (hstate.trans hloss)
  · have hopen : tcb.congestState = .congestOpen := (hcase.resolve_right hloss).1
    rw [if_neg hloss]
    intro x hx
    rw [hpoint] at hx
    unfold recoverPoint at hx
    rw [hopen] at hx
    cases hx

theorem advanceUna_edge (hpoint : PointIn tcb a n) : EdgeInv (advanceUna tcb (uint32 a)) a n w := by
  have hbehind := h.behind
  unfold advanceUna
  by_cases hgt : seqGt (uint32 a) tcb.sndUna = true
  · rw [if_pos hgt]
    exact ⟨rfl, h.nxt, h.wl2, han, h.upper, by omega, h.wnd, h.scale, h.mss, hpoint⟩
  · have hau : a = u := by
      have := (seqGt_una_iff h hua han).not.mp hgt
      omega
    rw [if_neg hgt, hau]
    exact h

end

/-- `SndNxt` and the point of the recovery are brought back to the edge of the window. -/
theorem shrinkWindow_edge (h : EdgeInv tcb u n w) {right : Nat} (hlower : u ≤ right) (hupper : right ≤ u + 2 ^ 30) :
    (shrinkWindow tcb (uint32 right)).sndUna = uint32 u ∧
      (shrinkWindow tcb (uint32 right)).sndNxt = uint32 (min n right) ∧
      PointIn (shrinkWindow tcb (uint32 right)) u (min n right) := by
  have hflight := h.flight
  have hun := h.lower
  have hedge := h.upper
  have hbehind := h.behind
  have hwnd := h.wnd
  have hpoint := h.point
  unfold PointIn recoverPoint at hpoint ⊢
  unfold shrinkWindow
  rw [h.edge]
  by_cases hlt : right < w + tcb.sndWnd
  swap
  · rw [if_neg (by rw [seqLt_iff (by omega) (by omega)]; exact hlt), Nat.min_eq_left (by omega)]
    exact ⟨h.una, h.nxt, hpoint⟩
  rw [if_pos ((seqLt_iff (by omega) (by omega)).mpr hlt)]
  -- the lesser of a number and the edge, as the source compares them
  have hmin : ∀ r, u ≤ r → r ≤ n →
      (if seqLt (uint32 right) (uint32 r) = true then uint32 right else uint32 r) = uint32 (min r right) := by
    intro r hur hrn
    by_cases hr : right < r
    · rw [if_pos ((seqLt_iff (by omega) (by omega)).mpr hr), Nat.min_eq_right (by omega)]
    · rw [if_neg (by rw [seqLt_iff (by omega) (by omega)]; exact hr), Nat.min_eq_left (by omega)]
  refine ⟨h.una, by rw [h.nxt]; exact hmin n hun (Nat.le_refl n), ?_⟩
  cases hstate : tcb.congestState with
  | congestOpen =>
    rintro x ⟨⟩
  | congestRecover =>
    rw [hstate] at hpoint
    obtain ⟨r, hr, hur, hrn⟩ := hpoint _ rfl
    intro x hx
    obtain rfl := Option.some.inj hx
    exact ⟨min r right, by rw [hr, ← hmin r hur hrn]; simp, by omega, by omega⟩
  | congestLoss =>
    rw [hstate] at hpoint
    obtain ⟨r, hr, hur, hrn⟩ := hpoint _ rfl
    intro x hx
    obtain rfl := Option.some.inj hx
    exact ⟨min r right, by rw [hr, ← hmin r hur hrn]; simp, by omega, by omega⟩

/-- `SndNxt` is not past the new edge, and `SndUna` only reaches it if the window is closed. -/
theorem updateWindow_edge (h : EdgeInv tcb u n w) (hack : seg.ack = uint32 u) (hwnd : seg.wnd < 2 ^ 30) :
    ∃ n' w', EdgeInv (updateWindow tcb seg) u n' w' ∧ (u < n → closesWindow tcb seg = false → u < n') := by
  have hright : uint32 (seg.ack + seg.wnd) = uint32 (u + seg.wnd) := by rw [hack, uint32_add]
  have hflight := h.flight
  have hun := h.lower
  have hedge := h.upper
  have hbehind := h.behind
  have hwnd' := h.wnd
  unfold updateWindow closesWindow
  simp only [hright, h.edge]
  by_cases hnew : seqLt tcb.sndWl1 seg.seq = true ∨ tcb.sndWl1 = seg.seq ∧ seqLeq tcb.sndWl2 seg.ack = true
  swap
  · rw [if_neg hnew]
    exact ⟨n, w, h, fun hlt _ => hlt⟩
  rw [if_pos hnew]
  split
  · exact ⟨n, w, h, fun hlt _ => hlt⟩
  rename_i hold
  obtain ⟨hsame, hnxt, hpoint⟩ := shrinkWindow_edge h (show u ≤ u + seg.wnd by omega) (by omega)
  obtain ⟨hmss, hscale, -⟩ := shrinkWindow_same tcb (uint32 (u + seg.wnd))
  refine ⟨min n (u + seg.wnd), u, ⟨hsame, hnxt, hack, by omega, ?_, by omega, hwnd, ?_, ?_, hpoint⟩, fun hlt hopen => ?_⟩
  · exact Nat.min_le_right _ _
  · show (shrinkWindow tcb (uint32 (u + seg.wnd))).sndWndScale ≤ 14
    rw [hscale]
    exact h.scale
  · show 0 < (shrinkWindow tcb (uint32 (u + seg.wnd))).sndMss
    rw [hmss]
    exact h.mss
  · by_contra hclosed
    have hzero : seg.wnd = 0 := by omega
    have hshrinks : seqLt (uint32 u) (uint32 (w + tcb.sndWnd)) = true := (seqLt_iff (by omega) (by omega)).mpr (by omega)
    have hbefore : seqLt (uint32 u) tcb.sndNxt = true := by
      rw [h.nxt]
      exact (seqLt_iff (by omega) (by omega)).mpr hlt
    rw [hzero, Nat.add_zero] at hold hopen
    simp only [hshrinks, hbefore, h.una, true_and, Bool.and_true, beq_self_eq_true, Bool.and_eq_false_iff,
      Bool.not_eq_false', Bool.and_eq_true, beq_iff_eq, Bool.or_eq_false_iff] at hold hopen
    rcases hopen with ⟨hseq, hleq⟩ | ⟨⟨hseq, hwl2⟩, hlen⟩
    · rcases hnew with hnew | ⟨heq, hnew⟩
      · rw [hseq] at hnew
        cases hnew
      · rcases hleq with hne | hne
        · simp [heq] at hne
        · rw [hne] at hnew
          cases hnew
    · exact hold ⟨hseq, hwl2, hlen⟩

end Udk.Tcp4
