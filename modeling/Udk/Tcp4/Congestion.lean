import Mathlib.Algebra.Order.Ring.Int
import Udk.Run
import Udk.Tcp4.Segment

/-! # The congestion window -/

namespace Udk.Tcp4

open NetBuffer

inductive CongestState where
  | congestOpen
  | congestRecover
  | congestLoss
  deriving DecidableEq

/-- As far as the routines below tell the states of a connection apart. -/
inductive ConnState where
  | unsynchronized
  | synRcvd
  | connected
  deriving DecidableEq

/-- What the congestion control reads and writes of a `TCP_CB`. -/
structure CongestCb where
  state : ConnState
  iss : Nat
  sndUna : Nat
  sndNxt : Nat
  sndWnd : Nat
  sndWl1 : Nat
  sndWl2 : Nat
  sndMss : Nat
  sndWndScale : Nat
  cWnd : Int
  ssthresh : Int
  recover : Nat
  lossRecover : Nat
  dupAck : Nat
  lossTimes : Nat
  maxRexmit : Nat
  congestState : CongestState
  deriving DecidableEq

/-- The fields that are read of a segment with ACK, and the length that it takes. -/
structure AckSeg where
  seq : Nat
  ack : Nat
  wnd : Nat
  len : Nat

/-- The fields and the options of a segment with SYN. -/
structure SynSeg where
  seq : Nat
  ack : Option Nat
  wnd : Nat
  mss : Option Nat
  wndScale : Option Nat
  timestamp : Bool
  -- `TcpParseOption` takes a larger scale as 14
  scale_le : ∀ k ∈ wndScale, k ≤ 14

/-- A number of type `UINT32`. -/
@[irreducible] def word32 (n : Int) : Int := n % 2 ^ 32

@[irreducible] def flightSize (tcb : CongestCb) : Int := subSeq tcb.sndNxt tcb.sndUna

/-- What a partial acknowledgement deflates the window by. -/
def netAcked (tcb : CongestCb) (ack : Nat) : Int :=
  let acked : Int := subSeq ack tcb.sndUna
  if (tcb.sndMss : Int) ≤ acked then acked - tcb.sndMss else acked

/-! ## The routines

The arithmetic on the window is that of `word`: `word32` in the code, the identity where nothing wraps.
-/

section
variable (word : Int → Int)

def tcpFastRecover (tcb : CongestCb) (ack : Nat) : CongestCb :=
  let mss : Int := tcb.sndMss
  if tcb.congestState ≠ .congestRecover then
    let ssthresh := max (flightSize tcb / 2) (2 * mss)
    { tcb with
      ssthresh := ssthresh, recover := tcb.sndNxt, congestState := .congestRecover, cWnd := word (ssthresh + 3 * mss) }
  else if ack = tcb.sndUna then { tcb with cWnd := word (tcb.cWnd + mss) }
  else if seqGeq ack tcb.recover then
    { tcb with cWnd := min tcb.ssthresh (word (flightSize tcb + mss)), congestState := .congestOpen }
  else { tcb with cWnd := word (tcb.cWnd - netAcked tcb ack) }

def tcpFastLossRecover (tcb : CongestCb) (ack : Nat) : CongestCb :=
  if seqGt ack tcb.sndUna then
    if seqGeq ack tcb.lossRecover then { tcb with lossTimes := 0, congestState := .congestOpen } else tcb
  else tcb

/-- Slow start or congestion avoidance. -/
def growWindow (tcb : CongestCb) : CongestCb :=
  let mss : Int := tcb.sndMss
  let cWnd := if tcb.cWnd < tcb.ssthresh then word (tcb.cWnd + mss)
    else word (tcb.cWnd + max (word (mss * mss) / tcb.cWnd) 1)
  { tcb with cWnd := min cWnd (word (65535 * 2 ^ tcb.sndWndScale)) }

/-- Congestion avoidance, fast recovery and fast retransmission. -/
def congestionControl (tcb : CongestCb) (ack : Nat) : CongestCb :=
  if (tcb.congestState = .congestOpen ∧ tcb.dupAck < 3) ∨ tcb.congestState = .congestLoss then
    let grown := if seqGt ack tcb.sndUna then growWindow word tcb else tcb
    if tcb.congestState = .congestLoss then tcpFastLossRecover grown ack else grown
  else tcpFastRecover word tcb ack

def countDupAck (tcb : CongestCb) (seg : AckSeg) : CongestCb :=
  if seg.ack = tcb.sndUna ∧ tcb.sndUna ≠ tcb.sndNxt ∧ seg.wnd = tcb.sndWnd ∧ seg.len = 0 then
    { tcb with dupAck := (tcb.dupAck + 1) % 2 ^ 16 }
  else { tcb with dupAck := 0 }

def advanceUna (tcb : CongestCb) (ack : Nat) : CongestCb :=
  if seqGt ack tcb.sndUna then { tcb with sndUna := ack } else tcb

/-- The peer shrinks the window. -/
def shrinkWindow (tcb : CongestCb) (right : Nat) : CongestCb :=
  if seqLt right (uint32 (tcb.sndWl2 + tcb.sndWnd)) then
    { tcb with
      recover := if tcb.congestState = .congestRecover ∧ seqLt right tcb.recover then right else tcb.recover
      lossRecover :=
        if tcb.congestState = .congestLoss ∧ seqLt right tcb.lossRecover then right else tcb.lossRecover
      sndNxt := if seqLt right tcb.sndNxt then right else tcb.sndNxt }
  else tcb

/-- Update window info. -/
def updateWindow (tcb : CongestCb) (seg : AckSeg) : CongestCb :=
  let right := uint32 (seg.ack + seg.wnd)
  if seqLt tcb.sndWl1 seg.seq ∨ (tcb.sndWl1 = seg.seq ∧ seqLeq tcb.sndWl2 seg.ack) then
    if seqLt right (uint32 (tcb.sndWl2 + tcb.sndWnd)) ∧ tcb.sndWl1 = seg.seq ∧ tcb.sndWl2 = seg.ack ∧ seg.len = 0 then tcb
    else { shrinkWindow tcb right with sndWnd := seg.wnd, sndWl1 := seg.seq, sndWl2 := seg.ack }
  else tcb

/-- The acknowledgement of a `SYN` that was received. -/
def establish (tcb : CongestCb) (seg : AckSeg) : CongestCb :=
  if tcb.state = .synRcvd then
    { tcb with sndWnd := seg.wnd, sndWl1 := seg.seq, sndWl2 := seg.ack, state := .connected }
  else tcb

/-- The connection is established, or will be by the acknowledgement. -/
def opens (tcb : CongestCb) (ack : Nat) : Bool :=
  match tcb.state with
  | .unsynchronized => false
  | .synRcvd => seqLt tcb.sndUna ack && seqLeq ack tcb.sndNxt
  | .connected => true

/-- The acknowledgement is not before `SndUna` or after `SndNxt`. -/
def accepts (tcb : CongestCb) (ack : Nat) : Bool :=
  opens tcb ack && !seqLt ack tcb.sndUna && !seqGt ack tcb.sndNxt

/-- `TcpInput` from the check of the ACK to the update of the window. -/
def tcpInputAck (tcb : CongestCb) (seg : AckSeg) : CongestCb :=
  if accepts tcb seg.ack then
    updateWindow (advanceUna (congestionControl word (countDupAck (establish tcb seg) seg) seg.ack) seg.ack) seg
  -- of half of the space, which is both after and before
  else if opens tcb seg.ack then establish tcb seg
  else tcb

/-- The connection is closed after too many timeouts. -/
def tcpRexmitTimeout (connectTimer : Bool) (tcb : CongestCb) : Option CongestCb :=
  let mss : Int := tcb.sndMss
  let lossTimes := (tcb.lossTimes + 1) % 2 ^ 8
  if tcb.maxRexmit < lossTimes ∧ !connectTimer then none
  else
    some { tcb with
      ssthresh := max (2 * mss) (flightSize tcb / 2), cWnd := mss, lossRecover := tcb.sndNxt, lossTimes := lossTimes,
      congestState := .congestLoss }

/-- `rcvMss` is that of `TcpGetRcvMss`. -/
def tcpInitTcbPeer (rcvMss : Nat) (tcb : CongestCb) (seg : SynSeg) : CongestCb :=
  let sndMss := match seg.mss with
    | some mss => min (max 64 mss) rcvMss
    | none => tcb.sndMss
  { tcb with
    sndWnd := seg.wnd, sndWl1 := seg.seq, sndWl2 := seg.ack.getD (uint32 (tcb.iss + 1)), cWnd := sndMss
    sndWndScale := seg.wndScale.getD tcb.sndWndScale
    sndMss := if seg.timestamp then (sndMss + 2 ^ 16 - 12) % 2 ^ 16 else sndMss }

/-- The segment that synchronizes the connection. -/
def synInput (rcvMss : Nat) (tcb : CongestCb) (seg : SynSeg) : CongestCb :=
  let tcb := tcpInitTcbPeer rcvMss tcb seg
  match seg.ack with
  | some ack => { tcb with sndUna := ack, state := if seqGt ack tcb.iss then .connected else .synRcvd }
  | none => { tcb with state := .synRcvd }

inductive Event where
  | syn (seg : SynSeg)
  | ack (seg : AckSeg)
  | timeout (connectTimer : Bool)
  | transmit (endSeq : Nat)

/-- No step from a connection that is closed, and one `SYN`. -/
def congestStep (rcvMss : Nat) (tcb : CongestCb) : Event → Option CongestCb
  | .syn seg => if tcb.state = .unsynchronized then some (synInput rcvMss tcb seg) else none
  | .ack seg => some (tcpInputAck word tcb seg)
  | .timeout connectTimer => tcpRexmitTimeout connectTimer tcb
  | .transmit endSeq => some (if seqGt endSeq tcb.sndNxt then { tcb with sndNxt := endSeq } else tcb)

end

/-- A `TCP_CB` as it is created. -/
def createdCb (iss maxRexmit : Nat) : CongestCb where
  state := .unsynchronized
  iss := iss
  sndUna := iss
  sndNxt := iss
  sndWnd := 536
  sndWl1 := 0
  sndWl2 := iss
  sndMss := 536
  sndWndScale := 0
  cWnd := 536
  ssthresh := 0xffffffff
  recover := 0
  lossRecover := 0
  dupAck := 0
  lossTimes := 0
  maxRexmit := maxRexmit
  congestState := .congestOpen

/-- The right edge of the congestion window in `TcpDataToSend`. -/
def congestionEdge (tcb : CongestCb) : Nat := uint32 (tcb.sndUna + tcb.cWnd.toNat)

/-- The window that `TcpDataToSend` computes. -/
def sendWindow (tcb : CongestCb) : Nat :=
  let limit := uint32 (tcb.sndWl2 + tcb.sndWnd)
  let limit := if seqGt limit (congestionEdge tcb) then congestionEdge tcb else limit
  if seqGt limit tcb.sndNxt then subSeq limit tcb.sndNxt else 0

end Udk.Tcp4
