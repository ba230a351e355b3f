import Udk.Tcp4.SendEdge

/-! # Retransmission over a connection

Every step keeps `SndNxt` within the window, so every call of `TcpRetransmit` is for what is in flight. What breaks the
window is at the end.
-/

namespace Udk.Tcp4

open NetBuffer

/-! ## Every step -/

/-- Before the connection is established only `SYN` may be in flight. -/
structure SendInv (s : SendCb) (u n w : Nat) : Prop where
  edge : EdgeInv s.tcb u n w
  flight : s.rexmit = true → u < n
  first : s.tcb.state = .unsynchronized → 12 < s.tcb.sndMss ∧ s.tcb.sndMss < 2 ^ 16
  opening : s.tcb.state ≠ .connected → s.tcb.iss = uint32 u ∧ n ≤ u + 1 ∧ u + 1 ≤ w + s.tcb.sndWnd ∧
    ∀ x ∈ recoverPoint s.tcb, x = uint32 (u + 1)

variable {tcb : CongestCb} {seg : AckSeg} {u n w a ack : Nat} {s s' : SendCb}

/-- The acknowledgement that establishes a connection is that of `SYN`. -/
theorem opens_position (h : SendInv s u n w) (hua : u ≤ a) (han : a ≤ n) (hstate : s.tcb.state = .synRcvd)
    (hopens : opens s.tcb (uint32 a) = true) : a = u + 1 ∧ n = u + 1 := by
  have hflight := h.edge.flight
  obtain ⟨-, hn, -⟩ := h.opening (by rw [hstate]; exact nofun)
  unfold opens at hopens
  rw [hstate] at hopens
  dsimp only at hopens
  rw [Bool.and_eq_true, h.edge.una, seqLt_iff (by omega) (by omega)] at hopens
  omega

/-- The connection is established by what is accepted. -/
theorem establish_edge (h : SendInv s u n w) (hua : u ≤ a) (han : a ≤ n) (hack : seg.ack = uint32 a)
    (hwnd : seg.wnd < 2 ^ 30) (hopens : opens s.tcb seg.ack = true) :
    ∃ w', EdgeInv (establish s.tcb seg) u n w' ∧ (establish s.tcb seg).state = .connected := by
  unfold establish
  cases hstate : s.tcb.state with
  | unsynchronized =>
    unfold opens at hopens
    rw [hstate] at hopens
    cases hopens
  | connected =>
    rw [if_neg nofun]
    exact ⟨w, h.edge, hstate⟩
  | synRcvd =>
    rw [hack] at hopens
    obtain ⟨rfl, rfl⟩ := opens_position h hua han hstate hopens
    rw [if_pos rfl]
    exact ⟨u + 1, ⟨h.edge.una, h.edge.nxt, hack, h.edge.lower, Nat.le_add_right _ _, Nat.le_refl _, hwnd, h.edge.scale,
      h.edge.mss, h.edge.point⟩, rfl⟩

theorem advanceUna_state (tcb : CongestCb) (ack : Nat) : (advanceUna tcb ack).state = tcb.state := by
  unfold advanceUna
  split <;> rfl

theorem updateWindow_state (tcb : CongestCb) (seg : AckSeg) : (updateWindow tcb seg).state = tcb.state := by
  unfold updateWindow shrinkWindow
  split
  · dsimp only
    split
    · rfl
    · show CongestCb.state (if _ then _ else _) = _
      split <;> rfl
  · rfl

/-- The acknowledgement of a `SYN` that has been sent is accepted. -/
theorem accepts_of_opens (h : SendInv s u n w) (hack : ack < 2 ^ 32) (hstate : s.tcb.state = .synRcvd)
    (hsent : s.tcb.sndNxt = uint32 (s.tcb.iss + 1)) (hopens : opens s.tcb ack = true) : accepts s.tcb ack = true := by
  have hflight := h.edge.flight
  have hun := h.edge.lower
  obtain ⟨hiss, hn, -⟩ := h.opening (by rw [hstate]; exact nofun)
  rw [h.edge.nxt, hiss, uint32_add, uint32_eq_iff (by omega) (by omega)] at hsent
  have hopens' := hopens
  unfold opens at hopens'
  rw [hstate] at hopens'
  dsimp only at hopens'
  rw [Bool.and_eq_true, h.edge.una, h.edge.nxt, hsent] at hopens'
  have ha : ack = uint32 (u + 1) := by
    obtain ⟨hlt, hle⟩ := hopens'
    unfold seqLt at hlt
    unfold seqLeq at hle
    unfold seqDiff uint32 at hlt hle
    rw [decide_eq_true_eq, Int.bmod_def] at hlt hle
    unfold uint32
    omega
  have hlt : seqLt (uint32 (u + 1)) (uint32 u) = false := by
    rw [Bool.eq_false_iff, ne_eq, seqLt_iff (by omega) (by omega)]
    omega
  have hgt : seqGt (uint32 (u + 1)) (uint32 (u + 1)) = false := by
    rw [Bool.eq_false_iff, ne_eq, seqGt_iff (by omega) (by omega)]
    omega
  unfold accepts
  rw [hopens, h.edge.una, h.edge.nxt, hsent, ha, hlt, hgt]
  rfl

theorem AckHead.format_bounds (head : AckHead) {scale : Nat} (hscale : scale ≤ 14) :
    (head.format scale).ack < 2 ^ 32 ∧ (head.format scale).wnd < 2 ^ 30 := by
  have hpow : 2 ^ scale ≤ 2 ^ 14 := Nat.pow_le_pow_right (by decide) hscale
  have hwnd : head.wnd.toNat * 2 ^ scale ≤ 65535 * 2 ^ 14 := Nat.mul_le_mul (Nat.le_of_lt_succ head.wnd.toNat_lt) hpow
  exact ⟨head.ack.toNat_lt, Nat.lt_of_le_of_lt hwnd (by decide)⟩

/-- In a connection that is established there is nothing but the positions. -/
theorem EdgeInv.send (h : EdgeInv s.tcb u n w) (hflight : s.rexmit = true → u < n) (hstate : s.tcb.state = .connected) :
    SendInv s u n w := by
  refine ⟨h, hflight, fun hfirst => ?_, fun hne => absurd hstate hne⟩
  rw [hstate] at hfirst
  cases hfirst

theorem sendAck_inv (h : SendInv s u n w) (hack : seg.ack < 2 ^ 32) (hwnd : seg.wnd < 2 ^ 30)
    (hsyn : s.tcb.state = .synRcvd → opens s.tcb seg.ack = true → s.tcb.sndNxt = uint32 (s.tcb.iss + 1)) :
    ∃ u' n' w', SendInv (sendAck s seg) u' n' w' := by
  unfold sendAck
  by_cases haccepts : accepts s.tcb seg.ack = true
  swap
  · rw [if_neg haccepts]
    refine ⟨u, n, w, ?_⟩
    unfold tcpInputAck
    rw [if_neg haccepts]
    split
    · rename_i hopens
      have hne : s.tcb.state ≠ .synRcvd := fun hstate =>
        haccepts (accepts_of_opens h hack hstate (hsyn hstate hopens) hopens)
      unfold establish
      rw [if_neg hne]
      exact h
    · exact h
  rw [if_pos haccepts]
  dsimp only
  obtain ⟨a, ha, hua, han⟩ := accepts_position h.edge hack haccepts
  have hopens : opens s.tcb seg.ack = true := by
    unfold accepts at haccepts
    rw [Bool.and_eq_true, Bool.and_eq_true] at haccepts
    exact haccepts.1.1
  obtain ⟨w1, hestablish, hstate⟩ := establish_edge h hua han ha hwnd hopens
  have hcounted := countDupAck_edge hestablish seg
  have hsame := congestionControl_sameEdge word32 (countDupAck (establish s.tcb seg) seg) (uint32 a)
  have hpoint := congestionControl_point hcounted hua han word32
  have hcontrol := hcounted.of_same hsame fun x hx => by
    obtain ⟨r, hr, har, hrn⟩ := hpoint x hx
    exact ⟨r, hr, Nat.le_trans hua har, hrn⟩
  have hacked := advanceUna_edge hcontrol hua han hpoint
  rw [← ha] at hacked hsame
  obtain ⟨n', w', hedge, hflight⟩ := updateWindow_edge hacked ha hwnd
  refine ⟨a, n', w', hedge.send (fun hrexmit => ?_) ?_⟩
  · simp only [Bool.and_eq_true, bne_iff_ne, ne_eq, Bool.not_eq_true'] at hrexmit
    obtain ⟨hne, hopen⟩ := hrexmit
    rw [ha, h.edge.nxt] at hne
    exact hflight (Nat.lt_of_le_of_ne han fun heq => hne (congrArg uint32 heq)) hopen
  · show (updateWindow _ _).state = _
    rw [updateWindow_state, advanceUna_state, hsame.state, (countDupAck_sameEdge _ _).state, hstate]

section
variable {rcvMss : Nat} (hrcv : 12 < rcvMss) (hrcv' : rcvMss < 2 ^ 16)
include hrcv hrcv'

theorem synInput_edge (h : SendInv s u n w) (hstate : s.tcb.state = .unsynchronized) (head : SynHead)
    (hack : ∀ ack ∈ head.ack, ack.toNat = uint32 (s.tcb.iss + 1))
    (hsent : head.ack.map UInt32.toNat = some (uint32 (s.tcb.iss + 1)) → s.tcb.sndNxt = uint32 (s.tcb.iss + 1)) :
    ∃ u' n' w', SendInv ⟨synInput rcvMss s.tcb head.format, false⟩ u' n' w' := by
  have hflight := h.edge.flight
  have hun := h.edge.lower
  obtain ⟨hiss, hn, -, hpoint⟩ := h.opening (by rw [hstate]; exact nofun)
  obtain ⟨hmin, hmax⟩ := h.first hstate
  obtain ⟨mss, hlow, hhigh, -, hsnd⟩ := tcpInitTcbPeer_mss hrcv hrcv' head.format hmin hmax
  have hmss : 0 < (tcpInitTcbPeer rcvMss s.tcb head.format).sndMss := by
    rw [hsnd]
    split <;> omega
  have hwnd : head.wnd.toNat < 2 ^ 30 := by
    have := head.wnd.toNat_lt
    omega
  have hscale : (tcpInitTcbPeer rcvMss s.tcb head.format).sndWndScale ≤ 14 := by
    show head.wndScale.getD s.tcb.sndWndScale ≤ 14
    cases hs : head.wndScale with
    | none => exact h.edge.scale
    | some k => exact head.scale_le k hs
  rw [hiss, uint32_add] at hack hsent
  unfold synInput
  cases hhead : head.ack with
  | none =>
    have hack' : head.format.ack = none := congrArg (Option.map UInt32.toNat) hhead
    have hwl2 : (tcpInitTcbPeer rcvMss s.tcb head.format).sndWl2 = uint32 (u + 1) := by
      unfold tcpInitTcbPeer
      rw [hack', hiss, uint32_add]
      rfl
    rw [hack']
    refine ⟨u, n, u + 1, ⟨⟨h.edge.una, h.edge.nxt, hwl2, hun, ?_, Nat.le_refl _, hwnd, hscale, hmss, h.edge.point⟩,
      nofun, nofun, fun _ => ⟨hiss, hn, Nat.le_add_right _ _, hpoint⟩⟩⟩
    exact Nat.le_trans hn (Nat.le_add_right _ _)
  | some ack =>
    have hack' : head.format.ack = some (uint32 (u + 1)) := by
      rw [← hack ack hhead]
      exact congrArg (Option.map UInt32.toNat) hhead
    have hnxt := hsent hack'
    rw [h.edge.nxt, uint32_eq_iff (by omega) (by omega)] at hnxt
    have hwl2 : (tcpInitTcbPeer rcvMss s.tcb head.format).sndWl2 = uint32 (u + 1) := by
      unfold tcpInitTcbPeer
      rw [hack']
      rfl
    have hgt : seqGt (uint32 (u + 1)) (tcpInitTcbPeer rcvMss s.tcb head.format).iss = true := by
      show seqGt (uint32 (u + 1)) s.tcb.iss = true
      rw [hiss]
      exact (seqGt_iff (by omega) (by omega)).mpr (Nat.lt_succ_self u)
    rw [hack']
    dsimp only
    rw [if_pos hgt]
    refine ⟨u + 1, n, u + 1, EdgeInv.send ⟨rfl, h.edge.nxt, hwl2, Nat.le_of_eq hnxt.symm, ?_, Nat.le_succ _, hwnd, hscale,
      hmss, fun x hx => ⟨u + 1, hpoint x hx, Nat.le_refl _, Nat.le_of_eq hnxt.symm⟩⟩ nofun rfl⟩
    exact hnxt ▸ Nat.le_add_right _ _

end

theorem sent_edge (h : EdgeInv s.tcb u n w) {stop : Nat} (hlow : n ≤ stop) (hedge : stop ≤ w + s.tcb.sndWnd) :
    EdgeInv (sent s (uint32 stop)).tcb u stop w := by
  have hflight := h.flight
  have hbehind := h.behind
  have hwnd := h.wnd
  have hun := h.lower
  have hpoint : PointIn s.tcb u stop := fun x hx => by
    obtain ⟨r, hr, hur, hrn⟩ := h.point x hx
    exact ⟨r, hr, hur, Nat.le_trans hrn hlow⟩
  unfold sent
  by_cases hgt : n < stop
  · rw [if_pos (by rw [h.nxt]; exact (seqGt_iff (by omega) (by omega)).mpr hgt)]
    exact ⟨h.una, rfl, h.wl2, Nat.le_trans hun hlow, hedge, hbehind, hwnd, h.scale, h.mss, hpoint⟩
  · obtain rfl : stop = n := by omega
    rw [if_neg (by rw [h.nxt, seqGt_iff (by omega) (by omega)]; exact hgt)]
    exact h

theorem sent_state (s : SendCb) (stop : Nat) : (sent s stop).tcb.state = s.tcb.state := by
  unfold sent
  dsimp only
  split <;> rfl

theorem sendData_edge (h : EdgeInv s.tcb u n w) (hstate : s.tcb.state = .connected) (hrexmit : s.rexmit = true → u < n)
    {len : Nat} (fin : Bool) (hlen : n + len ≤ w + s.tcb.sndWnd) :
    ∃ n', SendInv (sendData s len fin) u n' w := by
  have hbehind := h.behind
  have hwnd := h.wnd
  have hun := h.lower
  have hsent : ∀ {stop : Nat}, n < stop → stop ≤ w + s.tcb.sndWnd → SendInv (sent s (uint32 stop)) u stop w :=
    fun hlow hedge => (sent_edge h (Nat.le_of_lt hlow) hedge).send (fun _ => Nat.lt_of_le_of_lt hun hlow)
      ((sent_state s _).trans hstate)
  have hfin : uint32 (s.tcb.sndWnd + s.tcb.sndWl2) = uint32 (w + s.tcb.sndWnd) := by rw [Nat.add_comm, h.edge]
  unfold sendData
  dsimp only
  rw [h.nxt, uint32_add n len, uint32_add (n + len) 1, hfin]
  split
  · rename_i hlast
    rw [Bool.and_eq_true, seqLt_iff (by omega) (by omega)] at hlast
    exact ⟨_, hsent (by omega) (Nat.le_of_lt hlast.2)⟩
  · split
    · exact ⟨n, h.send hrexmit hstate⟩
    · exact ⟨_, hsent (by omega) hlen⟩

theorem tcpRexmitTimeout_send {tcb' : CongestCb} {connectTimer : Bool} (h : SendInv s u n w) (hrexmit : s.rexmit = true)
    (hstep : tcpRexmitTimeout connectTimer s.tcb = some tcb') : SendInv ⟨tcb', true⟩ u n w := by
  have hflight := h.flight hrexmit
  unfold tcpRexmitTimeout at hstep
  dsimp only at hstep
  split at hstep
  · cases hstep
  obtain rfl := Option.some.inj hstep
  refine ⟨h.edge.of_same ⟨rfl, rfl, rfl, rfl, rfl, rfl, rfl⟩ fun x hx => ?_, fun _ => hflight, h.first, fun hne => ?_⟩
  · obtain rfl := Option.some.inj hx
    exact ⟨n, h.edge.nxt, Nat.le_of_lt hflight, Nat.le_refl n⟩
  · obtain ⟨hiss, hn, hroom, -⟩ := h.opening hne
    refine ⟨hiss, hn, hroom, fun x hx => ?_⟩
    obtain rfl := Option.some.inj hx
    rw [show u + 1 = n by omega]
    exact h.edge.nxt

/-- `SYN` is transmitted, or transmitted again. -/
theorem sendSyn_inv (h : SendInv s u n w) (hne : s.tcb.state ≠ .connected) :
    SendInv (sent s (uint32 (s.tcb.iss + 1))) u (u + 1) w := by
  obtain ⟨hiss, hn, hroom, hpoint⟩ := h.opening hne
  rw [hiss, uint32_add]
  have hsame : (sent s (uint32 (u + 1))).tcb = { s.tcb with sndNxt := (sent s (uint32 (u + 1))).tcb.sndNxt } := by
    unfold sent
    dsimp only
    split <;> rfl
  have hedge := sent_edge h.edge hn hroom
  rw [hsame] at hedge
  refine ⟨?_, fun _ => Nat.lt_succ_self u, ?_, fun _ => ?_⟩
  · rw [hsame]
    exact hedge
  · rw [hsame]
    exact h.first
  · rw [hsame]
    exact ⟨hiss, Nat.le_refl _, hroom, hpoint⟩

/-- Data that is no more than the window is transmitted. -/
theorem sendData_inv (h : SendInv s u n w) (hstate : s.tcb.state = .connected) {len : Nat} (fin : Bool)
    (hlen : len ≤ min (sendWindow s.tcb) s.tcb.sndMss) (htied : len ≠ 0 → ¬Tied s.tcb) :
    ∃ n', SendInv (sendData s len fin) u n' w := by
  refine sendData_edge h.edge hstate h.flight fin ?_
  by_cases hzero : len = 0
  · rw [hzero]
    exact h.edge.upper
  · have hwindow := sendWindow_le h.edge (htied hzero)
    omega

/-- A step that meets the condition keeps the invariant. -/
theorem sendStep_inv {rcvMss : Nat} (hrcv : 12 < rcvMss) (hrcv' : rcvMss < 2 ^ 16) {e : SendEvent} (h : SendInv s u n w)
    (hkeeps : KeepsInWindow s e) (hstep : sendStep rcvMss s e = some s') : ∃ u' n' w', SendInv s' u' n' w' := by
  cases e with
  | syn head =>
    unfold sendStep at hstep
    dsimp only at hstep
    split at hstep
    · cases hstep
    rename_i hstate
    split at hstep
    · obtain rfl := Option.some.inj hstep
      exact ⟨u, n, w, h⟩
    rename_i hack
    obtain rfl := Option.some.inj hstep
    refine synInput_edge hrcv hrcv' h (not_not.mp hstate) head (fun ack hmem => ?_) hkeeps
    by_contra hne
    exact hack ⟨ack, hmem, hne⟩
  | ack head =>
    obtain rfl := Option.some.inj hstep
    obtain ⟨hack, hwnd⟩ := head.format_bounds h.edge.scale
    exact sendAck_inv h hack hwnd hkeeps
  | timeout connectTimer =>
    unfold sendStep at hstep
    dsimp only at hstep
    split at hstep
    · rename_i hrexmit
      obtain ⟨tcb', htcb, rfl⟩ := Option.map_eq_some_iff.mp hstep
      exact ⟨u, n, w, tcpRexmitTimeout_send h hrexmit htcb⟩
    · cases hstep
  | sendSyn =>
    unfold sendStep at hstep
    dsimp only at hstep
    split at hstep
    · cases hstep
    rename_i hne
    obtain rfl := Option.some.inj hstep
    exact ⟨u, u + 1, w, sendSyn_inv h hne⟩
  | sendData len fin =>
    unfold sendStep at hstep
    dsimp only at hstep
    split at hstep
    · rename_i hcan
      obtain rfl := Option.some.inj hstep
      obtain ⟨n', hsend⟩ := sendData_inv h hcan.1 fin hcan.2 hkeeps
      exact ⟨u, n', w, hsend⟩
    · cases hstep
  | close =>
    unfold sendStep at hstep
    dsimp only at hstep
    split at hstep
    · obtain rfl := Option.some.inj hstep
      have hedge := h.edge
      exact ⟨u, n, w, EdgeInv.send ⟨hedge.una, hedge.nxt, hedge.wl2, hedge.lower, hedge.upper, hedge.behind, hedge.wnd,
        hedge.scale, hedge.mss, hedge.point⟩ h.flight rfl⟩
    · cases hstep
  | clearAllTimer =>
    obtain rfl := Option.some.inj hstep
    exact ⟨u, n, w, h.edge, nofun, h.first, h.opening⟩

/-! ## Every call -/

/-- What is retransmitted is in flight, and the window is not at its edge. -/
structure CallInv (now : CongestCb) (seq : Nat) : Prop where
  lower : seqLeq now.sndUna seq = true
  upper : seqLt seq now.sndNxt = true
  asksWell : ∀ sndQue, AsksWell (now.sending sndQue) seq

theorem EdgeInv.call (h : EdgeInv tcb u n w) {q : Nat} (huq : u ≤ q) (hqn : q < n) : CallInv tcb (uint32 q) := by
  have hflight := h.flight
  have hupper := h.upper
  have hbehind := h.behind
  have hwnd := h.wnd
  have hmss := h.mss
  refine ⟨?_, ?_, fun sndQue => (asksWell_iff _ q).mpr (Or.inr ⟨?_, ?_⟩)⟩
  · rw [h.una]
    exact (seqLeq_iff (by omega) (by omega)).mpr huq
  · rw [h.nxt]
    exact (seqLt_iff (by omega) (by omega)).mpr hqn
  · show uint32 (tcb.sndWl2 + tcb.sndWnd) ≠ uint32 q
    rw [h.edge, ne_eq, uint32_eq_iff (by omega) (by omega)]
    omega
  · show tcb.sndMss ≠ 0
    omega

theorem congestionCall_inv (h : EdgeInv tcb u n w) (hua : u ≤ a) (han : a ≤ n) (hdup : 3 ≤ tcb.dupAck → u < n) {seq : Nat}
    (hcall : congestionCall tcb (uint32 a) = some seq) : CallInv tcb seq := by
  unfold congestionCall at hcall
  cases hstate : tcb.congestState with
  | congestOpen =>
    rw [hstate] at hcall
    simp only [true_and, reduceCtorEq, or_false, if_false] at hcall
    split at hcall
    · cases hcall
    · rename_i hcount
      unfold fastRecoverCall at hcall
      rw [hstate, if_pos nofun, h.una] at hcall
      obtain rfl := Option.some.inj hcall
      exact h.call (Nat.le_refl u) (hdup (by omega))
  | congestRecover =>
    rw [hstate] at hcall
    simp only [reduceCtorEq, false_and, or_false, if_false] at hcall
    unfold fastRecoverCall at hcall
    rw [if_neg (not_not_intro hstate)] at hcall
    split at hcall
    · cases hcall
    · split at hcall
      · cases hcall
      · rename_i hgeq
        obtain rfl := Option.some.inj hcall
        have hpoint : tcb.recover ∈ recoverPoint tcb := by
          unfold recoverPoint
          rw [hstate]
          rfl
        obtain ⟨r, -, har, hrn⟩ := point_behind h hua han hpoint hgeq
        exact h.call hua (by omega)
  | congestLoss =>
    rw [hstate] at hcall
    simp only [or_true, if_true] at hcall
    unfold fastLossRecoverCall at hcall
    split at hcall
    · split at hcall
      · cases hcall
      · rename_i hgeq
        obtain rfl := Option.some.inj hcall
        have hpoint : tcb.lossRecover ∈ recoverPoint tcb := by
          unfold recoverPoint
          rw [hstate]
          rfl
        obtain ⟨r, -, har, hrn⟩ := point_behind h hua han hpoint hgeq
        exact h.call hua (by omega)
    · cases hcall

/-- Duplicates are counted of data in flight. -/
theorem countDupAck_flight (h : EdgeInv tcb u n w) (hdup : 3 ≤ (countDupAck tcb seg).dupAck) : u < n := by
  have hun := h.lower
  unfold countDupAck at hdup
  split at hdup
  · rename_i hcount
    obtain ⟨-, hne, -⟩ := hcount
    rw [h.una, h.nxt] at hne
    exact Nat.lt_of_le_of_ne hun fun heq => hne (congrArg uint32 heq)
  · exact absurd hdup (show ¬3 ≤ 0 by decide)

theorem ackCall_inv (h : SendInv s u n w) (hack : seg.ack < 2 ^ 32) (hwnd : seg.wnd < 2 ^ 30) {now : CongestCb} {seq : Nat}
    (hcall : ackCall s.tcb seg = some (now, seq)) : CallInv now seq := by
  unfold ackCall at hcall
  split at hcall
  swap
  · cases hcall
  rename_i haccepts
  obtain ⟨a, ha, hua, han⟩ := accepts_position h.edge hack haccepts
  have hopens : opens s.tcb seg.ack = true := by
    unfold accepts at haccepts
    rw [Bool.and_eq_true, Bool.and_eq_true] at haccepts
    exact haccepts.1.1
  obtain ⟨w1, hestablish, -⟩ := establish_edge h hua han ha hwnd hopens
  have hcounted := countDupAck_edge hestablish seg
  obtain ⟨seq', hcall', heq⟩ := Option.map_eq_some_iff.mp hcall
  rw [Prod.mk.injEq] at heq
  obtain ⟨rfl, rfl⟩ := heq
  rw [ha] at hcall'
  exact congestionCall_inv hcounted hua han (countDupAck_flight hestablish) hcall'

theorem retransmitCall_inv (h : SendInv s u n w) {e : SendEvent} {now : CongestCb} {seq : Nat}
    (hcall : retransmitCall s e = some (now, seq)) : CallInv now seq := by
  unfold retransmitCall at hcall
  cases e with
  | ack head =>
    obtain ⟨hack, hwnd⟩ := head.format_bounds h.edge.scale
    exact ackCall_inv h hack hwnd hcall
  | timeout connectTimer =>
    dsimp only at hcall
    split at hcall
    · rename_i hrexmit
      obtain ⟨tcb', htcb, heq⟩ := Option.map_eq_some_iff.mp hcall
      rw [Prod.mk.injEq, h.edge.una] at heq
      obtain ⟨rfl, rfl⟩ := heq
      have hsend := tcpRexmitTimeout_send h hrexmit htcb
      exact hsend.edge.call (Nat.le_refl u) (hsend.flight rfl)
    · cases hcall
  | syn head => cases hcall
  | sendSyn => cases hcall
  | sendData len fin => cases hcall
  | close => cases hcall
  | clearAllTimer => cases hcall

/-! ## Every run -/

theorem createdSend_inv (iss : UInt32) (maxRexmit : Nat) :
    SendInv (createdSend iss maxRexmit) iss.toNat iss.toNat iss.toNat := by
  have hiss : iss.toNat = uint32 iss.toNat := (Nat.mod_eq_of_lt iss.toNat_lt).symm
  refine ⟨⟨hiss, hiss, hiss, Nat.le_refl _, Nat.le_add_right _ _, Nat.le_succ _, ?_, Nat.zero_le _, ?_, ?_⟩, nofun, ?_, ?_⟩
  · show 536 < 2 ^ 30
    decide
  · show 0 < 536
    decide
  · intro x hx
    cases hx
  · intro _
    show 12 < 536 ∧ 536 < 2 ^ 16
    decide
  · intro _
    refine ⟨hiss, Nat.le_succ _, Nat.add_le_add_left (show 1 ≤ 536 by decide) _, fun x hx => ?_⟩
    cases hx

instance (s : SendCb) (e : SendEvent) : Decidable (KeepsInWindow s e) :=
  match e with
  | .syn head => inferInstanceAs (Decidable
      (head.ack.map UInt32.toNat = some (uint32 (s.tcb.iss + 1)) → s.tcb.sndNxt = uint32 (s.tcb.iss + 1)))
  | .ack head => inferInstanceAs (Decidable
      (s.tcb.state = .synRcvd → opens s.tcb head.ack.toNat = true → s.tcb.sndNxt = uint32 (s.tcb.iss + 1)))
  | .timeout _ => isTrue trivial
  | .sendSyn => isTrue trivial
  | .sendData len _ => inferInstanceAs (Decidable (len ≠ 0 →
      ¬(uint32 (s.tcb.sndWl2 + s.tcb.sndWnd) = s.tcb.sndNxt ∧ congestionEdge s.tcb = uint32 (s.tcb.sndNxt + 2 ^ 31))))
  | .close => isTrue trivial
  | .clearAllTimer => isTrue trivial

theorem no_scale : ∀ k ∈ (none : Option Nat), k ≤ 14 := by
  intro k hk
  cases hk

/-- The peer acknowledges `SYN`, with segments of 1024 bytes. -/
def synHead (wnd : UInt16) : SynHead := ⟨500, some 1, wnd, some 1024, none, false, no_scale⟩

/-- Three duplicates with two segments in flight, then a window that is shrunk to half of the second. -/
def toShrunkWindow : List SendEvent :=
  [.sendSyn, .syn (synHead 8192), .sendData 1024 false, .ack ⟨501, 1025, 8192, 0⟩, .sendData 1024 false,
    .sendData 1024 false, .ack ⟨501, 1025, 8192, 0⟩, .ack ⟨501, 1025, 8192, 0⟩, .ack ⟨501, 1025, 8192, 0⟩,
    .ack ⟨502, 1025, 1536, 0⟩]

def shrunkWindow : SendCb where
  tcb := {
    state := .connected
    iss := 0
    sndUna := 1025
    sndNxt := 2561
    sndWnd := 1536
    sndWl1 := 502
    sndWl2 := 1025
    sndMss := 1024
    sndWndScale := 0
    cWnd := 6144
    ssthresh := 2048
    recover := 2561
    lossRecover := 0
    dupAck := 0
    lossTimes := 0
    maxRexmit := 12
    congestState := .congestRecover }
  rexmit := true

theorem toShrunkWindow_run : Run (sendStep 1460) KeepsInWindow (createdSend 0 12) toShrunkWindow shrunkWindow :=
  (Run.of_guarded (by decide +kernel)).2

/-- A partial acknowledgement of the first segment calls for what is left of the second. -/
example : (retransmitCall shrunkWindow (.ack ⟨502, 2049, 512, 0⟩)).map (·.2) = some 2049 := by decide +kernel

/-! ## A window that is tied

Fast recovery adds a segment to the congestion window for each duplicate, without a bound.
-/

theorem seqLt_self (x : Nat) : seqLt x x = false := by
  unfold seqLt seqDiff
  rw [Int.sub_self]
  rfl

theorem seqGt_self (x : Nat) : seqGt x x = false := seqLt_self x

/-- A window that is announced again. -/
theorem updateWindow_again (hseq : seg.seq = tcb.sndWl1) (hack : seg.ack = tcb.sndWl2) (hwnd : seg.wnd = tcb.sndWnd) :
    updateWindow tcb seg = tcb ∧ closesWindow tcb seg = false := by
  have hlt : seqLt (uint32 (seg.ack + seg.wnd)) (uint32 (tcb.sndWl2 + tcb.sndWnd)) = false := by
    rw [hack, hwnd]
    exact seqLt_self _
  have hshrink : shrinkWindow tcb (uint32 (seg.ack + seg.wnd)) = tcb := by
    unfold shrinkWindow
    rw [if_neg (by rw [hlt]; exact nofun)]
  unfold updateWindow closesWindow
  simp only [hlt, hshrink, Bool.and_false, Bool.false_and, and_true, Bool.false_eq_true, false_and, if_false]
  rw [hseq, hack, hwnd]
  exact ite_self _

theorem advanceUna_self (hack : ack = tcb.sndUna) : advanceUna tcb ack = tcb := by
  unfold advanceUna
  rw [hack, seqGt_self]
  rfl

theorem congestionControl_duplicate (word : Int → Int) (hrecover : tcb.congestState = .congestRecover)
    (hack : ack = tcb.sndUna) :
    congestionControl word tcb ack = { tcb with cWnd := word (tcb.cWnd + tcb.sndMss) } := by
  rw [congestionControl_recover word hrecover]
  unfold tcpFastRecover
  rw [if_neg (not_not_intro hrecover), if_pos hack]

/-- A duplicate in fast recovery. -/
theorem sendAck_duplicate (hstate : s.tcb.state = .connected) (hrecover : s.tcb.congestState = .congestRecover)
    (haccepts : accepts s.tcb seg.ack = true) (hne : s.tcb.sndUna ≠ s.tcb.sndNxt) (huna : seg.ack = s.tcb.sndUna)
    (hseq : seg.seq = s.tcb.sndWl1) (hack : seg.ack = s.tcb.sndWl2) (hwnd : seg.wnd = s.tcb.sndWnd) (hlen : seg.len = 0) :
    sendAck s seg = ⟨{ s.tcb with
      cWnd := word32 (s.tcb.cWnd + s.tcb.sndMss), dupAck := (s.tcb.dupAck + 1) % 2 ^ 16 }, true⟩ := by
  have hestablish : establish s.tcb seg = s.tcb := by
    unfold establish
    rw [if_neg (by rw [hstate]; exact nofun)]
  have hcounted : countDupAck s.tcb seg = { s.tcb with dupAck := (s.tcb.dupAck + 1) % 2 ^ 16 } := by
    unfold countDupAck
    rw [if_pos ⟨huna, hne, hwnd, hlen⟩]
  have hacked : advanceUna (congestionControl word32 (countDupAck (establish s.tcb seg) seg) seg.ack) seg.ack =
      { s.tcb with cWnd := word32 (s.tcb.cWnd + s.tcb.sndMss), dupAck := (s.tcb.dupAck + 1) % 2 ^ 16 } := by
    rw [hestablish]
    generalize countDupAck s.tcb seg = counted at hcounted ⊢
    rw [congestionControl_duplicate word32 (by rw [hcounted]; exact hrecover) (by rw [hcounted]; exact huna)]
    refine (advanceUna_self (by rw [hcounted]; exact huna)).trans ?_
    rw [hcounted]
  have hagain := @updateWindow_again
    { s.tcb with cWnd := word32 (s.tcb.cWnd + s.tcb.sndMss), dupAck := (s.tcb.dupAck + 1) % 2 ^ 16 } seg hseq hack hwnd
  unfold sendAck
  rw [if_pos haccepts]
  dsimp only
  rw [hacked, hagain.1, hagain.2, bne_iff_ne.mpr (by rw [huna]; exact hne)]
  rfl

/-- A duplicate of a peer whose window ends at `SndNxt`. -/
def duplicate : SendEvent := .ack ⟨501, 1, 1024, 0⟩

/-- Fast recovery after `k` more duplicates. -/
def inflated (k : Nat) : SendCb where
  tcb := {
    state := .connected
    iss := 0
    sndUna := 1
    sndNxt := 1025
    sndWnd := 1024
    sndWl1 := 501
    sndWl2 := 1
    sndMss := 1024
    sndWndScale := 0
    cWnd := 5120 + 1024 * k
    ssthresh := 2048
    recover := 1025
    lossRecover := 0
    dupAck := (3 + k) % 2 ^ 16
    lossTimes := 0
    maxRexmit := 12
    congestState := .congestRecover }
  rexmit := true

def toInflated : List SendEvent :=
  [.sendSyn, .syn (synHead 1024), .sendData 1024 false, duplicate, duplicate, duplicate]

theorem inflated_step {k : Nat} (hk : k < 2 ^ 21) : sendStep 1460 (inflated k) duplicate = some (inflated (k + 1)) := by
  have hword : word32 (5120 + 1024 * k + 1024) = 5120 + 1024 * (k + 1 : Nat) := by
    rw [word32_of_lt (by omega) (by omega)]
    omega
  have hdup : ((3 + k) % 2 ^ 16 + 1) % 2 ^ 16 = (3 + (k + 1)) % 2 ^ 16 := by omega
  have haccepts : accepts (inflated k).tcb 1 = true := show (true && !seqLt 1 1 && !seqGt 1 1025) = true by decide
  have hstep : sendAck (inflated k) ⟨501, 1, 1024, 0⟩ = _ :=
    sendAck_duplicate rfl rfl haccepts (show 1 ≠ 1025 by decide) rfl rfl rfl rfl rfl
  show some (sendAck (inflated k) ⟨501, 1, 1024, 0⟩) = _
  rw [hstep]
  unfold inflated
  rw [← hword, ← hdup]
  rfl

theorem inflated_run (ok : SendCb → SendEvent → Prop) (hok : ∀ s e, ok s e) {k : Nat} (hk : k ≤ 2 ^ 21) :
    Run (sendStep 1460) ok (createdSend 0 12) (toInflated ++ List.replicate k duplicate) (inflated k) := by
  induction k with
  | zero => exact Run.of_foldlM (fun s e _ => hok s e) (by decide +kernel)
  | succ k ih =>
    rw [List.replicate_succ', ← List.append_assoc]
    exact .snoc (ih (by omega)) (hok _ _) (inflated_step (by omega))

/-- The segment that was sent past the edge. -/
def pastEdgeBuf : NetBuf := ⟨1024, [⟨2000, 3024, 2000, 3024, 1024⟩]⟩

def pastEdgeSegment : Segment := ⟨⟨1025, 2049, 0, 0x10, 0, 0⟩, none, 1, pastEdgeBuf⟩

theorem pastEdgeBuf_built : Built pastEdgeBuf := by
  have hpool : (⟨true, fun n => if n < 3000 then some 2000 else none⟩ : Allocator).Valid := by
    intro n p hp
    dsimp only at hp
    split at hp
    · cases hp
      omega
    · cases hp
  have h : Built ⟨0, [⟨2000, 3024, 2000, 2000, 0⟩]⟩ := .alloc hpool (show 1024 < 2 ^ 32 by decide) rfl
  exact .allocSpace h (show 0 + 1024 < 2 ^ 32 by decide)
    (show netbufAllocSpace _ 1024 false = some (some 2000, _) by decide +kernel)

def pastEdge : SendCb where
  tcb := {
    state := .connected
    iss := 0
    sndUna := 1025
    sndNxt := 2049
    sndWnd := 0
    sndWl1 := 501
    sndWl2 := 1025
    sndMss := 1024
    sndWndScale := 0
    cWnd := 2048
    ssthresh := 2048
    recover := 1025
    lossRecover := 0
    dupAck := 0
    lossTimes := 0
    maxRexmit := 12
    congestState := .congestOpen }
  rexmit := true

/-- As many duplicates as bring the congestion window half of the space past the edge. -/
def toPastEdge : List SendEvent :=
  toInflated ++ List.replicate (2 ^ 21 - 4) duplicate ++ [.sendData 1024 false] ++ [.ack ⟨501, 1025, 0, 0⟩]

def pastWindow : SendCb :=
  { inflated (2 ^ 21 - 4) with tcb := { (inflated (2 ^ 21 - 4)).tcb with sndNxt := 2049 } }

theorem toPastEdge_run : Run (sendStep 1460) (fun _ _ => True) (createdSend 0 12) toPastEdge pastEdge := by
  have hinflated : Run (sendStep 1460) (fun _ _ => True) (createdSend 0 12)
      (toInflated ++ List.replicate (2 ^ 21 - 4) duplicate) (inflated (2 ^ 21 - 4)) :=
    inflated_run _ (fun _ _ => trivial) (by decide)
  have hsent : sendStep 1460 (inflated (2 ^ 21 - 4)) (.sendData 1024 false) = some pastWindow := by decide +kernel
  have hacked : sendStep 1460 pastWindow (.ack ⟨501, 1025, 0, 0⟩) = some pastEdge := by decide +kernel
  exact .snoc (.snoc hinflated trivial hsent) trivial hacked

theorem pastEdge_sending : Sending (pastEdge.tcb.sending [pastEdgeSegment]) 1025 2049 1025 2049 := by
  have hcheck : tcpCheckSndQue [pastEdgeSegment] = true := by decide +kernel
  have hsum : 1025 + ([pastEdgeSegment].map items).sum = 2049 := by decide +kernel
  refine ⟨fun s hs => ?_, hcheck, fun s hs => ?_, hsum, by decide, rfl, rfl, by decide, by decide⟩
  · rw [List.mem_singleton.mp hs]
    exact ⟨pastEdgeBuf_built.good, rfl, by decide⟩
  · obtain rfl := Option.some.inj hs
    rfl

end Udk.Tcp4
