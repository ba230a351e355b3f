import Mathlib.Algebra.Order.Ring.Int
import Mathlib.Tactic.Positivity
import Mathlib.Tactic.Ring
import Udk.Tcp4.Congestion

/-! # When the congestion window wraps -/

namespace Udk.Tcp4

open NetBuffer

variable {tcb tcb' : CongestCb} {seg : AckSeg} {ack : Nat}

/-! ## The condition -/

/-- In fast recovery, a duplicate keeps the window below half of the space and a partial acknowledgement is within it. -/
def TameAck (tcb : CongestCb) (ack : Nat) : Prop :=
  tcb.congestState = .congestRecover →
    (ack = tcb.sndUna → tcb.cWnd + tcb.sndMss < 2 ^ 31) ∧
    (ack ≠ tcb.sndUna → seqGeq ack tcb.recover = false → netAcked tcb ack ≤ tcb.cWnd)

def Tame (tcb : CongestCb) : Event → Prop
  | .ack seg => accepts tcb seg.ack = true → TameAck tcb seg.ack
  | _ => True

/-! ## The invariant -/

structure WindowInv (tcb : CongestCb) : Prop where
  mss : 0 < tcb.sndMss ∧ tcb.sndMss < 2 ^ 16
  first : tcb.state = .unsynchronized → 12 < tcb.sndMss
  scale : tcb.sndWndScale ≤ 14
  window : 0 ≤ tcb.cWnd ∧ tcb.cWnd < 2 ^ 31
  outside : tcb.congestState ≠ .congestRecover → 0 < tcb.cWnd ∧ tcb.cWnd ≤ 2 ^ 30
  thresh : tcb.congestState = .congestRecover → 0 < tcb.ssthresh ∧ tcb.ssthresh ≤ 2 ^ 30

/-- The fields of the invariant are the same, but for a state that is synchronized. -/
structure SameWindow (tcb tcb' : CongestCb) : Prop where
  mss : tcb'.sndMss = tcb.sndMss
  scale : tcb'.sndWndScale = tcb.sndWndScale
  cWnd : tcb'.cWnd = tcb.cWnd
  ssthresh : tcb'.ssthresh = tcb.ssthresh
  congestState : tcb'.congestState = tcb.congestState
  state : tcb'.state = .unsynchronized → tcb.state = .unsynchronized

theorem SameWindow.refl (tcb : CongestCb) : SameWindow tcb tcb := ⟨rfl, rfl, rfl, rfl, rfl, id⟩

theorem SameWindow.trans {tcb'' : CongestCb} (h : SameWindow tcb tcb') (h' : SameWindow tcb' tcb'') : SameWindow tcb tcb'' :=
  ⟨h'.mss.trans h.mss, h'.scale.trans h.scale, h'.cWnd.trans h.cWnd, h'.ssthresh.trans h.ssthresh,
    h'.congestState.trans h.congestState, fun hs => h.state (h'.state hs)⟩

theorem WindowInv.of_same (h : WindowInv tcb) (hs : SameWindow tcb tcb') : WindowInv tcb' := by
  obtain ⟨hmss, hscale, hcWnd, hssthresh, hcongest, hstate⟩ := hs
  refine ⟨?_, fun hu => ?_, ?_, ?_, ?_, ?_⟩
  · rw [hmss]
    exact h.mss
  · rw [hmss]
    exact h.first (hstate hu)
  · rw [hscale]
    exact h.scale
  · rw [hcWnd]
    exact h.window
  · rw [hcongest, hcWnd]
    exact h.outside
  · rw [hcongest, hssthresh]
    exact h.thresh

theorem establish_same (tcb : CongestCb) (seg : AckSeg) : SameWindow tcb (establish tcb seg) := by
  unfold establish
  split
  · exact ⟨rfl, rfl, rfl, rfl, rfl, nofun⟩
  · exact .refl tcb

theorem countDupAck_same (tcb : CongestCb) (seg : AckSeg) : SameWindow tcb (countDupAck tcb seg) := by
  unfold countDupAck
  split <;> exact ⟨rfl, rfl, rfl, rfl, rfl, id⟩

theorem advanceUna_same (tcb : CongestCb) (ack : Nat) : SameWindow tcb (advanceUna tcb ack) := by
  unfold advanceUna
  split <;> exact ⟨rfl, rfl, rfl, rfl, rfl, id⟩

theorem shrinkWindow_same (tcb : CongestCb) (right : Nat) : SameWindow tcb (shrinkWindow tcb right) := by
  unfold shrinkWindow
  split <;> exact ⟨rfl, rfl, rfl, rfl, rfl, id⟩

theorem updateWindow_same (tcb : CongestCb) (seg : AckSeg) : SameWindow tcb (updateWindow tcb seg) := by
  have hshrink := shrinkWindow_same tcb (uint32 (seg.ack + seg.wnd))
  unfold updateWindow
  split
  · dsimp only
    split
    · exact .refl tcb
    · exact ⟨hshrink.mss, hshrink.scale, hshrink.cWnd, hshrink.ssthresh, hshrink.congestState, hshrink.state⟩
  · exact .refl tcb

/-! ## What each routine does to the window -/

theorem word32_of_lt {n : Int} (h0 : 0 ≤ n) (h : n < 2 ^ 32) : word32 n = n := by
  unfold word32
  exact Int.emod_eq_of_lt h0 h

theorem flightSize_nonneg (tcb : CongestCb) : 0 ≤ flightSize tcb := by
  unfold flightSize
  exact Int.natCast_nonneg _

theorem netAcked_nonneg (tcb : CongestCb) (ack : Nat) : 0 ≤ netAcked tcb ack := by
  unfold netAcked
  dsimp only
  split
  · omega
  · exact Int.natCast_nonneg _

/-- Congestion avoidance adds at most the square of the segment size. -/
theorem avoidance_lt {mss cWnd : Int} (hmss : 0 < mss) (hle : mss < 2 ^ 16) (hpos : 0 < cWnd) (hc : cWnd ≤ 2 ^ 30) :
    cWnd + max (mss * mss / cWnd) 1 < 2 ^ 32 := by
  have hsquare : mss * mss ≤ 65535 * 65535 := Int.mul_le_mul (by omega) (by omega) (by omega) (by omega)
  have hq : mss * mss / cWnd * cWnd ≤ mss * mss := Int.ediv_mul_le _ (by omega)
  have hq0 : 0 ≤ mss * mss / cWnd := Int.ediv_nonneg (Int.mul_nonneg (by omega) (by omega)) (by omega)
  generalize mss * mss / cWnd = q at hq hq0 ⊢
  by_cases hq1 : q ≤ 1
  · rw [max_eq_right hq1]
    omega
  · rw [max_eq_left (by omega)]
    -- the sum of two positive numbers is at most one more than their product
    have hprod : 0 ≤ (q - 1) * (cWnd - 1) := Int.mul_nonneg (by omega) (by omega)
    have hexpand : (q - 1) * (cWnd - 1) = q * cWnd - q - cWnd + 1 := by ring
    omega

theorem growWindow_eq (h : WindowInv tcb) (hout : tcb.congestState ≠ .congestRecover) :
    growWindow word32 tcb = growWindow id tcb ∧
      0 < (growWindow word32 tcb).cWnd ∧ (growWindow word32 tcb).cWnd ≤ 2 ^ 30 := by
  obtain ⟨hpos, hle⟩ := h.outside hout
  obtain ⟨hmss, hlt⟩ := h.mss
  have hscale : (2 : Int) ^ tcb.sndWndScale ≤ 2 ^ 14 := pow_le_pow_right₀ (by omega) h.scale
  have hscale0 : (0 : Int) < 2 ^ tcb.sndWndScale := by positivity
  have havoid := @avoidance_lt tcb.sndMss tcb.cWnd (by omega) (by omega) hpos hle
  have hsquare : (tcb.sndMss : Int) * tcb.sndMss < 2 ^ 32 := by
    have : (tcb.sndMss : Int) * tcb.sndMss ≤ 65535 * 65535 := Int.mul_le_mul (by omega) (by omega) (by omega) (by omega)
    omega
  have hsquare0 : 0 ≤ (tcb.sndMss : Int) * tcb.sndMss := Int.mul_nonneg (by omega) (by omega)
  have h1 : word32 (tcb.cWnd + tcb.sndMss) = tcb.cWnd + tcb.sndMss := word32_of_lt (by omega) (by omega)
  have h2 : word32 ((tcb.sndMss : Int) * tcb.sndMss) = tcb.sndMss * tcb.sndMss := word32_of_lt hsquare0 hsquare
  have h3 : word32 (tcb.cWnd + max ((tcb.sndMss : Int) * tcb.sndMss / tcb.cWnd) 1) =
      tcb.cWnd + max ((tcb.sndMss : Int) * tcb.sndMss / tcb.cWnd) 1 := word32_of_lt (by omega) havoid
  have h4 : word32 (65535 * 2 ^ tcb.sndWndScale) = 65535 * 2 ^ tcb.sndWndScale := word32_of_lt (by omega) (by omega)
  unfold growWindow
  simp only [h1, h2, h3, h4, id]
  refine ⟨trivial, ?_, ?_⟩
  · split <;> omega
  · split <;> omega

theorem tcpFastRecover_tame (h : WindowInv tcb) (hflight : flightSize tcb < 2 ^ 31) (ht : TameAck tcb ack) :
    tcpFastRecover word32 tcb ack = tcpFastRecover id tcb ack ∧ WindowInv (tcpFastRecover word32 tcb ack) := by
  have hflight0 := flightSize_nonneg tcb
  obtain ⟨hmss, hlt⟩ := h.mss
  obtain ⟨hwindow0, hwindow⟩ := h.window
  unfold tcpFastRecover
  generalize flightSize tcb = flight at *
  by_cases hstate : tcb.congestState = .congestRecover
  swap
  · rw [if_pos hstate, if_pos hstate]
    have hhalf : flight / 2 ≤ 2 ^ 30 := by omega
    have htwice : 2 * (tcb.sndMss : Int) ≤ 2 ^ 30 := by omega
    have htwice0 : 0 < 2 * (tcb.sndMss : Int) := by omega
    have hle : max (flight / 2) (2 * (tcb.sndMss : Int)) ≤ 2 ^ 30 := max_le hhalf htwice
    have hpos : 0 < max (flight / 2) (2 * (tcb.sndMss : Int)) := lt_max_of_lt_right htwice0
    dsimp only
    generalize max (flight / 2) (2 * (tcb.sndMss : Int)) = ssthresh at *
    have hsum0 : 0 ≤ ssthresh + 3 * (tcb.sndMss : Int) := by omega
    have hsum : ssthresh + 3 * (tcb.sndMss : Int) < 2 ^ 31 := by omega
    rw [word32_of_lt hsum0 (by omega), id_eq]
    exact ⟨rfl, ⟨hmss, hlt⟩, h.first, h.scale, ⟨hsum0, hsum⟩, fun hne => absurd rfl hne, fun _ => ⟨hpos, hle⟩⟩
  rw [if_neg (not_not_intro hstate), if_neg (not_not_intro hstate)]
  obtain ⟨hdup, hpartial⟩ := ht hstate
  obtain ⟨hthresh0, hthresh⟩ := h.thresh hstate
  by_cases hack : ack = tcb.sndUna
  · have hsum := hdup hack
    have hsum0 : 0 ≤ tcb.cWnd + tcb.sndMss := by omega
    rw [if_pos hack, if_pos hack, word32_of_lt hsum0 (by omega), id_eq]
    exact ⟨rfl, ⟨hmss, hlt⟩, h.first, h.scale, ⟨hsum0, hsum⟩, fun hne => absurd hstate hne, fun _ => ⟨hthresh0, hthresh⟩⟩
  rw [if_neg hack, if_neg hack]
  by_cases hfull : seqGeq ack tcb.recover = true
  · have hsum : 0 < flight + tcb.sndMss := by omega
    have hpos : 0 < min tcb.ssthresh (flight + tcb.sndMss) := lt_min hthresh0 hsum
    have hle : min tcb.ssthresh (flight + tcb.sndMss) ≤ 2 ^ 30 := min_le_of_left_le hthresh
    rw [if_pos hfull, if_pos hfull, word32_of_lt (Int.le_of_lt hsum) (by omega), id_eq]
    generalize min tcb.ssthresh (flight + tcb.sndMss) = deflated at *
    have hlt31 : deflated < 2 ^ 31 := by omega
    exact ⟨rfl, ⟨hmss, hlt⟩, h.first, h.scale, ⟨Int.le_of_lt hpos, hlt31⟩, fun _ => ⟨hpos, hle⟩, nofun⟩
  · have hnet := hpartial hack (Bool.eq_false_iff.mpr hfull)
    have hnet0 := netAcked_nonneg tcb ack
    generalize netAcked tcb ack = net at *
    have hdiff0 : 0 ≤ tcb.cWnd - net := by omega
    have hdiff : tcb.cWnd - net < 2 ^ 31 := by omega
    rw [if_neg hfull, if_neg hfull, word32_of_lt hdiff0 (by omega), id_eq]
    exact ⟨rfl, ⟨hmss, hlt⟩, h.first, h.scale, ⟨hdiff0, hdiff⟩, fun hne => absurd hstate hne,
      fun _ => ⟨hthresh0, hthresh⟩⟩

/-- A step that does not meet the condition leaves a window of half the space or one that has wrapped. -/
theorem tcpFastRecover_wild (h : WindowInv tcb) (ht : ¬TameAck tcb ack) :
    (2 ^ 31 ≤ (tcpFastRecover word32 tcb ack).cWnd ∧ (tcpFastRecover word32 tcb ack).cWnd < 2 ^ 32) ∨
      (tcpFastRecover word32 tcb ack).cWnd ≠ (tcpFastRecover id tcb ack).cWnd := by
  obtain ⟨hmss, hlt⟩ := h.mss
  obtain ⟨hwindow0, hwindow⟩ := h.window
  unfold TameAck at ht
  rw [Classical.not_imp, Classical.not_and_iff_not_or_not, Classical.not_imp, Classical.not_imp, Classical.not_imp] at ht
  obtain ⟨hstate, hor⟩ := ht
  unfold tcpFastRecover
  rw [if_neg (not_not_intro hstate), if_neg (not_not_intro hstate)]
  rcases hor with ⟨hack, hsum⟩ | ⟨hack, hfull, hnet⟩
  · have hword : word32 (tcb.cWnd + tcb.sndMss) = tcb.cWnd + tcb.sndMss := word32_of_lt (by omega) (by omega)
    rw [if_pos hack, if_pos hack]
    left
    dsimp only
    rw [hword]
    omega
  · rw [if_neg hack, if_neg hack, if_neg (by rw [hfull]; exact Bool.false_ne_true),
      if_neg (by rw [hfull]; exact Bool.false_ne_true)]
    right
    generalize netAcked tcb ack = net at *
    rw [id_eq]
    show word32 (tcb.cWnd - net) ≠ tcb.cWnd - net
    have hmod : 0 ≤ word32 (tcb.cWnd - net) := by
      unfold word32
      exact Int.emod_nonneg _ (by omega)
    omega

theorem tcpFastLossRecover_eq (tcb : CongestCb) (ack : Nat) :
    ∃ times state, (state = tcb.congestState ∨ state = .congestOpen) ∧
      tcpFastLossRecover tcb ack = { tcb with lossTimes := times, congestState := state } := by
  unfold tcpFastLossRecover
  split
  · split
    · exact ⟨_, _, Or.inr rfl, rfl⟩
    · exact ⟨_, _, Or.inl rfl, rfl⟩
  · exact ⟨_, _, Or.inl rfl, rfl⟩

theorem tcpFastLossRecover_inv (h : WindowInv tcb) (hstate : tcb.congestState = .congestLoss) :
    WindowInv (tcpFastLossRecover tcb ack) := by
  obtain ⟨times, state, hor, heq⟩ := tcpFastLossRecover_eq tcb ack
  have hout := h.outside (by rw [hstate]; exact nofun)
  have hne : state ≠ .congestRecover := by
    rcases hor with rfl | rfl
    · rw [hstate]
      exact nofun
    · exact nofun
  rw [heq]
  exact ⟨h.mss, h.first, h.scale, h.window, fun _ => hout, fun hrec => absurd hrec hne⟩

theorem growWindow_inv (h : WindowInv tcb) (hout : tcb.congestState ≠ .congestRecover) :
    WindowInv (growWindow word32 tcb) := by
  obtain ⟨-, hpos, hle⟩ := growWindow_eq h hout
  have hlt : (growWindow word32 tcb).cWnd < 2 ^ 31 := by omega
  exact ⟨h.mss, h.first, h.scale, ⟨Int.le_of_lt hpos, hlt⟩, fun _ => ⟨hpos, hle⟩, fun hrec => absurd hrec hout⟩

theorem congestionControl_tame (h : WindowInv tcb) (hflight : flightSize tcb < 2 ^ 31) (ht : TameAck tcb ack) :
    congestionControl word32 tcb ack = congestionControl id tcb ack ∧ WindowInv (congestionControl word32 tcb ack) := by
  unfold congestionControl
  by_cases hcase : (tcb.congestState = .congestOpen ∧ tcb.dupAck < 3) ∨ tcb.congestState = .congestLoss
  swap
  · rw [if_neg hcase, if_neg hcase]
    exact tcpFastRecover_tame h hflight ht
  have hout : tcb.congestState ≠ .congestRecover := by
    rcases hcase with ⟨hopen, -⟩ | hloss
    · rw [hopen]
      exact nofun
    · rw [hloss]
      exact nofun
  obtain ⟨hgrow, -, -⟩ := growWindow_eq h hout
  have hgrown : WindowInv (if seqGt ack tcb.sndUna = true then growWindow word32 tcb else tcb) := by
    split
    · exact growWindow_inv h hout
    · exact h
  have hsame : (if seqGt ack tcb.sndUna = true then growWindow word32 tcb else tcb).congestState = tcb.congestState := by
    split <;> rfl
  rw [if_pos hcase, if_pos hcase, ← hgrow]
  refine ⟨rfl, ?_⟩
  dsimp only
  split
  · rename_i hloss
    exact tcpFastLossRecover_inv hgrown (hsame.trans hloss)
  · exact hgrown

/-- In fast recovery the step is `tcpFastRecover`. -/
theorem congestionControl_recover (word : Int → Int) (hstate : tcb.congestState = .congestRecover) :
    congestionControl word tcb ack = tcpFastRecover word tcb ack := by
  unfold congestionControl
  rw [if_neg]
  rw [hstate]
  rintro (⟨hopen, -⟩ | hloss)
  · cases hopen
  · cases hloss

/-! ## Every step -/

/-- The right edge of the congestion window is not behind `SndUna` in sequence order. -/
def EdgeAhead (tcb : CongestCb) : Prop := seqLt (congestionEdge tcb) tcb.sndUna = false

theorem edgeAhead_iff (h0 : 0 ≤ tcb.cWnd) (h : tcb.cWnd < 2 ^ 32) : EdgeAhead tcb ↔ tcb.cWnd < 2 ^ 31 := by
  unfold EdgeAhead seqLt congestionEdge seqDiff uint32
  rw [decide_eq_false_iff_not, Int.natCast_emod, Int.emod_sub_bmod, Int.natCast_add, Int.toNat_of_nonneg h0]
  rw [add_sub_cancel_left]
  generalize tcb.cWnd = cWnd at *
  rw [Int.bmod_def, show ((2 ^ 32 : Nat) : Int) = 2 ^ 32 from rfl, Int.emod_eq_of_lt h0 h]
  split <;> omega

/-- The steps before the congestion control leave what it reads, but for the count of duplicates. -/
theorem counted_same (tcb : CongestCb) (seg : AckSeg) :
    SameWindow tcb (countDupAck (establish tcb seg) seg) ∧
      flightSize (countDupAck (establish tcb seg) seg) = flightSize tcb ∧
      ∀ ack, TameAck (countDupAck (establish tcb seg) seg) ack ↔ TameAck tcb ack := by
  refine ⟨(establish_same tcb seg).trans (countDupAck_same _ seg), ?_, fun ack => ?_⟩
  · unfold flightSize countDupAck establish
    split <;> split <;> rfl
  · unfold TameAck netAcked countDupAck establish
    split <;> split <;> rfl

theorem tcpInputAck_tame {seg : AckSeg} (h : WindowInv tcb) (hflight : flightSize tcb < 2 ^ 31)
    (ht : accepts tcb seg.ack = true → TameAck tcb seg.ack) :
    tcpInputAck word32 tcb seg = tcpInputAck id tcb seg ∧ WindowInv (tcpInputAck word32 tcb seg) := by
  unfold tcpInputAck
  by_cases haccepts : accepts tcb seg.ack = true
  swap
  · rw [if_neg haccepts, if_neg haccepts]
    refine ⟨rfl, ?_⟩
    split
    · exact h.of_same (establish_same tcb seg)
    · exact h
  obtain ⟨hsame, hflight', htame⟩ := counted_same tcb seg
  obtain ⟨heq, hinv⟩ := congestionControl_tame (h.of_same hsame) (by rw [hflight']; exact hflight)
    ((htame seg.ack).mpr (ht haccepts))
  rw [if_pos haccepts, if_pos haccepts, ← heq]
  exact ⟨rfl, hinv.of_same ((advanceUna_same _ _).trans (updateWindow_same _ _))⟩

/-- The window begins with one segment, of the size that the peer asks for or of the default one. -/
theorem tcpInitTcbPeer_mss {rcvMss : Nat} (hrcv : 12 < rcvMss) (hrcv' : rcvMss < 2 ^ 16) (seg : SynSeg)
    (hmin : 12 < tcb.sndMss) (hmax : tcb.sndMss < 2 ^ 16) :
    ∃ mss : Nat, 12 < mss ∧ mss < 2 ^ 16 ∧ (tcpInitTcbPeer rcvMss tcb seg).cWnd = mss ∧
      (tcpInitTcbPeer rcvMss tcb seg).sndMss = if seg.timestamp then (mss + 2 ^ 16 - 12) % 2 ^ 16 else mss := by
  unfold tcpInitTcbPeer
  cases seg.mss with
  | none => exact ⟨tcb.sndMss, hmin, hmax, rfl, rfl⟩
  | some mss => exact ⟨min (max 64 mss) rcvMss, by omega, by omega, rfl, rfl⟩

theorem synInput_inv {rcvMss : Nat} (hrcv : 12 < rcvMss) (hrcv' : rcvMss < 2 ^ 16) {seg : SynSeg} (h : WindowInv tcb)
    (hstate : tcb.state = .unsynchronized) : WindowInv (synInput rcvMss tcb seg) := by
  obtain ⟨mss, hmin, hmax, hcWnd, hsnd⟩ := tcpInitTcbPeer_mss hrcv hrcv' seg (h.first hstate) h.mss.2
  have hscale : seg.wndScale.getD tcb.sndWndScale ≤ 14 := by
    cases hs : seg.wndScale with
    | none => exact h.scale
    | some k => exact seg.scale_le k hs
  have hpeer : ∀ una state, state ≠ .unsynchronized →
      WindowInv { tcpInitTcbPeer rcvMss tcb seg with sndUna := una, state := state } := by
    intro una state hne
    have hpos : (0 : Int) < mss := by omega
    have hle : (mss : Int) ≤ 2 ^ 30 := by omega
    have hlt31 : (mss : Int) < 2 ^ 31 := by omega
    refine ⟨?_, fun hu => absurd hu hne, hscale, ?_, fun _ => ?_, h.thresh⟩
    · show 0 < (tcpInitTcbPeer rcvMss tcb seg).sndMss ∧ _
      rw [hsnd]
      split <;> omega
    · show 0 ≤ (tcpInitTcbPeer rcvMss tcb seg).cWnd ∧ (tcpInitTcbPeer rcvMss tcb seg).cWnd < 2 ^ 31
      rw [hcWnd]
      exact ⟨Int.le_of_lt hpos, hlt31⟩
    · show 0 < (tcpInitTcbPeer rcvMss tcb seg).cWnd ∧ (tcpInitTcbPeer rcvMss tcb seg).cWnd ≤ 2 ^ 30
      rw [hcWnd]
      exact ⟨hpos, hle⟩
  unfold synInput
  dsimp only
  cases seg.ack with
  | none => exact hpeer (tcpInitTcbPeer rcvMss tcb seg).sndUna .synRcvd fun h => by cases h
  | some ack =>
    refine hpeer ack _ ?_
    split <;> exact fun h => by cases h

theorem tcpRexmitTimeout_inv {connectTimer : Bool} (h : WindowInv tcb)
    (hstep : tcpRexmitTimeout connectTimer tcb = some tcb') : WindowInv tcb' := by
  obtain ⟨hmss, hlt⟩ := h.mss
  have hpos : (0 : Int) < tcb.sndMss := by omega
  have hle : (tcb.sndMss : Int) ≤ 2 ^ 30 := by omega
  have hlt31 : (tcb.sndMss : Int) < 2 ^ 31 := by omega
  unfold tcpRexmitTimeout at hstep
  dsimp only at hstep
  split at hstep
  · cases hstep
  · obtain rfl := Option.some.inj hstep
    exact ⟨⟨hmss, hlt⟩, h.first, h.scale, ⟨Int.le_of_lt hpos, hlt31⟩, fun _ => ⟨hpos, hle⟩, nofun⟩

/-- The step is that of unbounded arithmetic, and the window stays ahead. -/
def StepsWell (rcvMss : Nat) (tcb : CongestCb) (e : Event) : Prop :=
  congestStep word32 rcvMss tcb e = congestStep id rcvMss tcb e ∧
    ∀ tcb', congestStep word32 rcvMss tcb e = some tcb' → EdgeAhead tcb'

section
variable {rcvMss : Nat} (hrcv : 12 < rcvMss) (hrcv' : rcvMss < 2 ^ 16) {e : Event}

theorem WindowInv.edge (h : WindowInv tcb) : EdgeAhead tcb := by
  obtain ⟨h0, hlt⟩ := h.window
  exact (edgeAhead_iff h0 (by omega)).mpr hlt

include hrcv hrcv'

/-- A step that meets the condition does not wrap and keeps the invariant. -/
theorem congestStep_tame (h : WindowInv tcb) (hflight : flightSize tcb < 2 ^ 31) (ht : Tame tcb e) :
    congestStep word32 rcvMss tcb e = congestStep id rcvMss tcb e ∧
      ∀ tcb', congestStep word32 rcvMss tcb e = some tcb' → WindowInv tcb' := by
  cases e with
  | syn seg =>
    refine ⟨rfl, fun tcb' hstep => ?_⟩
    unfold congestStep at hstep
    dsimp only at hstep
    split at hstep
    · rename_i hstate
      obtain rfl := Option.some.inj hstep
      exact synInput_inv hrcv hrcv' h hstate
    · cases hstep
  | ack seg =>
    obtain ⟨heq, hinv⟩ := tcpInputAck_tame h hflight ht
    refine ⟨congrArg some heq, fun tcb' hstep => ?_⟩
    obtain rfl := Option.some.inj hstep
    exact hinv
  | timeout connectTimer => exact ⟨rfl, fun tcb' hstep => tcpRexmitTimeout_inv h hstep⟩
  | transmit endSeq =>
    refine ⟨rfl, fun tcb' hstep => ?_⟩
    obtain rfl := Option.some.inj hstep
    refine h.of_same ?_
    split <;> exact ⟨rfl, rfl, rfl, rfl, rfl, id⟩

omit hrcv hrcv' in
/-- Any other step wraps, or leaves a window of half of the space. -/
theorem congestStep_wild (h : WindowInv tcb) (ht : ¬Tame tcb e) : ¬StepsWell rcvMss tcb e := by
  cases e with
  | syn seg => exact absurd trivial ht
  | timeout connectTimer => exact absurd trivial ht
  | transmit endSeq => exact absurd trivial ht
  | ack seg =>
    obtain ⟨haccepts, hwild⟩ := Classical.not_imp.mp ht
    have hstate : tcb.congestState = .congestRecover := (Classical.not_imp.mp hwild).1
    obtain ⟨hsame, -, htame⟩ := counted_same tcb seg
    generalize hcounted : countDupAck (establish tcb seg) seg = counted at hsame htame
    have hrecover : counted.congestState = .congestRecover := hsame.congestState.trans hstate
    have hstep : ∀ word, ∃ tcb', congestStep word rcvMss tcb (.ack seg) = some tcb' ∧
        tcb'.cWnd = (tcpFastRecover word counted seg.ack).cWnd := by
      intro word
      refine ⟨_, rfl, ?_⟩
      unfold tcpInputAck
      rw [if_pos haccepts, hcounted, congestionControl_recover word hrecover]
      exact ((advanceUna_same _ _).trans (updateWindow_same _ _)).cWnd
    obtain ⟨tcb1, h1, hcWnd1⟩ := hstep word32
    obtain ⟨tcb2, h2, hcWnd2⟩ := hstep id
    rintro ⟨heq, hahead⟩
    rw [h1, h2, Option.some.injEq] at heq
    rcases tcpFastRecover_wild (h.of_same hsame) (fun hc => hwild ((htame _).mp hc)) with ⟨hlow, hhigh⟩ | hne
    · rw [← hcWnd1] at hlow hhigh
      have hedge := (edgeAhead_iff (by omega) hhigh).mp (hahead tcb1 h1)
      omega
    · exact hne (by rw [← hcWnd1, ← hcWnd2, heq])

theorem stepsWell_iff (h : WindowInv tcb) (hflight : flightSize tcb < 2 ^ 31) : StepsWell rcvMss tcb e ↔ Tame tcb e := by
  constructor
  · intro hwell
    by_contra ht
    exact congestStep_wild h ht hwell
  · intro ht
    obtain ⟨heq, hinv⟩ := congestStep_tame hrcv hrcv' h hflight ht
    exact ⟨heq, fun tcb' hstep => (hinv tcb' hstep).edge⟩

end

/-! ## Every run -/

/-- The data in flight is less than half of the space, and the step meets the condition. -/
def TameStep (tcb : CongestCb) (e : Event) : Prop := flightSize tcb < 2 ^ 31 ∧ Tame tcb e

theorem createdCb_inv (iss maxRexmit : Nat) : WindowInv (createdCb iss maxRexmit) := by
  have hmss : 0 < 536 ∧ 536 < 2 ^ 16 := by decide
  have hwindow : (0 : Int) ≤ 536 ∧ (536 : Int) < 2 ^ 31 := by decide
  have hopen : (0 : Int) < 536 ∧ (536 : Int) ≤ 2 ^ 30 := by decide
  exact ⟨hmss, fun _ => show 12 < 536 by decide, Nat.zero_le _, hwindow, fun _ => hopen, nofun⟩

/-- In every run of steps that meet the condition the window is ahead and does not wrap, and no other step is as good. -/
theorem congestion_window_ahead (rcvMss iss maxRexmit : Nat) (hrcv : 12 < rcvMss) (hrcv' : rcvMss < 2 ^ 16)
    (es : List Event) (tcb : CongestCb)
    (hrun : Run (congestStep word32 rcvMss) TameStep (createdCb iss maxRexmit) es tcb) :
    EdgeAhead tcb ∧ (tcb.congestState ≠ .congestRecover → 0 < tcb.cWnd) ∧
      (flightSize tcb < 2 ^ 31 → ∀ e, StepsWell rcvMss tcb e ↔ Tame tcb e) := by
  have hinv : WindowInv tcb := hrun.invariant WindowInv (createdCb_inv iss maxRexmit)
    fun s e s' h hok hstep => (congestStep_tame hrcv hrcv' h hok.1 hok.2).2 s' hstep
  exact ⟨hinv.edge, fun hout => (hinv.outside hout).1, fun hflight e => stepsWell_iff hrcv hrcv' hinv hflight⟩

instance (tcb : CongestCb) (ack : Nat) : Decidable (TameAck tcb ack) :=
  inferInstanceAs (Decidable (tcb.congestState = .congestRecover →
    (ack = tcb.sndUna → tcb.cWnd + tcb.sndMss < 2 ^ 31) ∧
    (ack ≠ tcb.sndUna → seqGeq ack tcb.recover = false → netAcked tcb ack ≤ tcb.cWnd)))

instance (tcb : CongestCb) (e : Event) : Decidable (Tame tcb e) :=
  match e with
  | .ack seg => inferInstanceAs (Decidable (accepts tcb seg.ack = true → TameAck tcb seg.ack))
  | .syn _ => isTrue trivial
  | .timeout _ => isTrue trivial
  | .transmit _ => isTrue trivial

instance (tcb : CongestCb) (e : Event) : Decidable (TameStep tcb e) :=
  inferInstanceAs (Decidable (flightSize tcb < 2 ^ 31 ∧ Tame tcb e))

/-- A duplicate or a new acknowledgement of the first `k` segments of 1460 bytes. -/
def ackOf (k : Nat) : Event := .ack ⟨501, 1 + 1460 * k, 65535, 0⟩

/-- Slow start to a window of twelve segments, all of them in flight, and three duplicates. -/
def toRecovery : List Event :=
  [.transmit 1, .syn ⟨500, some 1, 65535, some 1460, none, false, nofun⟩, .transmit (1 + 1460), ackOf 1,
    .transmit (1 + 1460 * 3), ackOf 2, ackOf 3, .transmit (1 + 1460 * 7), ackOf 4, ackOf 5, ackOf 6, ackOf 7,
    .transmit (1 + 1460 * 15), ackOf 8, ackOf 9, ackOf 10, ackOf 11, .transmit (1 + 1460 * 23), ackOf 11, ackOf 11, ackOf 11]

def inRecovery : CongestCb where
  state := .connected
  iss := 0
  sndUna := 1 + 1460 * 11
  sndNxt := 1 + 1460 * 23
  sndWnd := 65535
  sndWl1 := 501
  sndWl2 := 1 + 1460 * 11
  sndMss := 1460
  sndWndScale := 0
  cWnd := 1460 * 9
  ssthresh := 1460 * 6
  recover := 1 + 1460 * 23
  lossRecover := 0
  dupAck := 3
  lossTimes := 0
  maxRexmit := 12
  congestState := .congestRecover

theorem toRecovery_run : Run (congestStep word32 1460) TameStep (createdCb 0 12) toRecovery inRecovery :=
  (Run.of_guarded (by decide +kernel)).2

theorem congestion_window_ahead_sample :
    EdgeAhead inRecovery ∧ (inRecovery.congestState ≠ .congestRecover → 0 < inRecovery.cWnd) ∧
      (flightSize inRecovery < 2 ^ 31 → ∀ e, StepsWell 1460 inRecovery e ↔ Tame inRecovery e) :=
  congestion_window_ahead 1460 0 12 (by decide) (by decide) toRecovery inRecovery toRecovery_run

/-- A partial acknowledgement of eleven of the twelve segments wraps the window. -/
theorem partial_acknowledgement_wraps :
    Run (congestStep word32 1460) TameStep (createdCb 0 12) toRecovery inRecovery ∧
      flightSize inRecovery < 2 ^ 31 ∧ ¬StepsWell 1460 inRecovery (ackOf 22) ∧
      ∃ tcb', congestStep word32 1460 inRecovery (ackOf 22) = some tcb' ∧ tcb'.cWnd = 2 ^ 32 - 1460 ∧ ¬EdgeAhead tcb' := by
  have hedge : ¬EdgeAhead (tcpInputAck word32 inRecovery ⟨501, 1 + 1460 * 22, 65535, 0⟩) := by
    unfold EdgeAhead
    decide +kernel
  refine ⟨toRecovery_run, by decide +kernel, fun hwell => ?_, _, rfl, by decide +kernel, hedge⟩
  exact hedge (hwell.2 _ rfl)

end Udk.Tcp4
