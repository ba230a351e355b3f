import Udk.Ip4.Reassemble
import Mathlib.Data.List.TakeWhile

/-! # One packet and the fragments of its entry -/

namespace Udk.Ip4

open Ranges NetBuffer

/-- The packet has the bytes of its range of the datagram. -/
structure PacketOk (whole : List UInt8) (packet : Packet) : Prop where
  start : 0 ≤ packet.info.start
  le : packet.info.start ≤ packet.info.stop
  length : packet.info.length = packet.info.stop - packet.info.start
  bound : packet.info.stop ≤ 65535
  within : packet.info.stop ≤ whole.length
  piece : Piece whole Packet.bytes packet

section
variable {whole : List UInt8} {packet packet' : Packet} {before behind : List Packet}

theorem lo_eq (h : PacketOk whole packet) : (lo packet : Int) = packet.info.start := Int.toNat_of_nonneg h.start

theorem hi_eq (h : PacketOk whole packet) : (hi packet : Int) = packet.info.stop :=
  Int.toNat_of_nonneg (Int.le_trans h.start h.le)

theorem PacketOk.within_whole (h : PacketOk whole packet) : lo packet ≤ hi packet ∧ hi packet ≤ whole.length := by
  have h1 := lo_eq h
  have h2 := hi_eq h
  have h3 := h.le
  have h4 := h.within
  omega

theorem within_of_ok {l : List Packet} (h : ∀ p ∈ l, PacketOk whole p) : Within 0 whole.length l :=
  fun p hp => ⟨Nat.zero_le _, (h p hp).within_whole⟩

theorem length_eq (h : PacketOk whole packet) : packet.info.length = ((hi packet - lo packet : Nat) : Int) := by
  have h1 := lo_eq h
  have h2 := hi_eq h
  have h3 := h.le
  rw [h.length]
  omega

/-- The head of the packet is trimmed. -/
theorem trim_head (h : PacketOk whole packet) {start : Int} (h1 : packet.info.start < start)
    (h2 : start ≤ packet.info.stop) :
    PacketOk whole (trimHead packet start) ∧ (trimHead packet start).ip = packet.ip ∧
      (trimHead packet start).info.start = start ∧ (trimHead packet start).info.stop = packet.info.stop := by
  have hstart := h.start
  have hbound := h.bound
  have hlen : ((start - packet.info.start) % 2 ^ 32).toNat = (start - packet.info.start).toNat := by
    rw [Int.emod_eq_of_lt (by omega) (by omega)]
  have heq : trimHead packet start =
      { packet with
        bytes := packet.bytes.drop (start - packet.info.start).toNat
        info := { packet.info with start, length := packet.info.length - (start - packet.info.start) } } := by
    rw [trimHead, if_pos h1]
    simp only [trimBuffer, trimBytes, if_true, hlen]
  rw [heq]
  refine ⟨⟨?_, h2, ?_, hbound, h.within, ?_⟩, rfl, rfl, rfl⟩
  · simp only
    omega
  · have := h.length
    simp only
    omega
  · have hp : packet.bytes = (whole.take packet.info.stop.toNat).drop packet.info.start.toNat := h.piece
    show packet.bytes.drop _ = (whole.take packet.info.stop.toNat).drop start.toNat
    rw [hp, List.drop_drop]
    congr 1
    omega

/-- `Ip4TrimPacket` when only the head is trimmed. -/
theorem ip4TrimPacket_head (h : PacketOk whole packet) {start : Int} (h1 : packet.info.start < start)
    (h2 : start < packet.info.stop) :
    ip4TrimPacket packet start packet.info.stop = (trimHead packet start, true) := by
  obtain ⟨-, -, -, hstop⟩ := trim_head h h1 (Int.le_of_lt h2)
  have hlen := h.length
  rw [ip4TrimPacket, trimTail, if_neg (by rw [hstop]; omega)]
  congr 1
  exact decide_eq_true ⟨by omega, by omega, h2⟩

/-! ## The point where the packet is put in -/

theorem findPoint_spec {fragments : List Packet} (hs : Sorted fragments) (hok : ∀ p ∈ fragments, PacketOk whole p) :
    fragments = (findPoint packet fragments).1 ++ (findPoint packet fragments).2 ∧
      (∀ q ∈ (findPoint packet fragments).1, q.info.start ≤ packet.info.start) ∧
      ∀ q ∈ (findPoint packet fragments).2, packet.info.start < q.info.start := by
  simp only [findPoint, List.span_eq_takeWhile_dropWhile]
  refine ⟨List.takeWhile_append_dropWhile.symm, fun q hq => ?_, fun q hq => ?_⟩
  · have := List.mem_takeWhile_imp hq
    simpa using this
  · induction fragments with
    | nil => cases hq
    | cons node fragments ih =>
      rw [List.dropWhile_cons] at hq
      split at hq
      · exact ih hs.tail (fun p hp => hok p (List.mem_cons_of_mem _ hp)) hq
      · rename_i hnode
        have hlt : packet.info.start < node.info.start := by simpa using hnode
        rcases List.mem_cons.mp hq with rfl | hq
        · exact hlt
        · have h1 := (List.pairwise_cons.mp hs).1 q hq
          have h2 := hi_eq (hok node (List.mem_cons_self ..))
          have h3 := lo_eq (hok q (List.mem_cons_of_mem _ hq))
          have h4 := (hok node (List.mem_cons_self ..)).le
          omega

/-- What is left of a packet lies behind the previous fragments, which have the rest. -/
structure LeftOver (whole : List UInt8) (packet packet' : Packet) (before : List Packet) : Prop where
  ok : PacketOk whole packet'
  ip : packet'.ip = packet.ip
  stop : packet'.info.stop = packet.info.stop
  apart : ∀ q ∈ before, q.info.stop ≤ packet'.info.start
  covered : packet'.info.start = packet.info.start ∨
    ∃ q ∈ before, q.info.start ≤ packet.info.start ∧ packet.info.start < q.info.stop ∧ q.info.stop = packet'.info.start

theorem mem_of_getLast? {l : List Packet} {node : Packet} (h : l.getLast? = some node) :
    ∃ l', l = l' ++ [node] := List.getLast?_eq_some_iff.mp h

theorem trimPrevious_spec (hs : Sorted before) (hok : ∀ p ∈ before, PacketOk whole p) (h : PacketOk whole packet)
    (hbefore : ∀ q ∈ before, q.info.start ≤ packet.info.start)
    (hend : behind = [] → ∀ q ∈ before, q.info.stop ≤ packet.info.start) :
    (trimPrevious packet before behind = none ∧
      ∃ q ∈ before, q.info.start ≤ packet.info.start ∧ packet.info.stop ≤ q.info.stop) ∨
    ∃ packet', trimPrevious packet before behind = some (packet', true) ∧ LeftOver whole packet packet' before := by
  have hself : (∀ q ∈ before, q.info.stop ≤ packet.info.start) → LeftOver whole packet packet before :=
    fun hall => ⟨h, rfl, rfl, hall, .inl rfl⟩
  unfold trimPrevious
  split
  · rename_i next behind node hlast
    obtain ⟨l, rfl⟩ := mem_of_getLast? hlast
    have hnode := hok node (by simp)
    have hprev : ∀ q ∈ l, q.info.stop ≤ node.info.start := by
      intro q hq
      have h1 := (List.pairwise_append.mp hs).2.2 q hq node (List.mem_singleton_self _)
      have h2 := hi_eq (hok q (by simp [hq]))
      have h3 := lo_eq hnode
      omega
    have hle := hbefore node (by simp)
    split
    · rename_i hlt
      split
      · rename_i hstop
        exact .inl ⟨rfl, node, by simp, hle, hstop⟩
      · rename_i hstop
        obtain ⟨hok', hip, hstart, hend'⟩ := trim_head h hlt (by omega)
        rw [ip4TrimPacket_head h hlt (by omega)]
        refine .inr ⟨_, rfl, hok', hip, hend', fun q hq => ?_, .inr ⟨node, by simp, hle, hlt, hstart.symm⟩⟩
        rcases List.mem_append.mp hq with hq | hq
        · have h1 := hprev q hq
          have h2 := hnode.le
          omega
        · obtain rfl := List.mem_singleton.mp hq
          exact Int.le_of_eq hstart.symm
    · rename_i hlt
      refine .inr ⟨_, rfl, hself fun q hq => ?_⟩
      rcases List.mem_append.mp hq with hq | hq
      · have h1 := hprev q hq
        omega
      · obtain rfl := List.mem_singleton.mp hq
        omega
  · rename_i behind _ _ hnot
    refine .inr ⟨_, rfl, hself ?_⟩
    cases behind with
    | nil => exact hend rfl
    | cons next behind =>
      cases hlast : before.getLast? with
      | none => simp [List.getLast?_eq_none_iff.mp hlast]
      | some node => exact absurd hlast (hnot next behind node rfl)

/-! ## The loop over the fragments behind -/

/-- The loop takes away what the packet contains, and stops at what lies behind it or at what contains it. -/
theorem absorb_spec {curLen : Int} (hs : Sorted behind) (hok : ∀ p ∈ behind, PacketOk whole p)
    (hbehind : ∀ q ∈ behind, packet.info.start ≤ q.info.start)
    (hover : ∀ q ∈ behind, packet.info.start < q.info.start → q.info.start < packet.info.stop →
      q.info.stop ≤ packet.info.stop) :
    ∃ gone rest, behind = gone ++ rest ∧
      (∀ q ∈ gone, packet.info.start ≤ q.info.start ∧ q.info.stop ≤ packet.info.stop) ∧
      ((absorb packet behind curLen = ⟨some packet, rest, curLen - size gone, true⟩ ∧
          ∀ q ∈ rest, packet.info.stop ≤ q.info.start) ∨
        (absorb packet behind curLen = ⟨none, rest, curLen - size gone, true⟩ ∧
          ∃ q ∈ rest, q.info.start = packet.info.start ∧ packet.info.stop < q.info.stop)) := by
  induction behind generalizing curLen with
  | nil => exact ⟨[], [], rfl, nofun, .inl ⟨by simp [absorb], nofun⟩⟩
  | cons node behind ih =>
    have hnode := hok node (List.mem_cons_self ..)
    have hle := hbehind node (List.mem_cons_self ..)
    by_cases hstop : node.info.stop ≤ packet.info.stop
    · obtain ⟨gone, rest, rfl, hgone, hcases⟩ := @ih (curLen - node.info.length) hs.tail
        (fun p hp => hok p (List.mem_cons_of_mem _ hp)) (fun q hq => hbehind q (List.mem_cons_of_mem _ hq))
        (fun q hq => hover q (List.mem_cons_of_mem _ hq))
      have hlen : curLen - node.info.length - (size gone : Int) = curLen - (size (node :: gone) : Nat) := by
        rw [length_eq hnode, size_cons]
        omega
      have habsorb : absorb packet (node :: (gone ++ rest)) curLen =
          absorb packet (gone ++ rest) (curLen - node.info.length) := by
        rw [absorb, if_pos hstop]
      rw [hlen] at hcases
      refine ⟨node :: gone, rest, rfl, fun q hq => ?_, ?_⟩
      · rcases List.mem_cons.mp hq with rfl | hq
        · exact ⟨hle, hstop⟩
        · exact hgone q hq
      · rw [habsorb]
        exact hcases
    · have hrest : ∀ q ∈ behind, node.info.stop ≤ q.info.start := by
        intro q hq
        have h1 := (List.pairwise_cons.mp hs).1 q hq
        have h2 := hi_eq hnode
        have h3 := lo_eq (hok q (List.mem_cons_of_mem _ hq))
        omega
      refine ⟨[], node :: behind, rfl, nofun, ?_⟩
      rw [absorb, if_neg hstop, size_nil, Int.natCast_zero, Int.sub_zero]
      by_cases hlt : node.info.start < packet.info.stop
      · by_cases hsame : packet.info.start = node.info.start
        · refine .inr ⟨by rw [if_pos hlt, if_pos hsame], node, List.mem_cons_self .., hsame.symm, by omega⟩
        · have := hover node (List.mem_cons_self ..) (by omega) hlt
          omega
      · refine .inl ⟨by rw [if_neg hlt], fun q hq => ?_⟩
        rcases List.mem_cons.mp hq with rfl | hq
        · omega
        · have h1 := hrest q hq
          have h2 := hnode.le
          omega

end

end Udk.Ip4
