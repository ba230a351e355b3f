import Udk.NetBuffer.Queue

/-! # A queue of network buffers is a byte stream -/

namespace Udk.NetBuffer

open Bytes

/-! ## `NetbufQueTrim` -/

/-- Where the buffer starts in the stream. -/
def startOf (bufs : List NetBuf) (i : Nat) : Nat := streamLen (bufs.take i)

theorem startOf_succ_cons (b : NetBuf) (bufs : List NetBuf) (i : Nat) :
    startOf (b :: bufs) (i + 1) = b.totalSize + startOf bufs i := by
  rw [startOf, List.take_succ_cons, streamLen_cons, startOf]

@[simp] theorem startOf_zero (bufs : List NetBuf) : startOf bufs 0 = 0 := rfl

/-- The buffers that are freed, with `len` bytes trimmed: those that end in the trimmed bytes and start before the end
of them, and the first one. -/
def Freed (bufs : List NetBuf) (len k : Nat) : Prop :=
  ∀ i < bufs.length, i < k ↔ startOf bufs (i + 1) ≤ len ∧ (startOf bufs i < len ∨ i = 0)

/-- What the loop leaves. -/
structure QueTrimmed.Spec (bufs : List NetBuf) (len : Nat) (r : QueTrimmed) : Prop where
  trimmed : r.trimmed = len
  good : ∀ b ∈ r.bufList, b.Good
  size : streamLen r.bufList = streamLen bufs - len
  num : r.bufNum = r.bufList.length % 2 ^ 32
  bytes : ∀ m, stream m r.bufList = (stream m bufs).drop len
  freed : r.freed = bufs.take r.freed.length
  count : r.freed.length + r.bufList.length = bufs.length
  which : Freed bufs len r.freed.length

theorem queTrimLoop_spec {bufs : List NetBuf} {len bufNum : Nat} (hgood : ∀ b ∈ bufs, b.Good)
    (hlen : len ≤ streamLen bufs) (hlt : streamLen bufs < 2 ^ 32) (hnum : bufNum = bufs.length % 2 ^ 32) :
    ∃ r, queTrimLoop bufs len bufNum = some r ∧ r.Spec bufs len := by
  induction bufs generalizing len bufNum with
  | nil =>
    obtain rfl : len = 0 := by simpa using hlen
    exact ⟨_, rfl, rfl, nofun, rfl, hnum, fun _ => rfl, rfl, rfl, nofun⟩
  | cons b bufs ih =>
    rw [streamLen_cons] at hlen hlt
    have hb := hgood b List.mem_cons_self
    have hrest : ∀ b' ∈ bufs, b'.Good := fun b' h' => hgood b' (List.mem_cons_of_mem _ h')
    have hnum' : subtract32 bufNum 1 = bufs.length % 2 ^ 32 := by
      rw [hnum, List.length_cons]
      unfold subtract32
      omega
    unfold queTrimLoop
    by_cases hwhole : b.totalSize ≤ len
    · rw [if_pos hwhole]
      by_cases hlast : len - b.totalSize = 0
      · obtain rfl : len = b.totalSize := by omega
        simp only [Nat.sub_self, if_true]
        refine ⟨_, rfl, rfl, hrest, ?_, hnum', fun m => ?_, rfl, ?_, ?_⟩
        · rw [streamLen_cons, Nat.add_sub_cancel_left]
        · rw [stream_cons, List.drop_left' (hb.flat_length m)]
        · exact Nat.add_comm 1 _
        · intro i hi
          cases i with
          | zero => simp [startOf]
          | succ i =>
            rw [startOf_succ_cons, startOf_succ_cons, List.length_singleton]
            omega
      · simp only [hlast, if_false]
        obtain ⟨r, hloop, hr⟩ := ih hrest (show len - b.totalSize ≤ streamLen bufs by omega) (by omega) hnum'
        have htrimmed := hr.trimmed
        have hcount := hr.count
        have hall : uint32 (b.totalSize + r.trimmed) = len :=
          (uint32_of_lt (by omega)).trans (by omega)
        rw [hloop]
        refine ⟨_, rfl, hall, hr.good, ?_, hr.num, fun m => ?_, ?_, ?_, ?_⟩
        · rw [hr.size, streamLen_cons]
          omega
        · have hfirst : (flat m b).drop len = [] := List.drop_of_length_le (by rw [hb.flat_length]; exact hwhole)
          rw [hr.bytes, stream_cons, List.drop_append, hfirst, hb.flat_length, List.nil_append]
        · show b :: r.freed = (b :: bufs).take (r.freed.length + 1)
          rw [List.take_succ_cons, ← hr.freed]
        · simp only [List.length_cons]
          omega
        · intro i hi
          cases i with
          | zero =>
            rw [startOf_succ_cons, startOf_zero, List.length_cons]
            omega
          | succ i =>
            have hiff := hr.which i (by simpa using hi)
            have hzero : i = 0 → startOf bufs i = 0 := by rintro rfl; rfl
            rw [startOf_succ_cons, startOf_succ_cons, List.length_cons]
            omega
    · rw [if_neg hwhole]
      obtain ⟨b', htrim, hgood', htotal, hflat⟩ := @netbufTrim_spec b len true hb (by omega)
      have hmin : min len b.totalSize = len := by omega
      rw [hmin] at htrim htotal
      rw [htrim]
      refine ⟨_, rfl, rfl, fun c hc => ?_, ?_, hnum, fun m => ?_, rfl, ?_, fun i hi => ?_⟩
      · rcases List.mem_cons.mp hc with rfl | hc
        · exact hgood'
        · exact hrest c hc
      · rw [streamLen_cons, streamLen_cons, htotal]
        omega
      · rw [stream_cons, stream_cons, hflat, List.drop_append, hb.flat_length, show len - b.totalSize = 0 by omega,
          List.drop_zero]
        rfl
      · simp
      · have hle : b.totalSize ≤ startOf (b :: bufs) (i + 1) := by
          rw [startOf_succ_cons]
          omega
        simp only [List.length_nil, Nat.not_lt_zero, false_iff]
        omega

/-- What a trim by `len` does to a queue. -/
structure TrimsQueue (que : NetBufQueue) (len n : Nat) (gone : List NetBuf) (que' : NetBufQueue) : Prop where
  good : que'.Good
  trimmed : n = min len que.bufSize
  bytes : ∀ m, stream m que'.bufList = (stream m que.bufList).drop n
  freed : gone = que.bufList.take gone.length
  count : gone.length + que'.bufList.length = que.bufList.length
  which : if len = 0 then gone = [] else Freed que.bufList n gone.length

theorem netbufQueTrim_spec {que : NetBufQueue} (h : que.Good) (len : Nat) :
    ∃ trimmed freed que', netbufQueTrim que len = some (trimmed, freed, que') ∧ TrimsQueue que len trimmed freed que' := by
  have hsize := h.size
  have hlt := h.lt
  unfold netbufQueTrim
  by_cases hzero : len = 0
  · rw [if_pos hzero, hzero]
    refine ⟨0, [], que, rfl, h, (Nat.zero_min _).symm, fun _ => rfl, rfl, ?_, ?_⟩
    · simp
    · rw [if_pos rfl]
  · rw [if_neg hzero]
    obtain ⟨r, hloop, hr⟩ :=
      @queTrimLoop_spec que.bufList (min len que.bufSize) que.bufNum h.bufs (by omega) (by omega) h.num
    simp only [hloop, Option.map_some]
    refine ⟨_, _, _, rfl, ⟨hr.good, ?_, ?_, hr.num⟩, hr.trimmed, ?_, hr.freed, hr.count, ?_⟩
    · rw [hr.size, hsize]
    · exact Nat.lt_of_le_of_lt (Nat.sub_le _ _) hlt
    · rw [hr.trimmed]
      exact hr.bytes
    · rw [if_neg hzero, hr.trimmed]
      exact hr.which

/-! ## The queues that can be built -/

inductive QueBuilt : NetBufQueue → Prop
  | init : QueBuilt netbufQueInit
  | append {que nbuf} (hq : QueBuilt que) (hb : nbuf.Good) (hsum : que.bufSize + nbuf.totalSize < 2 ^ 32) :
      QueBuilt (netbufQueAppend que nbuf)
  | remove {que first que'} (hq : QueBuilt que) (h : netbufQueRemove que = some (first, que')) : QueBuilt que'
  | trim {que len trimmed freed que'} (hq : QueBuilt que) (h : netbufQueTrim que len = some (trimmed, freed, que')) :
      QueBuilt que'

theorem netbufQueAppend_good {que : NetBufQueue} {nbuf : NetBuf} (h : que.Good) (hb : nbuf.Good)
    (hsum : que.bufSize + nbuf.totalSize < 2 ^ 32) : (netbufQueAppend que nbuf).Good := by
  have hsize := h.size
  have hnum := h.num
  refine ⟨fun b hm => ?_, ?_, ?_, ?_⟩
  · rcases List.mem_append.mp hm with hm | hm
    · exact h.bufs b hm
    · rwa [List.mem_singleton.mp hm]
  · simp only [netbufQueAppend, uint32_of_lt hsum]
    rw [hsize, streamLen_append, streamLen_cons, streamLen_nil, Nat.add_zero]
  · exact Nat.mod_lt _ (by decide)
  · simp only [netbufQueAppend, uint32, List.length_append, List.length_singleton, hnum]
    omega

theorem netbufQueRemove_good {que que' : NetBufQueue} {first : Option NetBuf} (h : que.Good)
    (hrun : netbufQueRemove que = some (first, que')) : que'.Good := by
  have hsize := h.size
  have hlt := h.lt
  have hnum := h.num
  unfold netbufQueRemove at hrun
  split at hrun
  · obtain ⟨-, rfl⟩ := by simpa only [Option.some.injEq, Prod.mk.injEq] using hrun
    exact h
  · rename_i hpos
    split at hrun
    · cases hrun
    · rename_i b rest heq
      obtain ⟨-, rfl⟩ := by simpa only [Option.some.injEq, Prod.mk.injEq] using hrun
      rw [heq, streamLen_cons] at hsize
      rw [heq, List.length_cons] at hnum
      refine ⟨fun b' hm => h.bufs b' (by rw [heq]; exact List.mem_cons_of_mem _ hm), ?_, ?_, ?_⟩
      · simp only
        rw [subtract32_eq (by omega) hlt]
        omega
      · exact Nat.mod_lt _ (by decide)
      · simp only [hnum]
        unfold subtract32
        omega

theorem QueBuilt.good {que : NetBufQueue} (h : QueBuilt que) : que.Good := by
  induction h with
  | init => exact ⟨nofun, rfl, by decide, rfl⟩
  | append _ hb hsum ih => exact netbufQueAppend_good ih hb hsum
  | remove _ hrun ih => exact netbufQueRemove_good ih hrun
  | @trim que len _ _ _ _ hrun ih =>
    obtain ⟨trimmed, freed, que', htrim, hq⟩ := netbufQueTrim_spec ih len
    rw [htrim] at hrun
    obtain ⟨-, -, rfl⟩ := by simpa only [Option.some.injEq, Prod.mk.injEq] using hrun
    exact hq.good

/-- The numbers of the queue, what is copied from it and what is trimmed. -/
structure IsByteStream (que : NetBufQueue) : Prop where
  num : que.bufNum = que.bufList.length % 2 ^ 32
  size : que.bufSize = (que.bufList.map NetBuf.totalSize).sum
  copy : ∀ offset len dest s, ApartQue dest (min len (que.bufSize - offset)) que.bufList →
    ∃ s', netbufQueCopy que offset len dest s =
        some ((((stream s.memory que.bufList).drop offset).take len).length, s') ∧
      s'.memory = write s.memory dest (((stream s.memory que.bufList).drop offset).take len)
  trim : ∀ len, ∃ trimmed freed que', netbufQueTrim que len = some (trimmed, freed, que') ∧
    TrimsQueue que len trimmed freed que'

theorem netbufQue_is_byte_stream (que : NetBufQueue) (h : QueBuilt que) : IsByteStream que :=
  ⟨h.good.num, h.good.size, fun offset len dest s hap => netbufQueCopy_spec h.good offset len dest s hap,
    fun len => netbufQueTrim_spec h.good len⟩

/-- Two buffers, of three blocks. -/
def sampleQue : NetBufQueue := netbufQueAppend (netbufQueAppend netbufQueInit twoBlocks) sampleBuf

theorem built_sampleQue : QueBuilt sampleQue :=
  .append (.append .init built_twoBlocks.good (by decide)) built_sampleBuf.good (by decide)

/-- A trim frees the first one and takes a byte of the second one. -/
theorem netbufQue_is_byte_stream_sample :
    IsByteStream sampleQue ∧ ∃ que, netbufQueTrim sampleQue 10 = some (10, [twoBlocks], que) ∧ IsByteStream que :=
  ⟨netbufQue_is_byte_stream _ built_sampleQue, ⟨9, 1, [⟨9, [⟨2000, 2030, 2005, 2014, 9⟩]⟩]⟩, rfl,
    netbufQue_is_byte_stream _ (.trim built_sampleQue (show netbufQueTrim sampleQue 10 = some (10, [twoBlocks], _) by
      rfl))⟩

/-! ## Empty buffers -/

def emptyBuf : NetBuf := ⟨0, [⟨2000, 2000, 2000, 2000, 0⟩]⟩

theorem emptyBuf_good : emptyBuf.Good :=
  (netbufAlloc_good samplePool_valid (show 0 < 2 ^ 32 by decide) rfl).1

theorem built_replicate (n : Nat) : ∃ que, QueBuilt que ∧ que.bufSize = 0 ∧ que.bufList = List.replicate n emptyBuf := by
  induction n with
  | zero => exact ⟨netbufQueInit, .init, rfl, rfl⟩
  | succ n ih =>
    obtain ⟨que, hq, hsize, hlist⟩ := ih
    have hzero : emptyBuf.totalSize = 0 := rfl
    refine ⟨_, .append hq emptyBuf_good (by rw [hsize, hzero]; decide), ?_, ?_⟩
    · simp only [netbufQueAppend, hsize, hzero]
      rfl
    · rw [netbufQueAppend, hlist, List.replicate_succ']

/-- Two empty buffers in a queue: a trim takes no byte and frees one of them, and not the other one. With 2^32 of them
the count is 0. -/
theorem empty_buffers_differ :
    (∃ que que', QueBuilt que ∧ que.bufList = [emptyBuf, emptyBuf] ∧
      netbufQueTrim que 1 = some (0, [emptyBuf], que') ∧ que'.bufList = [emptyBuf]) ∧
    ∃ que, QueBuilt que ∧ que.bufSize < 2 ^ 32 ∧ que.bufNum ≠ que.bufList.length := by
  constructor
  · obtain ⟨que, hq, hsize, hlist⟩ := built_replicate 2
    have hlist' : que.bufList = [emptyBuf, emptyBuf] := hlist
    refine ⟨que, ⟨0, subtract32 que.bufNum 1, [emptyBuf]⟩, hq, hlist', ?_, rfl⟩
    unfold netbufQueTrim
    rw [hsize, hlist', if_neg Nat.one_ne_zero]
    rfl
  · obtain ⟨que, hq, hsize, hlist⟩ := built_replicate (2 ^ 32)
    refine ⟨que, hq, by rw [hsize]; decide, ?_⟩
    rw [hq.good.num, hlist, List.length_replicate, Nat.mod_self]
    decide

end Udk.NetBuffer
