import Udk.Run
import Udk.NetBuffer.Sequence

/-! # Queues of network buffers -/

namespace Udk.NetBuffer

open Bytes

/-- `NET_BUF_QUEUE`. -/
structure NetBufQueue where
  bufSize : Nat
  bufNum : Nat
  bufList : List NetBuf

def netbufQueInit : NetBufQueue := ⟨0, 0, []⟩

def netbufQueAppend (que : NetBufQueue) (nbuf : NetBuf) : NetBufQueue where
  bufSize := uint32 (que.bufSize + nbuf.totalSize)
  bufNum := uint32 (que.bufNum + 1)
  bufList := que.bufList ++ [nbuf]

/-- The first buffer, if the count says that there is one. -/
def netbufQueRemove (que : NetBufQueue) : Option (Option NetBuf × NetBufQueue) :=
  if que.bufNum = 0 then some (none, que)
  else match que.bufList with
    | [] => none
    | first :: rest => some (some first, ⟨subtract32 que.bufSize first.totalSize, subtract32 que.bufNum 1, rest⟩)

/-- The buffers from the one with the offset on, and the offset of that buffer. -/
def skipQue (offset : Nat) : List NetBuf → Nat → Option (NetBuf × List NetBuf × Nat)
  | [], _ => none
  | nbuf :: rest, cur =>
    if offset < uint32 (cur + nbuf.totalSize) then some (nbuf, rest, cur)
    else skipQue offset rest (uint32 (cur + nbuf.totalSize))

def queCopyLoop : List NetBuf → Nat → Nat → Nat → State → Option (Nat × State)
  | [], _, copied, _, s => some (copied, s)
  | nbuf :: rest, len, copied, dest, s =>
    if len = 0 then some (copied, s)
    else if nbuf.totalSize < len then
      (netbufCopy nbuf 0 nbuf.totalSize dest s).bind fun (_, s) =>
        queCopyLoop rest (len - nbuf.totalSize) (uint32 (copied + nbuf.totalSize)) (dest + nbuf.totalSize) s
    else (netbufCopy nbuf 0 len dest s).map fun (_, s) => (uint32 (copied + len), s)

def netbufQueCopy (que : NetBufQueue) (offset len dest : Nat) (s : State) : Option (Nat × State) :=
  if len = 0 ∨ que.bufSize ≤ offset then some (0, s)
  else
    let len := min len (que.bufSize - offset)
    (skipQue offset que.bufList 0).bind fun (nbuf, rest, cur) =>
      let skip := subtract32 offset cur
      let left := subtract32 nbuf.totalSize skip
      if len < left then netbufCopy nbuf skip len dest s
      else (netbufCopy nbuf skip left dest s).bind fun (_, s) => queCopyLoop rest (len - left) left (dest + left) s

/-- What `NetbufQueTrim` leaves: the bytes that are trimmed, the buffers that are freed, and the queue's count and list. -/
structure QueTrimmed where
  trimmed : Nat
  freed : List NetBuf
  bufNum : Nat
  bufList : List NetBuf

def queTrimLoop : List NetBuf → Nat → Nat → Option QueTrimmed
  | [], _, bufNum => some ⟨0, [], bufNum, []⟩
  | nbuf :: rest, len, bufNum =>
    if nbuf.totalSize ≤ len then
      let bufNum := subtract32 bufNum 1
      if len - nbuf.totalSize = 0 then some ⟨nbuf.totalSize, [nbuf], bufNum, rest⟩
      else (queTrimLoop rest (len - nbuf.totalSize) bufNum).map fun r =>
        { r with trimmed := uint32 (nbuf.totalSize + r.trimmed), freed := nbuf :: r.freed }
    else (netbufTrim nbuf len true).map fun (trimmed, nbuf) => ⟨trimmed, [], bufNum, nbuf :: rest⟩

/-- The bytes that are trimmed, the buffers that are freed and the queue. -/
def netbufQueTrim (que : NetBufQueue) (len : Nat) : Option (Nat × List NetBuf × NetBufQueue) :=
  if len = 0 then some (0, [], que)
  else
    let len := min len que.bufSize
    (queTrimLoop que.bufList len que.bufNum).map fun r =>
      (r.trimmed, r.freed, ⟨que.bufSize - len, r.bufNum, r.bufList⟩)

/-! ## The stream of a queue -/

def stream (m : Memory) (bufs : List NetBuf) : List UInt8 := bufs.flatMap (flat m)

def streamLen (bufs : List NetBuf) : Nat := (bufs.map NetBuf.totalSize).sum

@[simp] theorem stream_nil (m : Memory) : stream m [] = [] := rfl

@[simp] theorem stream_cons (m : Memory) (b : NetBuf) (bs : List NetBuf) : stream m (b :: bs) = flat m b ++ stream m bs := by
  simp [stream]

@[simp] theorem streamLen_nil : streamLen [] = 0 := rfl

@[simp] theorem streamLen_cons (b : NetBuf) (bs : List NetBuf) : streamLen (b :: bs) = b.totalSize + streamLen bs := by
  simp [streamLen]

@[simp] theorem streamLen_append (xs ys : List NetBuf) : streamLen (xs ++ ys) = streamLen xs + streamLen ys := by
  simp [streamLen]

theorem NetBuf.Good.flat_length {nbuf : NetBuf} (h : nbuf.Good) (m : Memory) : (flat m nbuf).length = nbuf.totalSize := by
  rw [flat, flatOps_length, h.total]

/-- The bytes of the buffers are not in the range. -/
def ApartQue (dest n : Nat) (bufs : List NetBuf) : Prop := ∀ b ∈ bufs, ∀ op ∈ b.blockOps, Apart dest n op

theorem ApartQue.mono {dest n dest' n' : Nat} {bufs : List NetBuf} (h : ApartQue dest n bufs) (hle : dest ≤ dest')
    (hend : dest' + n' ≤ dest + n) : ApartQue dest' n' bufs := by
  intro b hb op hop
  have := h b hb op hop
  unfold Apart at *
  omega

theorem stream_write {m : Memory} {bufs : List NetBuf} {dest n : Nat} {bs : List UInt8} (hn : bs.length ≤ n)
    (h : ApartQue dest n bufs) : stream (write m dest bs) bufs = stream m bufs := by
  induction bufs with
  | nil => rfl
  | cons b bufs ih =>
    rw [stream_cons, stream_cons, ih fun b' hb => h b' (List.mem_cons_of_mem _ hb), flat, flat,
      flatOps_write hn (h b List.mem_cons_self)]

/-! ## `NetbufQueCopy` -/

section
variable {bufs : List NetBuf} {len copied dest offset cur : Nat} {s : State}

/-- A copy of the first bytes of a buffer. -/
theorem netbufCopy_front {b : NetBuf} (h : b.Good) (hlen : len ≤ b.totalSize)
    (hap : ∀ op ∈ b.blockOps, Apart dest len op) :
    ∃ n s', netbufCopy b 0 len dest s = some (n, s') ∧ s'.memory = write s.memory dest ((flat s.memory b).take len) := by
  obtain ⟨s', hcopy, hmem, -⟩ := @netbufCopy_spec b h 0 len dest s
    (by rw [Nat.sub_zero, Nat.min_eq_left hlen]; exact hap)
  exact ⟨_, s', hcopy, hmem⟩

theorem queCopyLoop_spec (hgood : ∀ b ∈ bufs, b.Good) (hlen : len ≤ streamLen bufs) (hsum : copied + len < 2 ^ 32)
    (hap : ApartQue dest len bufs) :
    ∃ s', queCopyLoop bufs len copied dest s = some (copied + len, s') ∧
      s'.memory = write s.memory dest ((stream s.memory bufs).take len) := by
  induction bufs generalizing len copied dest s with
  | nil =>
    obtain rfl : len = 0 := by simpa using hlen
    exact ⟨s, rfl, by simp⟩
  | cons b bufs ih =>
    rw [streamLen_cons] at hlen
    have hb := hgood b List.mem_cons_self
    have hflat := hb.flat_length s.memory
    have hrest : ApartQue dest len bufs := fun b' h' => hap b' (List.mem_cons_of_mem _ h')
    unfold queCopyLoop
    by_cases hzero : len = 0
    · rw [if_pos hzero, hzero]
      exact ⟨s, rfl, by simp⟩
    rw [if_neg hzero]
    by_cases hlong : b.totalSize < len
    · rw [if_pos hlong]
      obtain ⟨n, s₁, hcopy, hmem₁⟩ := @netbufCopy_front b.totalSize dest s b hb (Nat.le_refl _) fun op hop => by
        have := hap b List.mem_cons_self op hop
        unfold Apart at *
        omega
      rw [List.take_of_length_le (by omega)] at hmem₁
      rw [hcopy, Option.bind_some, uint32_of_lt (by omega)]
      obtain ⟨s', hloop, hmem⟩ := @ih (len - b.totalSize) (copied + b.totalSize) (dest + b.totalSize) s₁
        (fun b' h' => hgood b' (List.mem_cons_of_mem _ h')) (by omega) (by omega) (hrest.mono (by omega) (by omega))
      refine ⟨s', by simp only [hloop]; congr 2; omega, ?_⟩
      have hsame : stream (write s.memory dest (flat s.memory b)) bufs = stream s.memory bufs :=
        stream_write (by omega) hrest
      have hfirst : (flat s.memory b).take len = flat s.memory b := List.take_of_length_le (by omega)
      rw [hmem, hmem₁, hsame, stream_cons, List.take_append, hfirst, hflat, write_append, hflat]
    · rw [if_neg hlong]
      obtain ⟨n, s', hcopy, hmem⟩ := @netbufCopy_front len dest s b hb (by omega) fun op hop =>
        hap b List.mem_cons_self op hop
      refine ⟨s', by rw [hcopy, uint32_of_lt hsum]; rfl, ?_⟩
      rw [hmem, stream_cons, List.take_append, hflat, show len - b.totalSize = 0 by omega, List.take_zero, List.append_nil]

/-- The buffer that has the offset. -/
theorem skipQue_spec (hle : cur ≤ offset) (hlt : offset < cur + streamLen bufs) (hsum : cur + streamLen bufs < 2 ^ 32) :
    ∃ pre b rest, bufs = pre ++ b :: rest ∧ cur + streamLen pre ≤ offset ∧ offset < cur + streamLen pre + b.totalSize ∧
      skipQue offset bufs cur = some (b, rest, cur + streamLen pre) := by
  induction bufs generalizing cur with
  | nil =>
    rw [streamLen_nil] at hlt
    omega
  | cons b bufs ih =>
    rw [streamLen_cons] at hlt hsum
    unfold skipQue
    rw [uint32_of_lt (by omega)]
    by_cases hhere : offset < cur + b.totalSize
    · rw [if_pos hhere]
      exact ⟨[], b, bufs, rfl, hle, hhere, rfl⟩
    · rw [if_neg hhere]
      obtain ⟨pre, b', rest, heq, h1, h2, hskip⟩ := ih (show cur + b.totalSize ≤ offset by omega) (by omega) (by omega)
      refine ⟨b :: pre, b', rest, by rw [heq]; rfl, ?_, ?_, ?_⟩
      · rw [streamLen_cons]
        omega
      · rw [streamLen_cons]
        omega
      · rw [hskip, streamLen_cons, Nat.add_assoc]

end

/-- `BufSize` is the length of the stream, and `BufNum` that of the list in 32 bits. -/
structure NetBufQueue.Good (que : NetBufQueue) : Prop where
  bufs : ∀ b ∈ que.bufList, b.Good
  size : que.bufSize = streamLen que.bufList
  lt : que.bufSize < 2 ^ 32
  num : que.bufNum = que.bufList.length % 2 ^ 32

theorem stream_length {bufs : List NetBuf} (hgood : ∀ b ∈ bufs, b.Good) (m : Memory) :
    (stream m bufs).length = streamLen bufs := by
  induction bufs with
  | nil => rfl
  | cons b bufs ih =>
    rw [stream_cons, List.length_append, (hgood b List.mem_cons_self).flat_length, streamLen_cons,
      ih fun b' h' => hgood b' (List.mem_cons_of_mem _ h')]

/-- What is behind an offset in a buffer: the rest of the buffer, and the other buffers. -/
theorem stream_drop {pre rest : List NetBuf} {b : NetBuf} {offset : Nat} (hgood : ∀ b' ∈ pre ++ b :: rest, b'.Good)
    (m : Memory) (hle : streamLen pre ≤ offset) (hlt : offset < streamLen pre + b.totalSize) :
    (stream m (pre ++ b :: rest)).drop offset = (flat m b).drop (offset - streamLen pre) ++ stream m rest := by
  have happend : stream m (pre ++ b :: rest) = stream m pre ++ (flat m b ++ stream m rest) := by simp [stream]
  have hpre := stream_length (fun b' h' => hgood b' (List.mem_append_left _ h')) m
  have hflat := (hgood b (by simp)).flat_length m
  rw [happend, List.drop_append, hpre, List.drop_of_length_le (by omega), List.nil_append, List.drop_append, hflat,
    show offset - streamLen pre - b.totalSize = 0 by omega, List.drop_zero]

section
variable {pre rest : List NetBuf} {b : NetBuf} {offset n dest : Nat} {s : State}

/-- All bytes are in the first buffer. -/
theorem queCopy_one (hgood : ∀ b' ∈ pre ++ b :: rest, b'.Good) (hle : streamLen pre ≤ offset)
    (hlt : offset < streamLen pre + b.totalSize) (hn : n < b.totalSize - (offset - streamLen pre))
    (hap : ApartQue dest n (pre ++ b :: rest)) :
    ∃ s', netbufCopy b (offset - streamLen pre) n dest s = some (n, s') ∧
      s'.memory = write s.memory dest (((stream s.memory (pre ++ b :: rest)).drop offset).take n) := by
  have hb := hgood b (by simp)
  have hflat := hb.flat_length s.memory
  have hmin : min n (b.totalSize - (offset - streamLen pre)) = n := by omega
  obtain ⟨s', hcopy, hmem, -⟩ := @netbufCopy_spec b hb (offset - streamLen pre) n dest s
    (by rw [hmin]; exact hap b (by simp))
  have htake : (((flat s.memory b).drop (offset - streamLen pre)).take n).length = n := by
    rw [List.length_take, List.length_drop, hflat, hmin]
  rw [htake] at hcopy
  refine ⟨s', hcopy, ?_⟩
  rw [hmem, stream_drop hgood _ hle hlt, List.take_append_of_le_length (by rw [List.length_drop]; omega)]

/-- The rest of the first buffer, and more from the others. -/
theorem queCopy_several (hgood : ∀ b' ∈ pre ++ b :: rest, b'.Good) (hle : streamLen pre ≤ offset)
    (hlt : offset < streamLen pre + b.totalSize) (hn : ¬n < b.totalSize - (offset - streamLen pre))
    (hend : n ≤ b.totalSize - (offset - streamLen pre) + streamLen rest) (hsmall : n < 2 ^ 32)
    (hap : ApartQue dest n (pre ++ b :: rest)) :
    ∃ s₁ s' k, netbufCopy b (offset - streamLen pre) (b.totalSize - (offset - streamLen pre)) dest s = some (k, s₁) ∧
      queCopyLoop rest (n - (b.totalSize - (offset - streamLen pre))) (b.totalSize - (offset - streamLen pre))
        (dest + (b.totalSize - (offset - streamLen pre))) s₁ = some (n, s') ∧
      s'.memory = write s.memory dest (((stream s.memory (pre ++ b :: rest)).drop offset).take n) := by
  have hb := hgood b (by simp)
  have hflat := hb.flat_length s.memory
  have hrest : ApartQue dest n rest := fun b' h' => hap b' (by simp [h'])
  have hrestGood : ∀ b' ∈ rest, b'.Good := fun b' h' => hgood b' (by simp [h'])
  rw [stream_drop hgood _ hle hlt]
  have hlength : ((flat s.memory b).drop (offset - streamLen pre)).length = b.totalSize - (offset - streamLen pre) := by
    rw [List.length_drop, hflat]
  generalize hleft : b.totalSize - (offset - streamLen pre) = left at *
  obtain ⟨s₁, hcopy, hmem₁, -⟩ := @netbufCopy_spec b hb (offset - streamLen pre) left dest s fun op hop => by
    have := hap b (by simp) op hop
    unfold Apart at *
    omega
  rw [List.take_of_length_le (Nat.le_of_eq hlength)] at hmem₁
  obtain ⟨s', hloop, hmem⟩ := @queCopyLoop_spec rest (n - left) left (dest + left) s₁ hrestGood (by omega) (by omega)
    (hrest.mono (by omega) (by omega))
  have hsum : left + (n - left) = n := by omega
  rw [hsum] at hloop
  refine ⟨s₁, s', _, hcopy, hloop, ?_⟩
  have hsame : stream s₁.memory rest = stream s.memory rest := by
    rw [hmem₁]
    exact stream_write (by omega) hrest
  have hfirst : ((flat s.memory b).drop (offset - streamLen pre)).take n = (flat s.memory b).drop (offset - streamLen pre) :=
    List.take_of_length_le (by omega)
  rw [hmem, hsame, hmem₁, List.take_append, hfirst, hlength, write_append, hlength]

end

theorem netbufQueCopy_spec {que : NetBufQueue} (h : que.Good) (offset len dest : Nat) (s : State)
    (hap : ApartQue dest (min len (que.bufSize - offset)) que.bufList) :
    ∃ s', netbufQueCopy que offset len dest s =
        some ((((stream s.memory que.bufList).drop offset).take len).length, s') ∧
      s'.memory = write s.memory dest (((stream s.memory que.bufList).drop offset).take len) := by
  have hsize := h.size
  have hlt := h.lt
  have hlength := stream_length h.bufs s.memory
  unfold netbufQueCopy
  by_cases hnone : len = 0 ∨ que.bufSize ≤ offset
  · rw [if_pos hnone]
    have hempty : ((stream s.memory que.bufList).drop offset).take len = [] := by
      rcases hnone with rfl | hge
      · exact List.take_zero
      · rw [List.drop_of_length_le (by omega), List.take_nil]
    rw [hempty]
    exact ⟨s, rfl, (write_nil _ _).symm⟩
  rw [if_neg hnone]
  obtain ⟨pre, b, rest, heq, hle, hlt', hskip⟩ := @skipQue_spec que.bufList offset 0 (Nat.zero_le _) (by omega) (by omega)
  rw [Nat.zero_add] at hle hlt' hskip
  have hsum : que.bufSize = streamLen pre + (b.totalSize + streamLen rest) := by
    rw [hsize, heq, streamLen_append, streamLen_cons]
  have hmin : ((stream s.memory que.bufList).drop offset).take len =
      ((stream s.memory que.bufList).drop offset).take (min len (que.bufSize - offset)) := by
    rw [List.take_eq_take_min, List.length_drop, hlength, hsize]
  have hcount : (((stream s.memory que.bufList).drop offset).take len).length = min len (que.bufSize - offset) := by
    rw [List.length_take, List.length_drop, hlength, hsize]
  rw [hcount, hmin]
  have hgood := h.bufs
  rw [hskip, Option.bind_some]
  simp only
  rw [subtract32_eq hle (by omega), subtract32_eq (by omega) (by omega)]
  generalize hn : min len (que.bufSize - offset) = n at hap ⊢
  rw [heq] at hap hgood ⊢
  by_cases hshort : n < b.totalSize - (offset - streamLen pre)
  · rw [if_pos hshort]
    exact queCopy_one hgood hle hlt' hshort hap
  · rw [if_neg hshort]
    obtain ⟨s₁, s', k, hcopy, hloop, hmem⟩ := @queCopy_several pre rest b offset n dest s hgood hle hlt' hshort
      (by omega) (by omega) hap
    refine ⟨s', ?_, hmem⟩
    rw [hcopy, Option.bind_some, hloop]

end Udk.NetBuffer
