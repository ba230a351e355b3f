import Udk.NetBuffer.Extern

/-! # Network buffers are byte sequences -/

namespace Udk.NetBuffer

open Bytes

/-! ## The buffers that can be built -/

/-- No sum of a fragment wraps. -/
structure FragmentSafe (pool : Allocator) (nbuf : NetBuf) (offset len headSpace : Nat) : Prop where
  pool : pool.Valid
  wrap : offset + len < 2 ^ 32
  headSpace : headSpace < 2 ^ 32
  num : nbuf.blockOps.length + 1 < 2 ^ 32

/-- A buffer after any number of safe operations, on any memory. -/
inductive Built : NetBuf → Prop
  | alloc {pool len nbuf} (hpool : pool.Valid) (hlen : len < 2 ^ 32) (h : netbufAlloc pool len = some nbuf) : Built nbuf
  | clone {pool nbuf copy} (hb : Built nbuf) (h : netbufClone pool nbuf = some copy) : Built copy
  | duplicate {pool nbuf dup headSpace s d s'} (hb : Built nbuf) (hsafe : DuplicateSafe pool nbuf dup headSpace)
      (h : netbufDuplicate pool nbuf dup headSpace s = some (some d, s')) : Built d
  | getFragment {pool nbuf offset len headSpace child} (hb : Built nbuf)
      (hsafe : FragmentSafe pool nbuf offset len headSpace)
      (h : netbufGetFragment pool nbuf offset len headSpace = some (some child)) : Built child
  | fromExt {pool ext headSpace headLen s nbuf s'} (hsafe : ExtSafe pool ext headSpace (pulledLen ext headLen))
      (h : netbufFromExt pool ext headSpace headLen s = some (some nbuf, s')) : Built nbuf
  | fromBufList {pool bufList headSpace headerLen s nbuf s'} (hb : ∀ b ∈ bufList, Built b)
      (hsafe : ListOk pool bufList headSpace headerLen)
      (h : netbufFromBufList pool bufList headSpace headerLen s = some (some nbuf, s')) : Built nbuf
  | allocSpace {nbuf len fromHead p nbuf'} (hb : Built nbuf) (hsafe : nbuf.totalSize + len < 2 ^ 32)
      (h : netbufAllocSpace nbuf len fromHead = some (some p, nbuf')) : Built nbuf'
  | trim {nbuf len fromHead n nbuf'} (hb : Built nbuf) (hsafe : nbuf.totalSize ≠ 0)
      (h : netbufTrim nbuf len fromHead = some (n, nbuf')) : Built nbuf'

theorem Built.good {nbuf : NetBuf} (h : Built nbuf) : nbuf.Good := by
  induction h with
  | alloc hpool hlen h => exact (netbufAlloc_good hpool hlen h).1
  | clone _ h ih =>
    unfold netbufClone at h
    split at h
    · exact Option.some.inj h ▸ ih
    · cases h
  | @duplicate _ _ _ _ s _ _ _ hsafe h ih =>
    obtain ⟨r, s', hr, hd⟩ := netbufDuplicate_spec ih hsafe s
    rw [hr, Option.some.injEq, Prod.mk.injEq] at h
    exact (hd _ h.1).good
  | getFragment _ hsafe h ih =>
    obtain ⟨r, hr, hf⟩ := netbufGetFragment_spec hsafe.pool ih hsafe.num hsafe.headSpace hsafe.wrap
    rw [hr, Option.some.injEq] at h
    exact (hf _ h).good
  | @fromExt _ _ _ _ s _ _ hsafe h =>
    obtain ⟨r, s', hr, he⟩ := netbufFromExt_spec (s := s) hsafe
    rw [hr, Option.some.injEq, Prod.mk.injEq] at h
    exact he.good _ h.1
  | @fromBufList _ _ _ _ s _ _ _ hsafe h ih =>
    obtain ⟨r, s', hr, he⟩ := netbufFromBufList_spec (s := s) hsafe ih
    rw [hr, Option.some.injEq, Prod.mk.injEq] at h
    exact he.good _ h.1
  | @allocSpace _ _ fromHead _ _ _ hsafe h ih =>
    obtain ⟨r, nbuf', hr, -, hs⟩ := @netbufAllocSpace_spec _ _ fromHead ih hsafe
    rw [hr, Option.some.injEq, Prod.mk.injEq] at h
    obtain ⟨rfl, rfl⟩ := h
    exact (hs _ rfl).good
  | @trim _ len fromHead _ _ _ hsafe h ih =>
    obtain ⟨nbuf', hr, hgood, -⟩ := @netbufTrim_spec _ len fromHead ih hsafe
    rw [hr, Option.some.injEq, Prod.mk.injEq] at h
    exact h.2 ▸ hgood

/-! ## What the operations do to the bytes -/

/-- A network buffer is the concatenation of its blocks. -/
structure IsByteSequence (nbuf : NetBuf) : Prop where
  total : nbuf.totalSize = sizes nbuf.blockOps
  inside : ∀ op ∈ nbuf.blockOps, op.blockHead ≤ op.head ∧ op.head + op.size ≤ op.blockTail
  copy : ∀ offset len dest s, (∀ op ∈ nbuf.blockOps, Apart dest (min len (nbuf.totalSize - offset)) op) →
    ∃ s', netbufCopy nbuf offset len dest s = some ((((flat s.memory nbuf).drop offset).take len).length, s') ∧
      s'.memory = write s.memory dest (((flat s.memory nbuf).drop offset).take len) ∧
      Touches dest (min len (nbuf.totalSize - offset)) nbuf.blockOps s s'
  clone : ∀ pool copy, netbufClone pool nbuf = some copy → ∀ m, flat m copy = flat m nbuf
  duplicate : ∀ pool dup headSpace s, DuplicateSafe pool nbuf dup headSpace →
    ∃ r s', netbufDuplicate pool nbuf dup headSpace s = some (r, s') ∧ ∀ d, r = some d → IsDuplicate nbuf d s s'
  getFragment : ∀ pool offset len headSpace, FragmentSafe pool nbuf offset len headSpace →
    ∃ r, netbufGetFragment pool nbuf offset len headSpace = some r ∧
      ∀ child, r = some child → IsFragment pool nbuf offset len headSpace child
  allocSpace : ∀ len fromHead, nbuf.totalSize + len < 2 ^ 32 →
    ∃ r nbuf', netbufAllocSpace nbuf len fromHead = some (r, nbuf') ∧ (r = none → nbuf' = nbuf) ∧
      ∀ p, r = some p → HasSpace nbuf len fromHead p nbuf'
  trim : ∀ len fromHead, nbuf.totalSize ≠ 0 →
    ∃ nbuf', netbufTrim nbuf len fromHead = some (min len nbuf.totalSize, nbuf') ∧
      ∀ m, flat m nbuf' = trimBytes (flat m nbuf) len fromHead

/-- Every buffer is a byte sequence, and what is built from blocks or from buffers has their bytes. -/
theorem netbuf_is_byte_sequence (pool : Allocator) :
    (∀ nbuf, Built nbuf → IsByteSequence nbuf) ∧
    (∀ ext headSpace headLen s, ExtSafe pool ext headSpace (pulledLen ext headLen) →
      ∃ r s', netbufFromExt pool ext headSpace headLen s = some (r, s') ∧ IsExt pool ext s s' r) ∧
    ∀ bufList headSpace headerLen s, (∀ nbuf ∈ bufList, Built nbuf) → ListOk pool bufList headSpace headerLen →
      ∃ r s', netbufFromBufList pool bufList headSpace headerLen s = some (r, s') ∧
        IsExt pool (bufList.flatMap fragmentsOf) s s' r ∧
        ∀ nbuf, r = some nbuf → flat s'.memory nbuf = bufList.flatMap (flat s.memory) := by
  refine ⟨fun nbuf hb => ?_, ?_, ?_⟩
  · have h := hb.good
    refine ⟨h.total, fun op hop => ⟨(h.ops op hop).head, ?_⟩, ?_, ?_, ?_, ?_, ?_, ?_⟩
    · have h1 := (h.ops op hop).tail
      have h2 := (h.ops op hop).blockTail
      omega
    · exact fun offset len dest s hap => netbufCopy_spec h s hap
    · intro pool copy hcopy m
      unfold netbufClone at hcopy
      split at hcopy
      · rw [Option.some.inj hcopy]
      · cases hcopy
    · exact fun pool dup headSpace s hsafe => netbufDuplicate_spec h hsafe s
    · exact fun pool offset len headSpace hsafe =>
        netbufGetFragment_spec hsafe.pool h hsafe.num hsafe.headSpace hsafe.wrap
    · exact fun len fromHead hsum => netbufAllocSpace_spec h hsum
    · intro len fromHead hpos
      obtain ⟨nbuf', htrim, -, -, hflat⟩ := @netbufTrim_spec nbuf len fromHead h hpos
      exact ⟨nbuf', htrim, hflat⟩
  · exact fun ext headSpace headLen s hext => netbufFromExt_spec hext
  · intro bufList headSpace headerLen s hb hok
    obtain ⟨r, s', hr, he⟩ := netbufFromBufList_spec (s := s) hok fun nbuf hn => (hb nbuf hn).good
    refine ⟨r, s', hr, he, fun nbuf hn => ?_⟩
    rw [he.flat nbuf hn, extBytes_bufList]

/-! ## Runs -/

/-- A pool that has its blocks at 2000. -/
def samplePool : Allocator := ⟨true, fun n => if n < 100 then some 2000 else none⟩

theorem samplePool_valid : samplePool.Valid := by
  intro n p h
  simp only [samplePool] at h
  split at h
  · obtain rfl := Option.some.inj h
    omega
  · cases h

/-- Ten bytes in the middle of a block of 30. -/
def sampleBuf : NetBuf := ⟨10, [⟨2000, 2030, 2004, 2014, 10⟩]⟩

theorem built_sampleBuf : Built sampleBuf := by
  have h1 : Built ⟨0, [⟨2000, 2030, 2000, 2000, 0⟩]⟩ := .alloc samplePool_valid (show 30 < 2 ^ 32 by decide) rfl
  have h2 : Built ⟨14, [⟨2000, 2030, 2000, 2014, 14⟩]⟩ :=
    .allocSpace h1 (show 0 + 14 < 2 ^ 32 by decide)
      (show netbufAllocSpace _ 14 false = some (some 2000, _) by decide +kernel)
  exact .trim h2 (show 14 ≠ 0 by decide) (show netbufTrim _ 4 true = some (4, _) by decide +kernel)

/-- A fragment of the last six bytes, with head space. -/
example : netbufGetFragment samplePool sampleBuf 4 6 8 =
    some (some ⟨6, [⟨2000, 2008, 2008, 2008, 0⟩, ⟨2008, 2014, 2008, 2014, 6⟩]⟩) := by
  decide +kernel

/-- Three bytes of its head space, and the six bytes. -/
def twoBlocks : NetBuf := ⟨9, [⟨2000, 2008, 2005, 2008, 3⟩, ⟨2008, 2014, 2008, 2014, 6⟩]⟩

theorem built_twoBlocks : Built twoBlocks := by
  have h1 : Built ⟨6, [⟨2000, 2008, 2008, 2008, 0⟩, ⟨2008, 2014, 2008, 2014, 6⟩]⟩ :=
    .getFragment built_sampleBuf ⟨samplePool_valid, by decide, by decide, by decide⟩
      (show netbufGetFragment samplePool sampleBuf 4 6 8 = some (some _) by decide +kernel)
  exact .allocSpace h1 (show 6 + 3 < 2 ^ 32 by decide)
    (show netbufAllocSpace _ 3 true = some (some 2005, _) by decide +kernel)

theorem netbuf_is_byte_sequence_sample :
    IsByteSequence sampleBuf ∧
    ∃ r s', netbufFromBufList ⟨true, fun _ => none⟩ [sampleBuf, sampleBuf] 0 0 ⟨UInt8.ofNat, []⟩ = some (r, s') ∧
      IsExt ⟨true, fun _ => none⟩ ([sampleBuf, sampleBuf].flatMap fragmentsOf) ⟨UInt8.ofNat, []⟩ s' r ∧
      ∀ nbuf, r = some nbuf → flat s'.memory nbuf = [sampleBuf, sampleBuf].flatMap (flat UInt8.ofNat) := by
  have hb : ∀ nbuf ∈ [sampleBuf, sampleBuf], Built nbuf := by
    intro nbuf hn
    simp only [List.mem_cons, List.not_mem_nil, or_false, or_self] at hn
    exact hn ▸ built_sampleBuf
  refine ⟨(netbuf_is_byte_sequence ⟨true, fun _ => none⟩).1 _ built_sampleBuf,
    (netbuf_is_byte_sequence ⟨true, fun _ => none⟩).2.2 _ _ _ _ hb ?_⟩
  exact ⟨by decide, by decide, by decide, by decide, nofun⟩

/-- `Offset + Len` wraps: the fragment has more bytes than its blocks. A buffer without bytes: the trim runs past the
array. -/
theorem fragment_wraps_and_trim_overruns :
    (∃ child, netbufGetFragment samplePool sampleBuf 4 (2 ^ 32 - 2) 0 = some (some child) ∧
      child.totalSize ≠ sizes child.blockOps) ∧
    ∃ nbuf, netbufAlloc samplePool 20 = some nbuf ∧ netbufTrim nbuf 5 true = none := by
  refine ⟨⟨⟨2 ^ 32 - 2, [⟨2008, 2014, 2008, 2014, 6⟩]⟩, by decide +kernel, by decide⟩, ?_⟩
  exact ⟨⟨0, [⟨2000, 2020, 2000, 2000, 0⟩]⟩, rfl, rfl⟩

end Udk.NetBuffer
