import Udk.NetBuffer.Fragment
import Udk.NetBuffer.Ends

/-! # Network buffers from external blocks -/

namespace Udk.NetBuffer

open Bytes

def extBytes (m : Memory) (ext : List NetFragment) : List UInt8 := ext.flatMap fun f => read m f.bulk f.len

def extLen (ext : List NetFragment) : Nat := (ext.map NetFragment.len).sum

@[simp] theorem extBytes_nil (m : Memory) : extBytes m [] = [] := rfl

@[simp] theorem extBytes_cons (m : Memory) (f : NetFragment) (fs : List NetFragment) :
    extBytes m (f :: fs) = read m f.bulk f.len ++ extBytes m fs := by
  simp [extBytes]

@[simp] theorem extLen_nil : extLen [] = 0 := rfl

@[simp] theorem extLen_cons (f : NetFragment) (fs : List NetFragment) : extLen (f :: fs) = f.len + extLen fs := by
  simp [extLen]

@[simp] theorem extBytes_length (m : Memory) (ext : List NetFragment) : (extBytes m ext).length = extLen ext := by
  induction ext with
  | nil => rfl
  | cons f fs ih => simp [ih]

/-- The fragment is a part of another one. -/
def NetFragment.Inside (f f' : NetFragment) : Prop := f'.bulk ≤ f.bulk ∧ f.bulk + f.len ≤ f'.bulk + f'.len

/-- The bytes of the fragment are not in the range. -/
def NetFragment.Apart (dest n : Nat) (f : NetFragment) : Prop := f.bulk + f.len ≤ dest ∨ dest + n ≤ f.bulk

theorem extBytes_write {m : Memory} {ext : List NetFragment} {dest n : Nat} {bs : List UInt8} (hn : bs.length ≤ n)
    (h : ∀ f ∈ ext, f.Apart dest n) : extBytes (write m dest bs) ext = extBytes m ext := by
  induction ext with
  | nil => rfl
  | cons f fs ih =>
    rw [extBytes_cons, extBytes_cons, ih fun f' h' => h f' (List.mem_cons_of_mem _ h')]
    congr 1
    refine read_congr _ _ _ _ fun i h1 h2 => write_outside _ _ _ _ ?_
    have := h f List.mem_cons_self
    unfold NetFragment.Apart at this
    omega

/-! ## The header -/

/-- The header was copied, and the fragments that are left have the bytes behind it. -/
structure HeaderCopied (fs : List NetFragment) (len header : Nat) (s : State) (h : Headed) : Prop where
  copied : h.copied = min len (extLen fs)
  memory : h.state.memory = write s.memory header ((extBytes s.memory fs).take len)
  rest : ∀ m, extBytes m h.fragments = (extBytes m fs).drop len
  count : h.fragments.length + h.consumed = fs.length
  inside : ∀ f ∈ h.fragments, ∃ f' ∈ fs, f.Inside f'
  touched : ∀ t ∈ h.state.touched, t ∈ s.touched ∨ Within header len t ∨ ∃ f ∈ fs, Within f.bulk f.len t

theorem copyMem_touched {header len bulk k n : Nat} {s : State} (hk : k ≤ len) (hn : k ≤ n) :
    ∀ t ∈ (copyMem header bulk k s).touched, t ∈ s.touched ∨ Within header len t ∨ Within bulk n t := by
  intro t ht
  simp only [copyMem, List.mem_cons] at ht
  rcases ht with rfl | rfl | h
  · exact .inr (.inl ⟨Nat.le_refl _, by simp only; omega⟩)
  · exact .inr (.inr ⟨Nat.le_refl _, by simp only; omega⟩)
  · exact .inl h

theorem copyHeader_spec {fs : List NetFragment} {len header : Nat} {s : State} (hap : ∀ f ∈ fs, f.Apart header len) :
    HeaderCopied fs len header s (copyHeader fs len header s) := by
  induction fs generalizing len header s with
  | nil => exact ⟨by simp [copyHeader], by simp [copyHeader], by simp [copyHeader], rfl, nofun, fun t => .inl⟩
  | cons f fs ih =>
    unfold copyHeader
    by_cases hwhole : f.len ≤ len
    · rw [if_pos hwhole]
      have htouch := @copyMem_touched header len f.bulk f.len f.len s hwhole (Nat.le_refl _)
      by_cases hlast : len - f.len = 0
      · obtain rfl : len = f.len := by omega
        simp only [Nat.sub_self, if_true]
        refine ⟨?_, ?_, fun m => ?_, rfl, fun f' h' => ?_, fun t ht => ?_⟩
        · simp
        · simp only [copyMem]
          rw [extBytes_cons, List.take_left' (read_length _ _ _)]
        · rw [extBytes_cons, List.drop_left' (read_length _ _ _)]
        · exact ⟨f', List.mem_cons_of_mem _ h', Nat.le_refl _, Nat.le_refl _⟩
        · exact (htouch t ht).imp_right fun h => h.imp_right fun h => ⟨f, List.mem_cons_self, h⟩
      · simp only [hlast, if_false]
        have h := @ih (len - f.len) (header + f.len) (copyMem header f.bulk f.len s) fun f' h' => by
          have := hap f' (List.mem_cons_of_mem _ h')
          unfold NetFragment.Apart at *
          omega
        refine ⟨?_, ?_, fun m => ?_, ?_, fun f' h' => ?_, fun t ht => ?_⟩
        · simp only [h.copied, extLen_cons]
          omega
        · have hsame : extBytes (write s.memory header (read s.memory f.bulk f.len)) fs = extBytes s.memory fs :=
            extBytes_write (n := len) (by rw [read_length]; exact hwhole) fun f' h' => hap f' (List.mem_cons_of_mem _ h')
          have hfirst : (read s.memory f.bulk f.len).take len = read s.memory f.bulk f.len :=
            List.take_of_length_le (by rw [read_length]; exact hwhole)
          rw [h.memory]
          simp only [copyMem]
          rw [hsame, extBytes_cons, List.take_append, hfirst, write_append, read_length]
        · have hfirst : (read m f.bulk f.len).drop len = [] :=
            List.drop_of_length_le (by rw [read_length]; exact hwhole)
          rw [h.rest, extBytes_cons, List.drop_append, read_length, hfirst, List.nil_append]
        · simp only [List.length_cons, ← h.count]
          omega
        · obtain ⟨g, hg, hin⟩ := h.inside f' h'
          exact ⟨g, List.mem_cons_of_mem _ hg, hin⟩
        · rcases h.touched t ht with h | h | ⟨g, hg, h⟩
          · exact (htouch t h).imp_right fun h => h.imp_right fun h => ⟨f, List.mem_cons_self, h⟩
          · refine .inr (.inl ?_)
            unfold Within at *
            omega
          · exact .inr (.inr ⟨g, List.mem_cons_of_mem _ hg, h⟩)
    · rw [if_neg hwhole]
      have htouch := @copyMem_touched header len f.bulk len f.len s (Nat.le_refl _) (by omega)
      refine ⟨?_, ?_, fun m => ?_, rfl, fun f' h' => ?_, fun t ht => ?_⟩
      · simp only [extLen_cons]
        omega
      · simp only [copyMem]
        rw [extBytes_cons, List.take_append, read_length, show len - f.len = 0 by omega, List.take_zero,
          List.append_nil, read_take _ _ _ _ (by omega)]
      · rw [extBytes_cons, extBytes_cons, List.drop_append, read_drop, read_length, show len - f.len = 0 by omega,
          List.drop_zero]
      · rcases List.mem_cons.mp h' with rfl | h'
        · exact ⟨f, List.mem_cons_self, by simp only; omega, by simp only; omega⟩
        · exact ⟨f', List.mem_cons_of_mem _ h', Nat.le_refl _, Nat.le_refl _⟩
      · exact (htouch t ht).imp_right fun h => h.imp_right fun h => ⟨f, List.mem_cons_self, h⟩

theorem HeaderCopied.none (fs : List NetFragment) (header : Nat) (s : State) :
    HeaderCopied fs 0 header s ⟨fs, 0, 0, s⟩ :=
  ⟨by simp, by simp, fun _ => rfl, rfl, fun f h => ⟨f, h, Nat.le_refl _, Nat.le_refl _⟩, fun _ => .inl⟩

/-! ## `NetbufFromExt` -/

/-- How many bytes of header are copied to the first block. -/
def pulledLen (ext : List NetFragment) (headLen : Nat) : Nat :=
  match ext with
  | [] => 0
  | f :: fs => if headLen ≤ f.len ∨ fs = [] then 0 else headLen

theorem pulledLen_le (ext : List NetFragment) (headLen : Nat) : pulledLen ext headLen ≤ headLen := by
  unfold pulledLen
  split
  · exact Nat.zero_le _
  · split
    · exact Nat.zero_le _
    · exact Nat.le_refl _

theorem lt_pulledLen {f : NetFragment} {fs : List NetFragment} {headLen : Nat} (h : pulledLen (f :: fs) headLen ≠ 0) :
    pulledLen (f :: fs) headLen = headLen ∧ f.len ≤ pulledLen (f :: fs) headLen := by
  unfold pulledLen at *
  simp only at h ⊢
  split at h
  · exact absurd rfl h
  · rename_i hnot
    rw [if_neg hnot]
    exact ⟨rfl, by omega⟩

/-- What a buffer over the fragments is, and what was done to the memory for it. -/
structure IsExt (pool : Allocator) (ext : List NetFragment) (s s' : State) (r : Option NetBuf) : Prop where
  touched : ∀ t ∈ s'.touched, t ∈ s.touched ∨ (∃ f ∈ ext, Within f.bulk f.len t) ∨
    ∃ n p, pool.bulk n = some p ∧ Within p n t
  memory : ∀ i, s'.memory i = s.memory i ∨ ∃ n p, pool.bulk n = some p ∧ p ≤ i ∧ i < p + n
  good : ∀ nbuf, r = some nbuf → nbuf.Good
  flat : ∀ nbuf, r = some nbuf → flat s'.memory nbuf = extBytes s.memory ext
  blocks : ∀ nbuf, r = some nbuf → ∀ op ∈ nbuf.blockOps,
    (∃ f ∈ ext, f.bulk ≤ op.blockHead ∧ op.blockTail ≤ f.bulk + f.len) ∨
      ∃ n, pool.bulk n = some op.blockHead ∧ op.blockTail ≤ op.blockHead + n

theorem IsExt.null {pool : Allocator} {ext : List NetFragment} {s : State} : IsExt pool ext s s none :=
  ⟨fun _ => .inl, fun _ => .inl rfl, nofun, nofun, nofun⟩

theorem len_le_extLen {ext : List NetFragment} {f : NetFragment} (h : f ∈ ext) : f.len ≤ extLen ext := by
  induction ext with
  | nil => cases h
  | cons g fs ih =>
    rw [extLen_cons]
    rcases List.mem_cons.mp h with rfl | h
    · omega
    · have := ih h
      omega

theorem sizes_setBlockOp (fs : List NetFragment) : sizes (fs.map fun f => setBlockOp f.bulk f.len) = extLen fs := by
  rw [sizes, List.map_map]
  rfl

theorem flatOps_fragments (m : Memory) (fs : List NetFragment) :
    flatOps m (fs.map fun f => setBlockOp f.bulk f.len) = extBytes m fs := by
  induction fs with
  | nil => rfl
  | cons f fs ih =>
    rw [List.map_cons, flatOps_cons, extBytes_cons, ih]
    rfl

/-- No sum wraps when `len` bytes of header are copied to the first block, and the pool has other memory. -/
structure ExtSafe (pool : Allocator) (ext : List NetFragment) (headSpace len : Nat) : Prop where
  nonempty : ext ≠ []
  total : extLen ext < 2 ^ 32
  num : ext.length < 2 ^ 32
  room : len = 0 → headSpace ≠ 0 → ext.length + 1 < 2 ^ 32
  head : len + headSpace < 2 ^ 32
  pointer : ∀ f ∈ ext, f.bulk + f.len < 2 ^ 64
  fresh : ∀ n p, pool.bulk n = some p → p + n < 2 ^ 64 ∧ ∀ f ∈ ext, f.Apart p n

/-- The block with the head space and the header. -/
def headBlock (bulk headSpace copied : Nat) : BlockOp :=
  ⟨bulk, bulk + (headSpace + copied), bulk + headSpace, bulk + (headSpace + copied), copied⟩

section
variable {pool : Allocator} {ext : List NetFragment} {headSpace len : Nat} {s : State} {h : Headed}

theorem fragments_good (hext : ExtSafe pool ext headSpace len) (hin : ∀ f ∈ h.fragments, ∃ f' ∈ ext, f.Inside f') :
    ∀ op ∈ h.fragments.map (fun f => setBlockOp f.bulk f.len),
      op.Good ∧ ∃ f ∈ ext, f.bulk ≤ op.blockHead ∧ op.blockTail ≤ f.bulk + f.len := by
  intro op hop
  obtain ⟨f, hf, rfl⟩ := List.mem_map.mp hop
  obtain ⟨f', hf', hin1, hin2⟩ := hin f hf
  have hpointer := hext.pointer f' hf'
  have hlen := len_le_extLen hf'
  have htotal := hext.total
  exact ⟨setBlockOp_good (by omega) (by omega), f', hf', hin1, hin2⟩

theorem buildExt_none_eq (hext : ExtSafe pool ext headSpace len) :
    buildExt pool none 0 0 (uint32 ext.length) ⟨ext, 0, 0, s⟩ =
      some (if pool.structs then some ⟨extLen ext, ext.map fun f => setBlockOp f.bulk f.len⟩ else none, s) := by
  have hnum := hext.num
  have htotal : uint32 (0 + (ext.map NetFragment.len).sum) = extLen ext := by
    rw [Nat.zero_add]
    exact uint32_of_lt hext.total
  unfold buildExt
  split
  · simp only [List.nil_append, htotal]
    rw [childOps_eq (by rw [List.length_map, uint32_of_lt (by omega)])]
    rfl
  · rfl

/-- Without a block for the header the buffer has the fragments themselves. -/
theorem buildExt_none (hext : ExtSafe pool ext headSpace len) :
    ∃ r, buildExt pool none 0 0 (uint32 ext.length) ⟨ext, 0, 0, s⟩ = some (r, s) ∧ IsExt pool ext s s r := by
  have hops := @fragments_good pool ext headSpace len ⟨ext, 0, 0, s⟩ hext
    fun f hf => ⟨f, hf, Nat.le_refl _, Nat.le_refl _⟩
  have hpos := List.length_pos_of_ne_nil hext.nonempty
  refine ⟨_, buildExt_none_eq hext, fun _ => .inl, fun _ => .inl rfl, ?_, ?_, ?_⟩
  all_goals
    intro nbuf hn
    split at hn
    on_goal 2 => cases hn
    obtain rfl := Option.some.inj hn
  · refine ⟨fun op hop => (hops op hop).1, (sizes_setBlockOp ext).symm, hext.total, ?_, ?_⟩
    · exact List.ne_nil_of_length_pos (by simpa using hpos)
    · simp only [List.length_map]
      exact hext.num
  · exact flatOps_fragments _ _
  · exact fun op hop => .inl (hops op hop).2

theorem HeaderCopied.extLen_eq {header : Nat} (hc : HeaderCopied ext len header s h) :
    h.copied + extLen h.fragments = extLen ext := by
  have hcopied := hc.copied
  have hrest := congrArg List.length (hc.rest s.memory)
  rw [extBytes_length, List.length_drop, extBytes_length] at hrest
  omega

theorem buildExt_some_eq (hext : ExtSafe pool ext headSpace len) {bulk : Nat} (hpos : len + headSpace ≠ 0)
    (hc : HeaderCopied ext len (bulk + headSpace) s h) (hconsumed : len ≠ 0 → h.consumed ≠ 0) :
    buildExt pool (some bulk) (len + headSpace) headSpace (subtract32 (ext.length + 1) h.consumed) h =
      some (if pool.structs then
        some ⟨extLen ext, headBlock bulk headSpace h.copied :: h.fragments.map fun f => setBlockOp f.bulk f.len⟩
        else none, h.state) := by
  have hnum := hext.num
  have hroom := hext.room
  have hhead := hext.head
  have hlen := hext.total
  have hcopied := hc.copied
  have hcount := hc.count
  have hsum : uint32 (headSpace + h.copied) = headSpace + h.copied := uint32_of_lt (by omega)
  have hsize : uint32 h.copied = h.copied := uint32_of_lt (by omega)
  have htotal : uint32 (h.copied + (h.fragments.map NetFragment.len).sum) = extLen ext := by
    rw [← hc.extLen_eq]
    exact uint32_of_lt (by rw [← hc.extLen_eq] at hlen; exact hlen)
  unfold buildExt
  split
  · simp only [hsum, hsize, htotal, List.singleton_append]
    rw [childOps_eq (by rw [List.length_cons, List.length_map]; unfold subtract32; omega)]
    rfl
  · rfl

/-- The first block has the head space and the header. -/
theorem buildExt_some (hext : ExtSafe pool ext headSpace len) {bulk : Nat}
    (hpos : len + headSpace ≠ 0) (hbulk : pool.bulk (len + headSpace) = some bulk)
    (hc : HeaderCopied ext len (bulk + headSpace) s h) (hconsumed : len ≠ 0 → h.consumed ≠ 0) :
    ∃ r, buildExt pool (some bulk) (len + headSpace) headSpace (subtract32 (ext.length + 1) h.consumed) h =
      some (r, h.state) ∧ IsExt pool ext s h.state r := by
  have hnum := hext.num
  have hlen := hext.total
  have hhead := hext.head
  have hcopied := hc.copied
  have hcount := hc.count
  have hcopiedLe : h.copied ≤ len := by omega
  obtain ⟨hpointer, hfresh⟩ := hext.fresh _ _ hbulk
  have htake : ((extBytes s.memory ext).take len).length = h.copied := by
    rw [List.length_take, extBytes_length, hcopied]
  have hops := fragments_good hext hc.inside
  have hfirst : (headBlock bulk headSpace h.copied).Good := by
    refine ⟨Nat.le_add_right _ _, ?_, Nat.le_refl _, ?_, ?_⟩
    all_goals
      simp only [headBlock]
      omega
  refine ⟨_, buildExt_some_eq hext hpos hc hconsumed, fun t ht => ?_, fun i => ?_, ?_, ?_, ?_⟩
  · rcases hc.touched t ht with h' | h' | h'
    · exact .inl h'
    · refine .inr (.inr ⟨_, _, hbulk, ?_⟩)
      unfold Within at *
      omega
    · exact .inr (.inl h')
  · by_cases hi : bulk ≤ i ∧ i < bulk + (len + headSpace)
    · exact .inr ⟨_, _, hbulk, hi⟩
    · refine .inl ?_
      rw [hc.memory]
      exact write_outside _ _ _ _ (by omega)
  all_goals
    intro nbuf hn
    split at hn
    on_goal 2 => cases hn
    obtain rfl := Option.some.inj hn
  · refine ⟨fun op hop => ?_, ?_, hlen, List.cons_ne_nil _ _, ?_⟩
    · rcases List.mem_cons.mp hop with rfl | hop
      · exact hfirst
      · exact (hops op hop).1
    · rw [sizes_cons, sizes_setBlockOp]
      exact hc.extLen_eq.symm
    · have hroom := hext.room
      simp only [List.length_cons, List.length_map]
      omega
  · have hheader : read h.state.memory (bulk + headSpace) h.copied = (extBytes s.memory ext).take len := by
      have hat := write_at s.memory (bulk + headSpace) ((extBytes s.memory ext).take len)
      rw [At, htake] at hat
      rw [hc.memory, hat]
    have hsame : extBytes h.state.memory h.fragments = extBytes s.memory h.fragments := by
      rw [hc.memory]
      refine @extBytes_write _ _ _ len _ (by rw [htake]; exact hcopiedLe) fun f hf => ?_
      obtain ⟨f', hf', hin1, hin2⟩ := hc.inside f hf
      have hap := hfresh f' hf'
      unfold NetFragment.Apart at *
      omega
    show read h.state.memory (bulk + headSpace) h.copied ++ flatOps _ _ = _
    rw [flatOps_fragments, hheader, hsame, hc.rest, List.take_append_drop]
  · intro op hop
    rcases List.mem_cons.mp hop with rfl | hop
    · exact .inr ⟨_, hbulk, by simp only [headBlock]; omega⟩
    · exact .inl (hops op hop).2

/-- A header that is longer than the first fragment takes it whole. -/
theorem copyHeader_consumed {f : NetFragment} {fs : List NetFragment} {header : Nat} (hle : f.len ≤ len) :
    (copyHeader (f :: fs) len header s).consumed ≠ 0 := by
  unfold copyHeader
  rw [if_pos hle]
  split
  · exact Nat.one_ne_zero
  · exact Nat.succ_ne_zero _

/-- A buffer that is built from external blocks has their bytes. -/
theorem netbufFromExt_spec {headLen : Nat} (hext : ExtSafe pool ext headSpace (pulledLen ext headLen)) :
    ∃ r s', netbufFromExt pool ext headSpace headLen s = some (r, s') ∧ IsExt pool ext s s' r := by
  obtain ⟨f, fs, rfl⟩ := List.exists_cons_of_ne_nil hext.nonempty
  have hhead := hext.head
  have hfirst : pulledLen (f :: fs) headLen ≠ 0 → f.len ≤ pulledLen (f :: fs) headLen := fun hne => (lt_pulledLen hne).2
  unfold netbufFromExt
  simp only
  rw [show (if headLen ≤ f.len ∨ fs = [] then 0 else headLen) = pulledLen (f :: fs) headLen from rfl]
  generalize pulledLen (f :: fs) headLen = len at *
  by_cases hnone : headSpace = 0 ∧ len = 0
  · rw [if_pos hnone]
    obtain ⟨r, hr, hext'⟩ := @buildExt_none pool (f :: fs) headSpace len s hext
    exact ⟨r, s, hr, hext'⟩
  rw [if_neg hnone, uint32_of_lt (by omega)]
  cases hbulk : pool.bulk (len + headSpace) with
  | none => exact ⟨none, s, rfl, IsExt.null⟩
  | some bulk =>
    have hap : ∀ g ∈ f :: fs, g.Apart (bulk + headSpace) len := by
      intro g hg
      have := (hext.fresh _ _ hbulk).2 g hg
      unfold NetFragment.Apart at *
      omega
    have hc : HeaderCopied (f :: fs) len (bulk + headSpace) s
        (if len = 0 then ⟨f :: fs, 0, 0, s⟩ else copyHeader (f :: fs) len (bulk + headSpace) s) := by
      split
      · rename_i hzero
        rw [hzero]
        exact .none _ _ _
      · exact copyHeader_spec hap
    obtain ⟨r, hr, hext'⟩ := buildExt_some hext (by omega) hbulk hc fun hne => by
      rw [if_neg hne]
      exact copyHeader_consumed (hfirst hne)
    exact ⟨r, _, hr, hext'⟩

end

/-! ## `NetbufFromBufList` -/

theorem extBytes_fragmentsOf (m : Memory) (nbuf : NetBuf) : extBytes m (fragmentsOf nbuf) = flat m nbuf := by
  unfold fragmentsOf flat
  induction nbuf.blockOps with
  | nil => rfl
  | cons op ops ih =>
    rw [flatOps_cons, ← ih, List.filter_cons]
    by_cases hzero : op.size = 0
    · have hnone : op.bytes m = [] := by rw [BlockOp.bytes, hzero]; rfl
      simp [hzero, hnone]
    · simp only [hzero, ne_eq, not_false_eq_true, decide_true, if_true, List.map_cons, extBytes_cons]
      rfl

theorem extBytes_append (m : Memory) (xs ys : List NetFragment) :
    extBytes m (xs ++ ys) = extBytes m xs ++ extBytes m ys := by
  simp [extBytes]

theorem extBytes_bufList (m : Memory) (bufList : List NetBuf) :
    extBytes m (bufList.flatMap fragmentsOf) = bufList.flatMap (flat m) := by
  induction bufList with
  | nil => rfl
  | cons nbuf bufList ih => rw [List.flatMap_cons, List.flatMap_cons, extBytes_append, extBytes_fragmentsOf, ih]

theorem length_fragmentsOf (nbuf : NetBuf) : (fragmentsOf nbuf).length ≤ nbuf.blockOps.length := by
  rw [fragmentsOf, List.length_map]
  exact List.length_filter_le _ _

theorem length_bufList (bufList : List NetBuf) :
    (bufList.flatMap fragmentsOf).length ≤ (bufList.map fun nbuf => nbuf.blockOps.length).sum := by
  induction bufList with
  | nil => exact Nat.le_refl _
  | cons nbuf bufList ih =>
    have := length_fragmentsOf nbuf
    rw [List.flatMap_cons, List.length_append, List.map_cons, List.sum_cons]
    omega

/-- The list has bytes, its sums do not wrap, and the pool has other memory. -/
structure ListOk (pool : Allocator) (bufList : List NetBuf) (headSpace headerLen : Nat) : Prop where
  bytes : (bufList.map NetBuf.totalSize).sum ≠ 0
  len : (bufList.map NetBuf.totalSize).sum < 2 ^ 32
  num : (bufList.map fun nbuf => nbuf.blockOps.length).sum + 1 < 2 ^ 32
  head : pulledLen (bufList.flatMap fragmentsOf) headerLen + headSpace < 2 ^ 32
  fresh : ∀ n p, pool.bulk n = some p → p + n < 2 ^ 64 ∧ ∀ nbuf ∈ bufList, ∀ op ∈ nbuf.blockOps, Apart p n op

theorem extLen_bufList {bufList : List NetBuf} (h : ∀ nbuf ∈ bufList, nbuf.Good) :
    extLen (bufList.flatMap fragmentsOf) = (bufList.map NetBuf.totalSize).sum := by
  rw [← extBytes_length fun _ => 0, extBytes_bufList, List.length_flatMap]
  congr 1
  refine List.map_congr_left fun nbuf hn => ?_
  rw [flat, flatOps_length, (h nbuf hn).total]

theorem ListOk.ext {pool : Allocator} {bufList : List NetBuf} {headSpace headerLen : Nat}
    (h : ListOk pool bufList headSpace headerLen) (hgood : ∀ nbuf ∈ bufList, nbuf.Good) :
    ExtSafe pool (bufList.flatMap fragmentsOf) headSpace (pulledLen (bufList.flatMap fragmentsOf) headerLen) := by
  have hlen := extLen_bufList hgood
  have hlength := length_bufList bufList
  have hnum := h.num
  have hop : ∀ f ∈ bufList.flatMap fragmentsOf, ∃ nbuf ∈ bufList, ∃ op ∈ nbuf.blockOps, f = ⟨op.size, op.head⟩ := by
    intro f hf
    obtain ⟨nbuf, hn, hf⟩ := List.mem_flatMap.mp hf
    obtain ⟨op, hop, rfl⟩ := List.mem_map.mp hf
    exact ⟨nbuf, hn, op, (List.mem_filter.mp hop).1, rfl⟩
  refine ⟨?_, by rw [hlen]; exact h.len, by omega, fun _ _ => by omega, h.head, ?_, fun n p hp => ⟨(h.fresh n p hp).1, ?_⟩⟩
  · intro hnil
    rw [hnil] at hlen
    exact h.bytes hlen.symm
  · intro f hf
    obtain ⟨nbuf, hn, op, hop, rfl⟩ := hop f hf
    have hgood := (hgood nbuf hn).ops op hop
    have h1 := hgood.tail
    have h2 := hgood.blockTail
    have h3 := hgood.pointer
    simp only
    omega
  · intro f hf
    obtain ⟨nbuf, hn, op, hop, rfl⟩ := hop f hf
    exact (h.fresh n p hp).2 nbuf hn op hop

/-- A buffer that is built from a list of buffers has their bytes, in the order of the list. -/
theorem netbufFromBufList_spec {pool : Allocator} {bufList : List NetBuf} {headSpace headerLen : Nat} {s : State}
    (h : ListOk pool bufList headSpace headerLen) (hgood : ∀ nbuf ∈ bufList, nbuf.Good) :
    ∃ r s', netbufFromBufList pool bufList headSpace headerLen s = some (r, s') ∧
      IsExt pool (bufList.flatMap fragmentsOf) s s' r := by
  have hnum := h.num
  have hlength := length_bufList bufList
  unfold netbufFromBufList
  split
  · simp only
    rw [uint32_of_lt (by omega), if_pos hlength]
    exact netbufFromExt_spec (h.ext hgood)
  · exact ⟨none, s, rfl, IsExt.null⟩

/-! ## `NetbufDuplicate` -/

/-- An empty buffer of one block with room for the head space and the bytes, apart from those. -/
structure DuplicateOk (nbuf duplicate : NetBuf) (headSpace : Nat) : Prop where
  good : duplicate.Good
  empty : duplicate.totalSize = 0
  room : ∃ op, duplicate.blockOps = [op] ∧ op.tail + headSpace + nbuf.totalSize ≤ op.blockTail ∧
    ∀ op' ∈ nbuf.blockOps, Apart op.blockHead (op.blockTail - op.blockHead) op'

/-- What a duplicate is. -/
structure IsDuplicate (nbuf duplicate : NetBuf) (s s' : State) : Prop where
  good : duplicate.Good
  flat : flat s'.memory duplicate = flat s.memory nbuf
  touched : ∃ op, duplicate.blockOps = [op] ∧
    ∀ t ∈ s'.touched, t ∈ s.touched ∨ Within op.blockHead (op.blockTail - op.blockHead) t ∨
      ∃ op' ∈ nbuf.blockOps, Within op'.head op'.size t

/-- An empty buffer of one block. -/
theorem emptyOp_good {op : BlockOp} (hop : op.Good) (hzero : op.size = 0) : (⟨0, [op]⟩ : NetBuf).Good := by
  refine ⟨fun o ho => List.mem_singleton.mp ho ▸ hop, ?_, Nat.two_pow_pos 32, List.cons_ne_nil _ _, ?_⟩
  · rw [sizes_cons, hzero]
    rfl
  · exact Nat.one_lt_two_pow (by decide)

theorem netbufAllocSpace_single {op : BlockOp} (hop : op.Good) {len : Nat} (hroom : len ≤ op.blockTail - op.tail) :
    ∃ d, netbufAllocSpace ⟨0, [op]⟩ len false = some (some op.tail, d) ∧
      ∃ op', d.blockOps = [op'] ∧ op'.blockHead = op.blockHead ∧ op'.blockTail = op.blockTail := by
  have hspace := hop.tailSpace_eq
  have hnot : ¬tailSpace op < len := by omega
  unfold netbufAllocSpace
  simp only [spaceIndex, if_true, List.length_singleton, Nat.zero_lt_one, List.getElem?_eq_getElem, List.getElem_cons_zero,
    Bool.false_eq_true, if_false, if_neg hnot]
  exact ⟨_, rfl, _, rfl, rfl, rfl⟩

theorem fillDuplicate_eq {nbuf duplicate reserved d : NetBuf} {headSpace dst n : Nat} {s s' : State}
    (hreserve : netbufReserve duplicate headSpace = some reserved)
    (hspace : netbufAllocSpace reserved nbuf.totalSize false = some (some dst, d))
    (hcopy : netbufCopy nbuf 0 nbuf.totalSize dst s = some (n, s')) :
    fillDuplicate nbuf duplicate headSpace s = some (some d, s') := by
  simp only [fillDuplicate, hreserve, hspace, hcopy, Option.map_some]

/-- The bytes are copied behind the head space. -/
theorem fillDuplicate_spec {nbuf duplicate : NetBuf} {headSpace : Nat} {s : State} (h : nbuf.Good)
    (hd : DuplicateOk nbuf duplicate headSpace) :
    ∃ d s', fillDuplicate nbuf duplicate headSpace s = some (some d, s') ∧ IsDuplicate nbuf d s s' := by
  obtain ⟨op, hops, hroom, hap⟩ := hd.room
  have hop : op.Good := hd.good.ops op (by rw [hops]; exact List.mem_singleton_self op)
  have hzero : op.size = 0 := by
    have htotal := hd.good.total
    rw [hops, hd.empty, sizes_cons] at htotal
    omega
  have h1 := hop.head
  have h2 := hop.tail
  have h3 := hop.blockTail
  have hlt := h.lt
  obtain ⟨reserved, hr⟩ : ∃ o : BlockOp, o = { op with head := op.head + headSpace, tail := op.tail + headSpace } :=
    ⟨_, rfl⟩
  have hrHead : reserved.head = op.head + headSpace := by rw [hr]
  have hrTail : reserved.tail = op.tail + headSpace := by rw [hr]
  have hrBlockHead : reserved.blockHead = op.blockHead := by rw [hr]
  have hrBlockTail : reserved.blockTail = op.blockTail := by rw [hr]
  have hrSize : reserved.size = 0 := by rw [hr]; exact hzero
  have hreserved : reserved.Good := by
    have h4 := hop.pointer
    have h5 := hop.len
    constructor <;> omega
  have hgood := emptyOp_good hreserved hrSize
  obtain ⟨d, hspace, op', hop', hhead', htail'⟩ := @netbufAllocSpace_single reserved hreserved nbuf.totalSize (by omega)
  obtain ⟨r, d', hspace', -, hsome⟩ := @netbufAllocSpace_spec _ nbuf.totalSize false hgood (by simp only; omega)
  rw [hspace, Option.some.injEq, Prod.mk.injEq] at hspace'
  obtain ⟨rfl, rfl⟩ := hspace'
  have hnew := hsome _ rfl
  -- The bytes of the source are not in the block of the duplicate.
  have hcopyApart : ∀ o ∈ nbuf.blockOps, Apart reserved.tail (min nbuf.totalSize (nbuf.totalSize - 0)) o := by
    intro o ho
    have := hap o ho
    unfold Apart at *
    omega
  obtain ⟨s', hcopy, hmemory, htouch⟩ := netbufCopy_spec h s hcopyApart
  have hlength : (flat s.memory nbuf).length = nbuf.totalSize := by rw [flat, flatOps_length, h.total]
  have hbytes : ((flat s.memory nbuf).drop 0).take nbuf.totalSize = flat s.memory nbuf := by
    rw [List.drop_zero]
    exact List.take_of_length_le (Nat.le_of_eq hlength)
  rw [hbytes] at hmemory
  have hreserve : netbufReserve duplicate headSpace = some ⟨0, [reserved]⟩ := by
    rw [netbufReserve, hops, hr, hd.empty]
  have hfill := fillDuplicate_eq hreserve hspace hcopy
  refine ⟨d, s', hfill, hnew.good, ?_, op', hop', fun t ht => ?_⟩
  · have hempty : flat s'.memory ⟨0, [reserved]⟩ = [] := flatOps_eq_nil _ (by rw [sizes_cons, hrSize]; rfl)
    have hat := write_at s.memory reserved.tail (flat s.memory nbuf)
    rw [At, hlength, ← hmemory] at hat
    rw [hnew.flat]
    simp only [Bool.false_eq_true, if_false]
    rw [hempty, List.nil_append, hat]
  · rcases htouch t ht with h' | h' | h'
    · exact .inl h'
    · refine .inr (.inl ?_)
      rw [hhead', htail']
      unfold Within at *
      omega
    · exact .inr (.inr h')

theorem netbufAlloc_good {pool : Allocator} (hpool : pool.Valid) {len : Nat} (hlen : len < 2 ^ 32) {nbuf : NetBuf}
    (h : netbufAlloc pool len = some nbuf) :
    nbuf.Good ∧ ∃ bulk, pool.bulk len = some bulk ∧ nbuf = ⟨0, [⟨bulk, bulk + len, bulk, bulk, 0⟩]⟩ := by
  unfold netbufAlloc at h
  split at h
  · obtain ⟨bulk, hbulk, rfl⟩ := Option.map_eq_some_iff.mp h
    have hpointer := hpool _ _ hbulk
    have hop : (⟨bulk, bulk + len, bulk, bulk, 0⟩ : BlockOp).Good :=
      ⟨Nat.le_refl _, rfl, Nat.le_add_right _ _, hpointer, by simp only; omega⟩
    exact ⟨emptyOp_good hop rfl, bulk, hbulk, rfl⟩
  · cases h

/-- The sums do not wrap and there is room for the bytes, in other memory. -/
def DuplicateSafe (pool : Allocator) (nbuf : NetBuf) (duplicate : Option NetBuf) (headSpace : Nat) : Prop :=
  match duplicate with
  | some duplicate => DuplicateOk nbuf duplicate headSpace
  | none => nbuf.totalSize + headSpace < 2 ^ 32 ∧ pool.Valid ∧
      ∀ n p, pool.bulk n = some p → ∀ op ∈ nbuf.blockOps, Apart p n op

/-- A duplicate has the bytes of the buffer. -/
theorem netbufDuplicate_spec {pool : Allocator} {nbuf : NetBuf} (h : nbuf.Good) {duplicate : Option NetBuf}
    {headSpace : Nat} (hsafe : DuplicateSafe pool nbuf duplicate headSpace) (s : State) :
    ∃ r s', netbufDuplicate pool nbuf duplicate headSpace s = some (r, s') ∧
      ∀ d, r = some d → IsDuplicate nbuf d s s' := by
  cases duplicate with
  | some duplicate =>
    obtain ⟨d, s', hfill, hd⟩ := fillDuplicate_spec h hsafe
    exact ⟨some d, s', hfill, fun d' hd' => Option.some.inj hd' ▸ hd⟩
  | none =>
    obtain ⟨hsum, hpool, hfresh⟩ := hsafe
    unfold netbufDuplicate
    rw [uint32_of_lt hsum]
    cases halloc : netbufAlloc pool (nbuf.totalSize + headSpace) with
    | none => exact ⟨none, s, rfl, nofun⟩
    | some duplicate =>
      obtain ⟨hgood, bulk, hbulk, rfl⟩ := netbufAlloc_good hpool hsum halloc
      have hok : DuplicateOk nbuf ⟨0, [⟨bulk, bulk + (nbuf.totalSize + headSpace), bulk, bulk, 0⟩]⟩ headSpace := by
        refine ⟨hgood, rfl, _, rfl, by simp only; omega, fun op hop => ?_⟩
        simp only [Nat.add_sub_cancel_left]
        exact hfresh _ _ hbulk op hop
      obtain ⟨d, s', hfill, hd⟩ := fillDuplicate_spec (s := s) h hok
      exact ⟨some d, s', hfill, fun d' hd' => Option.some.inj hd' ▸ hd⟩

end Udk.NetBuffer
