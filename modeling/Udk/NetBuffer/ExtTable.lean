import Udk.NetBuffer.Extern

/-! # The caller's table of external blocks

`NetbufFromExt` cuts the fragment that the header ends in out of the caller's table, and puts it back at its end.
-/

namespace Udk.NetBuffer

open Bytes

/-- The table once the header is copied, `SavedIndex` and `SavedFragment`. -/
def cutTable : List NetFragment → Nat → Nat → List NetFragment × Nat × NetFragment
  | [], _, _ => ([], 0, ⟨0, 0⟩)
  | f :: fs, len, index =>
    if f.len ≤ len then
      if len - f.len = 0 then (f :: fs, 0, ⟨0, 0⟩)
      else
        let (table, saved) := cutTable fs (len - f.len) (index + 1)
        (f :: table, saved)
    else (⟨f.len - len, f.bulk + len⟩ :: fs, index, f)

/-- `NetbufFromExt` with the table as the caller has it back. -/
def netbufFromExtTable (pool : Allocator) (ext : List NetFragment) (headSpace headLen : Nat) (s : State) :
    Option (Option NetBuf × List NetFragment × State) :=
  let len := pulledLen ext headLen
  let (table, savedIndex, savedFragment) := if len = 0 then (ext, 0, ⟨0, 0⟩) else cutTable ext len 0
  (netbufFromExt pool ext headSpace headLen s).map fun (r, s) =>
    match r with
    | some nbuf => (some nbuf, if savedIndex ≠ 0 then table.set savedIndex savedFragment else table, s)
    | none =>
      -- The first block is allocated before the table is cut.
      if (headSpace ≠ 0 ∨ len ≠ 0) ∧ pool.bulk (uint32 (len + headSpace)) = none then (none, ext, s)
      else (none, table, s)

/-- The header ends inside a fragment. -/
def EndsInside (ext : List NetFragment) (len : Nat) : Prop :=
  ∃ pre f post, ext = pre ++ f :: post ∧ extLen pre < len ∧ len < extLen pre + f.len

/-- The first `n` bytes are in one block. -/
def LinearHead (nbuf : NetBuf) (n : Nat) : Prop :=
  ∃ pre op post, nbuf.blockOps = pre ++ op :: post ∧ sizes pre = 0 ∧ n ≤ op.size

/-- The buffer that the fragments and the two numbers ask for. -/
structure BuiltFrom (ext : List NetFragment) (headSpace headLen : Nat) (m m' : Memory) (nbuf : NetBuf) : Prop where
  flat : flat m' nbuf = extBytes m ext
  total : nbuf.totalSize = extLen ext
  linear : LinearHead nbuf (min headLen nbuf.totalSize)
  /-- The space is in the first block, of the size that it was allocated with. -/
  room : headSpace ≠ 0 → headSpace ≤ uint32 (pulledLen ext headLen + headSpace) ∧
    ∃ p nbuf', netbufAllocSpace nbuf headSpace true = some (some p, nbuf')

/-- The table is back as it was, and a buffer is the one that was asked for. -/
def LeavesAndBuilds (pool : Allocator) (ext : List NetFragment) (headSpace headLen : Nat) (s : State) : Prop :=
  ∃ r s', netbufFromExtTable pool ext headSpace headLen s = some (r, ext, s') ∧
    ∀ nbuf, r = some nbuf → BuiltFrom ext headSpace headLen s.memory s'.memory nbuf

/-- An empty first fragment is between the head space and the bytes. -/
def Gap (ext : List NetFragment) (headSpace len : Nat) : Prop :=
  headSpace ≠ 0 ∧ len = 0 ∧ ext.head?.map NetFragment.len = some 0 ∧ extLen ext ≠ 0

/-- When it does: the allocation of the first block fails; or that of the structures does, and the header doesn't end
inside a fragment; or no sum wraps, and there is no gap. -/
def ExtCondition (pool : Allocator) (ext : List NetFragment) (headSpace headLen : Nat) : Prop :=
  let len := pulledLen ext headLen
  ((headSpace ≠ 0 ∨ len ≠ 0) ∧ pool.bulk (uint32 (len + headSpace)) = none) ∨
  (pool.structs = false ∧ ¬EndsInside ext len) ∨
  (pool.structs = true ∧ extLen ext < 2 ^ 32 ∧ len + headSpace < 2 ^ 32 ∧
    (len = 0 → headSpace ≠ 0 → ext.length + 1 < 2 ^ 32) ∧
    ¬Gap ext headSpace len)

/-- The caller's fragments are in memory, and what the pool allocates is elsewhere. -/
structure ExtMemory (pool : Allocator) (ext : List NetFragment) : Prop where
  nonempty : ext ≠ []
  num : ext.length < 2 ^ 32
  pointer : ∀ f ∈ ext, f.bulk + f.len < 2 ^ 64
  fresh : ∀ n p, pool.bulk n = some p → p + n < 2 ^ 64 ∧ ∀ f ∈ ext, f.Apart p n

/-! ## The table -/

theorem not_endsInside_zero (ext : List NetFragment) : ¬EndsInside ext 0 := by
  rintro ⟨pre, f, post, -, hlt, -⟩
  exact Nat.not_lt_zero _ hlt

theorem endsInside_cons {f : NetFragment} {fs : List NetFragment} {len : Nat} (hle : f.len ≤ len) :
    EndsInside (f :: fs) len ↔ EndsInside fs (len - f.len) := by
  constructor
  · rintro ⟨pre, g, post, heq, h1, h2⟩
    cases pre with
    | nil =>
      obtain ⟨rfl, rfl⟩ := List.cons.inj heq
      rw [extLen_nil] at h2
      omega
    | cons f' pre =>
      obtain ⟨rfl, rfl⟩ := List.cons.inj heq
      rw [extLen_cons] at h1 h2
      exact ⟨pre, g, post, rfl, by omega, by omega⟩
  · rintro ⟨pre, g, post, rfl, h1, h2⟩
    exact ⟨f :: pre, g, post, rfl, by rw [extLen_cons]; omega, by rw [extLen_cons]; omega⟩

/-- The table is as it was, or one fragment is cut and saved. -/
theorem cutTable_cases (ext : List NetFragment) {len : Nat} (index : Nat) (hpos : len ≠ 0) :
    (¬EndsInside ext len ∧ cutTable ext len index = (ext, 0, ⟨0, 0⟩)) ∨
    (EndsInside ext len ∧ ∃ pre f g post, ext = pre ++ f :: post ∧ g ≠ f ∧ extLen pre ≤ len ∧ len < extLen pre + f.len ∧
      cutTable ext len index = (pre ++ g :: post, index + pre.length, f)) := by
  induction ext generalizing len index with
  | nil =>
    refine .inl ⟨?_, rfl⟩
    rintro ⟨pre, f, post, heq, -⟩
    simp at heq
  | cons f fs ih =>
    unfold cutTable
    by_cases hle : f.len ≤ len
    · rw [if_pos hle]
      by_cases hlast : len - f.len = 0
      · rw [if_pos hlast]
        refine .inl ⟨?_, rfl⟩
        rw [endsInside_cons hle, hlast]
        exact not_endsInside_zero fs
      · rw [if_neg hlast, endsInside_cons hle]
        rcases ih (index + 1) hlast with ⟨hnot, heq⟩ | ⟨hin, pre, f', g, post, hfs, hne, h1, h2, heq⟩
        · refine .inl ⟨hnot, ?_⟩
          rw [heq]
        · refine .inr ⟨hin, f :: pre, f', g, post, by rw [hfs]; rfl, hne, ?_, ?_, ?_⟩
          · rw [extLen_cons]
            omega
          · rw [extLen_cons]
            omega
          · rw [heq, List.length_cons, Nat.add_assoc, Nat.add_comm 1]
            rfl
    · rw [if_neg hle]
      refine .inr ⟨⟨[], f, fs, rfl, Nat.pos_of_ne_zero hpos, ?_⟩, [], f, ⟨f.len - len, f.bulk + len⟩, fs, rfl, ?_,
        Nat.zero_le _, ?_, rfl⟩
      · rw [extLen_nil]
        omega
      · intro heq
        have := congrArg NetFragment.len heq
        simp only at this
        omega
      · rw [extLen_nil]
        omega

/-- A cut fragment is not the first one, so its index tells that there is one. -/
theorem cutTable_restored {f : NetFragment} {fs : List NetFragment} {len : Nat} (hpos : len ≠ 0) (hle : f.len ≤ len)
    {table : List NetFragment} {savedIndex : Nat} {savedFragment : NetFragment}
    (h : cutTable (f :: fs) len 0 = (table, savedIndex, savedFragment)) :
    (if savedIndex ≠ 0 then table.set savedIndex savedFragment else table) = f :: fs ∧
      (table = f :: fs ↔ ¬EndsInside (f :: fs) len) := by
  rcases cutTable_cases (f :: fs) 0 hpos with ⟨hnot, heq⟩ | ⟨hin, pre, f', g, post, hfs, hne, h1, h2, heq⟩
  · rw [heq] at h
    obtain ⟨rfl, rfl, -⟩ := by simpa only [Prod.mk.injEq] using h
    exact ⟨rfl, ⟨fun _ => hnot, fun _ => rfl⟩⟩
  · rw [heq] at h
    obtain ⟨rfl, rfl, rfl⟩ := by simpa only [Prod.mk.injEq] using h
    have hpre : pre ≠ [] := by
      rintro rfl
      obtain ⟨rfl, -⟩ := List.cons.inj hfs
      rw [extLen_nil] at h2
      omega
    have hlength := List.length_pos_of_ne_nil hpre
    refine ⟨?_, ⟨fun htable => ?_, fun hnot => absurd hin hnot⟩⟩
    · rw [if_pos (by omega), Nat.zero_add, hfs]
      simp
    · rw [hfs] at htable
      have := List.append_cancel_left htable
      exact absurd (List.cons.inj this).1 hne

/-! ## The space in front -/

theorem headSpace_setBlockOp (bulk len : Nat) : headSpace (setBlockOp bulk len) = 0 := by
  simp only [headSpace, setBlockOp, subtract64]
  omega

theorem headSpace_headBlock {bulk space copied : Nat} (hspace : space < 2 ^ 32) :
    headSpace (headBlock bulk space copied) = space := by
  simp only [headSpace, headBlock, subtract64]
  omega

section
variable {op op' : BlockOp} {ops : List BlockOp} {total len : Nat}

theorem netbufAllocSpace_of_index {nbuf : NetBuf} {index : Nat} (hindex : spaceIndex nbuf len true = some index)
    (hop : nbuf.blockOps[index]? = some op) :
    (∃ p nbuf', netbufAllocSpace nbuf len true = some (some p, nbuf')) ↔ len ≤ headSpace op := by
  unfold netbufAllocSpace
  simp only [hindex, hop, if_true]
  by_cases hroom : headSpace op < len
  · rw [if_pos hroom]
    refine ⟨?_, fun h => by omega⟩
    rintro ⟨p, nbuf', h⟩
    simp at h
  · rw [if_neg hroom]
    exact ⟨fun _ => by omega, fun _ => ⟨_, _, rfl⟩⟩

theorem spaceIndex_place {nbuf : NetBuf} (h : nbuf.Good) {pre rest : List BlockOp} (hp : Place nbuf.blockOps 0 pre op rest) :
    spaceIndex nbuf len true = some (if headSpace op < len ∧ 0 < pre.length then pre.length - 1 else pre.length) := by
  have hsizes := hp.sizes_eq
  have hlt := hp.lt
  have htotal := h.total
  unfold spaceIndex
  rw [if_neg (by omega), if_pos rfl]
  simp only [indexOf_eq h hp, hp.getElem?, Option.map_some]

/-- The first block is used if it has bytes, or the next one does. -/
theorem spaceIndex_first (h : NetBuf.Good ⟨total, op :: ops⟩) (hlen : 0 < len)
    (hfirst : total = 0 ∨ op.size ≠ 0 ∨ ∃ o rest, ops = o :: rest ∧ o.size ≠ 0 ∧ headSpace o = 0) :
    spaceIndex ⟨total, op :: ops⟩ len true = some 0 := by
  by_cases hop : op.size = 0
  · rcases hfirst with rfl | hsize | ⟨o, rest, rfl, hsize, hspace⟩
    · rfl
    · exact absurd hop hsize
    · have hp : Place (op :: o :: rest) 0 [op] o rest := ⟨rfl, by simp [hop], by simp [hop]; omega⟩
      rw [spaceIndex_place h hp, hspace, if_pos ⟨hlen, Nat.one_pos⟩]
      rfl
  · have hp : Place (op :: ops) 0 [] op ops := ⟨rfl, Nat.le_refl _, by simp; omega⟩
    rw [spaceIndex_place h hp, if_neg (fun h => Nat.lt_irrefl 0 h.2)]
    rfl

/-- An empty block behind it takes its place. -/
theorem spaceIndex_behind (h : NetBuf.Good ⟨total, op :: op' :: ops⟩) (htotal : total ≠ 0) (hop : op.size = 0)
    (hop' : op'.size = 0) (hspace : ∀ o ∈ op' :: ops, headSpace o = 0) :
    ∃ index o, spaceIndex ⟨total, op :: op' :: ops⟩ len true = some index ∧
      (op :: op' :: ops)[index]? = some o ∧ headSpace o = 0 := by
  have hsum := h.total
  simp only [sizes_cons, hop, hop', Nat.zero_add] at hsum
  obtain ⟨pre, o, rest, hp⟩ := exists_place ops 0 (by omega)
  have hle := hp.le
  have hplace : Place (op :: op' :: ops) 0 (op :: op' :: pre) o rest := by
    refine ⟨by rw [hp.eq]; rfl, by simp [hop, hop']; omega, ?_⟩
    simpa [hop, hop'] using hp.lt
  have hfrom : ∀ k, k + 1 < (op :: op' :: ops).length → ∃ o', (op :: op' :: ops)[k + 1]? = some o' ∧ headSpace o' = 0 := by
    intro k hk
    have hk' : k < (op' :: ops).length := by simpa using hk
    refine ⟨(op' :: ops)[k], ?_, hspace _ (List.getElem_mem hk')⟩
    rw [List.getElem?_cons_succ, List.getElem?_eq_getElem hk']
  have hlength : pre.length < ops.length := by
    rw [hp.eq]
    simp
  obtain ⟨k, hk, hlt⟩ : ∃ k, (if headSpace o < len ∧ 0 < (op :: op' :: pre).length then (op :: op' :: pre).length - 1
      else (op :: op' :: pre).length) = k + 1 ∧ k + 1 < (op :: op' :: ops).length := by
    simp only [List.length_cons]
    split
    · exact ⟨pre.length, by omega, by omega⟩
    · exact ⟨pre.length + 1, by omega, by omega⟩
  obtain ⟨o', ho', hzero⟩ := hfrom k hlt
  exact ⟨k + 1, o', by rw [spaceIndex_place h hplace, hk], ho', hzero⟩

end

/-! ## `NetbufFromExt` -/

section
variable {pool : Allocator} {ext : List NetFragment} {headSpace headLen : Nat} {s : State}

/-- What the header is copied to the first block with. -/
def header (ext : List NetFragment) (headSpace headLen bulk : Nat) (s : State) : Headed :=
  if pulledLen ext headLen = 0 then ⟨ext, 0, 0, s⟩ else copyHeader ext (pulledLen ext headLen) (bulk + headSpace) s

theorem netbufFromExt_eq (hne : ext ≠ []) : netbufFromExt pool ext headSpace headLen s =
    if headSpace = 0 ∧ pulledLen ext headLen = 0 then buildExt pool none 0 0 (uint32 ext.length) ⟨ext, 0, 0, s⟩
    else match pool.bulk (uint32 (pulledLen ext headLen + headSpace)) with
      | none => some (none, s)
      | some bulk => buildExt pool (some bulk) (uint32 (pulledLen ext headLen + headSpace)) headSpace
          (subtract32 (ext.length + 1) (header ext headSpace headLen bulk s).consumed)
          (header ext headSpace headLen bulk s) := by
  obtain ⟨f, fs, rfl⟩ := List.exists_cons_of_ne_nil hne
  rfl

theorem buildExt_null {firstBlock : Option Nat} {firstBlockLen blockNum : Nat} {h : Headed} (hnull : pool.structs = false) :
    buildExt pool firstBlock firstBlockLen headSpace blockNum h = some (none, h.state) := by
  unfold buildExt
  rw [hnull]
  rfl

theorem buildExt_some_total {firstBlock : Option Nat} {firstBlockLen blockNum : Nat} {h : Headed}
    (hstructs : pool.structs = true) {r : Option NetBuf} {s' : State}
    (hbuild : buildExt pool firstBlock firstBlockLen headSpace blockNum h = some (r, s')) :
    ∃ nbuf, r = some nbuf ∧ nbuf.totalSize < 2 ^ 32 := by
  unfold buildExt at hbuild
  simp only [hstructs, if_true, Option.map_eq_some_iff, Prod.mk.injEq] at hbuild
  obtain ⟨ops, -, rfl, -⟩ := hbuild
  exact ⟨_, rfl, Nat.mod_lt _ (by decide)⟩

/-- The number of blocks wraps to 0. -/
theorem buildExt_uncounted {firstBlock : Option Nat} {firstBlockLen copied consumed : Nat}
    (hstructs : pool.structs = true) (hne : ext ≠ []) :
    buildExt pool firstBlock firstBlockLen headSpace 0 ⟨ext, copied, consumed, s⟩ = none := by
  have hlength := List.length_pos_of_ne_nil hne
  have hnone : ∀ ops : List BlockOp, childOps 0 (ops ++ ext.map fun f => setBlockOp f.bulk f.len) = none := by
    intro ops
    refine if_neg ?_
    rw [List.length_append, List.length_map]
    omega
  unfold buildExt
  simp only [hstructs, if_true, hnone, Option.map_none]

/-- The table on return, from what the function returns. -/
theorem netbufFromExtTable_eq (hne : ext ≠ []) {r : Option NetBuf} {s' : State}
    (h : netbufFromExt pool ext headSpace headLen s = some (r, s')) :
    ∃ table, netbufFromExtTable pool ext headSpace headLen s = some (r, table, s') ∧
      (table = ext ↔ (r = none → ((headSpace ≠ 0 ∨ pulledLen ext headLen ≠ 0) ∧
        pool.bulk (uint32 (pulledLen ext headLen + headSpace)) = none) ∨ ¬EndsInside ext (pulledLen ext headLen))) := by
  obtain ⟨f, fs, rfl⟩ := List.exists_cons_of_ne_nil hne
  unfold netbufFromExtTable
  rw [h]
  obtain ⟨table, savedIndex, savedFragment, hcut⟩ : ∃ table savedIndex savedFragment,
      (if pulledLen (f :: fs) headLen = 0 then (f :: fs, 0, ⟨0, 0⟩)
        else cutTable (f :: fs) (pulledLen (f :: fs) headLen) 0) =
        (table, savedIndex, savedFragment) := ⟨_, _, _, rfl⟩
  have hrestored : (if savedIndex ≠ 0 then table.set savedIndex savedFragment else table) = f :: fs ∧
      (table = f :: fs ↔ ¬EndsInside (f :: fs) (pulledLen (f :: fs) headLen)) := by
    by_cases hzero : pulledLen (f :: fs) headLen = 0
    · rw [if_pos hzero] at hcut
      obtain ⟨rfl, rfl, -⟩ := by simpa only [Prod.mk.injEq] using hcut
      rw [hzero]
      exact ⟨rfl, fun _ => not_endsInside_zero _, fun _ => rfl⟩
    · rw [if_neg hzero] at hcut
      exact cutTable_restored hzero (lt_pulledLen hzero).2 hcut
  simp only [hcut, Option.map_some]
  cases r with
  | some nbuf => exact ⟨_, rfl, fun _ => nofun, fun _ => hrestored.1⟩
  | none =>
    by_cases hfail : (headSpace ≠ 0 ∨ pulledLen (f :: fs) headLen ≠ 0) ∧
        pool.bulk (uint32 (pulledLen (f :: fs) headLen + headSpace)) = none
    · rw [if_pos hfail]
      exact ⟨_, rfl, fun _ _ => .inl hfail, fun _ => rfl⟩
    · rw [if_neg hfail]
      refine ⟨_, rfl, fun ht _ => .inr (hrestored.2.mp ht), fun hall => hrestored.2.mpr ((hall rfl).resolve_left hfail)⟩

theorem min_le_first {f : NetFragment} {fs : List NetFragment} (h : pulledLen (f :: fs) headLen = 0) :
    min headLen (extLen (f :: fs)) ≤ f.len := by
  unfold pulledLen at h
  simp only at h
  split at h
  · rename_i hor
    rcases hor with hle | rfl
    · exact Nat.le_trans (Nat.min_le_left _ _) hle
    · rw [extLen_cons, extLen_nil]
      exact Nat.min_le_right _ _
  · omega

/-- A block in front of the fragments: its space can be taken, if there is no gap. -/
theorem headBlock_room {bulk : Nat} {h : Headed} (hspace : headSpace < 2 ^ 32)
    (hc : HeaderCopied ext (pulledLen ext headLen) (bulk + headSpace) s h)
    (hzero : pulledLen ext headLen = 0 → h.fragments = ext) (hne : ext ≠ [])
    (hgood : NetBuf.Good ⟨extLen ext,
      headBlock bulk headSpace h.copied :: h.fragments.map fun f => setBlockOp f.bulk f.len⟩) :
    headSpace ≠ 0 → ((∃ p nbuf', netbufAllocSpace
      ⟨extLen ext, headBlock bulk headSpace h.copied :: h.fragments.map fun f => setBlockOp f.bulk f.len⟩ headSpace true =
        some (some p, nbuf')) ↔ ¬Gap ext headSpace (pulledLen ext headLen)) := by
  intro hpos
  have hcopied := hc.copied
  have hsize : (headBlock bulk headSpace h.copied).size = h.copied := rfl
  by_cases hgap : Gap ext headSpace (pulledLen ext headLen)
  · refine iff_of_false ?_ (not_not_intro hgap)
    obtain ⟨-, hlen, hfirst, htotal⟩ := hgap
    obtain ⟨f, fs, rfl⟩ := List.exists_cons_of_ne_nil hne
    have hempty : f.len = 0 := by simpa using hfirst
    rw [hzero hlen] at hgood ⊢
    rw [List.map_cons] at hgood ⊢
    obtain ⟨index, o, hindex, ho, hroom⟩ := @spaceIndex_behind _ _ _ _ headSpace hgood htotal
      (by rw [hsize, hcopied, hlen, Nat.zero_min]) hempty fun o ho => by
        rcases List.mem_cons.mp ho with rfl | ho
        · exact headSpace_setBlockOp _ _
        · obtain ⟨g, -, rfl⟩ := List.mem_map.mp ho
          exact headSpace_setBlockOp _ _
    rw [netbufAllocSpace_of_index hindex ho, hroom]
    omega
  · refine iff_of_true ?_ hgap
    have hindex := @spaceIndex_first _ _ _ headSpace hgood (Nat.pos_of_ne_zero hpos) ?_
    · exact (netbufAllocSpace_of_index hindex rfl).mpr (Nat.le_of_eq (headSpace_headBlock hspace).symm)
    · by_cases htotal : extLen ext = 0
      · exact .inl htotal
      by_cases hlen : pulledLen ext headLen = 0
      · obtain ⟨f, fs, rfl⟩ := List.exists_cons_of_ne_nil hne
        rw [hzero hlen]
        refine .inr (.inr ⟨setBlockOp f.bulk f.len, _, rfl, fun hempty => hgap ⟨hpos, hlen, ?_, htotal⟩,
          headSpace_setBlockOp _ _⟩)
        simpa [setBlockOp] using hempty
      · exact .inr (.inl (by rw [hsize, hcopied]; omega))

theorem header_copied (hmem : ExtMemory pool ext) {bulk : Nat}
    (hbulk : pool.bulk (pulledLen ext headLen + headSpace) = some bulk) :
    HeaderCopied ext (pulledLen ext headLen) (bulk + headSpace) s (header ext headSpace headLen bulk s) := by
  unfold header
  split
  · rename_i hzero
    rw [hzero]
    exact .none _ _ _
  · refine copyHeader_spec fun f hf => ?_
    have := (hmem.fresh _ _ hbulk).2 f hf
    unfold NetFragment.Apart at *
    omega

/-- Without a wrap and with memory, the buffer is the one that is asked for, up to the gap. -/
theorem netbufFromExt_built (hmem : ExtMemory pool ext) (hsafe : ExtSafe pool ext headSpace (pulledLen ext headLen))
    (hspace : headSpace < 2 ^ 32) (hstructs : pool.structs = true)
    (hbulk : ¬((headSpace ≠ 0 ∨ pulledLen ext headLen ≠ 0) ∧
      pool.bulk (uint32 (pulledLen ext headLen + headSpace)) = none)) :
    ∃ nbuf s', netbufFromExt pool ext headSpace headLen s = some (some nbuf, s') ∧
      (BuiltFrom ext headSpace headLen s.memory s'.memory nbuf ↔ ¬Gap ext headSpace (pulledLen ext headLen)) := by
  have hhead := hsafe.head
  rw [netbufFromExt_eq hsafe.nonempty]
  rw [uint32_of_lt hhead] at hbulk ⊢
  by_cases hnone : headSpace = 0 ∧ pulledLen ext headLen = 0
  · rw [if_pos hnone]
    obtain ⟨r, hbuild, hext⟩ := @buildExt_none pool ext headSpace _ s hsafe
    rw [buildExt_none_eq hsafe, hstructs, if_pos rfl] at hbuild ⊢
    obtain ⟨rfl, -⟩ := by simpa only [Option.some.injEq, Prod.mk.injEq] using hbuild
    refine ⟨_, _, rfl, iff_of_true ⟨hext.flat _ rfl, rfl, ?_, fun h => absurd hnone.1 h⟩ fun hgap => hgap.1 hnone.1⟩
    obtain ⟨f, fs, rfl⟩ := List.exists_cons_of_ne_nil hsafe.nonempty
    exact ⟨[], setBlockOp f.bulk f.len, _, rfl, rfl, min_le_first hnone.2⟩
  · rw [if_neg hnone]
    cases hb : pool.bulk (pulledLen ext headLen + headSpace) with
    | none => exact absurd ⟨by omega, hb⟩ hbulk
    | some bulk =>
      have hc := @header_copied pool ext headSpace headLen s hmem bulk hb
      have hconsumed : pulledLen ext headLen ≠ 0 → (header ext headSpace headLen bulk s).consumed ≠ 0 := by
        intro hne
        obtain ⟨f, fs, rfl⟩ := List.exists_cons_of_ne_nil hsafe.nonempty
        rw [header, if_neg hne]
        exact copyHeader_consumed (lt_pulledLen hne).2
      have hzero : pulledLen ext headLen = 0 → (header ext headSpace headLen bulk s).fragments = ext := by
        intro hz
        rw [header, if_pos hz]
      obtain ⟨r, hbuild, hext⟩ := buildExt_some hsafe (by omega) hb hc hconsumed
      simp only
      rw [buildExt_some_eq hsafe (by omega) hc hconsumed, hstructs, if_pos rfl] at hbuild ⊢
      obtain ⟨rfl, -⟩ := by simpa only [Option.some.injEq, Prod.mk.injEq] using hbuild
      have hroom := headBlock_room hspace hc hzero hsafe.nonempty (hext.good _ rfl)
      refine ⟨_, _, rfl, fun hbuilt hgap => (hroom hgap.1).mp (hbuilt.room hgap.1).2 hgap,
        fun hgap => ⟨hext.flat _ rfl, rfl, ?_, fun hpos => ⟨?_, (hroom hpos).mpr hgap⟩⟩⟩
      · by_cases hlen : pulledLen ext headLen = 0
        · obtain ⟨f, fs, rfl⟩ := List.exists_cons_of_ne_nil hsafe.nonempty
          rw [hzero hlen]
          refine ⟨[headBlock bulk headSpace _], setBlockOp f.bulk f.len, _, rfl, ?_, min_le_first hlen⟩
          have hcopied := hc.copied
          rw [hlen, Nat.zero_min] at hcopied
          simp [headBlock, hcopied]
        · refine ⟨[], _, _, rfl, rfl, ?_⟩
          have hcopied := hc.copied
          obtain ⟨f, fs, rfl⟩ := List.exists_cons_of_ne_nil hsafe.nonempty
          simp only [headBlock, hcopied, (lt_pulledLen hlen).1]
          exact Nat.le_refl _
      · rw [uint32_of_lt hhead]
        omega

theorem LeavesAndBuilds.some (h : LeavesAndBuilds pool ext headSpace headLen s) (hstructs : pool.structs = true)
    (hbulk : ¬((headSpace ≠ 0 ∨ pulledLen ext headLen ≠ 0) ∧
      pool.bulk (uint32 (pulledLen ext headLen + headSpace)) = none)) (hne : ext ≠ []) :
    ∃ nbuf s', netbufFromExt pool ext headSpace headLen s = some (some nbuf, s') ∧
      BuiltFrom ext headSpace headLen s.memory s'.memory nbuf ∧ nbuf.totalSize < 2 ^ 32 := by
  obtain ⟨r, s', htable, hall⟩ := h
  cases hrun : netbufFromExt pool ext headSpace headLen s with
  | none =>
    unfold netbufFromExtTable at htable
    rw [hrun] at htable
    cases htable
  | some rs =>
    obtain ⟨r', s''⟩ := rs
    obtain ⟨table, htable', -⟩ := netbufFromExtTable_eq hne hrun
    rw [htable'] at htable
    obtain ⟨rfl, -, rfl⟩ := by simpa only [Option.some.injEq, Prod.mk.injEq] using htable
    obtain ⟨nbuf, rfl, hlt⟩ : ∃ nbuf, r' = Option.some nbuf ∧ nbuf.totalSize < 2 ^ 32 := by
      rw [netbufFromExt_eq hne] at hrun
      split at hrun
      · exact buildExt_some_total hstructs hrun
      · split at hrun
        · rename_i hb
          exact absurd ⟨by omega, hb⟩ hbulk
        · exact buildExt_some_total hstructs hrun
    exact ⟨nbuf, s'', rfl, hall _ rfl, hlt⟩

end

/-! ## Runs -/

/-- Two fragments of 2 bytes, and a pool with or without memory for the structures. -/
def sampleExt : List NetFragment := [⟨2, 1000⟩, ⟨2, 1100⟩]

def sampleExtPool (structs : Bool) : Allocator := ⟨structs, fun n => if n < 100 then some 2000 else none⟩

theorem sampleExt_memory (structs : Bool) : ExtMemory (sampleExtPool structs) sampleExt := by
  refine ⟨by decide, by decide, by decide, fun n p hp => ?_⟩
  simp only [sampleExtPool] at hp
  split at hp
  · obtain rfl := Option.some.inj hp
    refine ⟨by omega, fun f hf => ?_⟩
    simp only [sampleExt, List.mem_cons, List.not_mem_nil, or_false] at hf
    rcases hf with rfl | rfl
    · exact .inl (by decide)
    · exact .inl (by decide)
  · cases hp

end Udk.NetBuffer
