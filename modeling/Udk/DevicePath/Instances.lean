import Udk.DevicePath.Append

/-! # Device path instances

The instances of a path are joined with end nodes between them, and taken apart again one by one. The caller's path is
written while an instance of it is copied, and is as it was afterwards.
-/

namespace Udk.DevicePath
open Bytes

/-! ## One instance more -/

/-- An instance, its end node, and what follows. -/
theorem encode_joined (i : List Node) (l : List (List Node)) :
    encode (joined i l) = encodeItems (nodes i) ++ match l with
      | [] => endNode endEntireDevicePathSubType ++ []
      | j :: l => endNode endInstanceDevicePathSubType ++ encode (joined j l) := by
  cases l with
  | nil => rw [joined, List.flatMap_nil, List.append_nil, List.append_nil, encode]
  | cons j l =>
    rw [joined, List.flatMap_cons, encode_append, List.cons_append]
    rfl

section
variable {env : Environment} {h h' h'' h₁ h₂ : Heap} {p q : Pointer} {bs bs' rest : List UInt8} {fuel : Nat} {s : UInt8}
  {items items' : List Item} {r : Option Pointer} {i : List Node}

/-- The subtype of an end node is stored. -/
theorem setSubType_spec {xs : List UInt8} (t : UInt8) (hp : h.Holds p (xs ++ (endNode s ++ rest)))
    (hroom : p.offset + xs.length + endDevicePathLength ≤ h.size p.block) :
    ∃ h', setSubType (p.add xs.length) t h = some h' ∧ Stored (p.add (xs.length + 1)) [t] h h' ∧
      h'.Holds p (xs ++ (endNode t ++ rest)) := by
  have hfit : (p.add (xs.length + 1)).offset + [t].length ≤ h.size (p.add (xs.length + 1)).block := by
    simp only [Pointer.add_offset, Pointer.add_block, List.length_singleton]
    unfold endDevicePathLength at hroom
    omega
  obtain ⟨h', hs, hst⟩ := store_spec hfit
  refine ⟨h', hs, hst, ?_⟩
  have hsplit : ∀ u : UInt8, xs ++ (endNode u ++ rest) =
      (xs ++ [endDevicePathType]) ++ ([u] ++ (toLE 2 endDevicePathLength ++ rest)) := by
    intro u
    simp [endNode]
  rw [hsplit] at hp ⊢
  rw [show xs.length + 1 = (xs ++ [endDevicePathType]).length by simp] at hst
  exact hst.replaced hp rfl

theorem appendDevicePathInstance_spec (env : Environment) (hp : h.Owns p (encode items))
    (hq : h.Owns q (encode items')) (hfuel : items.length + items'.length < fuel) :
    ∃ r h', appendDevicePathInstance env fuel (some p) (some q) h = some (r, h') ∧
      Gives env h (encode (items ++ .endInstance :: items')) r h' := by
  have hjoined : encode (items ++ .endInstance :: items') =
      encodeItems items ++ (endNode endInstanceDevicePathSubType ++ encode items') := by
    rw [encode_append]
    rfl
  have hlength : (encode items).length + (encode items').length = (encode (items ++ .endInstance :: items')).length := by
    rw [hjoined, encode_length items, List.length_append, List.length_append, endNode_length, Nat.add_assoc]
  rw [appendDevicePathInstance, getDevicePathSize_path hp.holds (by omega), getDevicePathSize_path hq.holds (by omega)]
  simp only [Option.bind_eq_bind, Option.bind_some, hlength]
  obtain ⟨h₁, hk, hn, ⟨hg, ha, hf⟩ | ⟨hg, ha⟩⟩ :=
    allocatePool_cases env (encode (items ++ .endInstance :: items')).length h
  · obtain ⟨h₂, hc₁, hf₁⟩ := copyMem_filled hf hp (by rw [← hlength]; simp)
    have hc₁' : copyMem h.newBlock p (encode items).length h₁ = some h₂ := hc₁
    rw [List.nil_append] at hf₁
    have hwalk := walk_end hf₁.holds (show items.length < fuel by omega)
    -- the end node of the path becomes that of its last instance
    have hends : h₂.Holds h.newBlock (encodeItems items ++ (endNode endEntireDevicePathSubType ++ [])) := by
      rw [List.append_nil]
      exact hf₁.holds
    obtain ⟨h₃, hs, hst, hholds⟩ := setSubType_spec endInstanceDevicePathSubType hends (by
      show 0 + (encodeItems items).length + endDevicePathLength ≤ h₂.size h.next
      rw [hf₁.size, ← hlength, encode_length items]
      omega)
    rw [List.append_nil] at hholds
    have hf₂ := hf₁.stored hst hholds
    have hnext : nextDevicePathNode h₃ (h.newBlock.add (encodeItems items).length) =
        h.newBlock.add (encodeItems items ++ endNode endInstanceDevicePathSubType).length := by
      have hend : h₃.Holds (h.newBlock.add (encodeItems items).length) (Item.encode .endInstance) :=
        (Heap.holds_append.mp hholds).2
      rw [hend.item.2.2, Pointer.add_add, List.length_append]
      rfl
    obtain ⟨h₄, hc₂, hf₃⟩ := copyMem_filled hf₂ hq (Nat.le_of_eq (by
      rw [hjoined, List.length_append, List.length_append, List.length_append, Nat.add_assoc]))
    rw [List.append_assoc, ← hjoined] at hf₃
    refine ⟨some h.newBlock, h₄, ?_, hf₃.gives hg⟩
    rw [ha]
    simp only [hc₁', hwalk, hs, hnext, hc₂, Option.bind_some]
  · refine ⟨none, h₁, ?_, gives_none hk hn hg⟩
    rw [ha]

/-! ## The next instance -/

theorem walk_instance {t : UInt8} (hp : h.Holds p (encodeItems (nodes i) ++ (endNode t ++ rest))) (hfuel : i.length < fuel) :
    walk isDevicePathEndType h fuel p = some (p.add (encodeItems (nodes i)).length) := by
  obtain ⟨hi, he⟩ := Heap.holds_append.mp hp
  refine walk_items (fun j hj q hq => ?_) hi (Heap.holds_append.mp he).1.isEndType (by simpa [nodes] using hfuel)
  obtain ⟨n, -, rfl⟩ := List.mem_map.mp hj
  exact hq.not_endType

/-- The byte is changed and changed back. -/
theorem write_back {m : Memory} {a : Nat} (t : UInt8) (hs : m a = s) : write (write m a [t]) a [s] = m := by
  funext k
  by_cases hk : k = a
  · rw [hk, ((at_cons _ _ _ _).mp (write_at (write m a [t]) a [s])).1, hs]
  · rw [write_outside _ _ _ _ (by simp only [List.length_singleton]; omega),
      write_outside _ _ _ _ (by simp only [List.length_singleton]; omega)]

/-- What `GetNextDevicePathInstance` stores for the rest of the path. -/
def following (p : Pointer) (i : List Node) (t : UInt8) : Option Pointer :=
  if t == endEntireDevicePathSubType then none else some (p.add (encode (nodes i)).length)

theorem getNextDevicePathInstance_spec (env : Environment)
    (hp : h.Owns p (encodeItems (nodes i) ++ (endNode s ++ rest)))
    (hroom : p.offset + (encode (nodes i)).length ≤ h.size p.block) (hfuel : i.length < fuel) :
    ∃ r h', getNextDevicePathInstance env fuel (some p) h =
        some (⟨r, following p i s, (encode (nodes i)).length⟩, h') ∧
      h'.next = h.next + 1 ∧ Gives env h (encode (nodes i)) r h' := by
  rw [encode_length, ← Nat.add_assoc] at hroom
  obtain ⟨htype, hsub, hl⟩ := (Heap.holds_append.mp (Heap.holds_append.mp hp.holds).2).1.endNode
  obtain ⟨h₁, hs₁, hst₁, hp₁⟩ := setSubType_spec endEntireDevicePathSubType hp.holds hroom
  have hpath : h₁.Owns p (encode (nodes i)) := by
    rw [← List.append_assoc] at hp₁
    exact ⟨(Heap.holds_append.mp hp₁).1, hst₁.next ▸ hp.allocated⟩
  obtain ⟨r, h₂, hr, hn₂, hg⟩ := duplicateDevicePath_spec env hpath
    (show (nodes i).length < fuel by simpa [nodes] using hfuel)
  have hblock : p.block < h₁.next := hpath.allocated
  have hroom₂ : (p.add ((encodeItems (nodes i)).length + 1)).offset + [s].length ≤
      h₂.size (p.add ((encodeItems (nodes i)).length + 1)).block := by
    simp only [Pointer.add_offset, Pointer.add_block, List.length_singleton]
    rw [hg.keeps.size _ hblock, hst₁.size]
    unfold endDevicePathLength at hroom
    omega
  obtain ⟨h₃, hs₃, hst₃⟩ := store_spec hroom₂
  have hself : h₃.bytes p.block = h.bytes p.block := by
    have h3 : h₃.bytes p.block = write (h₂.bytes p.block) (p.offset + ((encodeItems (nodes i)).length + 1)) [s] :=
      hst₃.inside
    have h1 : h₁.bytes p.block = write (h.bytes p.block) (p.offset + ((encodeItems (nodes i)).length + 1))
        [endEntireDevicePathSubType] := hst₁.inside
    rw [h3, hg.keeps.bytes _ hblock, h1]
    exact write_back _ (by rw [← Nat.add_assoc]; exact hsub)
  refine ⟨r, h₃, ?_, by rw [hst₃.next, hn₂, hst₁.next], ⟨?_, fun b hb => ?_, fun b hb => ?_⟩, ?_, fun p' hp' => ?_⟩
  · have hsub₃ : devicePathSubType h₃ (p.add (encodeItems (nodes i)).length) = s := by
      rw [devicePathSubType, Pointer.add_block, hself]
      exact hsub
    have hnext : nextDevicePathNode h₃ (p.add (encodeItems (nodes i)).length) = p.add (encode (nodes i)).length := by
      rw [nextDevicePathNode, devicePathNodeLength, Pointer.add_block, hself, encode_length, ← Pointer.add_add]
      exact congrArg (p.add (encodeItems (nodes i)).length).add hl
    have hback : setSubType (p.add (encodeItems (nodes i)).length) s h₂ = some h₃ := hs₃
    rw [getNextDevicePathInstance, walk_instance hp.holds hfuel]
    simp only [Option.bind_eq_bind, Option.bind_some, hs₁, hr, hsub, hback, hsub₃, hnext, Pointer.add_offset,
      Nat.add_sub_cancel_left, encode_length, following]
  · rw [hst₃.next]
    exact Nat.le_trans (Nat.le_of_eq hst₁.next.symm) hg.keeps.next
  · by_cases hb' : b = p.block
    · rw [hb', hself]
    · rw [hst₃.outside b hb', hg.keeps.bytes b (hst₁.next ▸ hb), hst₁.outside b hb']
  · rw [hst₃.size, hg.keeps.size b (hst₁.next ▸ hb), hst₁.size]
  · rw [hg.granted, hst₃.next, hst₁.next]
  · have hnew := hg.path p' hp'
    have hne : p'.block ≠ p.block := Nat.ne_of_gt (Nat.lt_of_lt_of_le hblock hnew.fresh)
    exact ⟨hnew.start, hst₁.next ▸ hnew.fresh, hst₃.next ▸ hnew.allocated, hnew.holds.congr (hst₃.outside _ hne),
      (congrFun hst₃.size _).trans hnew.size⟩

/-! ## All instances -/

/-- `AppendDevicePathInstance` for one instance after the other, until it fails. -/
def appendInstances (env : Environment) (fuel : Nat) :
    Option Pointer → List Pointer → Heap → Option (Option Pointer × Heap)
  | devicePath, [], h => some (devicePath, h)
  | devicePath, inst :: insts, h => do
    let (newDevicePath, h) ← appendDevicePathInstance env fuel devicePath (some inst) h
    if newDevicePath.isNone then some (none, h) else appendInstances env fuel newDevicePath insts h

/-- `GetNextDevicePathInstance` until it stores `NULL` for the path, which takes at most this many calls. -/
def nextInstances (env : Environment) (fuel : Nat) : Nat → Option Pointer → Heap → Option (List NextInstance × Heap)
  | 0, _, _ => none
  | calls + 1, devicePath, h => do
    let (r, h) ← getNextDevicePathInstance env fuel devicePath h
    if r.devicePath.isNone then some ([r], h)
    else do
      let (rs, h) ← nextInstances env fuel calls r.devicePath h
      some (r :: rs, h)

theorem Gives.trans (h₁ : Gives env h bs (some p) h') (h₂ : Gives env h' bs' r h'') : Gives env h bs' r h'' where
  keeps := h₁.keeps.trans h₂.keeps
  granted := by
    rw [h₂.granted]
    refine ⟨fun hall k hle hlt => ?_, fun hall k hle hlt => hall k (Nat.le_trans h₁.keeps.next hle) hlt⟩
    by_cases hk : k < h'.next
    · exact h₁.granted.mp rfl k hle hk
    · exact hall k (Nat.le_of_not_lt hk) hlt
  path p' hp' := (h₂.path p' hp').earlier h₁.keeps

/-- The nodes of instances, with an end node in front of each. -/
def behind (l : List (List Node)) : List Item := l.flatMap fun j => Item.endInstance :: nodes j

theorem joined_eq (i : List Node) (l : List (List Node)) : joined i l = nodes i ++ behind l := rfl

theorem behind_cons (j : List Node) (l : List (List Node)) : behind (j :: l) = .endInstance :: nodes j ++ behind l := rfl

theorem appendInstances_spec {l : List (Pointer × List Node)} (hp : Gives env h (encode items) (some p) h')
    (hl : ∀ x ∈ l, h.Owns x.1 (encode (nodes x.2)))
    (hfuel : items.length + (behind (l.map Prod.snd)).length < fuel) :
    ∃ r h'', appendInstances env fuel (some p) (l.map Prod.fst) h' = some (r, h'') ∧
      Gives env h (encode (items ++ behind (l.map Prod.snd))) r h'' := by
  induction l generalizing items p h' with
  | nil => exact ⟨some p, h', rfl, by rw [List.map_nil, behind, List.flatMap_nil, List.append_nil]; exact hp⟩
  | cons x l ih =>
    simp only [List.map_cons, behind_cons] at hfuel ⊢
    simp only [List.length_append, List.length_cons] at hfuel
    obtain ⟨r, h₁, hr, hg⟩ := appendDevicePathInstance_spec env (hp.path p rfl).owns
      ((hl x List.mem_cons_self).mono hp.keeps) (show items.length + (nodes x.2).length < fuel by omega)
    have hg' := hp.trans hg
    rw [appendInstances, hr]
    cases r with
    | none => exact ⟨none, h₁, rfl, hg'.keeps, hg'.granted, nofun⟩
    | some p₁ =>
      obtain ⟨r', h₂, hr', hg₂⟩ := ih hg' (fun y hy => hl y (List.mem_cons_of_mem _ hy)) (by
        simp only [List.length_append, List.length_cons]
        omega)
      refine ⟨r', h₂, hr', ?_⟩
      rwa [List.append_assoc] at hg₂

/-- What one call returns for an instance, in a heap that has the path. -/
structure Copied (env : Environment) (h h' : Heap) (call : Nat) (i : List Node) (r : NextInstance) : Prop where
  size : r.size = (encode (nodes i)).length
  granted : r.returnValue.isSome = env.grants call
  path : ∀ p ∈ r.returnValue, h.New h' p (encode (nodes i))

theorem Copied.mono {call : Nat} {r : NextInstance} (hc : Copied env h h₁ call i r) (he : h₁.Extends h₂) :
    Copied env h h₂ call i r := ⟨hc.size, hc.granted, fun p hp => (hc.path p hp).mono he⟩

/-- `rs` are copies of the instances, in their order. -/
def AllCopied (env : Environment) (h h' : Heap) (l : List (List Node)) (rs : List NextInstance) : Prop :=
  rs.length = l.length ∧ ∀ n i, l[n]? = some i → ∃ r, rs[n]? = some r ∧ Copied env h h' (h.next + n) i r

theorem Copied.earlier {call : Nat} {r : NextInstance} (hc : Copied env h₁ h₂ call i r) (he : h.Extends h₁) :
    Copied env h h₂ call i r := ⟨hc.size, hc.granted, fun p hp => (hc.path p hp).earlier he⟩

theorem AllCopied.cons {l : List (List Node)} {r : NextInstance} {rs : List NextInstance} (he : h.Extends h₁)
    (he' : h₁.Extends h₂) (hn : h₁.next = h.next + 1) (hr : Copied env h h₁ h.next i r) (hrs : AllCopied env h₁ h₂ l rs) :
    AllCopied env h h₂ (i :: l) (r :: rs) := by
  refine ⟨congrArg Nat.succ hrs.1, fun n j hj => ?_⟩
  cases n with
  | zero =>
    obtain rfl := Option.some.inj hj
    exact ⟨r, rfl, hr.mono he'⟩
  | succ n =>
    obtain ⟨r', hr', hc⟩ := hrs.2 n j hj
    refine ⟨r', hr', ?_⟩
    rw [hn, Nat.add_assoc, Nat.add_comm 1 n] at hc
    exact hc.earlier he

theorem Gives.copied (hg : Gives env h (encode (nodes i)) r h') (hn : h'.next = h.next + 1) (path : Option Pointer) :
    Copied env h h' h.next i ⟨r, path, (encode (nodes i)).length⟩ := by
  refine ⟨rfl, Bool.eq_iff_iff.mpr (hg.granted.trans ?_), hg.path⟩
  rw [hn]
  refine ⟨fun hall => hall _ (Nat.le_refl _) (Nat.lt_succ_self _), fun hgrants k hle hlt => ?_⟩
  obtain rfl : k = h.next := by omega
  exact hgrants

/-- One copy for each instance, and the path is as it was. -/
theorem nextInstances_spec {l : List (List Node)} (hp : h.Owns p (encode (joined i l)))
    (hroom : p.offset + (encode (joined i l)).length ≤ h.size p.block) (hfuel : (joined i l).length < fuel) :
    ∃ rs h', nextInstances env fuel (l.length + 1) (some p) h = some (rs, h') ∧ h.Extends h' ∧
      AllCopied env h h' (i :: l) rs := by
  induction l generalizing i p h with
  | nil =>
    rw [encode_joined] at hp hroom
    rw [joined_eq, List.length_append] at hfuel
    obtain ⟨r, h₁, hr, hn, hg⟩ := getNextDevicePathInstance_spec env hp
      (by rw [encode, List.length_append]; simpa using hroom) (show i.length < fuel by simpa [nodes, behind] using hfuel)
    refine ⟨[⟨r, none, (encode (nodes i)).length⟩], h₁, ?_, hg.keeps, AllCopied.cons hg.keeps .refl hn (hg.copied hn none)
      ⟨rfl, fun n j hj => by cases hj⟩⟩
    rw [nextInstances, hr]
    rfl
  | cons j l ih =>
    rw [encode_joined] at hp hroom
    rw [joined_eq, behind_cons] at hfuel
    simp only [List.length_append, List.length_cons, nodes, List.length_map] at hfuel
    have hlength : (encodeItems (nodes i) ++ endNode endInstanceDevicePathSubType).length = (encode (nodes i)).length := by
      rw [encode_length, List.length_append, endNode_length]
    simp only [← List.append_assoc] at hroom
    rw [List.length_append, hlength] at hroom
    obtain ⟨r, h₁, hr, hn, hg⟩ := getNextDevicePathInstance_spec env hp (by omega) (show i.length < fuel by omega)
    have hrest : h₁.Owns (p.add (encode (nodes i)).length) (encode (joined j l)) := by
      obtain ⟨hholds, hlt⟩ := hp.mono hg.keeps
      simp only [← List.append_assoc] at hholds
      rw [Heap.holds_append, hlength] at hholds
      exact ⟨hholds.2, hlt⟩
    obtain ⟨rs, h₂, hrs, he, hall⟩ := ih hrest (by
      simp only [Pointer.add_offset, Pointer.add_block]
      rw [hg.keeps.size _ hp.allocated]
      omega) (by
      rw [joined_eq, List.length_append]
      simp only [nodes, List.length_map]
      omega)
    refine ⟨⟨r, some (p.add (encode (nodes i)).length), (encode (nodes i)).length⟩ :: rs, h₂, ?_, hg.keeps.trans he,
      hall.cons hg.keeps he hn (hg.copied hn _)⟩
    rw [List.length_cons, nextInstances, hr]
    have hmore : following p i endInstanceDevicePathSubType = some (p.add (encode (nodes i)).length) := rfl
    simp only [hmore, Option.bind_eq_bind, Option.bind_some, Option.isNone_some, Bool.false_eq_true, if_false, hrs]

/-! ## The laws -/

/-- The run gives the path of these nodes, which has this size. -/
def GivesPath (env : Environment) (fuel : Nat) (h : Heap) (run : Option (Option Pointer × Heap)) (items : List Item)
    (size : Nat) : Prop :=
  ∃ r h', run = some (r, h') ∧ Gives env h (encode items) r h' ∧ ∀ p ∈ r, getDevicePathSize fuel h' (some p) = some size

theorem givesPath_of_gives {run : Option (Option Pointer × Heap)} {size : Nat} (hr : run = some (r, h'))
    (hg : Gives env h (encode items) r h') (hsize : (encode items).length = size) (hfuel : items.length < fuel) :
    GivesPath env fuel h run items size :=
  ⟨r, h', hr, hg, fun p hp => hsize ▸ getDevicePathSize_path (hg.path p hp).holds hfuel⟩

/-- The instances are joined, and taken apart again. -/
structure RoundTrip (env : Environment) (fuel : Nat) (h : Heap) (i : Pointer × List Node) (l : List (Pointer × List Node)) :
    Prop where
  join : GivesPath env fuel h (appendInstances env fuel none ((i :: l).map Prod.fst) h) (joined i.2 (l.map Prod.snd))
    (encode (joined i.2 (l.map Prod.snd))).length
  split : ∀ p h₁, appendInstances env fuel none ((i :: l).map Prod.fst) h = some (some p, h₁) →
    ∃ rs h₂, nextInstances env fuel (l.length + 1) (some p) h₁ = some (rs, h₂) ∧ h₁.Extends h₂ ∧
      AllCopied env h₁ h₂ ((i :: l).map Prod.snd) rs

theorem roundTrip {i : Pointer × List Node} {l : List (Pointer × List Node)}
    (howns : ∀ x ∈ i :: l, h.Owns x.1 (encode (nodes x.2))) (hfuel : (joined i.2 (l.map Prod.snd)).length < fuel) :
    RoundTrip env fuel h i l := by
  have hlengths := hfuel
  rw [joined_eq, List.length_append] at hlengths
  have hjoin : ∃ r h', appendInstances env fuel none ((i :: l).map Prod.fst) h = some (r, h') ∧
      Gives env h (encode (joined i.2 (l.map Prod.snd))) r h' := by
    obtain ⟨r, h₁, hr, hn, hg⟩ := duplicateDevicePath_spec env (howns i List.mem_cons_self)
      (show (nodes i.2).length < fuel by omega)
    rw [List.map_cons, appendInstances, appendDevicePathInstance, hr]
    cases r with
    | none => exact ⟨none, h₁, rfl, hg.keeps, hg.granted, nofun⟩
    | some p => exact appendInstances_spec hg (fun x hx => howns x (List.mem_cons_of_mem _ hx)) hlengths
  obtain ⟨r, h₁, hr, hg⟩ := hjoin
  refine ⟨givesPath_of_gives hr hg rfl hfuel, fun p h₁' hp => ?_⟩
  obtain ⟨rfl, rfl⟩ := Prod.mk.inj (Option.some.inj (hr.symm.trans hp))
  have hnew := hg.path p rfl
  have hsplit := @nextInstances_spec env _ _ fuel _ (l.map Prod.snd) hnew.owns
    (Nat.le_of_eq (by rw [hnew.start, hnew.size, Nat.zero_add])) hfuel
  rwa [List.length_map] at hsplit

/-- `AppendDevicePath` and `AppendDevicePathNode` of the paths in the pool. -/
structure Concatenates (env : Environment) (fuel : Nat) (h : Heap) : Prop where
  append : ∀ {p q items items'}, h.Owns p (encode items) → h.Owns q (encode items') → (items ++ items').length < fuel →
    GivesPath env fuel h (appendDevicePath env fuel (some p) (some q) h) (items ++ items')
      ((encode items).length + (encode items').length - endDevicePathLength)
  node : ∀ {p q items n}, h.Owns p (encode items) → h.Owns q (Item.node n).encode → items.length + 1 < fuel →
    GivesPath env fuel h (appendDevicePathNode env fuel (some p) (some q) h) (items ++ [.node n])
      ((encode items).length + (encode [.node n]).length - endDevicePathLength)
  identity : ∀ {p e items}, h.Owns p (encode items) → h.Owns e (endNode endEntireDevicePathSubType) →
    items.length < fuel →
      GivesPath env fuel h (appendDevicePath env fuel (some p) (some e) h) items (encode items).length ∧
        GivesPath env fuel h (appendDevicePath env fuel (some e) (some p) h) items (encode items).length
  /-- `(p q) s` and `p (q s)`, one after the other. -/
  assoc : ∀ {p q s items items' items''} {a b c d : Pointer} {h₁ h₂ h₃ h₄ : Heap}, h.Owns p (encode items) →
    h.Owns q (encode items') → h.Owns s (encode items'') → (items ++ items' ++ items'').length < fuel →
    appendDevicePath env fuel (some p) (some q) h = some (some a, h₁) →
    appendDevicePath env fuel (some a) (some s) h₁ = some (some b, h₂) →
    appendDevicePath env fuel (some q) (some s) h₂ = some (some c, h₃) →
    appendDevicePath env fuel (some p) (some c) h₃ = some (some d, h₄) →
    ∃ bs, h.New h₄ b bs ∧ h.New h₄ d bs

theorem encode_length_append (items items' : List Item) :
    (encode (items ++ items')).length = (encode items).length + (encode items').length - endDevicePathLength := by
  rw [encode_append, List.length_append, encode_length items]
  omega

/-- A concatenation that succeeds. -/
theorem appendDevicePath_new {a : Pointer} (hp : h.Owns p (encode items)) (hq : h.Owns q (encode items'))
    (hfuel : (items ++ items').length < fuel) (hrun : appendDevicePath env fuel (some p) (some q) h = some (some a, h₁)) :
    h.Extends h₁ ∧ h.New h₁ a (encode (items ++ items')) := by
  obtain ⟨r, h', hr, -, hg⟩ := appendDevicePath_spec env hp hq hfuel
  obtain ⟨rfl, rfl⟩ := Prod.mk.inj (Option.some.inj (hr.symm.trans hrun))
  exact ⟨hg.keeps, hg.path a rfl⟩

theorem concatenates (env : Environment) (fuel : Nat) (h : Heap) : Concatenates env fuel h where
  append hp hq hfuel := by
    obtain ⟨r, h', hr, -, hg⟩ := appendDevicePath_spec env hp hq hfuel
    exact givesPath_of_gives hr hg (encode_length_append _ _) hfuel
  node hp hq hfuel := by
    obtain ⟨r, h', hr, hg⟩ := appendDevicePathNode_spec env hp hq hfuel
    exact givesPath_of_gives hr hg (encode_length_append _ _) (by rwa [List.length_append])
  identity := by
    intro p e items hp he hfuel
    obtain ⟨r, h₁, hr, -, hg⟩ := appendDevicePath_spec env hp (show h.Owns e (encode []) from he)
      (show (items ++ []).length < fuel by rwa [List.append_nil])
    obtain ⟨r', h₂, hr', -, hg'⟩ := appendDevicePath_spec env (show h.Owns e (encode []) from he) hp
      (show ([] ++ items).length < fuel from hfuel)
    rw [List.append_nil] at hg
    exact ⟨givesPath_of_gives hr hg rfl hfuel, givesPath_of_gives hr' hg' rfl hfuel⟩
  assoc := by
    intro p q s items items' items'' a b c d h₁ h₂ h₃ h₄ hp hq hs hfuel ha hb hc hd
    have hlengths := hfuel
    simp only [List.length_append] at hlengths
    obtain ⟨he₁, hnew₁⟩ := appendDevicePath_new hp hq (by rw [List.length_append]; omega) ha
    obtain ⟨he₂, hnew₂⟩ := appendDevicePath_new hnew₁.owns (hs.mono he₁) hfuel hb
    have he := he₁.trans he₂
    obtain ⟨he₃, hnew₃⟩ := appendDevicePath_new (hq.mono he) (hs.mono he) (by rw [List.length_append]; omega) hc
    obtain ⟨he₄, hnew₄⟩ := appendDevicePath_new (hp.mono (he.trans he₃)) hnew₃.owns
      (by simp only [List.length_append]; omega) hd
    rw [← List.append_assoc] at hnew₄
    exact ⟨_, (hnew₂.earlier he₁).mono (he₃.trans he₄), hnew₄.earlier (he.trans he₃)⟩

end

/-- Instances of device paths come back as they were, and paths are concatenated as lists of nodes. -/
theorem devicePath_instances (env : Environment) (fuel : Nat) (h : Heap) :
    (∀ (i : Pointer × List Node) (l : List (Pointer × List Node)), (∀ x ∈ i :: l, h.Owns x.1 (encode (nodes x.2))) →
      (joined i.2 (l.map Prod.snd)).length < fuel → RoundTrip env fuel h i l) ∧
    Concatenates env fuel h :=
  ⟨fun _ _ howns hfuel => roundTrip howns hfuel, concatenates env fuel h⟩

/-! ## A run -/

def sampleNode (type : Fin 0x7f) (data : List UInt8) (hfits : data.length < 100) : Node where
  type := UInt8.ofNat type
  subType := 1
  data := data
  not_end h := by
    have htype := congrArg UInt8.toNat h
    rw [UInt8.toNat_ofNat'] at htype
    simp only [endDevicePathType, UInt8.reduceToNat] at htype
    omega
  fits := by
    unfold endDevicePathLength
    omega

def sampleFirst : List Node := [sampleNode 1 [5, 6] (by decide)]

def sampleSecond : List Node := [sampleNode 2 [] (by decide), sampleNode 4 [0x7f, 0xff] (by decide)]

/-- The end node, and two instances. -/
def sampleHeap : Heap where
  bytes b i := ([endNode endEntireDevicePathSubType, encode (nodes sampleFirst),
    encode (nodes sampleSecond)].getD b []).getD i 0
  size b := ([4, 10, 14].getD b 0)
  live := [2, 1, 0]
  next := 3

/-- The two calls that join them get memory, and the second one that takes them apart does not. -/
def sampleEnvironment : Environment := ⟨fun call => call != 6, fun _ _ => 0⟩

/-- The first instance is returned, and not the second one. -/
theorem devicePath_instances_sample :
    ∃ p h₁ r₁ r₂ h₂, appendInstances sampleEnvironment 10 none [⟨1, 0⟩, ⟨2, 0⟩] sampleHeap = some (some p, h₁) ∧
      nextInstances sampleEnvironment 10 2 (some p) h₁ = some ([r₁, r₂], h₂) ∧ h₁.Extends h₂ ∧
      r₁.returnValue.isSome = true ∧ r₂.returnValue = none := by
  have howns : ∀ x ∈ [(⟨1, 0⟩, sampleFirst), (⟨2, 0⟩, sampleSecond)], sampleHeap.Owns x.1 (encode (nodes x.2)) := by
    simp only [List.forall_mem_cons, List.not_mem_nil, false_imp_iff, implies_true, and_true]
    exact ⟨⟨rfl, by decide⟩, ⟨rfl, by decide⟩⟩
  have h := (devicePath_instances sampleEnvironment 10 sampleHeap).1 _ _ howns (by decide)
  obtain ⟨r, h₁, hjoin, -, -⟩ := h.join
  have hrun : (appendInstances sampleEnvironment 10 none [⟨1, 0⟩, ⟨2, 0⟩] sampleHeap).map (fun x => (x.1, x.2.next)) =
      some (some ⟨4, 0⟩, 5) := by
    decide +kernel
  have hjoin' : appendInstances sampleEnvironment 10 none [⟨1, 0⟩, ⟨2, 0⟩] sampleHeap = some (r, h₁) := hjoin
  rw [hjoin', Option.map_some, Option.some.injEq, Prod.mk.injEq] at hrun
  obtain ⟨rfl, hnext⟩ := hrun
  obtain ⟨rs, h₂, hsplit, he, hlength, hall⟩ := h.split _ h₁ hjoin
  obtain ⟨r₁, r₂, rfl⟩ := List.length_eq_two.mp hlength
  obtain ⟨_, hr₁, hc₁⟩ := hall 0 _ rfl
  obtain ⟨_, hr₂, hc₂⟩ := hall 1 _ rfl
  obtain rfl := Option.some.inj hr₁
  obtain rfl := Option.some.inj hr₂
  refine ⟨⟨4, 0⟩, h₁, r₁, r₂, h₂, hjoin', hsplit, he, ?_, ?_⟩
  · rw [hc₁.granted, hnext]
    rfl
  · refine Option.not_isSome_iff_eq_none.mp ?_
    rw [hc₂.granted, hnext]
    decide

end Udk.DevicePath
