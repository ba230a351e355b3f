import Udk.Handle.Interfaces
import Udk.DevicePath.Paths

/-! # `CoreLocateDevicePath` on device paths in memory -/

namespace Udk.DevicePath.Locate
open Bytes
open Handle (Database Pool EfiHandle Interface ProtAddress EfiStatus handlesByProtocol coreHandleProtocol
  coreGetProtocolInterface gEfiDevicePathProtocolGuid handleProtocolCall protocolsOf Wf SameShape)

/-! ## The model -/

/-- The memory that the device paths are in, and the address of an interface. -/
structure World where
  heap : Heap
  pointer : Interface → Pointer

/-- The status of the routine, `*Device` and `*DevicePath`. -/
structure Located where
  status : EfiStatus
  device : EfiHandle
  devicePath : Pointer

def isDevicePathEndInstance (h : Heap) (node : Pointer) : Bool :=
  isDevicePathEndType h node && devicePathSubType h node == endInstanceDevicePathSubType

/-- The interface that `CoreHandleProtocol` returns for `gEfiDevicePathProtocolGuid`. -/
def deviceInterface (db : Database) (handle : EfiHandle) : Option Interface :=
  (coreGetProtocolInterface handle gEfiDevicePathProtocolGuid db).bind fun p =>
    (db.prots p).map Handle.ProtocolInterface.interface

/-- One turn of the loop over the handles. `BestMatch` is `none` for -1, and comes with `*Device`. -/
def locateRound (pool : Pool) (fuel : Nat) (w : World) (sourcePath : Pointer) (sourceSize : Nat)
    (best : Option (Nat × EfiHandle) × Database) (handle : EfiHandle) :
    Option (Option (Nat × EfiHandle) × Database) :=
  match coreHandleProtocol pool handle gEfiDevicePathProtocolGuid best.2 with
  | (status, db) =>
    if status.isError then some (best.1, db)
    else do
      let tmpDevicePath := w.pointer ((deviceInterface db handle).getD 0)
      let size := (← getDevicePathSize fuel w.heap (some tmpDevicePath)) - endDevicePathLength
      if size ≤ sourceSize ∧ read (w.heap.bytes sourcePath.block) sourcePath.offset size =
          read (w.heap.bytes tmpDevicePath.block) tmpDevicePath.offset size then
        if best.1.all (fun b => b.1 < size) then some (some (size, handle), db) else some (best.1, db)
      else some (best.1, db)

/-- The routine, for arguments that are not NULL. -/
def coreLocateDevicePath (pool : Pool) (fuel : Nat) (w : World) (protocol : Handle.Guid) (sourcePath : Pointer)
    (db : Database) : Option (Located × Database) := do
  let tmpDevicePath ← walk (fun h node => isDevicePathEnd h node || isDevicePathEndInstance h node) w.heap fuel sourcePath
  let sourceSize := tmpDevicePath.offset - sourcePath.offset
  if handlesByProtocol protocol db = [] ∨ pool.handleBuffer = false then some (⟨.notFound, 0, sourcePath⟩, db)
  else
    match ← (handlesByProtocol protocol db).foldlM (locateRound pool fuel w sourcePath sourceSize) (none, db) with
    | (none, db) => some (⟨.notFound, 0, sourcePath⟩, db)
    | (some (bestMatch, handle), db) => some (⟨.success, handle, sourcePath.add bestMatch⟩, db)

/-! ## Longest prefixes -/

/-- Each device path of a handle is a string of nodes in memory. -/
def World.HoldsPaths (w : World) (db : Database) (items : Interface → List Item) (fuel : Nat) : Prop :=
  ∀ handle i, deviceInterface db handle = some i →
    w.heap.Holds (w.pointer i) (encode (items i)) ∧ (items i).length < fuel

/-- The handle supports the protocol, and its device path is a prefix of `d`, node by node. -/
structure Candidate (db : Database) (items : Interface → List Item) (protocol : Handle.Guid) (d : List Node)
    (handle : EfiHandle) (i : Interface) : Prop where
  supports : handle ∈ handlesByProtocol protocol db
  path : deviceInterface db handle = some i
  isPrefix : items i <+: nodes d

/-- The device path of the handle is the longest of the prefixes. -/
structure BestCandidate (db : Database) (items : Interface → List Item) (protocol : Handle.Guid) (d : List Node)
    (handle : EfiHandle) (i : Interface) : Prop extends Candidate db items protocol d handle i where
  longest : ∀ handle' i', Candidate db items protocol d handle' i' → items i' <+: items i

/-- The routine succeeds exactly if there is a candidate, and then returns the longest prefix and what is left. -/
structure LongestPrefix (w : World) (db : Database) (items : Interface → List Item) (protocol : Handle.Guid)
    (sourcePath : Pointer) (d : List Node) (r : Located) : Prop where
  success_iff : r.status = .success ↔ ∃ handle i, Candidate db items protocol d handle i
  returned : r.status = .success → ∃ i rest, BestCandidate db items protocol d r.device i ∧
    nodes d = items i ++ nodes rest ∧ r.devicePath = sourcePath.add (encodeItems (items i)).length ∧
    w.heap.Holds r.devicePath (encode (nodes rest))

/-- `CoreHandleProtocol` needs no memory for the handle, or gets it. -/
def Openable (pool : Pool) (db : Database) (handle : EfiHandle) : Prop :=
  db.gDxeCoreImageHandle = 0 ∨ pool.openData handle = true ∨
    ∃ p q, coreGetProtocolInterface handle gEfiDevicePathProtocolGuid db = some p ∧ db.prots p = some q ∧
      ∃ e ∈ q.openList, (handleProtocolCall handle gEfiDevicePathProtocolGuid db).exactMatch e = true

/-! ## Nodes and bytes -/

theorem item_ext {x y : Item} (ht : x.type = y.type) (hs : x.subType = y.subType) (hd : x.data = y.data) : x = y := by
  cases x with
  | node n =>
    cases y with
    | node m =>
      obtain ⟨_, _, _, _, _⟩ := n
      obtain ⟨_, _, _, _, _⟩ := m
      cases ht
      cases hs
      cases hd
      rfl
    | endInstance => exact absurd ht n.not_end
  | endInstance =>
    cases y with
    | node m => exact absurd ht.symm m.not_end
    | endInstance => rfl

/-- The length in the header of a node tells where it ends. -/
theorem encode_prefix {x y : Item} {xs ys : List UInt8} (h : x.encode ++ xs <+: y.encode ++ ys) : x = y := by
  obtain ⟨rest, h⟩ := h
  simp only [Item.encode, List.cons_append, List.append_assoc, List.cons.injEq] at h
  obtain ⟨ht, hs, h⟩ := h
  obtain ⟨hlength, h⟩ := List.append_inj h (by rw [toLE_length, toLE_length])
  have hx := x.fits
  have hy := y.fits
  have hsame : x.data.length = y.data.length := by
    have := congrArg fromLE hlength
    rw [fromLE_toLE 2 _ (by omega), fromLE_toLE 2 _ (by omega)] at this
    omega
  exact item_ext ht hs (List.append_inj h hsame).1

theorem encodeItems_prefix_iff {xs ys : List Item} : encodeItems xs <+: encodeItems ys ↔ xs <+: ys := by
  constructor
  · intro h
    induction xs generalizing ys with
    | nil => exact List.nil_prefix
    | cons x xs ih =>
      cases ys with
      | nil =>
        have := h.length_le
        rw [encodeItems_cons, List.length_append, x.encode_length] at this
        simp [encodeItems, endDevicePathLength] at this
      | cons y ys =>
        rw [encodeItems_cons, encodeItems_cons] at h
        obtain rfl := encode_prefix h
        exact List.cons_prefix_cons.mpr ⟨rfl, ih ((List.prefix_append_right_inj _).mp h)⟩
  · rintro ⟨zs, rfl⟩
    rw [encodeItems_append]
    exact List.prefix_append _ _

/-- Comparing as many bytes as the path has, if there are as many, compares the nodes. -/
theorem compare_iff {h : Heap} {p q : Pointer} {xs ys : List Item} (hp : h.Holds p (encodeItems xs))
    (hq : h.Holds q (encodeItems ys)) :
    ((encodeItems ys).length ≤ (encodeItems xs).length ∧
      read (h.bytes p.block) p.offset (encodeItems ys).length =
        read (h.bytes q.block) q.offset (encodeItems ys).length) ↔ ys <+: xs := by
  have hread {n : Nat} (hn : n ≤ (encodeItems xs).length) :
      read (h.bytes p.block) p.offset n = (encodeItems xs).take n := by
    obtain ⟨k, hk⟩ := Nat.exists_eq_add_of_le hn
    conv_rhs => rw [← show read (h.bytes p.block) p.offset (encodeItems xs).length = encodeItems xs from hp, hk, read_add]
    rw [List.take_left' (read_length _ _ _)]
  rw [← encodeItems_prefix_iff, List.prefix_iff_eq_take, show read (h.bytes q.block) q.offset _ = _ from hq]
  constructor
  · rintro ⟨hle, hsame⟩
    rw [← hsame, hread hle, List.length_take_of_le hle]
  · intro htake
    have hle : (encodeItems ys).length ≤ (encodeItems xs).length := by
      have := congrArg List.length htake
      rw [List.length_take] at this
      omega
    exact ⟨hle, (hread hle).trans htake.symm⟩

/-! ## `CoreHandleProtocol` -/

section
variable {pool : Pool} {db db' : Database} {handle other : EfiHandle}

theorem handleProtocol_sameShape : SameShape db (coreHandleProtocol pool handle gEfiDevicePathProtocolGuid db).2 :=
  Handle.coreHandleProtocol_spec.1.tidy.1

theorem getProtocolInterface_eq (h : SameShape db db') :
    coreGetProtocolInterface handle gEfiDevicePathProtocolGuid db' =
      coreGetProtocolInterface handle gEfiDevicePathProtocolGuid db := by
  rw [coreGetProtocolInterface, coreGetProtocolInterface, h.protocolsOf]
  congr 1
  funext p
  have hp := h.prots p
  cases hq : db.prots p with
  | none =>
    rw [hq, Option.map_none, Option.map_eq_none_iff] at hp
    rw [hp]
  | some q =>
    rw [hq] at hp
    obtain ⟨q', hq', hident⟩ := Option.map_eq_some_iff.mp hp
    rw [hq', Option.any_some, Option.any_some, show q'.protocol = q.protocol from congrArg (·.2.1) hident]

theorem deviceInterface_eq (h : SameShape db db') : deviceInterface db' handle = deviceInterface db handle := by
  rw [deviceInterface, deviceInterface, getProtocolInterface_eq h]
  congr 1
  funext p
  have hp := congrArg (Option.map fun x => x.2.2) (h.prots p)
  rw [Option.map_map, Option.map_map] at hp
  exact hp

/-- The interface of a handle, and the handle of an interface. -/
theorem getProtocolInterface_owned (hdb : Wf db) {p : ProtAddress}
    (h : coreGetProtocolInterface handle gEfiDevicePathProtocolGuid db = some p) :
    ∃ q, db.prots p = some q ∧ q.handle = handle ∧ Handle.coreValidateHandle handle db = true := by
  have hmem := List.mem_of_find?_eq_some h
  obtain ⟨q, hq, hhandle⟩ := hdb.owned handle p hmem
  refine ⟨q, hq, hhandle, ?_⟩
  cases hnone : db.handles handle with
  | none =>
    rw [protocolsOf, hnone] at hmem
    cases hmem
  | some x => rw [Handle.coreValidateHandle, hnone]; rfl

/-- An entry of `CoreHandleProtocol` is counted again. -/
theorem scan_lookup {c : Handle.OpenCall} (hc : c.attributes = Handle.efiOpenProtocolByHandleProtocol)
    (l : List Handle.OpenProtocolData) (byDriver exclusive : Bool) :
    ((∃ e ∈ l, c.exactMatch e = true) → Handle.scan c l byDriver exclusive = .counted) ∧
    ((¬∃ e ∈ l, c.exactMatch e = true) → ∃ b x, Handle.scan c l byDriver exclusive = .conflicts b x) := by
  induction l generalizing byDriver exclusive with
  | nil =>
    refine ⟨?_, fun _ => ⟨_, _, rfl⟩⟩
    rintro ⟨e, he, -⟩
    exact absurd he List.not_mem_nil
  | cons e l ih =>
    rw [Handle.scan]
    by_cases hmatch : c.exactMatch e = true
    · have hattr : e.attributes = Handle.efiOpenProtocolByHandleProtocol :=
        ((Handle.exactMatch_iff c e).mp hmatch).2.2 ▸ hc
      have hdriver : e.byDriver = false := by rw [Handle.OpenProtocolData.byDriver, hattr]; decide
      have hexclusive : e.exclusive = false := by rw [Handle.OpenProtocolData.exclusive, hattr]; decide
      rw [hdriver, hexclusive, hmatch]
      exact ⟨fun _ => rfl, fun hnone => absurd ⟨e, List.mem_cons_self, hmatch⟩ hnone⟩
    · rw [if_neg (by simp [hmatch])]
      have hrest : (∃ e' ∈ e :: l, c.exactMatch e' = true) ↔ ∃ e' ∈ l, c.exactMatch e' = true := by
        constructor
        · rintro ⟨e', he', hm⟩
          rcases List.mem_cons.mp he' with rfl | he'
          · exact absurd hm hmatch
          · exact ⟨e', he', hm⟩
        · rintro ⟨e', he', hm⟩
          exact ⟨e', List.mem_cons_of_mem _ he', hm⟩
      rw [hrest]
      split
      · exact ih _ _
      · exact ih _ _

/-- What `CoreHandleProtocol` does for `gEfiDevicePathProtocolGuid`. -/
theorem handleProtocol_cases (pool : Pool) (hdb : Wf db) (handle : EfiHandle) :
    (deviceInterface db handle = none ∧
      (coreHandleProtocol pool handle gEfiDevicePathProtocolGuid db).1.isError = true ∧
      (coreHandleProtocol pool handle gEfiDevicePathProtocolGuid db).2 = db) ∨
    ∃ p q, coreGetProtocolInterface handle gEfiDevicePathProtocolGuid db = some p ∧ db.prots p = some q ∧
      q.handle = handle ∧ deviceInterface db handle = some q.interface ∧
      ((coreHandleProtocol pool handle gEfiDevicePathProtocolGuid db).1.isError = false ↔ Openable pool db handle) ∧
      ((coreHandleProtocol pool handle gEfiDevicePathProtocolGuid db).2 = db ∨
        ∃ f, (coreHandleProtocol pool handle gEfiDevicePathProtocolGuid db).2 = Handle.setProt p f db) := by
  have hcheck : Handle.checkOpen (handleProtocolCall handle gEfiDevicePathProtocolGuid db) db =
      if Handle.coreValidateHandle handle db = false then .invalidParameter else .success := by
    rw [Handle.checkOpen, if_neg fun hx => Bool.noConfusion hx.2]
    rfl
  have hgetCall : coreGetProtocolInterface (handleProtocolCall handle gEfiDevicePathProtocolGuid db).userHandle
      (handleProtocolCall handle gEfiDevicePathProtocolGuid db).protocol db =
      coreGetProtocolInterface handle gEfiDevicePathProtocolGuid db := rfl
  rw [coreHandleProtocol, Handle.coreOpenProtocol, hcheck, hgetCall]
  cases hget : coreGetProtocolInterface handle gEfiDevicePathProtocolGuid db with
  | none =>
    refine .inl ⟨by rw [deviceInterface, hget]; rfl, ?_⟩
    cases Handle.coreValidateHandle handle db <;> exact ⟨rfl, rfl⟩
  | some p =>
    obtain ⟨q, hq, hhandle, hvalid⟩ := getProtocolInterface_owned hdb hget
    refine .inr ⟨p, q, rfl, hq, hhandle, by rw [deviceInterface, hget, Option.bind_some, hq]; rfl, ?_⟩
    rw [hvalid]
    simp only [Bool.true_eq_false, if_false, ne_eq, not_true_eq_false, hq, Option.map_some, Option.getD_some]
    obtain ⟨hcounted, hconflicts⟩ := @scan_lookup (handleProtocolCall handle gEfiDevicePathProtocolGuid db) rfl
      q.openList false false
    by_cases hmatch : ∃ e ∈ q.openList, (handleProtocolCall handle gEfiDevicePathProtocolGuid db).exactMatch e = true
    · rw [hcounted hmatch]
      exact ⟨⟨fun _ => .inr (.inr ⟨p, q, hget, hq, hmatch⟩), fun _ => rfl⟩, .inr ⟨_, rfl⟩⟩
    · obtain ⟨b, x, hscan⟩ := hconflicts hmatch
      rw [hscan]
      have hdriver : ¬((handleProtocolCall handle gEfiDevicePathProtocolGuid db).attributes =
          Handle.efiOpenProtocolByDriver ∧ (x = true ∨ b = true)) := fun h =>
        absurd h.1 (by decide : Handle.efiOpenProtocolByHandleProtocol ≠ Handle.efiOpenProtocolByDriver)
      have hexclusive : ¬((handleProtocolCall handle gEfiDevicePathProtocolGuid db).attributes =
            Handle.efiOpenProtocolByDriver ||| Handle.efiOpenProtocolExclusive ∨
          (handleProtocolCall handle gEfiDevicePathProtocolGuid db).attributes = Handle.efiOpenProtocolExclusive) := by
        simp only [handleProtocolCall]
        decide
      simp only [if_neg hdriver, if_neg hexclusive, Handle.newOpenEntry]
      have hopen : Openable pool db handle ↔ db.gDxeCoreImageHandle = 0 ∨ pool.openData handle = true := by
        refine or_congr_right ⟨fun h => h.resolve_right ?_, .inl⟩
        rintro ⟨p', q', hp', hq', hm⟩
        obtain rfl := Option.some.inj (hget.symm.trans hp')
        obtain rfl := Option.some.inj (hq.symm.trans hq')
        exact hmatch hm
      rw [hopen]
      by_cases himage : db.gDxeCoreImageHandle = 0
      · rw [if_pos (show (handleProtocolCall handle gEfiDevicePathProtocolGuid db).imageHandle = 0 from himage)]
        exact ⟨⟨fun _ => .inl himage, fun _ => rfl⟩, .inl rfl⟩
      · rw [if_neg (show ¬(handleProtocolCall handle gEfiDevicePathProtocolGuid db).imageHandle = 0 from himage)]
        by_cases hpool : pool.openData handle = true
        · rw [if_pos (show pool.openData
            (handleProtocolCall handle gEfiDevicePathProtocolGuid db).userHandle = true from hpool)]
          exact ⟨⟨fun _ => .inr hpool, fun _ => rfl⟩, .inr ⟨_, rfl⟩⟩
        · rw [if_neg (show ¬pool.openData (handleProtocolCall handle gEfiDevicePathProtocolGuid db).userHandle = true
            from hpool)]
          refine ⟨iff_of_false ?_ (not_or.mpr ⟨himage, hpool⟩), .inl rfl⟩
          exact Bool.false_ne_true.symm

theorem openable_setProt {p : ProtAddress} {f : Handle.ProtocolInterface → Handle.ProtocolInterface} (hdb : Wf db)
    (hp : ∃ q, db.prots p = some q ∧ q.handle = handle) (hother : other ≠ handle)
    (hshape : SameShape db (Handle.setProt p f db)) :
    Openable pool (Handle.setProt p f db) other ↔ Openable pool db other := by
  refine or_congr_right (or_congr_right ?_)
  rw [getProtocolInterface_eq hshape]
  refine exists_congr fun p' => exists_congr fun q' => and_congr_right fun hp' => ?_
  obtain ⟨q, hq, hhandle⟩ := hp
  obtain ⟨q₂, hq₂, hhandle₂, -⟩ := getProtocolInterface_owned hdb hp'
  have hne : p' ≠ p := by
    rintro rfl
    obtain rfl := Option.some.inj (hq.symm.trans hq₂)
    exact hother (hhandle₂.symm.trans hhandle)
  rw [show (Handle.setProt p f db).prots p' = db.prots p' from if_neg hne]
  exact Iff.rfl

/-! ## The loop over the handles -/

/-- Keeps the longer match. -/
def better (best : Option (Nat × EfiHandle)) (b : Nat × EfiHandle) : Option (Nat × EfiHandle) :=
  if best.all (fun c => c.1 < b.1) then some b else best

def AtLeast (n : Nat) (best : Option (Nat × EfiHandle)) : Prop := ∃ b, best = some b ∧ n ≤ b.1

theorem better_atLeast (best : Option (Nat × EfiHandle)) (b : Nat × EfiHandle) : AtLeast b.1 (better best b) := by
  unfold better
  split
  · exact ⟨b, rfl, Nat.le_refl _⟩
  · rename_i hnot
    cases best with
    | none => exact absurd rfl hnot
    | some c => exact ⟨c, rfl, by simpa using hnot⟩

theorem AtLeast.better {n : Nat} {best : Option (Nat × EfiHandle)} (h : AtLeast n best) (b : Nat × EfiHandle) :
    AtLeast n (better best b) := by
  obtain ⟨c, rfl, hn⟩ := h
  unfold Locate.better
  split
  · rename_i hlt
    have : c.1 < b.1 := by simpa using hlt
    exact ⟨b, rfl, by omega⟩
  · exact ⟨c, rfl, hn⟩

/-- The handle can be opened, and its device path is a prefix of `d`. -/
structure Takes (pool : Pool) (db : Database) (items : Interface → List Item) (d : List Node) (handle : EfiHandle)
    (i : Interface) : Prop where
  path : deviceInterface db handle = some i
  openable : Openable pool db handle
  isPrefix : items i <+: nodes d

/-- The database while the loop still has the handles to do. -/
structure DuringLoop (pool : Pool) (db : Database) (todo : List EfiHandle) (db' : Database) : Prop where
  wf : Wf db'
  shape : SameShape db db'
  openable : ∀ h ∈ todo, Openable pool db' h ↔ Openable pool db h

variable {w : World} {items : Interface → List Item} {fuel : Nat} {sourcePath : Pointer} {d : List Node}
  {todo : List EfiHandle} {best : Option (Nat × EfiHandle)}

theorem DuringLoop.next (h : DuringLoop pool db (handle :: todo) db') (hnot : handle ∉ todo) :
    DuringLoop pool db todo (coreHandleProtocol pool handle gEfiDevicePathProtocolGuid db').2 := by
  have hshape := @handleProtocol_sameShape pool db' handle
  refine ⟨Handle.coreHandleProtocol_spec.1.tidy.2 h.wf, h.shape.trans hshape, fun other hother => ?_⟩
  rw [← h.openable other (List.mem_cons_of_mem _ hother)]
  rcases handleProtocol_cases pool h.wf handle with ⟨-, -, heq⟩ | ⟨p, q, -, hq, hhandle, -, -, heq | ⟨f, heq⟩⟩
  · rw [heq]
  · rw [heq]
  · rw [heq] at hshape ⊢
    exact openable_setProt h.wf ⟨q, hq, hhandle⟩ (by rintro rfl; exact hnot hother) hshape

theorem locateRound_spec (hw : w.HoldsPaths db items fuel) (hd : w.heap.Holds sourcePath (encodeItems (nodes d)))
    (h : DuringLoop pool db (handle :: todo) db') :
    ∃ best', locateRound pool fuel w sourcePath (encodeItems (nodes d)).length (best, db') handle =
        some (best', (coreHandleProtocol pool handle gEfiDevicePathProtocolGuid db').2) ∧
      ((∃ i, Takes pool db items d handle i ∧ best' = better best ((encodeItems (items i)).length, handle)) ∨
        (¬∃ i, Takes pool db items d handle i) ∧ best' = best) := by
  have hopen := h.openable handle List.mem_cons_self
  have hinterface := @deviceInterface_eq _ _ handle h.shape
  have hafter := @deviceInterface_eq _ _ handle
    (h.shape.trans (@handleProtocol_sameShape pool db' handle))
  unfold locateRound
  rcases handleProtocol_cases pool h.wf handle with ⟨hnone, herror, -⟩ | ⟨p, q, -, -, -, hpath, hstatus, -⟩
  · refine ⟨best, by dsimp only; rw [if_pos herror], .inr ⟨?_, rfl⟩⟩
    rintro ⟨i, hi⟩
    have := hi.path
    rw [← hinterface, hnone] at this
    cases this
  · rw [hinterface] at hpath
    by_cases hcan : Openable pool db handle
    · have hok := hstatus.mpr (hopen.mpr hcan)
      obtain ⟨hpathHeld, hlen⟩ := hw handle q.interface hpath
      have hsize := getDevicePathSize_path hpathHeld hlen
      have hitems := (Heap.holds_append.mp hpathHeld).1
      dsimp only
      rw [hok, if_neg Bool.false_ne_true, hafter, hpath, Option.getD_some, hsize, Option.bind_eq_bind, Option.bind_some,
        encode_length, Nat.add_sub_cancel]
      by_cases hstarts : items q.interface <+: nodes d
      · rw [if_pos ((compare_iff hd hitems).mpr hstarts)]
        refine ⟨_, ?_, .inl ⟨q.interface, ⟨hpath, hcan, hstarts⟩, rfl⟩⟩
        unfold better
        split <;> rfl
      · rw [if_neg fun hsame => hstarts ((compare_iff hd hitems).mp hsame)]
        refine ⟨best, rfl, .inr ⟨?_, rfl⟩⟩
        rintro ⟨i, hi⟩
        obtain rfl := Option.some.inj (hpath.symm.trans hi.path)
        exact hstarts hi.isPrefix
    · refine ⟨best, ?_, .inr ⟨fun ⟨i, hi⟩ => hcan hi.openable, rfl⟩⟩
      have herror : (coreHandleProtocol pool handle gEfiDevicePathProtocolGuid db').1.isError = true := by
        by_contra hok
        exact hcan (hopen.mp (hstatus.mp (by simpa using hok)))
      dsimp only
      rw [if_pos herror]

/-- The loop keeps a match of at least the length of each. -/
theorem locateLoop_spec (hw : w.HoldsPaths db items fuel) (hd : w.heap.Holds sourcePath (encodeItems (nodes d)))
    (h : DuringLoop pool db todo db') (hnodup : todo.Nodup) :
    ∃ best' db'', todo.foldlM (locateRound pool fuel w sourcePath (encodeItems (nodes d)).length) (best, db') =
        some (best', db'') ∧
      (∀ n, AtLeast n best → AtLeast n best') ∧
      (∀ handle ∈ todo, ∀ i, Takes pool db items d handle i → AtLeast (encodeItems (items i)).length best') ∧
      (best' = best ∨ ∃ handle ∈ todo, ∃ i, Takes pool db items d handle i ∧
        best' = some ((encodeItems (items i)).length, handle)) := by
  induction todo generalizing best db' with
  | nil => exact ⟨best, db', rfl, fun _ => id, fun _ hmem => absurd hmem List.not_mem_nil, .inl rfl⟩
  | cons handle todo ih =>
    obtain ⟨hnot, hnodup⟩ := List.nodup_cons.mp hnodup
    obtain ⟨best₁, hround, hbest₁⟩ := @locateRound_spec pool db db' handle w items fuel sourcePath d todo best hw hd h
    obtain ⟨best', db'', hloop, hkeep, hall, hfrom⟩ := @ih _ best₁ (h.next hnot) hnodup
    have hfirst (n : Nat) (hn : AtLeast n best) : AtLeast n best₁ := by
      rcases hbest₁ with ⟨i, -, rfl⟩ | ⟨-, rfl⟩
      · exact hn.better _
      · exact hn
    refine ⟨best', db'', ?_, fun n hn => hkeep n (hfirst n hn), ?_, ?_⟩
    · rw [List.foldlM_cons, hround]
      exact hloop
    · rintro other hother i hi
      rcases List.mem_cons.mp hother with rfl | hother
      · rcases hbest₁ with ⟨j, hj, rfl⟩ | ⟨hnone, -⟩
        · obtain rfl := Option.some.inj (hj.path.symm.trans hi.path)
          exact hkeep _ (better_atLeast best _)
        · exact absurd ⟨i, hi⟩ hnone
      · exact hall other hother i hi
    · rcases hfrom with rfl | ⟨other, hother, i, hi, hbest'⟩
      · rcases hbest₁ with ⟨i, hi, rfl⟩ | ⟨-, rfl⟩
        · unfold better
          split
          · exact .inr ⟨handle, List.mem_cons_self, i, hi, rfl⟩
          · exact .inl rfl
        · exact .inl rfl
      · exact .inr ⟨other, List.mem_cons_of_mem _ hother, i, hi, hbest'⟩

/-! ## `CoreLocateDevicePath` -/

theorem nodup_eraseDups (l : List EfiHandle) : l.eraseDups.Nodup := by
  induction hn : l.length using Nat.strongRecOn generalizing l with
  | _ n ih =>
    cases l with
    | nil => exact List.nodup_nil
    | cons a l =>
      rw [List.eraseDups_cons, List.nodup_cons]
      constructor
      · rw [List.mem_eraseDups, List.mem_filter]
        rintro ⟨-, h⟩
        simp at h
      · have hle := List.length_filter_le (fun b => !b == a) l
        rw [List.length_cons] at hn
        exact ih _ (by omega) _ rfl

theorem handlesByProtocol_nodup (protocol : Handle.Guid) (db : Database) : (handlesByProtocol protocol db).Nodup :=
  nodup_eraseDups _

/-- The walk of the routine ends at the end of the path. -/
theorem walk_source (hd : w.heap.Holds sourcePath (encode (nodes d))) (hfuel : d.length < fuel) :
    walk (fun h node => isDevicePathEnd h node || isDevicePathEndInstance h node) w.heap fuel sourcePath =
      some (sourcePath.add (encodeItems (nodes d)).length) := by
  obtain ⟨hitems, hend⟩ := Heap.holds_append.mp hd
  refine walk_items ?_ hitems ?_ (by rw [nodes, List.length_map]; exact hfuel)
  · rintro i hi q hq
    obtain ⟨n, -, rfl⟩ := List.mem_map.mp hi
    have hnot := hq.not_endType
    rw [isDevicePathEnd, isDevicePathEndInstance, hnot, Bool.false_and, Bool.false_and, Bool.or_false]
  · rw [hend.isEnd, Bool.true_or]

variable {protocol : Handle.Guid} {i : Interface}

theorem Candidate.unique {i' : Interface} (h : Candidate db items protocol d handle i)
    (h' : Candidate db items protocol d handle i') : i = i' := Option.some.inj (h.path.symm.trans h'.path)

/-- A prefix as long as the longest one is the longest one. -/
theorem BestCandidate.of_length (h : BestCandidate db items protocol d handle i) {i' : Interface}
    (h' : Candidate db items protocol d other i')
    (hle : (encodeItems (items i)).length ≤ (encodeItems (items i')).length) :
    BestCandidate db items protocol d other i' := by
  have hstarts := h.longest other i' h'
  have hsame : items i' = items i := by
    have hbytes := (encodeItems_prefix_iff.mpr hstarts).eq_of_length_le hle
    exact hstarts.eq_of_length_le ((encodeItems_prefix_iff.mp (hbytes ▸ List.prefix_rfl)).length_le)
  exact ⟨h', fun handle' j hj => hsame ▸ h.longest handle' j hj⟩

/-- All candidates are prefixes of one path, so one of them is the longest. -/
theorem returned_of_best (hd : w.heap.Holds sourcePath (encode (nodes d)))
    (h : BestCandidate db items protocol d handle i) :
    ∃ rest, nodes d = items i ++ nodes rest ∧
      w.heap.Holds (sourcePath.add (encodeItems (items i)).length) (encode (nodes rest)) := by
  obtain ⟨rest, hrest⟩ := h.isPrefix
  have hsplit : nodes d = items i ++ nodes (d.drop (items i).length) := by
    have hdrop : nodes (d.drop (items i).length) = (nodes d).drop (items i).length := by rw [nodes, nodes, List.map_drop]
    rw [hdrop, ← hrest, List.drop_left]
  rw [hsplit, encode_append] at hd
  exact ⟨_, hsplit, (Heap.holds_append.mp hd).2⟩

/-- What the routine returns, by the best match of the loop. -/
theorem coreLocateDevicePath_cases (hdb : Wf db) (hw : w.HoldsPaths db items fuel)
    (hd : w.heap.Holds sourcePath (encode (nodes d))) (hfuel : d.length < fuel) :
    ∃ r db', coreLocateDevicePath pool fuel w protocol sourcePath db = some (r, db') ∧
      ((r.status ≠ .success ∧ (pool.handleBuffer = true →
          ∀ handle i, Candidate db items protocol d handle i → ¬Openable pool db handle)) ∨
        (r.status = .success ∧ pool.handleBuffer = true ∧ Openable pool db r.device ∧
          ∃ i, Candidate db items protocol d r.device i ∧
            r.devicePath = sourcePath.add (encodeItems (items i)).length ∧
            ∀ handle i', Candidate db items protocol d handle i' → Openable pool db handle →
              (encodeItems (items i')).length ≤ (encodeItems (items i)).length)) := by
  unfold coreLocateDevicePath
  rw [walk_source hd hfuel, Option.bind_eq_bind, Option.bind_some, Pointer.add_offset, Nat.add_sub_cancel_left]
  by_cases hnone : handlesByProtocol protocol db = [] ∨ pool.handleBuffer = false
  · rw [if_pos hnone]
    refine ⟨_, _, rfl, .inl ⟨nofun, fun hbuffer handle i hi => ?_⟩⟩
    rcases hnone with hnone | hnone
    · have := hi.supports
      rw [hnone] at this
      cases this
    · rw [hbuffer] at hnone
      cases hnone
  · rw [if_neg hnone]
    have hbuffer : pool.handleBuffer = true := by simpa using (not_or.mp hnone).2
    obtain ⟨best, db', hloop, -, hall, hfrom⟩ := @locateLoop_spec pool db db w items fuel sourcePath d
      (handlesByProtocol protocol db) none hw (Heap.holds_append.mp hd).1 ⟨hdb, .refl, fun _ _ => Iff.rfl⟩
      (handlesByProtocol_nodup protocol db)
    have htakes {handle : EfiHandle} {i : Interface} (hi : Candidate db items protocol d handle i)
        (hopen : Openable pool db handle) : Takes pool db items d handle i := ⟨hi.path, hopen, hi.isPrefix⟩
    rw [hloop]
    rcases hfrom with rfl | ⟨handle, hmem, i, hi, rfl⟩
    · refine ⟨_, _, rfl, .inl ⟨nofun, fun _ handle i hi hopen => ?_⟩⟩
      obtain ⟨b, hb, -⟩ := hall handle hi.supports i (htakes hi hopen)
      cases hb
    · refine ⟨_, _, rfl, .inr ⟨rfl, hbuffer, hi.openable, i, ⟨hmem, hi.path, hi.isPrefix⟩, rfl, ?_⟩⟩
      intro other i' hi' hopen
      obtain ⟨b, hb, hle⟩ := hall other hi'.supports i' (htakes hi' hopen)
      obtain rfl := Option.some.inj hb
      exact hle

/-- The routine locates the longest prefix if and only if there is none, or the pool has memory for the handles
and for opening one with the longest prefix. -/
theorem coreLocateDevicePath_longest_iff (hdb : Wf db) (hw : w.HoldsPaths db items fuel)
    (hd : w.heap.Holds sourcePath (encode (nodes d))) (hfuel : d.length < fuel) :
    (∃ r db', coreLocateDevicePath pool fuel w protocol sourcePath db = some (r, db') ∧
      LongestPrefix w db items protocol sourcePath d r) ↔
    (¬∃ handle i, Candidate db items protocol d handle i) ∨
      pool.handleBuffer = true ∧ ∃ handle i, BestCandidate db items protocol d handle i ∧ Openable pool db handle := by
  obtain ⟨r, db', hrun, hcases⟩ := @coreLocateDevicePath_cases pool db w items fuel sourcePath d protocol hdb hw hd hfuel
  constructor
  · rintro ⟨r', db'', hrun', hlongest⟩
    obtain ⟨rfl, rfl⟩ := Prod.mk.inj (Option.some.inj (hrun.symm.trans hrun'))
    refine or_iff_not_imp_left.mpr fun hsome => ?_
    have hsuccess := hlongest.success_iff.mpr (not_not.mp hsome)
    rcases hcases with ⟨hfail, -⟩ | ⟨-, hbuffer, hopen, -⟩
    · exact absurd hsuccess hfail
    · obtain ⟨i, -, hbest, -⟩ := hlongest.returned hsuccess
      exact ⟨hbuffer, r.device, i, hbest, hopen⟩
  · intro hcond
    refine ⟨r, db', hrun, ?_⟩
    rcases hcases with ⟨hfail, hnone⟩ | ⟨hsuccess, -, -, i, hcand, hrest, hlongest⟩
    · have hno : ¬∃ handle i, Candidate db items protocol d handle i := by
        rcases hcond with hno | ⟨hbuffer, handle, i, hbest, hopen⟩
        · exact hno
        · exact absurd hopen (hnone hbuffer handle i hbest.toCandidate)
      exact ⟨⟨fun h => absurd h hfail, fun h => absurd h hno⟩, fun h => absurd h hfail⟩
    · have hbest : BestCandidate db items protocol d r.device i := by
        rcases hcond with hno | ⟨-, handle, i', hbest, hopen⟩
        · exact absurd ⟨_, _, hcand⟩ hno
        · exact hbest.of_length hcand (hlongest handle i' hbest.toCandidate hopen)
      obtain ⟨rest, hsplit, hholds⟩ := returned_of_best hd hbest
      exact ⟨⟨fun _ => ⟨_, _, hcand⟩, fun _ => hsuccess⟩, fun _ => ⟨i, rest, hbest, hsplit, hrest, hrest ▸ hholds⟩⟩

/-! ## The routine of the handle database -/

/-- The database has the bytes of the paths in memory. -/
def SameBytes (db : Database) (items : Interface → List Item) : Prop :=
  ∀ i, (db.devicePathAt i).bytes = encodeItems (items i)

theorem handleProtocol_devicePathAt (pool : Pool) (hdb : Wf db) (handle : EfiHandle) :
    (coreHandleProtocol pool handle gEfiDevicePathProtocolGuid db).2.devicePathAt = db.devicePathAt := by
  rcases handleProtocol_cases pool hdb handle with ⟨-, -, heq⟩ | ⟨p, q, -, -, -, -, -, heq | ⟨f, heq⟩⟩ <;> rw [heq]
  rfl

theorem locateRound_refines (hw : w.HoldsPaths db items fuel) (hd : w.heap.Holds sourcePath (encodeItems (nodes d)))
    (hbytes : SameBytes db' items) (h : DuringLoop pool db (handle :: todo) db') :
    locateRound pool fuel w sourcePath (encodeItems (nodes d)).length (best, db') handle =
      some (Handle.locateRound pool (encodeItems (nodes d)) (best, db') handle) := by
  have hinterface := @deviceInterface_eq _ _ handle h.shape
  have hafter := @deviceInterface_eq _ _ handle
    (h.shape.trans (@handleProtocol_sameShape pool db' handle))
  have hat := handleProtocol_devicePathAt pool h.wf handle
  unfold locateRound Handle.locateRound
  dsimp only
  rcases handleProtocol_cases pool h.wf handle with ⟨-, herror, -⟩ | ⟨p, q, -, -, -, hpath, -, -⟩
  · rw [if_pos herror, if_pos herror]
  · by_cases herror : (coreHandleProtocol pool handle gEfiDevicePathProtocolGuid db').1.isError = true
    · rw [if_pos herror, if_pos herror]
    · rw [if_neg herror, if_neg herror]
      rw [hinterface] at hpath
      obtain ⟨hheld, hlen⟩ := hw handle q.interface hpath
      have hcompare := compare_iff hd (Heap.holds_append.mp hheld).1
      have hlist : ((encodeItems (items q.interface)).length ≤ (encodeItems (nodes d)).length ∧
          (encodeItems (nodes d)).take (encodeItems (items q.interface)).length = encodeItems (items q.interface)) ↔
          items q.interface <+: nodes d := by
        rw [← encodeItems_prefix_iff]
        exact ⟨fun hsame => List.prefix_iff_eq_take.mpr hsame.2.symm,
          fun hstarts => ⟨hstarts.length_le, (List.prefix_iff_eq_take.mp hstarts).symm⟩⟩
      have hinterface' : ((coreGetProtocolInterface handle gEfiDevicePathProtocolGuid
          (coreHandleProtocol pool handle gEfiDevicePathProtocolGuid db').2).bind fun p =>
          ((coreHandleProtocol pool handle gEfiDevicePathProtocolGuid db').2.prots p).map
            Handle.ProtocolInterface.interface) = some q.interface := hafter.trans hpath
      rw [hafter, hpath, hinterface', Option.getD_some, getDevicePathSize_path hheld hlen, Option.bind_eq_bind,
        Option.bind_some, encode_length, Nat.add_sub_cancel, hat, hbytes q.interface]
      by_cases hstarts : items q.interface <+: nodes d
      · rw [if_pos (hcompare.mpr hstarts)]
        obtain ⟨hle, htake⟩ := hlist.mpr hstarts
        by_cases hlonger : best.all (fun b => decide (b.1 < (encodeItems (items q.interface)).length)) = true
        · rw [if_pos hlonger, if_pos ⟨hle, htake, hlonger⟩]
        · rw [if_neg hlonger, if_neg fun hall => hlonger hall.2.2]
      · rw [if_neg fun hsame => hstarts (hcompare.mp hsame),
          if_neg fun hall => hstarts (hlist.mp ⟨hall.1, hall.2.1⟩)]

theorem locateLoop_refines (hw : w.HoldsPaths db items fuel) (hd : w.heap.Holds sourcePath (encodeItems (nodes d)))
    (hbytes : SameBytes db' items) (h : DuringLoop pool db todo db') (hnodup : todo.Nodup) :
    todo.foldlM (locateRound pool fuel w sourcePath (encodeItems (nodes d)).length) (best, db') =
      some (todo.foldl (Handle.locateRound pool (encodeItems (nodes d))) (best, db')) := by
  induction todo generalizing best db' with
  | nil => rfl
  | cons handle todo ih =>
    obtain ⟨hnot, hnodup⟩ := List.nodup_cons.mp hnodup
    rw [List.foldlM_cons, List.foldl_cons, locateRound_refines hw hd hbytes h]
    have hdb : (Handle.locateRound pool (encodeItems (nodes d)) (best, db') handle).2 =
        (coreHandleProtocol pool handle gEfiDevicePathProtocolGuid db').2 := by
      unfold Handle.locateRound
      dsimp only
      split
      · rfl
      · split <;> rfl
    have hnext := @ih _ (Handle.locateRound pool (encodeItems (nodes d)) (best, db') handle).1
      (fun i => by rw [handleProtocol_devicePathAt pool h.wf handle]; exact hbytes i) (h.next hnot) hnodup
    rw [← hdb] at hnext
    exact hnext

/-- The routine on lists of nodes has the result of the routine on memory. -/
theorem coreLocateDevicePath_refines {devicePath : Interface} (hdb : Wf db) (hw : w.HoldsPaths db items fuel)
    (hd : w.heap.Holds sourcePath (encode (nodes d))) (hfuel : d.length < fuel) (hbytes : SameBytes db items)
    (hpath : devicePath ≠ 0) (hsource : (db.devicePathAt devicePath).first.bytes = encodeItems (nodes d)) :
    (coreLocateDevicePath pool fuel w protocol sourcePath db).map (fun x => (x.1.status, x.1.device, x.1.devicePath, x.2)) =
      some (match Handle.coreLocateDevicePath pool protocol devicePath db with
        | (none, db') => (.notFound, 0, sourcePath, db')
        | (some (bestMatch, handle), db') => (.success, handle, sourcePath.add bestMatch, db')) := by
  unfold coreLocateDevicePath Handle.coreLocateDevicePath
  rw [walk_source hd hfuel, Option.bind_eq_bind, Option.bind_some, Pointer.add_offset, Nat.add_sub_cancel_left, hsource]
  by_cases hnone : handlesByProtocol protocol db = [] ∨ pool.handleBuffer = false
  · rw [if_pos hnone, if_pos (.inr hnone)]
    rfl
  · rw [if_neg hnone, if_neg fun h => hnone (h.resolve_left hpath),
      locateLoop_refines hw (Heap.holds_append.mp hd).1 hbytes ⟨hdb, .refl, fun _ _ => Iff.rfl⟩
        (handlesByProtocol_nodup protocol db)]
    generalize (handlesByProtocol protocol db).foldl (Handle.locateRound pool (encodeItems (nodes d))) (none, db) = x
    obtain ⟨_ | ⟨n, h⟩, db'⟩ := x <;> rfl

end

def rootNode : Node := ⟨2, 1, [0, 0], by decide, by decide⟩
def diskNode : Node := ⟨3, 1, [7], by decide, by decide⟩

/-- Two handles with a device path, that both support protocol 5. -/
def twoHandles : Database where
  handles h := if h = 1 then some ⟨[10, 11], 0⟩ else if h = 2 then some ⟨[20, 21], 0⟩ else none
  prots p :=
    if p = 10 then some ⟨1, gEfiDevicePathProtocolGuid, 100, [], 0⟩
    else if p = 11 then some ⟨1, 5, 0, [], 0⟩
    else if p = 20 then some ⟨2, gEfiDevicePathProtocolGuid, 200, [], 0⟩
    else if p = 21 then some ⟨2, 5, 0, [], 0⟩
    else none
  mProtocolDatabase g :=
    if g = gEfiDevicePathProtocolGuid then some ⟨[10, 20], []⟩ else if g = 5 then some ⟨[11, 21], []⟩ else none
  gHandleDatabaseKey := 0
  gDxeCoreImageHandle := 3
  devicePathAt _ := []
  signaled := []

/-- The path of the first handle, and the longer one of the second. -/
def twoItems (i : Interface) : List Item := nodes (if i = 100 then [rootNode] else [rootNode, diskNode])

def twoPaths : World where
  heap :=
    { bytes := fun _ => write (write (fun _ => 0) 0 (encode (twoItems 100))) 100 (encode (twoItems 200))
      size := fun _ => 200
      live := [0]
      next := 1 }
  pointer i := if i = 100 then ⟨0, 0⟩ else ⟨0, 100⟩

theorem twoHandles_protocolsOf (h : EfiHandle) :
    protocolsOf twoHandles h = if h = 1 then [10, 11] else if h = 2 then [20, 21] else [] := by
  unfold protocolsOf twoHandles
  dsimp only
  split
  · rfl
  · split <;> rfl

theorem twoHandles_prots {p : ProtAddress} {q : Handle.ProtocolInterface} (h : twoHandles.prots p = some q) :
    p ∈ [10, 11, 20, 21] ∧ p ∈ protocolsOf twoHandles q.handle ∧ (q.protocol = gEfiDevicePathProtocolGuid ∨ q.protocol = 5) ∧
      q.openListCount = q.openList.length := by
  unfold twoHandles at h
  dsimp only at h
  repeat' split at h
  all_goals cases h
  all_goals (subst_vars; decide)

theorem twoHandles_wf : Wf twoHandles := by
  refine ⟨⟨rfl, fun h => ?_, fun h p hp => ?_, fun p q hq => (twoHandles_prots hq).2.1, fun p q hq => ?_,
    fun p q hq => (twoHandles_prots hq).2.2.2⟩, fun h hused => ?_⟩
  · rw [twoHandles_protocolsOf]
    split
    · decide
    · split <;> decide
  · rw [twoHandles_protocolsOf] at hp
    split at hp
    · rename_i h1
      subst h1
      rcases List.mem_cons.mp hp with rfl | hp
      · exact ⟨_, rfl, rfl⟩
      · obtain rfl := List.mem_singleton.mp hp
        exact ⟨_, rfl, rfl⟩
    · split at hp
      · rename_i h2
        subst h2
        rcases List.mem_cons.mp hp with rfl | hp
        · exact ⟨_, rfl, rfl⟩
        · obtain rfl := List.mem_singleton.mp hp
          exact ⟨_, rfl, rfl⟩
      · cases hp
  · rcases (twoHandles_prots hq).2.2.1 with h | h <;> rw [h] <;> decide
  · rw [twoHandles_protocolsOf]
    split
    · decide
    · rename_i h1
      split
      · decide
      · rename_i h2
        rw [twoHandles] at hused
        simp only [h1, h2, if_false] at hused
        cases hused

theorem twoHandles_interface {h : EfiHandle} {i : Interface} (hi : deviceInterface twoHandles h = some i) :
    h = 1 ∧ i = 100 ∨ h = 2 ∧ i = 200 := by
  unfold deviceInterface coreGetProtocolInterface at hi
  rw [twoHandles_protocolsOf] at hi
  split at hi
  · exact .inl ⟨‹_›, (Option.some.inj hi).symm⟩
  · split at hi
    · exact .inr ⟨‹_›, (Option.some.inj hi).symm⟩
    · cases hi

theorem twoPaths_holds : twoPaths.HoldsPaths twoHandles twoItems 8 := by
  intro h i hi
  rcases twoHandles_interface hi with ⟨-, rfl⟩ | ⟨-, rfl⟩
  · exact ⟨by unfold Heap.Holds At; decide +kernel, by decide⟩
  · exact ⟨by unfold Heap.Holds At; decide +kernel, by decide⟩

/-- A pool that refuses an open protocol record for the second handle. -/
def starvedPool : Pool := ⟨true, none, none, fun h => h = 1, true, true⟩

def amplePool : Pool := ⟨true, none, none, fun _ => true, true, true⟩

theorem twoHandles_best : BestCandidate twoHandles twoItems 5 [rootNode, diskNode] 2 200 := by
  refine ⟨⟨by decide, rfl, List.prefix_rfl⟩, fun h i hi => hi.isPrefix⟩

theorem coreLocateDevicePath_longest_sample :
    ∃ r db', coreLocateDevicePath amplePool 8 twoPaths 5 ⟨0, 100⟩ twoHandles = some (r, db') ∧
      LongestPrefix twoPaths twoHandles twoItems 5 ⟨0, 100⟩ [rootNode, diskNode] r :=
  (coreLocateDevicePath_longest_iff twoHandles_wf twoPaths_holds (by unfold Heap.Holds At; decide +kernel) (by decide)).mpr
    (.inr ⟨rfl, 2, 200, twoHandles_best, .inr (.inl rfl)⟩)

/-- Without memory for the second handle the first one is returned, whose path is shorter. -/
theorem starved_pool_skips_handle :
    ((coreLocateDevicePath starvedPool 8 twoPaths 5 ⟨0, 100⟩ twoHandles).map fun x =>
      (x.1.status, x.1.device, x.1.devicePath)) = some (.success, 1, ⟨0, 106⟩) ∧
    ¬∃ r db', coreLocateDevicePath starvedPool 8 twoPaths 5 ⟨0, 100⟩ twoHandles = some (r, db') ∧
      LongestPrefix twoPaths twoHandles twoItems 5 ⟨0, 100⟩ [rootNode, diskNode] r := by
  have hrun : ((coreLocateDevicePath starvedPool 8 twoPaths 5 ⟨0, 100⟩ twoHandles).map fun x =>
      (x.1.status, x.1.device, x.1.devicePath)) = some (.success, 1, ⟨0, 106⟩) := by decide +kernel
  refine ⟨hrun, ?_⟩
  rintro ⟨r, db', hr, hlongest⟩
  rw [hr] at hrun
  obtain ⟨hsuccess, hdevice, -⟩ : r.status = .success ∧ r.device = 1 ∧ _ := by simpa using hrun
  obtain ⟨i, -, hbest, -⟩ := hlongest.returned hsuccess
  rw [hdevice] at hbest
  obtain rfl : i = 100 := by
    rcases twoHandles_interface hbest.path with ⟨-, hi⟩ | ⟨h, -⟩
    · exact hi
    · exact absurd h (by decide)
  exact absurd (hbest.longest 2 200 twoHandles_best.toCandidate).length_le (by decide)

end Udk.DevicePath.Locate
