import Udk.DevicePath.Library

/-! # Device paths as lists of nodes

A path is a list of nodes, some of which end an instance, and the end of the path.
-/

namespace Udk.DevicePath
open Bytes

/-- A node that ends nothing. -/
structure Node where
  type : UInt8
  subType : UInt8
  data : List UInt8
  not_end : type ≠ endDevicePathType
  fits : data.length + endDevicePathLength < 2 ^ 16

inductive Item
  | node (n : Node)
  | endInstance

namespace Item

def type : Item → UInt8
  | node n => n.type
  | endInstance => endDevicePathType

def subType : Item → UInt8
  | node n => n.subType
  | endInstance => endInstanceDevicePathSubType

def data : Item → List UInt8
  | node n => n.data
  | endInstance => []

def encode (i : Item) : List UInt8 :=
  i.type :: i.subType :: (toLE 2 (i.data.length + endDevicePathLength) ++ i.data)

theorem fits (i : Item) : i.data.length + endDevicePathLength < 2 ^ 16 := by
  cases i with
  | node n => exact n.fits
  | endInstance => decide

theorem encode_length (i : Item) : i.encode.length = i.data.length + endDevicePathLength := by
  simp only [encode, List.length_cons, List.length_append, toLE_length, endDevicePathLength]
  omega

end Item

def encodeItems (items : List Item) : List UInt8 := items.flatMap Item.encode

/-- The bytes of a path. -/
def encode (items : List Item) : List UInt8 := encodeItems items ++ endNode endEntireDevicePathSubType

/-- The nodes of an instance. -/
def nodes (i : List Node) : List Item := i.map Item.node

/-- The path of these instances, the first of which is `i`. -/
def joined (i : List Node) (l : List (List Node)) : List Item :=
  nodes i ++ l.flatMap fun j => Item.endInstance :: nodes j

@[simp] theorem endNode_length (s : UInt8) : (endNode s).length = endDevicePathLength := rfl

theorem encodeItems_append (xs ys : List Item) : encodeItems (xs ++ ys) = encodeItems xs ++ encodeItems ys := by
  simp [encodeItems]

theorem encodeItems_cons (x : Item) (xs : List Item) : encodeItems (x :: xs) = x.encode ++ encodeItems xs := rfl

theorem encode_length (items : List Item) : (encode items).length = (encodeItems items).length + endDevicePathLength := by
  simp [encode]

theorem encode_append (xs ys : List Item) : encode (xs ++ ys) = encodeItems xs ++ encode ys := by
  rw [encode, encodeItems_append, List.append_assoc, encode]

/-! ## What is in memory -/

/-- The bytes are at the pointer. -/
def Heap.Holds (h : Heap) (p : Pointer) (bs : List UInt8) : Prop := At (h.bytes p.block) p.offset bs

/-- The bytes are at the pointer, in a block that is allocated. -/
structure Heap.Owns (h : Heap) (p : Pointer) (bs : List UInt8) : Prop where
  holds : h.Holds p bs
  allocated : p.block < h.next

/-- The pointer `n` bytes further on. -/
def Pointer.add (p : Pointer) (n : Nat) : Pointer := { p with offset := p.offset + n }

@[simp] theorem Pointer.add_block (p : Pointer) (n : Nat) : (p.add n).block = p.block := rfl
@[simp] theorem Pointer.add_offset (p : Pointer) (n : Nat) : (p.add n).offset = p.offset + n := rfl
@[simp] theorem Pointer.add_zero (p : Pointer) : p.add 0 = p := rfl
theorem Pointer.add_add (p : Pointer) (n k : Nat) : (p.add n).add k = p.add (n + k) := by
  simp [Pointer.add, Nat.add_assoc]

variable {h h' : Heap} {p q : Pointer} {xs ys : List UInt8} {items : List Item}

theorem Heap.holds_append : h.Holds p (xs ++ ys) ↔ h.Holds p xs ∧ h.Holds (p.add xs.length) ys :=
  at_append _ _ _ _

/-- What is read at the header of a node. -/
theorem Heap.Holds.header {t s : UInt8} {n : Nat} {rest : List UInt8} (hn : n < 2 ^ 16)
    (hp : h.Holds p (t :: s :: (toLE 2 n ++ rest))) :
    devicePathType h p = t ∧ devicePathSubType h p = s ∧ devicePathNodeLength h p = n := by
  obtain ⟨ht, hp⟩ := (at_cons _ _ _ _).mp hp
  obtain ⟨hs, hp⟩ := (at_cons _ _ _ _).mp hp
  obtain ⟨hl, -⟩ := (at_append _ _ _ _).mp hp
  exact ⟨ht, hs, at_readLE _ _ 2 n hl (by omega)⟩

theorem Heap.Holds.item {i : Item} (hp : h.Holds p i.encode) :
    devicePathType h p = i.type ∧ devicePathSubType h p = i.subType ∧ nextDevicePathNode h p = p.add i.encode.length := by
  obtain ⟨ht, hs, hl⟩ := hp.header i.fits
  refine ⟨ht, hs, ?_⟩
  rw [nextDevicePathNode, hl, i.encode_length, Pointer.add]

theorem Heap.Holds.endNode {s : UInt8} (hp : h.Holds p (endNode s)) :
    devicePathType h p = endDevicePathType ∧ devicePathSubType h p = s ∧
      devicePathNodeLength h p = endDevicePathLength :=
  @Heap.Holds.header _ _ _ _ _ [] (by decide) hp

theorem Heap.Holds.not_end {i : Item} (hp : h.Holds p i.encode) : isDevicePathEnd h p = false := by
  obtain ⟨ht, hs, -⟩ := hp.item
  cases i with
  | node n =>
    have : isDevicePathEndType h p = false := by rw [isDevicePathEndType, ht]; exact beq_false_of_ne n.not_end
    rw [isDevicePathEnd, this, Bool.false_and]
  | endInstance => rw [isDevicePathEnd, hs, Bool.and_eq_false_iff]; exact .inr rfl

theorem Heap.Holds.not_endType {n : Node} (hp : h.Holds p (Item.node n).encode) : isDevicePathEndType h p = false := by
  rw [isDevicePathEndType, hp.item.1]
  exact beq_false_of_ne n.not_end

theorem Heap.Holds.isEnd (hp : h.Holds p (DevicePath.endNode endEntireDevicePathSubType)) : isDevicePathEnd h p = true := by
  obtain ⟨ht, hs, -⟩ := hp.endNode
  rw [isDevicePathEnd, isDevicePathEndType, ht, hs]
  rfl

theorem Heap.Holds.isEndType {s : UInt8} (hp : h.Holds p (DevicePath.endNode s)) : isDevicePathEndType h p = true := by
  rw [isDevicePathEndType, hp.endNode.1]
  rfl

/-! ## The walk to the end -/

/-- The walk goes over the nodes where it doesn't stop. -/
theorem walk_items {stop : Heap → Pointer → Bool} {fuel : Nat}
    (hstop : ∀ i ∈ items, ∀ q, h.Holds q i.encode → stop h q = false) (hp : h.Holds p (encodeItems items))
    (hend : stop h (p.add (encodeItems items).length) = true) (hfuel : items.length < fuel) :
    walk stop h fuel p = some (p.add (encodeItems items).length) := by
  induction items generalizing p fuel with
  | nil =>
    obtain ⟨fuel, rfl⟩ := Nat.exists_eq_add_of_lt hfuel
    exact if_pos hend
  | cons i items ih =>
    obtain ⟨fuel, rfl⟩ := Nat.exists_eq_add_of_lt hfuel
    rw [encodeItems_cons] at hp hend ⊢
    obtain ⟨hi, hrest⟩ := Heap.holds_append.mp hp
    rw [List.length_append, ← Pointer.add_add] at hend ⊢
    rw [walk, if_neg (by rw [hstop i List.mem_cons_self p hi]; decide), hi.item.2.2]
    exact ih (fun j hj => hstop j (List.mem_cons_of_mem _ hj)) hrest hend (by simp only [List.length_cons]; omega)

theorem walk_end {fuel : Nat} (hp : h.Holds p (encode items)) (hfuel : items.length < fuel) :
    walk isDevicePathEnd h fuel p = some (p.add (encodeItems items).length) := by
  obtain ⟨hi, he⟩ := Heap.holds_append.mp hp
  exact walk_items (fun _ _ _ hq => hq.not_end) hi he.isEnd hfuel

theorem getDevicePathSize_path {fuel : Nat} (hp : h.Holds p (encode items)) (hfuel : items.length < fuel) :
    getDevicePathSize fuel h (some p) = some (encode items).length := by
  have he := (Heap.holds_append.mp hp).2
  simp only [getDevicePathSize, walk_end hp hfuel, Option.map_some, he.endNode.2.2, Pointer.add_offset]
  rw [encode_length, Nat.add_sub_cancel_left]

end Udk.DevicePath
