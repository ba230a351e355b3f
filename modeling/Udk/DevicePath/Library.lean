import Udk.Bytes

/-! # The device path library

A device path is a string of nodes. A node starts with its type, its subtype and its length of two bytes.
-/

namespace Udk.DevicePath
open Bytes

def endDevicePathType : UInt8 := 0x7f
def endEntireDevicePathSubType : UInt8 := 0xff
def endInstanceDevicePathSubType : UInt8 := 0x01
/-- The size of `EFI_DEVICE_PATH_PROTOCOL`, the header of a node. -/
def endDevicePathLength : Nat := 4

/-- The end node with this subtype. -/
def endNode (subType : UInt8) : List UInt8 := endDevicePathType :: subType :: toLE 2 endDevicePathLength

/-! ## The pool -/

structure Pointer where
  block : Nat
  offset : Nat
deriving DecidableEq, Repr

/-- `next` numbers the blocks, and with them the calls of `AllocatePool`. -/
structure Heap where
  bytes : Nat → Memory
  size : Nat → Nat
  live : List Nat
  next : Nat

/-- Which calls of `AllocatePool` get memory, and what is in it. -/
structure Environment where
  grants : Nat → Bool
  garbage : Nat → Memory

/-- The static end node, which is in the first block. -/
def mUefiDevicePathLibEndDevicePath : Pointer := ⟨0, 0⟩

def allocatePool (env : Environment) (size : Nat) (h : Heap) : Option Pointer × Heap :=
  if env.grants h.next then
    (some ⟨h.next, 0⟩,
      { bytes := fun b => if b = h.next then env.garbage h.next else h.bytes b
        size := fun b => if b = h.next then size else h.size b
        live := h.next :: h.live
        next := h.next + 1 })
  else (none, { h with next := h.next + 1 })

def freePool (p : Pointer) (h : Heap) : Heap := { h with live := h.live.erase p.block }

/-- A write beyond the block is not defined. -/
def store (p : Pointer) (bs : List UInt8) (h : Heap) : Option Heap :=
  if p.offset + bs.length ≤ h.size p.block then
    some { h with bytes := fun b => if b = p.block then write (h.bytes b) p.offset bs else h.bytes b }
  else none

def copyMem (destination source : Pointer) (length : Nat) (h : Heap) : Option Heap :=
  store destination (read (h.bytes source.block) source.offset length) h

def allocateCopyPool (env : Environment) (size : Nat) (source : Pointer) (h : Heap) :
    Option (Option Pointer × Heap) :=
  match allocatePool env size h with
  | (none, h) => some (none, h)
  | (some p, h) => (copyMem p source size h).map fun h => (some p, h)

/-! ## Nodes -/

def devicePathType (h : Heap) (node : Pointer) : UInt8 := h.bytes node.block node.offset

def devicePathSubType (h : Heap) (node : Pointer) : UInt8 := h.bytes node.block (node.offset + 1)

def devicePathNodeLength (h : Heap) (node : Pointer) : Nat := readLE (h.bytes node.block) (node.offset + 2) 2

def nextDevicePathNode (h : Heap) (node : Pointer) : Pointer :=
  { node with offset := node.offset + devicePathNodeLength h node }

def isDevicePathEndType (h : Heap) (node : Pointer) : Bool := devicePathType h node == endDevicePathType

def isDevicePathEnd (h : Heap) (node : Pointer) : Bool :=
  isDevicePathEndType h node && devicePathSubType h node == endEntireDevicePathSubType

def setDevicePathEndNode (node : Pointer) : Heap → Option Heap := store node (endNode endEntireDevicePathSubType)

def setSubType (node : Pointer) (subType : UInt8) : Heap → Option Heap :=
  store { node with offset := node.offset + 1 } [subType]

/-- `while (!stop (Node)) Node = NextDevicePathNode (Node)`, which needs not end. -/
def walk (stop : Heap → Pointer → Bool) (h : Heap) : Nat → Pointer → Option Pointer
  | 0, _ => none
  | fuel + 1, node => if stop h node then some node else walk stop h fuel (nextDevicePathNode h node)

/-! ## Paths -/

def getDevicePathSize (fuel : Nat) (h : Heap) : Option Pointer → Option Nat
  | none => some 0
  | some start => (walk isDevicePathEnd h fuel start).map fun devicePath =>
      devicePath.offset - start.offset + devicePathNodeLength h devicePath

def duplicateDevicePath (env : Environment) (fuel : Nat) (devicePath : Option Pointer) (h : Heap) :
    Option (Option Pointer × Heap) := do
  let size ← getDevicePathSize fuel h devicePath
  match devicePath with
  | none => some (none, h)
  | some p => if size = 0 then some (none, h) else allocateCopyPool env size p h

def appendDevicePath (env : Environment) (fuel : Nat) (firstDevicePath secondDevicePath : Option Pointer)
    (h : Heap) : Option (Option Pointer × Heap) :=
  match firstDevicePath, secondDevicePath with
  | none, none => duplicateDevicePath env fuel (some mUefiDevicePathLibEndDevicePath) h
  | none, some second => duplicateDevicePath env fuel (some second) h
  | some first, none => duplicateDevicePath env fuel (some first) h
  | some first, some second => do
    let size1 ← getDevicePathSize fuel h (some first)
    let size2 ← getDevicePathSize fuel h (some second)
    match allocatePool env (size1 + size2 - endDevicePathLength) h with
    | (none, h) => some (none, h)
    | (some newDevicePath, h) => do
      let h ← copyMem newDevicePath first size1 h
      -- the end node of the first path is overwritten
      let devicePath2 := { newDevicePath with offset := newDevicePath.offset + (size1 - endDevicePathLength) }
      let h ← copyMem devicePath2 second size2 h
      some (some newDevicePath, h)

def appendDevicePathNode (env : Environment) (fuel : Nat) (devicePath devicePathNode : Option Pointer)
    (h : Heap) : Option (Option Pointer × Heap) :=
  match devicePathNode with
  | none => duplicateDevicePath env fuel (some (devicePath.getD mUefiDevicePathLibEndDevicePath)) h
  | some node =>
    let nodeLength := devicePathNodeLength h node
    match allocatePool env (nodeLength + endDevicePathLength) h with
    | (none, h) => some (none, h)
    | (some tempDevicePath, h) => do
      let h ← copyMem tempDevicePath node nodeLength h
      let h ← setDevicePathEndNode (nextDevicePathNode h tempDevicePath) h
      let (newDevicePath, h) ← appendDevicePath env fuel devicePath (some tempDevicePath) h
      some (newDevicePath, freePool tempDevicePath h)

def appendDevicePathInstance (env : Environment) (fuel : Nat) (devicePath devicePathInstance : Option Pointer)
    (h : Heap) : Option (Option Pointer × Heap) :=
  match devicePath, devicePathInstance with
  | none, _ => duplicateDevicePath env fuel devicePathInstance h
  | some _, none => some (none, h)
  | some src, some inst => do
    let srcSize ← getDevicePathSize fuel h (some src)
    let instanceSize ← getDevicePathSize fuel h (some inst)
    match allocatePool env (srcSize + instanceSize) h with
    | (none, h) => some (none, h)
    | (some newDevicePath, h) => do
      let h ← copyMem newDevicePath src srcSize h
      let tempDevicePath ← walk isDevicePathEnd h fuel newDevicePath
      let h ← setSubType tempDevicePath endInstanceDevicePathSubType h
      let h ← copyMem (nextDevicePathNode h tempDevicePath) inst instanceSize h
      some (some newDevicePath, h)

/-- What `GetNextDevicePathInstance` returns, and what it stores through its arguments. -/
structure NextInstance where
  returnValue : Option Pointer
  devicePath : Option Pointer
  size : Nat

def getNextDevicePathInstance (env : Environment) (fuel : Nat) (devicePath : Option Pointer) (h : Heap) :
    Option (NextInstance × Heap) :=
  match devicePath with
  | none => some (⟨none, none, 0⟩, h)
  | some p => do
    let devPath ← walk isDevicePathEndType h fuel p
    let size := devPath.offset - p.offset + endDevicePathLength
    -- the instance is made a path of its own while it is copied
    let temp := devicePathSubType h devPath
    let h ← setSubType devPath endEntireDevicePathSubType h
    let (returnValue, h) ← duplicateDevicePath env fuel (some p) h
    let h ← setSubType devPath temp h
    let following :=
      if devicePathSubType h devPath == endEntireDevicePathSubType then none
      else some (nextDevicePathNode h devPath)
    some (⟨returnValue, following, size⟩, h)

end Udk.DevicePath
