import Mathlib.Logic.Function.Basic
import Mathlib.Data.List.Basic
import Udk.Run

/-! # The PPI database of the PEI core

PPIs grow up and notifies grow down in one array of pointers. A call of `DispatchNotify` that has called a notify
function waits below the code of that function. One step of it looks at one PPI, or goes on to the next notify.
-/

namespace Udk.Ppi

inductive EfiStatus
  | success
  | invalidParameter
  | notFound
  | outOfResources
  deriving DecidableEq

/-- `EFI_PEI_PPI_DESCRIPTOR` and `EFI_PEI_NOTIFY_DESCRIPTOR`, which have the same layout. -/
structure Descriptor where
  address : Nat
  flags : Nat
  guid : Nat
  /-- `Ppi`, or the function `Notify`. -/
  interface : Nat
  deriving DecidableEq, Inhabited

def descriptorPpi : Nat := 0x10
def descriptorNotifyDispatch : Nat := 0x40
def descriptorNotifyTypes : Nat := 0x60
def descriptorTerminateList : Nat := 0x80000000

def Descriptor.has (d : Descriptor) (flags : Nat) : Bool := d.flags &&& flags ≠ 0

/-- `PpiData`. -/
structure PpiData where
  ppiListEnd : Int
  notifyListEnd : Int
  dispatchListEnd : Int
  lastDispatchedInstall : Int
  lastDispatchedNotify : Int
  ppiListPtrs : Int → Descriptor

/-- `InitializePpiServices`. -/
def initializePpiServices (maxPpiSupported : Nat) : PpiData where
  ppiListEnd := 0
  notifyListEnd := maxPpiSupported - 1
  dispatchListEnd := maxPpiSupported - 1
  lastDispatchedInstall := 0
  lastDispatchedNotify := maxPpiSupported - 1
  ppiListPtrs := fun _ => default

/-! ## DispatchNotify -/

/-- The parameters and the variables of a call of `DispatchNotify`. -/
structure Dispatch where
  installStartIndex : Int
  installStopIndex : Int
  notifyStopIndex : Int
  index1 : Int
  index2 : Int
  notifyDescriptor : Descriptor
  /-- A notify function is called and has not returned. -/
  calling : Bool

/-- `Index1` comes to the notify at `i`, or to the stop. -/
def Dispatch.enter (ptrs : Int → Descriptor) (d : Dispatch) (i : Int) : Dispatch :=
  { d with
    index1 := i
    index2 := d.installStartIndex
    notifyDescriptor := if d.notifyStopIndex < i then ptrs i else d.notifyDescriptor }

def dispatchNotify (p : PpiData) (installStart installStop notifyStart notifyStop : Int) : Dispatch :=
  Dispatch.enter p.ppiListPtrs
    { installStartIndex := installStart
      installStopIndex := installStop
      notifyStopIndex := notifyStop
      index1 := notifyStart
      index2 := installStart
      notifyDescriptor := default
      calling := false } notifyStart

/-- One step of the loops, with the notify and the index of the PPI when the function is called. -/
def Dispatch.tick (ptrs : Int → Descriptor) (d : Dispatch) : Option (Dispatch × List (Descriptor × Int)) :=
  if d.notifyStopIndex < d.index1 then
    if d.index2 < d.installStopIndex then
      if (ptrs d.index2).guid = d.notifyDescriptor.guid then
        some ({ d with index2 := d.index2 + 1, calling := true }, [(d.notifyDescriptor, d.index2)])
      else some ({ d with index2 := d.index2 + 1 }, [])
    else some (d.enter ptrs (d.index1 - 1), [])
  else none

/-! ## The services -/

/-- The loop of `PeiInstallPpi`. The walk off the end of a list without terminator is no result. -/
def installLoop (lastCallbackInstall : Int) : PpiData → Int → List Descriptor → Option (EfiStatus × PpiData)
  | p, index, [] => if index = p.notifyListEnd + 1 then some (.outOfResources, p) else none
  | p, index, d :: list =>
    if index = p.notifyListEnd + 1 then some (.outOfResources, p)
    else if ¬d.has descriptorPpi then some (.invalidParameter, { p with ppiListEnd := lastCallbackInstall })
    else
      let p := { p with ppiListPtrs := Function.update p.ppiListPtrs index d, ppiListEnd := p.ppiListEnd + 1 }
      if d.has descriptorTerminateList then some (.success, p) else installLoop lastCallbackInstall p (index + 1) list

/-- The status, the database, and the call of `DispatchNotify` before the return. -/
def peiInstallPpi (p : PpiData) : Option (List Descriptor) → Option (EfiStatus × PpiData × Option Dispatch)
  | none => some (.invalidParameter, p, none)
  | some ppiList =>
    match installLoop p.ppiListEnd p p.ppiListEnd ppiList with
    | some (.success, p') =>
      some (.success, p', some (dispatchNotify p' p.ppiListEnd p'.ppiListEnd p'.dispatchListEnd p'.notifyListEnd))
    | some (status, p') => some (status, p', none)
    | none => none

/-- The index of the old PPI, among the `n` entries from `index` on. -/
def findPpi (ptrs : Int → Descriptor) (old : Descriptor) : Int → Nat → Option Int
  | _, 0 => none
  | index, n + 1 => if (ptrs index).address = old.address then some index else findPpi ptrs old (index + 1) n

def peiReInstallPpi (p : PpiData) : Option Descriptor → Option Descriptor → EfiStatus × PpiData × Option (Int × Dispatch)
  | some oldPpi, some newPpi =>
    if ¬newPpi.has descriptorPpi then (.invalidParameter, p, none)
    else
      match findPpi p.ppiListPtrs oldPpi 0 p.ppiListEnd.toNat with
      | none => (.notFound, p, none)
      | some index =>
        let p := { p with ppiListPtrs := Function.update p.ppiListPtrs index newPpi }
        (.success, p, some (index, dispatchNotify p index (index + 1) p.dispatchListEnd p.notifyListEnd))
  | _, _ => (.invalidParameter, p, none)

/-- The first of the `n` PPIs from `index` on with the GUID, after `instance` others. -/
def locateFrom (ptrs : Int → Descriptor) (guid : Nat) : Nat → Int → Nat → Option Descriptor
  | _, _, 0 => none
  | inst, index, n + 1 =>
    if (ptrs index).guid = guid then
      match inst with
      | 0 => some (ptrs index)
      | inst + 1 => locateFrom ptrs guid inst (index + 1) n
    else locateFrom ptrs guid inst (index + 1) n

/-- `EFI_NOT_FOUND` is no result. -/
def peiLocatePpi (p : PpiData) (guid inst : Nat) : Option Descriptor :=
  locateFrom p.ppiListPtrs guid inst 0 p.ppiListEnd.toNat

/-- The loop of `PeiNotifyPpi`, with `NotifyDispatchCount`. -/
def notifyLoop (lastCallbackNotify : Int) :
    PpiData → Int → Nat → List Descriptor → Option (EfiStatus × PpiData × Nat)
  | p, index, count, [] => if index = p.ppiListEnd - 1 then some (.outOfResources, p, count) else none
  | p, index, count, d :: list =>
    if index = p.ppiListEnd - 1 then some (.outOfResources, p, count)
    else if ¬d.has descriptorNotifyTypes then
      some (.invalidParameter, { p with notifyListEnd := lastCallbackNotify }, count)
    else
      let count := if d.has descriptorNotifyDispatch then count + 1 else count
      let p := { p with ppiListPtrs := Function.update p.ppiListPtrs index d, notifyListEnd := p.notifyListEnd - 1 }
      if d.has descriptorTerminateList then some (.success, p, count)
      else notifyLoop lastCallbackNotify p (index - 1) count list

/-- The `n` entries from `index` on come down by one. -/
def shiftDown : (Int → Descriptor) → Int → Nat → Int → Descriptor
  | ptrs, _, 0 => ptrs
  | ptrs, index, n + 1 => shiftDown (Function.update ptrs index (ptrs (index + 1))) (index + 1) n

/-- The loop that puts dispatch notifies on the bottom, for the `n` entries from `notifyIndex` down. -/
def dispatchToBottom : PpiData → Int → Nat → PpiData
  | p, _, 0 => p
  | p, notifyIndex, n + 1 =>
    let p :=
      if (p.ppiListPtrs notifyIndex).has descriptorNotifyDispatch then
        let notifyPtr := p.ppiListPtrs notifyIndex
        let above := (p.dispatchListEnd - notifyIndex).toNat
        { p with
          ppiListPtrs := Function.update (shiftDown p.ppiListPtrs notifyIndex above) (notifyIndex + above) notifyPtr
          dispatchListEnd := p.dispatchListEnd - 1 }
      else p
    dispatchToBottom p (notifyIndex - 1) n

def peiNotifyPpi (p : PpiData) : Option (List Descriptor) → Option (EfiStatus × PpiData × Option Dispatch)
  | none => some (.invalidParameter, p, none)
  | some notifyList =>
    match notifyLoop p.notifyListEnd p p.notifyListEnd 0 notifyList with
    | some (.success, p', count) =>
      let last := p.notifyListEnd
      let p'' := if 0 < count then dispatchToBottom p' last (last - p'.notifyListEnd).toNat else p'
      let last := if 0 < count then last - count else last
      some (.success, p'', some (dispatchNotify p'' 0 p''.ppiListEnd last p''.notifyListEnd))
    | some (status, p', _) => some (status, p', none)
    | none => none

/-! ## ProcessNotifyList -/

/-- Which of its two loops `ProcessNotifyList` is in. -/
inductive Loop
  | notifies
  | installs
  deriving DecidableEq

structure Process where
  loop : Loop
  tempValue : Int
  dispatch : Dispatch

def firstLoop (p : PpiData) : Process where
  loop := .notifies
  tempValue := p.dispatchListEnd
  dispatch := dispatchNotify p 0 p.lastDispatchedInstall p.lastDispatchedNotify p.dispatchListEnd

/-- The test of the second loop, and of the outer one behind it. -/
def secondLoop (maxPpiSupported : Nat) (p : PpiData) : Option Process :=
  if p.lastDispatchedInstall ≠ p.ppiListEnd then
    some
      { loop := .installs
        tempValue := p.ppiListEnd
        dispatch := dispatchNotify p p.lastDispatchedInstall p.ppiListEnd (maxPpiSupported - 1) p.dispatchListEnd }
  else if p.lastDispatchedNotify = p.dispatchListEnd then none
  else some (firstLoop p)

def processNotifyList (maxPpiSupported : Nat) (p : PpiData) : Option Process :=
  if p.lastDispatchedNotify ≠ p.dispatchListEnd then some (firstLoop p) else secondLoop maxPpiSupported p

/-- `DispatchNotify` returns to the loop. -/
def Process.done (proc : Process) (p : PpiData) : PpiData :=
  match proc.loop with
  | .notifies => { p with lastDispatchedNotify := proc.tempValue }
  | .installs => { p with lastDispatchedInstall := proc.tempValue }

def Process.next (proc : Process) (maxPpiSupported : Nat) (p : PpiData) : Option Process :=
  match proc.loop with
  | .notifies => processNotifyList maxPpiSupported p
  | .installs => secondLoop maxPpiSupported p

/-! ## Runs -/

/-- The notifies from `start` down to above `stop`. -/
def notifies (ptrs : Int → Descriptor) (start stop : Int) : List Descriptor :=
  (List.range (start - stop).toNat).map fun i : Nat => ptrs (start - i)

/-- The indexes from `start` up to below `stop`. -/
def installs (start stop : Int) : List Int := (List.range (stop - start).toNat).map fun i : Nat => start + i

def callbackNotifies (p : PpiData) : List Descriptor := notifies p.ppiListPtrs p.dispatchListEnd p.notifyListEnd

def dispatchNotifies (maxPpiSupported : Nat) (p : PpiData) : List Descriptor :=
  notifies p.ppiListPtrs (maxPpiSupported - 1) p.dispatchListEnd

/-- The notifies with each PPI of their GUID. -/
def pairs (ptrs : Int → Descriptor) (ns : List Descriptor) (ks : List Int) : List (Descriptor × Int) :=
  ns.flatMap fun n => (ks.filter fun k => (ptrs k).guid = n.guid).map fun k => (n, k)

/-- A list of descriptors up to its terminator. -/
def listed : List Descriptor → List Descriptor
  | [] => []
  | d :: list => if d.has descriptorTerminateList then [d] else d :: listed list

structure State where
  data : PpiData
  /-- The calls of `DispatchNotify` by services, the innermost first. -/
  stack : List Dispatch
  process : Option Process
  /-- The calls of notify functions, with the index of the PPI. -/
  calls : List (Descriptor × Int)
  /-- A callback notify and a PPI of its GUID, since the later one of the two is there, and for each reinstall. -/
  due : List (Descriptor × Int)
  reinstalled : List Int
  /-- The descriptors of the successful calls. -/
  ppisPassed : List Descriptor
  notifiesPassed : List Descriptor

def start (maxPpiSupported : Nat) : State where
  data := initializePpiServices maxPpiSupported
  stack := []
  process := none
  calls := []
  due := []
  reinstalled := []
  ppisPassed := []
  notifiesPassed := []

/-- The code of a PEIM or of a notify function runs. -/
def State.running (s : State) : Bool :=
  match s.stack, s.process with
  | d :: _, _ => d.calling
  | [], some proc => proc.dispatch.calling
  | [], none => true

inductive Event
  | install (ppiList : Option (List Descriptor))
  | reinstall (oldPpi newPpi : Option Descriptor)
  | notify (notifyList : Option (List Descriptor))
  /-- The dispatcher goes on after a PEIM. -/
  | process
  | tick
  /-- The notify function returns. -/
  | returns

def step (maxPpiSupported : Nat) (s : State) : Event → Option State
  | .install ppiList =>
    if ¬s.running then none
    else
      match peiInstallPpi s.data ppiList with
      | some (_, data, some d) =>
        some
          { s with
            data
            stack := d :: s.stack
            due := s.due ++
              pairs data.ppiListPtrs (callbackNotifies data) (installs s.data.ppiListEnd data.ppiListEnd)
            ppisPassed := s.ppisPassed ++ listed (ppiList.getD []) }
      | some (_, data, none) => some { s with data }
      | none => none
  | .reinstall oldPpi newPpi =>
    if ¬s.running then none
    else
      match peiReInstallPpi s.data oldPpi newPpi with
      | (_, data, some (index, d)) =>
        some
          { s with
            data
            stack := d :: s.stack
            due := s.due ++ pairs data.ppiListPtrs (callbackNotifies data) [index]
            reinstalled := index :: s.reinstalled
            ppisPassed := s.ppisPassed ++ newPpi.toList }
      | (_, data, none) => some { s with data }
  | .notify notifyList =>
    if ¬s.running then none
    else
      match peiNotifyPpi s.data notifyList with
      | some (_, data, some d) =>
        some
          { s with
            data
            stack := d :: s.stack
            due := s.due ++
              pairs data.ppiListPtrs ((listed (notifyList.getD [])).filter fun n => ¬n.has descriptorNotifyDispatch)
                (installs 0 data.ppiListEnd)
            notifiesPassed := s.notifiesPassed ++ listed (notifyList.getD []) }
      | some (_, data, none) => some { s with data }
      | none => none
  | .process =>
    if s.stack.isEmpty ∧ s.process.isNone then
      some { s with process := processNotifyList maxPpiSupported s.data }
    else none
  | .tick =>
    if s.running then none
    else
      match s.stack, s.process with
      | d :: stack, _ =>
        match d.tick s.data.ppiListPtrs with
        | some (d, calls) => some { s with stack := d :: stack, calls := s.calls ++ calls }
        | none => some { s with stack }
      | [], some proc =>
        match proc.dispatch.tick s.data.ppiListPtrs with
        | some (dispatch, calls) =>
          some { s with process := some { proc with dispatch }, calls := s.calls ++ calls }
        | none =>
          let data := proc.done s.data
          some { s with data, process := proc.next maxPpiSupported data }
      | [], none => none
  | .returns =>
    match s.stack, s.process with
    | d :: stack, _ => if d.calling then some { s with stack := { d with calling := false } :: stack } else none
    | [], some proc =>
      if proc.dispatch.calling then
        some { s with process := some { proc with dispatch := { proc.dispatch with calling := false } } }
      else none
    | [], none => none

end Udk.Ppi
