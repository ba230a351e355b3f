import Udk.Bytes

/-! # The dependency evaluator of the DXE dispatcher

Offsets are relative to the start of the `Depex` buffer. Behind the buffer there is other memory.
-/

namespace Udk.Depex

open Bytes

/-- The 16 bytes of a GUID. -/
abbrev Guid := List UInt8

def sizeofGuid : Nat := 16

def efiDepBefore : UInt8 := 0x00
def efiDepAfter : UInt8 := 0x01
def efiDepPush : UInt8 := 0x02
def efiDepAnd : UInt8 := 0x03
def efiDepOr : UInt8 := 0x04
def efiDepNot : UInt8 := 0x05
def efiDepTrue : UInt8 := 0x06
def efiDepFalse : UInt8 := 0x07
def efiDepEnd : UInt8 := 0x08
def efiDepSor : UInt8 := 0x09
def efiDepReplaceTrue : UInt8 := 0xff

def depexStackSizeIncrement : Nat := 0x1000

/-- What the evaluator asks the rest of the core for. -/
structure Environment where
  /-- `CoreLocateProtocol` finds the protocol. -/
  located : Guid → Bool
  /-- `AllocatePool` has so many bytes. -/
  allocates : Nat → Bool
  /-- `CoreAllEfiServicesAvailable`. -/
  allServices : Bool

/-! ## The evaluation stack -/

/-- The values below `mDepexEvaluationStackPointer`, the last one first, and how many fit. -/
structure Stack where
  values : List Bool
  size : Nat

def growDepexStack (env : Environment) (stack : Stack) : Option Stack :=
  if env.allocates (depexStackSizeIncrement + stack.size) then
    some { stack with size := depexStackSizeIncrement + stack.size }
  else none

def pushBool (env : Environment) (value : Bool) (stack : Stack) : Option Stack :=
  let grown := if stack.values.length = stack.size then growDepexStack env stack else some stack
  grown.map fun stack => { stack with values := value :: stack.values }

def popBool (stack : Stack) : Option (Bool × Stack) :=
  match stack.values with
  | [] => none
  | value :: values => some (value, { stack with values })

/-! ## `CoreIsSchedulable` -/

/-- The fields of `EFI_CORE_DRIVER_ENTRY` that the evaluator looks at. -/
structure DriverEntry where
  depex : Option Memory
  depexSize : Nat
  before : Bool
  after : Bool

structure State where
  depex : Memory
  stack : Stack
  /-- The offsets that were read. -/
  reads : List Nat

/-- An instruction ends the evaluation or leads to the next one. -/
inductive Next
  | done (result : Bool) (s : State)
  | go (iterator : Nat) (s : State)

def pushed (env : Environment) (value : Bool) (iterator : Nat) (s : State) : Next :=
  match pushBool env value s.stack with
  | none => .done false s
  | some stack => .go iterator { s with stack }

def unary (env : Environment) (f : Bool → Bool) (iterator : Nat) (s : State) : Next :=
  match popBool s.stack with
  | none => .done false s
  | some (operator, stack) => pushed env (f operator) iterator { s with stack }

def binary (env : Environment) (f : Bool → Bool → Bool) (iterator : Nat) (s : State) : Next :=
  match popBool s.stack with
  | none => .done false s
  | some (operator, stack) =>
    match popBool stack with
    | none => .done false { s with stack }
    | some (operator2, stack) => pushed env (f operator operator2) iterator { s with stack }

/-- `EFI_DEP_PUSH`, which is replaced once the protocol is there. -/
def pushGuid (env : Environment) (iterator : Nat) (s : State) : Next :=
  let s := { s with reads := (List.range sizeofGuid).map (iterator + 1 + ·) ++ s.reads }
  if env.located (read s.depex (iterator + 1) sizeofGuid) then
    pushed env true (iterator + 1 + sizeofGuid) { s with depex := write s.depex iterator [efiDepReplaceTrue] }
  else pushed env false (iterator + 1 + sizeofGuid) s

def instruction (env : Environment) (iterator : Nat) (s : State) : Next :=
  let opcode := s.depex iterator
  let s := { s with reads := iterator :: s.reads }
  if opcode = efiDepBefore ∨ opcode = efiDepAfter ∨ opcode = efiDepSor then
    if iterator ≠ 0 then .done false s else .go (iterator + 1) s
  else if opcode = efiDepPush then pushGuid env iterator s
  else if opcode = efiDepAnd then binary env (· && ·) (iterator + 1) s
  else if opcode = efiDepOr then binary env (· || ·) (iterator + 1) s
  else if opcode = efiDepNot then unary env (!·) (iterator + 1) s
  else if opcode = efiDepTrue then pushed env true (iterator + 1) s
  else if opcode = efiDepFalse then pushed env false (iterator + 1) s
  else if opcode = efiDepEnd then
    match popBool s.stack with
    | none => .done false s
    | some (operator, stack) => .done operator { s with stack }
  else if opcode = efiDepReplaceTrue then pushed env true (iterator + 1 + sizeofGuid) s
  else .done false s

/-- The loop, with fuel for so many instructions. -/
def loop (env : Environment) (depexSize : Nat) : Nat → Nat → State → Option (Bool × State)
  | 0, _, _ => none
  | fuel + 1, iterator, s =>
    if depexSize ≤ iterator then some (false, s)
    else
      match instruction env iterator s with
      | .done result s => some (result, s)
      | .go iterator s => loop env depexSize fuel iterator s

/-- What a call returns and leaves behind. -/
structure Outcome where
  result : Bool
  entry : DriverEntry
  stackSize : Nat
  reads : List Nat

def coreIsSchedulable (env : Environment) (entry : DriverEntry) (stackSize : Nat) : Option Outcome :=
  if entry.after || entry.before then some ⟨false, entry, stackSize, []⟩
  else
    match entry.depex with
    | none => some ⟨env.allServices, entry, stackSize, []⟩
    | some depex =>
      (loop env entry.depexSize (entry.depexSize + 1) 0 ⟨depex, ⟨[], stackSize⟩, []⟩).map fun (result, s) =>
        ⟨result, { entry with depex := some s.depex }, s.stack.size, s.reads⟩

/-- One call after the other, each in the state that the one before leaves behind. -/
def evaluations (entry : DriverEntry) (stackSize : Nat) : List Environment → Option (List Bool)
  | [] => some []
  | env :: envs =>
    (coreIsSchedulable env entry stackSize).bind fun o =>
      (evaluations o.entry o.stackSize envs).map (o.result :: ·)

/-! ## Expressions -/

inductive Expr
  | push (guid : Guid)
  | and (a b : Expr)
  | or (a b : Expr)
  | not (a : Expr)
  | true
  | false

def Expr.eval (located : Guid → Bool) : Expr → Bool
  | push guid => located guid
  | and a b => a.eval located && b.eval located
  | or a b => a.eval located || b.eval located
  | not a => !a.eval located
  | .true => Bool.true
  | .false => Bool.false

/-- Every GUID has its 16 bytes. -/
def Expr.WellFormed : Expr → Prop
  | push guid => guid.length = sizeofGuid
  | and a b | or a b => a.WellFormed ∧ b.WellFormed
  | not a => a.WellFormed
  | .true | .false => True

/-- How many values the evaluation of an expression has on the stack at most. -/
def Expr.depth : Expr → Nat
  | and a b | or a b => max a.depth (b.depth + 1)
  | not a => a.depth
  | push _ | .true | .false => 1

/-- The postfix form. -/
def Expr.encode : Expr → List UInt8
  | push guid => efiDepPush :: guid
  | and a b => a.encode ++ (b.encode ++ [efiDepAnd])
  | or a b => a.encode ++ (b.encode ++ [efiDepOr])
  | not a => a.encode ++ [efiDepNot]
  | .true => [efiDepTrue]
  | .false => [efiDepFalse]

def sorCode (sor : Bool) : List UInt8 := if sor then [efiDepSor] else []

/-- A whole dependency expression. -/
def Expr.depex (sor : Bool) (e : Expr) : List UInt8 := sorCode sor ++ (e.encode ++ [efiDepEnd])

end Udk.Depex
