import Udk.Run
import Udk.Variable.Init

/-! # The driver as a system

What happens to the driver and to the platform under it: calls, the end of boot time, and power loss.
-/

open Udk.Bytes

namespace Udk.Variable

/-- The memories that the flash went through from `s` to `s'`, the first one first. -/
def flashWrites (s s' : State) : List Memory :=
  (s'.flashTrace.take (s'.flashTrace.length - s.flashTrace.length)).reverse

inductive Event
  | setVariable (c : SetCall)
  | getVariable (c : GetCall)
  /-- The ready-to-boot event. -/
  | reclaimForOS
  | exitBootServices
  | restart
  /-- Power is lost in the call, after so many writes to the flash. -/
  | powerLoss (c : SetCall) (writes : Nat)

/-- A call of a service, or `ReclaimForOS`. -/
def Event.IsCall : Event → Prop
  | .setVariable _ => True
  | .getVariable _ => True
  | .reclaimForOS => True
  | _ => False

/-- The memory in which the driver starts again. -/
def memoryAfterLoss (P : Platform) (env : Environment) (c : SetCall) (writes : Nat) (s : State) : Memory :=
  let s' := (runtimeServiceSetVariable P env c s).2
  (s.mem :: flashWrites s s').getD writes s'.mem

/-- The driver starts on a memory. -/
def start (P : Platform) (env : Environment) (reclaims : Nat) (mem : Memory) : Option State :=
  match variableCommonInitialize P env reclaims mem with
  | (.success, s) => some s
  | _ => none

def step (P : Platform) (env : Environment) (s : State) : Event → Option State
  | .setVariable c => some (runtimeServiceSetVariable P env c s).2
  | .getVariable c => some (runtimeServiceGetVariable P c s).2
  | .reclaimForOS => if s.atRuntime then none else some (reclaimForOS P env s)
  | .exitBootServices => some { s with atRuntime := true }
  | .restart => start P env s.reclaims s.mem
  | .powerLoss c writes => start P env s.reclaims (memoryAfterLoss P env c writes s)

/-! ## Which variables an event writes -/

/-- The variables that follow one another. -/
def languageNames : List Name := [langName, platformLangName, langCodesName, platformLangCodesName]

/-- A call for `k`, or for a language variable where `k` is one of the two that follow the others. -/
def SetCall.Touches (c : SetCall) (k : Name × Guid) : Prop :=
  (c.variableName = some k.1 ∧ c.vendorGuid = some k.2) ∨
    ((k = (langName, gEfiGlobalVariableGuid) ∨ k = (platformLangName, gEfiGlobalVariableGuid)) ∧
      ∃ n ∈ languageNames, c.variableName = some n)

def Event.Touches (k : Name × Guid) : Event → Prop
  | .setVariable c => c.Touches k
  | .powerLoss c _ => c.Touches k
  | _ => False

end Udk.Variable
