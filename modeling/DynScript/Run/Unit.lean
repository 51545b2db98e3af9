import DynScript.Run.Evaluate

/-!
# Runs of a unit

A unit runs in a machine of its own, whose global frame knows the record of the host and nothing else. Its
statements are evaluated in that frame; what it has exported is its result. An entry unit is then asked for a
function `main` without parameters.
-/

namespace DynScript

namespace Machine

/-- A machine that has nothing to evaluate. -/
def idle (world : World) : Machine :=
  { world, env := .new, calls := .ofMaxDepth CallStack.defaultMaxDepth, unit := ⟨0⟩, exports := .empty,
    directory := ⟨"."⟩ }

/-- A machine for a unit, before it runs. -/
def start (world : World) (unit : UnitId) (directory : Path) (maxDepth : Nat) : Machine :=
  let (namespaceRecord, heap) := world.heap.newNamespace
  let (env, heap) := Environment.new.define heap Native.namespaceName (.record namespaceRecord)
  { world := { world with heap := heap }, env, calls := .ofMaxDepth maxDepth, unit, exports := .empty,
    directory }

end Machine

namespace Eval

/-- The statements of a unit: those of its block, or the one node that it is. -/
def topLevel (bodyId : NodeId) : Eval (List NodeId) :=
  return (← blockItems? (← get).unit bodyId).getD [bodyId]

/-- Evaluate the statements of a unit; a return that leaves one of them ends the unit. -/
def unitStatements (eval : Evaluator) : List NodeId → Eval Unit
  | [] => pure ()
  | statement :: rest => do
    if ← returned (eval statement) then return ()
    unitStatements eval rest

/-- Run a unit and take what it has exported. -/
def runUnit (eval : Evaluator) (bodyId : NodeId) : Eval Bindings := do
  let unit := (← get).unit
  unitStatements (within unit eval) (← topLevel bodyId)
  modifyGet fun m => (m.exports, { m with exports := .empty })

/-- The name of the function that an entry unit is asked for. -/
def mainName : String := "main"

/-- Call `main` if it is a function without parameters. -/
def invokeMain (eval : Evaluator) : Eval (Option Value) := do
  match ← lookup? mainName with
  | some (.function f) =>
    let (params, _) ← functionParts f
    if params.isEmpty then
      let value ← callValue eval (.function f) [] none
      return some value
    else return none
  | _ => return none

end Eval

end DynScript
