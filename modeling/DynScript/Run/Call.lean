import DynScript.Run.Machine
import DynScript.Run.Native

/-!
# Calls and objects

What happens when a value is called. A function runs in a scope of its own, below which its receiver stands
open; a class makes a new record by running its literal; any other record is copied. `eval` is always the
evaluation of the nodes further down.

A record is made in this order: the parameters become properties, then the properties of the composed records
are copied, one record after the other, and last the members are evaluated with the record standing open.

The nodes of a function or of a class belong to the unit in which it was written. `Eval.within` tells so where
their numbers are handed on.
-/

namespace DynScript

/-- The evaluation of a node. -/
abbrev Evaluator : Type := NodeId → Eval Value

namespace Eval

/-- The evaluation of nodes whose numbers come from a unit. -/
def within (unit : UnitId) (eval : Evaluator) : Evaluator := fun id => do
  requireUnit unit id
  eval id

/-! ## Statements -/

/-- Evaluate statements one after the other; the value of the last one comes back, or `last`. -/
def statementsAfter (eval : Evaluator) (last : Value) : List NodeId → Eval Value
  | [] => pure last
  | statement :: rest => do
    let value ← holding last (eval statement)
    statementsAfter eval value rest

/-- Evaluate statements in the current scope; the value of the last one comes back, or nil. -/
def statements (eval : Evaluator) (items : List NodeId) : Eval Value := statementsAfter eval .nil items

/-- Evaluate the body of a function. A block has no scope beside the one of the parameters. -/
def body (eval : Evaluator) (unit : UnitId) (id : NodeId) : Eval Value := do
  match ← blockItems? unit id with
  | some items => statements eval items
  | none => eval id

/-! ## Functions -/

/-- Give several names their values in the innermost frame. -/
def defineAll : List (String × Value) → Eval Unit
  | [] => pure ()
  | (name, value) :: rest => do
    define name value
    defineAll rest

/-- The parameters and the body of a function. -/
def functionParts (f : Function) : Eval (List Param × NodeId) := do
  match (← nodeIn f.unit f.node).kind with
  | .function params body => return (params, body)
  | _ => defect (.misplacedNode f.node)

/-- Call a function. -/
def callFunction (eval : Evaluator) (f : Function) (args : List Value) (callSite : Option Position) :
    Eval Value := do
  let (params, bodyId) ← functionParts f
  if params.length ≠ args.length then
    fail (.arityMismatch (f.name.getD "function") params.length args.length)
  let bound := (params.map fun p => p.name).zip args
  catchReturn <| inCall ⟨f.name, bound, callSite⟩ do
    let receiver ← receiverOf f
    inUnit f.unit <| asMethodOf receiver <| inScope do
      defineAll bound
      body (within f.unit eval) f.unit bodyId

/-! ## Records -/

/-- The name, the mode and the value of a member of an object. -/
def memberParts (unit : UnitId) (id : NodeId) : Eval (String × BindingMode × NodeId) := do
  match (← nodeOf unit id).kind with
  | .binding name mode _ value => return (name, mode, value)
  | _ => defect (.misplacedNode id)

/-- Evaluate members and make them properties. A recursive one is nil while it is evaluated. -/
def members (eval : Evaluator) (unit : UnitId) (r : RecordId) : List NodeId → Eval Unit
  | [] => pure ()
  | member :: rest => do
    let (name, mode, valueId) ← memberParts unit member
    if mode = .recursive then setProperty r name .nil
    let value ← eval valueId
    setProperty r name (value.named name)
    members eval unit r rest

/-- Copy the properties of the records that names stand for. -/
def compose (r : RecordId) : List Label → Eval Unit
  | [] => pure ()
  | source :: rest => do
    match ← lookup? source.name with
    | none => failAt source.position (.unboundName source.name)
    | some (.record from_) =>
      modifyHeap fun h => h.setAll r (h.properties from_).entries
      compose r rest
    | some other => failAt source.position (.notARecord "compose with" other.kindName)

/-- Fill a new record by the literal of a unit. -/
def construct (eval : Evaluator) (unit : UnitId) (r : RecordId) (params : List (String × Value))
    (composed : List Label) (memberIds : List NodeId) : Eval Unit := do
  modifyHeap fun h => h.setAll r params
  compose r composed
  inRecord r (members eval unit r memberIds)

/-- The parameters, composed names and members of a class. -/
def templateParts (t : Template) : Eval (List Param × List Label × List NodeId) := do
  match (← nodeIn t.unit t.node).kind with
  | .object params composed memberIds => return (params.getD [], composed, memberIds)
  | _ => defect (.misplacedNode t.node)

/-- Make a record by a class. -/
def instantiate (eval : Evaluator) (cls : RecordId) (template : Template) (args : List Value)
    (callSite : Option Position) : Eval Value := do
  let (params, composed, memberIds) ← templateParts template
  if params.length ≠ args.length then
    failAt callSite (.arityMismatch "constructor" params.length args.length)
  let r ← onHeap fun h => h.newInstance cls
  let bound := (params.map fun p => p.name).zip args
  holding (.record r) <| inUnit template.unit <|
    construct (within template.unit eval) template.unit r bound composed memberIds
  return .record r

/-- Call a record. -/
def callRecord (eval : Evaluator) (r : RecordId) (args : List Value) (callSite : Option Position) :
    Eval Value := do
  match (← heap).template? r with
  | some template => instantiate eval r template args callSite
  | none =>
    if !args.isEmpty then fail (.arityMismatch "record" 0 args.length)
    return .record (← onHeap fun h => h.shallowClone r)

/-! ## Values -/

/-- Call a native function. -/
def callNative (n : Native) (args : List Value) : Eval Value := do
  ofExcept (← onWorld fun w => w.callNative n args)

/-- Call a value. -/
def callValue (eval : Evaluator) (callee : Value) (args : List Value) (callSite : Option Position) :
    Eval Value :=
  holding callee <| holdingAll args <|
    match callee with
    | .function f => callFunction eval f args callSite
    | .native n => callNative n args
    | .record r => callRecord eval r args callSite
    | other => fail (.notCallable other.kindName)

end Eval

end DynScript
