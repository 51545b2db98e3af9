import DynScript.Run.Call
import DynScript.Run.Operators

/-!
# Evaluation

The value of a node. `Eval.nodeKind` says it form by form, given the evaluation of the nodes further down and
the way in which imports are loaded; `evalWithin` closes the circle with a bound on how deeply steps may nest.
A fault gets the place of the innermost node whose evaluation it leaves.
-/

namespace DynScript

/-- What an import asks for. -/
structure ImportRequest where
  /-- The directory that the path starts from. -/
  root : ImportRoot
  /-- The path. -/
  path : List String
  /-- The directory of the unit that asks. -/
  directory : Path
deriving Repr

/-- The path as it is written. -/
def ImportRequest.dotted (request : ImportRequest) : String := ".".intercalate request.path

/-- How an import finds its value, given the evaluation of nodes. -/
abbrev Loader : Type := Evaluator → ImportRequest → Eval Value

/-- Without modules every import fails. -/
def Loader.none : Loader := fun _ request =>
  Eval.fail (.importFailed request.dotted "no module loader is configured")

/-- The value that is written out. -/
def Literal.toValue : Literal → Value
  | .nil => .nil
  | .bool b => .bool b
  | .number x => .number x
  | .string s => .string s

/-- What a node is, for a report that it cannot be assigned to. -/
def NodeKind.targetName : NodeKind → String
  | .call _ _ => "call"
  | .index _ _ => "index"
  | .literal _ => "literal"
  | _ => "expression"

/-- What an assignment gives a value to. -/
inductive Assignee where
  /-- A name. -/
  | name (name : String)
  /-- A property of the record that a node stands for. -/
  | property (owner : NodeId) (name : String)

namespace Eval

/-- Evaluate nodes one after the other, each while the values so far are held; `before` are the values so
far, the last one first. -/
def valuesAfter (eval : Evaluator) (before : List Value) : List NodeId → Eval (List Value)
  | [] => pure before.reverse
  | id :: rest => do
    let value ← eval id
    holding value (valuesAfter eval (value :: before) rest)

/-- Evaluate nodes one after the other. -/
def values (eval : Evaluator) (ids : List NodeId) : Eval (List Value) := valuesAfter eval [] ids

/-- Evaluate two nodes one after the other. -/
def operands (eval : Evaluator) (lhs rhs : NodeId) : Eval (Value × Value) := do
  let left ← eval lhs
  let right ← holding left (eval rhs)
  return (left, right)

/-! ## Names -/

/-- A name that has to have a value. -/
def lookup (name : String) : Eval Value := do
  match ← lookup? name with
  | some value => return value
  | none => fail (.unboundName name)

/-- Give a name the value of a node. A recursive binding is nil while the node is evaluated, and a function
takes the name. -/
def binding (eval : Evaluator) (name : String) (mode : BindingMode) (valueId : NodeId) : Eval Value := do
  if mode = .recursive then define name .nil
  let value := (← eval valueId).named name
  define name value
  return value

/-- What stands left of an assignment. -/
def assignee (unit : UnitId) (id : NodeId) : Eval Assignee := do
  match (← nodeOf unit id).kind with
  | .ident name => return .name name
  | .property owner name => return .property owner name
  | other => fail (.invalidTarget "assign to" other.targetName)

/-- Assign the value of a node, which is evaluated first. -/
def assignment (eval : Evaluator) (unit : UnitId) (target valueId : NodeId) : Eval Value := do
  let value ← eval valueId
  match ← assignee unit target with
  | .name name => assign name value
  | .property owner name =>
    match ← holding value (eval owner) with
    | .record r => setProperty r name value
    | other => fail (.notARecord "assign a property of" other.kindName)
  return value

/-- Export the values of names. -/
def exportNames : List Label → Eval Unit
  | [] => pure ()
  | label :: rest => do
    match ← lookup? label.name with
    | some value => modify fun m => { m with exports := m.exports.set label.name value }
    | none => failAt label.position (.unboundName label.name)
    exportNames rest

/-! ## Records and lists -/

/-- Evaluate fields and make them properties, each name once. -/
def fields (eval : Evaluator) (r : RecordId) : List Field → Eval Unit
  | [] => pure ()
  | field :: rest => do
    let value ← eval field.value
    if (← heap).has r field.name then failAt field.position (.duplicateField field.name)
    setProperty r field.name (value.named field.name)
    fields eval r rest

/-- A record literal. -/
def recordLiteral (eval : Evaluator) (items : List Field) : Eval Value := do
  let r ← onHeap Heap.newRecord
  holding (.record r) (fields eval r items)
  return .record r

/-- An object literal: a class is only remembered, any other record is made at once. -/
def object (eval : Evaluator) (unit : UnitId) (id : NodeId) (isClass : Bool) (composed : List Label)
    (memberIds : List NodeId) : Eval Value := do
  if isClass then
    return .record (← onHeap fun h => h.newClass ⟨unit, id⟩)
  else
    let r ← onHeap Heap.newRecord
    holding (.record r) (construct eval unit r [] composed memberIds)
    return .record r

/-- A property of a record. A function that is read keeps the record. -/
def property (eval : Evaluator) (target : NodeId) (name : String) : Eval Value := do
  match ← eval target with
  | .record r =>
    match (← heap).property? r name with
    | some (.function f) => return .function (← holdReceiver r f)
    | some value => return value
    | none => fail (.missingProperty name)
  | other => fail (.notARecord "access a property of" other.kindName)

/-- A copy: of a record with its properties, of a list as another list. -/
def clone : Value → Eval Value
  | .record r => return .record (← onHeap fun h => h.shallowClone r)
  | .list _ items => newList items
  | other => return other

/-! ## Control -/

/-- Evaluate a body for `count` integers from `i` on, each time in a new scope that tells the integer. -/
def iterations (eval : Evaluator) (bodyId : NodeId) : Nat → Int → Eval Unit
  | 0, _ => pure ()
  | count + 1, i => do
    let _ ← inScope do
      define "idx" (.number (Float.ofInt i))
      eval bodyId
    iterations eval bodyId count (i + 1)

/-- A loop from one integer up to another, which is not reached. -/
def loop (eval : Evaluator) (start stop bodyId : NodeId) : Eval Value := do
  match ← operands eval start stop with
  | (.number x, .number y) =>
    let first := Value.integer x
    iterations eval bodyId (Value.integer y - first).toNat first
    return .nil
  | (.number _, other) | (other, _) => fail (.nonNumericBound other.kindName)

/-- A conditional; without a second branch it may be nil. -/
def conditional (eval : Evaluator) (condition thenBranch : NodeId) (elseBranch : Option NodeId) :
    Eval Value := do
  match ← eval condition with
  | .bool true => eval thenBranch
  | .bool false =>
    match elseBranch with
    | some branch => eval branch
    | none => return .nil
  | other => fail (.nonBooleanCondition other.kindName)

/-- A truth value that a logical operator needs. -/
def truth (operator : String) (value : Value) : Eval Bool :=
  match value with
  | .bool b => pure b
  | other => fail (.wrongOperand operator "bool" other.kindName)

/-- A logical operator: the right operand is evaluated only if the left one does not decide. -/
def logical (eval : Evaluator) (op : LogicalOp) (lhs rhs : NodeId) : Eval Value := do
  let operator := match op with
    | .and => "and"
    | .or => "or"
  let left ← truth operator (← eval lhs)
  match op, left with
  | .and, false => return .bool false
  | .or, true => return .bool true
  | _, _ => return .bool (← truth operator (← eval rhs))

/-- Evaluate nodes and write their texts one after the other. -/
def texts (eval : Evaluator) (written : String) : List NodeId → Eval String
  | [] => pure written
  | id :: rest => do
    let value ← eval id
    texts eval (written ++ (← heap).text value) rest

/-- Print a line of the values of nodes. -/
def print (eval : Evaluator) (args : List NodeId) : Eval Value := do
  let line ← texts eval "" args
  modify fun m => { m with world := m.world.println line }
  return .nil

/-- Leave the innermost call with a value. -/
def leaveCall (eval : Evaluator) (value : Option NodeId) : Eval Value := do
  match value with
  | some id => fail (.returning (← eval id))
  | none => fail (.returning .nil)

/-- A body in which the properties of a record stand open. -/
def envOpen (eval : Evaluator) (target bodyId : NodeId) : Eval Value := do
  match ← eval target with
  | .record r => inRecord r (eval bodyId)
  | other => fail (.notARecord "open" other.kindName)

/-- A call: the callee comes first, then the arguments. `own` evaluates the nodes of the unit in which the
call stands, `eval` those of any unit. -/
def call (own eval : Evaluator) (callee : NodeId) (args : List NodeId) (callSite : Option Position) :
    Eval Value := do
  let function ← own callee
  let arguments ← holding function (values own args)
  callValue eval function arguments callSite

/-! ## Nodes -/

/-- The value of a node of a unit, form by form; `own` evaluates the nodes of that unit, `anywhere` those of
any unit. -/
def nodeKind (own anywhere : Evaluator) (load : ImportRequest → Eval Value) (unit : UnitId) (id : NodeId)
    (node : Node) : Eval Value := do
  match node.kind with
  | .block items => inScope (statements own items)
  | .binding name mode _ value => binding own name mode value
  | .function _ _ => return .function (.ofNode unit id)
  | .call callee args => call own anywhere callee args node.position
  | .ident name => lookup name
  | .literal value => return value.toValue
  | .list items => newList (← values own items).toArray
  | .record items => recordLiteral own items
  | .index target index =>
    let (target, index) ← operands own target index
    ofExcept (target.itemAt index)
  | .property target name => property own target name
  | .len operand => ofExcept (← own operand).len
  | .loop start stop body => loop own start stop body
  | .conditional condition thenBranch elseBranch => conditional own condition thenBranch elseBranch
  | .assign target value => assignment own unit target value
  | .logical op lhs rhs => logical own op lhs rhs
  | .equality op lhs rhs =>
    let (left, right) ← operands own lhs rhs
    ofExcept ((← heap).equality op left right)
  | .comparison op lhs rhs =>
    let (left, right) ← operands own lhs rhs
    ofExcept ((← heap).comparison op left right)
  | .arithmetic op lhs rhs =>
    let (left, right) ← operands own lhs rhs
    let (value, h) ← ofExcept ((← heap).arithmetic op left right)
    modifyHeap fun _ => h
    return value
  | .negate operand => ofExcept (← own operand).negate
  | .prepend item list =>
    let (item, list) ← operands own item list
    let (value, h) ← ofExcept ((← heap).prepend item list)
    modifyHeap fun _ => h
    return value
  | .pipe _ rhs desugared =>
    if desugared then own rhs
    else fail (.internal "pipe reached evaluation without being desugared")
  | .object params composed members => object own unit id params.isSome composed members
  | .clone operand => clone (← own operand)
  | .envOpen target body => envOpen own target body
  | .imports root path => load ⟨root, path, (← get).directory⟩
  | .exports names =>
    exportNames names
    return .nil
  | .print args => print own args
  | .returns value => leaveCall own value

/-- The value of a node, given the evaluation of the nodes further down. -/
def nodeStep (load : Loader) (eval : Evaluator) (id : NodeId) : Eval Value := do
  let unit := (← get).unit
  let node ← nodeIn unit id
  locating node.position (nodeKind (within unit eval) eval (load eval) unit id node)

end Eval

/-- The value of a node, when steps nest no deeper than a bound. -/
def evalWithin (load : Loader) : Nat → Evaluator
  | 0 => fun _ => throw (.stuck .outOfFuel)
  | fuel + 1 => fun id => Eval.nodeStep load (evalWithin load fuel) id

end DynScript
