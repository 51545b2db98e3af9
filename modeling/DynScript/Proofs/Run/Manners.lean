import DynScript.Session.Modules

/-!
# Manners of evaluation

Evaluation leaves room for variation in some places: how the value of a name is found, which record a called function
sees, how a function is read out of a record, in which order the properties of a record are gone through, what is done
around a call, and what a function of the host does. So does the loading of a module: what is known of modules that have
been loaded, what is done around the top level, how a record is made of the exports, and what a failure leads to. A
`Manner` fills these places, and whatever else evaluation does is the same in all manners. The usual manner is that of
`evalWithin` and of a session; another one may watch the calls, refuse some of them, let functions keep their records or
go through properties in another order.
-/

namespace DynScript

/-- A way of evaluating. A place is told as a list of numbers where something is done several times in one step. -/
structure Manner where
  /-- The value of a name, if it has one. -/
  find : String → Eval (Option Value)
  /-- The record that a called function sees. -/
  receiver : Function → Eval (Option RecordId)
  /-- A function as it is read out of a record. -/
  read : RecordId → Function → Eval Function
  /-- Copying the properties of a record into another one, at a place. -/
  merge : List Nat → RecordId → RecordId → Eval Unit
  /-- A copy of a record. -/
  copy : RecordId → Eval RecordId
  /-- The text of a value, at a place. -/
  text : List Nat → Value → Eval String
  /-- A call of a function of the host. -/
  native : Native → List Value → Eval Value
  /-- What is done around a call, by what is called and from where. -/
  around : Value → Option Position → Eval Value → Eval Value
  /-- Making a step as the call of a function. -/
  inCall : CallFrame → Eval Value → Eval Value
  /-- The evaluation of nodes inside of a called function. -/
  inside : Evaluator → CallFrame → Evaluator
  /-- The record of a module by the path of its file, given the step that makes it. -/
  known : Path → Eval RecordId → Eval RecordId
  /-- What is done around the top level of a module, by the path of its file. -/
  top : Path → Eval Bindings → Eval Bindings
  /-- The record of what a module exports. -/
  exported : Bindings → Eval RecordId
  /-- What is done when a module fails, by the path that is written in the import. -/
  failed : String → LoadError → Eval RecordId

namespace Manner

/-- The manner of `evalWithin` and of a session. -/
def usual : Manner where
  find := Eval.lookup?
  receiver := Eval.receiverOf
  read := Eval.holdReceiver
  merge _ r from_ := Eval.modifyHeap fun h => h.setAll r (h.properties from_).entries
  copy r := Eval.onHeap fun h => h.shallowClone r
  text _ v := return (← Eval.heap).text v
  native := Eval.callNative
  around _ _ x := x
  inCall := Eval.inCall
  inside eval _ := eval
  known := Eval.loadOnce
  top _ x := x
  exported exports := Eval.onHeap fun h => h.ofEntries exports.entries
  failed := Eval.importFailure

variable (M : Manner)

/-! ## Calls and objects -/

/-- Call a function. -/
def callFunction (eval : Evaluator) (f : Function) (args : List Value) (callSite : Option Position) :
    Eval Value := do
  let (params, bodyId) ← Eval.functionParts f
  if params.length ≠ args.length then
    Eval.fail (.arityMismatch (f.name.getD "function") params.length args.length)
  let bound := (params.map fun p => p.name).zip args
  let frame : CallFrame := ⟨f.name, bound, callSite⟩
  Eval.catchReturn <| M.inCall frame do
    let receiver ← M.receiver f
    Eval.inUnit f.unit <| Eval.asMethodOf receiver <| Eval.inScope do
      Eval.defineAll bound
      Eval.body (Eval.within f.unit (M.inside eval frame)) f.unit bodyId

/-- Copy the properties of the records that names stand for. -/
def compose (r : RecordId) : List Label → Eval Unit
  | [] => pure ()
  | source :: rest => do
    match ← M.find source.name with
    | none => Eval.failAt source.position (.unboundName source.name)
    | some (.record from_) =>
      M.merge [rest.length] r from_
      compose r rest
    | some other => Eval.failAt source.position (.notARecord "compose with" other.kindName)

/-- Fill a new record by the literal of a unit. -/
def construct (eval : Evaluator) (unit : UnitId) (r : RecordId) (params : List (String × Value))
    (composed : List Label) (memberIds : List NodeId) : Eval Unit := do
  Eval.modifyHeap fun h => h.setAll r params
  M.compose r composed
  Eval.inRecord r (Eval.members eval unit r memberIds)

/-- Make a record by a class. -/
def instantiate (eval : Evaluator) (cls : RecordId) (template : Template) (args : List Value)
    (callSite : Option Position) : Eval Value := do
  let (params, composed, memberIds) ← Eval.templateParts template
  if params.length ≠ args.length then
    Eval.failAt callSite (.arityMismatch "constructor" params.length args.length)
  let r ← Eval.onHeap fun h => h.newInstance cls
  let bound := (params.map fun p => p.name).zip args
  Eval.holding (.record r) <| Eval.inUnit template.unit <|
    M.construct (Eval.within template.unit eval) template.unit r bound composed memberIds
  return .record r

/-- Call a record. -/
def callRecord (eval : Evaluator) (r : RecordId) (args : List Value) (callSite : Option Position) : Eval Value := do
  match (← Eval.heap).template? r with
  | some template => M.instantiate eval r template args callSite
  | none =>
    if !args.isEmpty then Eval.fail (.arityMismatch "record" 0 args.length)
    return .record (← M.copy r)

/-- Call a value, with nothing done around the call. -/
def enter (eval : Evaluator) (callee : Value) (args : List Value) (callSite : Option Position) : Eval Value :=
  Eval.holding callee <| Eval.holdingAll args <|
    match callee with
    | .function f => M.callFunction eval f args callSite
    | .native n => M.native n args
    | .record r => M.callRecord eval r args callSite
    | other => Eval.fail (.notCallable other.kindName)

/-- Call a value. -/
def callValue (eval : Evaluator) (callee : Value) (args : List Value) (callSite : Option Position) : Eval Value :=
  M.around callee callSite (M.enter eval callee args callSite)

/-- A call: the callee comes first, then the arguments. -/
def call (own eval : Evaluator) (callee : NodeId) (args : List NodeId) (callSite : Option Position) :
    Eval Value := do
  let function ← own callee
  let arguments ← Eval.holding function (Eval.values own args)
  M.callValue eval function arguments callSite

/-- An object literal. -/
def object (eval : Evaluator) (unit : UnitId) (id : NodeId) (isClass : Bool) (composed : List Label)
    (memberIds : List NodeId) : Eval Value := do
  if isClass then
    return .record (← Eval.onHeap fun h => h.newClass ⟨unit, id⟩)
  else
    let r ← Eval.onHeap Heap.newRecord
    Eval.holding (.record r) (M.construct eval unit r [] composed memberIds)
    return .record r

/-! ## Names, properties and texts -/

/-- A name that has to have a value. -/
def lookup (name : String) : Eval Value := do
  match ← M.find name with
  | some value => return value
  | none => Eval.fail (.unboundName name)

/-- Export the values of names. -/
def exportNames : List Label → Eval Unit
  | [] => pure ()
  | label :: rest => do
    match ← M.find label.name with
    | some value => modify fun m => { m with exports := m.exports.set label.name value }
    | none => Eval.failAt label.position (.unboundName label.name)
    exportNames rest

/-- A property of a record. -/
def property (r : RecordId) (name : String) : Eval Value := do
  match (← Eval.heap).property? r name with
  | some (.function f) => return .function (← M.read r f)
  | some value => return value
  | none => Eval.fail (.missingProperty name)

/-- A property of the record that a node stands for. -/
def propertyOf (eval : Evaluator) (target : NodeId) (name : String) : Eval Value := do
  match ← eval target with
  | .record r => M.property r name
  | other => Eval.fail (.notARecord "access a property of" other.kindName)

/-- A copy of a value. -/
def clone : Value → Eval Value
  | .record r => return .record (← M.copy r)
  | other => Eval.clone other

/-- Evaluate nodes and write their texts one after the other. -/
def texts (eval : Evaluator) (written : String) : List NodeId → Eval String
  | [] => pure written
  | id :: rest => do
    let value ← eval id
    let text ← M.text [rest.length] value
    texts eval (written ++ text) rest

/-- Print a line of the values of nodes. -/
def print (eval : Evaluator) (args : List NodeId) : Eval Value := do
  let line ← M.texts eval "" args
  modify fun m => { m with world := m.world.println line }
  return .nil

/-! ## Nodes -/

/-- The value of a node of a unit, form by form. -/
def nodeKind (own anywhere : Evaluator) (load : ImportRequest → Eval Value) (unit : UnitId) (id : NodeId)
    (node : Node) : Eval Value :=
  match node.kind with
  | .call callee args => M.call own anywhere callee args node.position
  | .ident name => M.lookup name
  | .property target name => M.propertyOf own target name
  | .object params composed members => M.object own unit id params.isSome composed members
  | .clone operand => own operand >>= M.clone
  | .exports names => do
    M.exportNames names
    return .nil
  | .print args => M.print own args
  | _ => Eval.nodeKind own anywhere load unit id node

/-- The value of a node, given the evaluation of the nodes further down. -/
def nodeStep (load : Loader) (eval : Evaluator) (id : NodeId) : Eval Value := do
  let unit := (← get).unit
  let node ← Eval.nodeIn unit id
  Eval.locating node.position (M.nodeKind (Eval.within unit eval) eval (load eval) unit id node)

/-- The value of a node, when steps nest no deeper than a bound. -/
def evaluator (load : Loader) : Nat → Evaluator
  | 0 => fun _ => throw (.stuck .outOfFuel)
  | fuel + 1 => fun id => M.nodeStep load (evaluator load fuel) id

/-! ## Units -/

/-- Call `main` if it is a function without parameters. -/
def invokeMain (eval : Evaluator) : Eval (Option Value) := do
  match ← M.find Eval.mainName with
  | some (.function f) =>
    let (params, _) ← Eval.functionParts f
    if params.isEmpty then
      let value ← M.callValue eval (.function f) [] none
      return some value
    else return none
  | _ => return none

/-- Evaluate a module and make a record of its exports. -/
def moduleRecord (settings : Settings) (eval : Evaluator) (path : Path) (dotted : String) : Eval RecordId := do
  match ← Eval.compiled path .module with
  | .error e => M.failed dotted e
  | .ok unit =>
    let top := M.top path (Eval.runUnit eval unit.program.body)
    match ← Eval.attempt (Eval.inNewMachine unit settings.maxDepth top) with
    | .ok exports => M.exported exports
    | .error fault =>
      if fault.isSignal then throw (.fault fault)
      else M.failed dotted (.faulted path fault)

/-- Load modules as a session does. -/
def loader (settings : Settings) (roots : Option SearchRoots) : Loader := fun eval request => do
  let roots := roots.getD (settings.rootsFor request.directory)
  let file := roots.moduleFile request.root request.path request.directory
  let path ← Eval.ofExcept ((← get).world.host.disk.canonicalModule file)
  return .record (← M.known path (M.moduleRecord settings eval path request.dotted))

/-! ## The usual manner -/

theorem compose_usual (r : RecordId) (composed : List Label) : usual.compose r composed = Eval.compose r composed := by
  induction composed with
  | nil => rfl
  | cons source rest ih =>
    rw [compose, ih]
    rfl

theorem construct_usual (eval : Evaluator) (unit : UnitId) (r : RecordId) (params : List (String × Value))
    (composed : List Label) (memberIds : List NodeId) :
    usual.construct eval unit r params composed memberIds =
      Eval.construct eval unit r params composed memberIds := by
  rw [construct, compose_usual]
  rfl

theorem exportNames_usual (labels : List Label) : usual.exportNames labels = Eval.exportNames labels := by
  induction labels with
  | nil => rfl
  | cons label rest ih =>
    rw [exportNames, ih]
    rfl

theorem texts_usual (eval : Evaluator) (ids : List NodeId) :
    ∀ written, usual.texts eval written ids = Eval.texts eval written ids := by
  induction ids with
  | nil => exact fun _ => rfl
  | cons id rest ih =>
    intro written
    simp only [texts, ih]
    rfl

theorem callRecord_usual (eval : Evaluator) (r : RecordId) (args : List Value) (callSite : Option Position) :
    usual.callRecord eval r args callSite = Eval.callRecord eval r args callSite := by
  simp only [callRecord, instantiate, construct_usual]
  rfl

theorem callValue_usual (eval : Evaluator) (callee : Value) (args : List Value) (callSite : Option Position) :
    usual.callValue eval callee args callSite = Eval.callValue eval callee args callSite := by
  cases callee with
  | record r => exact congrArg (fun x => Eval.holding _ (Eval.holdingAll args x)) (callRecord_usual eval r args callSite)
  | _ => rfl

theorem nodeKind_usual (own anywhere : Evaluator) (load : ImportRequest → Eval Value) (unit : UnitId) (id : NodeId)
    (node : Node) : usual.nodeKind own anywhere load unit id node = Eval.nodeKind own anywhere load unit id node := by
  obtain ⟨kind, position⟩ := node
  cases kind with
  | call callee args =>
    show usual.call own anywhere callee args position = Eval.call own anywhere callee args position
    simp only [call, Eval.call, callValue_usual]
  | object params composed members =>
    show usual.object own unit id params.isSome composed members = Eval.object own unit id params.isSome composed members
    simp only [object, Eval.object, construct_usual]
  | clone operand => exact bind_congr fun v => by cases v <;> rfl
  | exports names =>
    show (usual.exportNames names >>= fun _ => pure Value.nil) = (Eval.exportNames names >>= fun _ => pure Value.nil)
    rw [exportNames_usual]
  | print args =>
    show usual.print own args = Eval.print own args
    rw [print, texts_usual]
    rfl
  | _ => rfl

theorem nodeStep_usual (load : Loader) (eval : Evaluator) (id : NodeId) :
    usual.nodeStep load eval id = Eval.nodeStep load eval id := by
  simp only [nodeStep, Eval.nodeStep, nodeKind_usual]

theorem evaluator_usual (load : Loader) (fuel : Nat) : usual.evaluator load fuel = evalWithin load fuel := by
  induction fuel with
  | zero => rfl
  | succ fuel ih =>
    funext id
    rw [evaluator, evalWithin, ih]
    exact nodeStep_usual ..

theorem invokeMain_usual (eval : Evaluator) : usual.invokeMain eval = Eval.invokeMain eval := rfl

theorem loader_usual (settings : Settings) (roots : Option SearchRoots) :
    usual.loader settings roots = .ofSession settings roots := rfl

end Manner

end DynScript
