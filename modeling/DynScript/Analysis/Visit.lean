import DynScript.Analysis.State

/-!
# Analysis

`analyse` walks through a unit once, in the order in which it is written. It declares names as it meets them,
reports what is wrong, and moves the left operand of a pipe into the call on its right. A name is declared
after its value unless it is recursive; a block, a function, a loop and an object each have a scope of their
own.
-/

namespace DynScript

namespace Analysis

/-- The name that the language itself declares at the top level. -/
def hostName : String := "blu"

/-- The name of the root environment. -/
def rootName : String := "MAIN"

/-- The name that a loop declares in every round. -/
def loopName : String := "idx"

/-- The name that an entry unit may bind to what is called after its top level. -/
def mainName : String := "main"

/-- Visit nodes in order. -/
def visitAll (visit : NodeId → Analysis Unit) : List NodeId → Analysis Unit
  | [] => pure ()
  | id :: rest => do
    visit id
    visitAll visit rest

/-- The use of a name has to be in the scope of a declaration. -/
def visitIdent (name : String) (position : Option Position) : Analysis Unit := do
  reportIf (!(← isBound name)) (.unknownIdentifier name) position

/-- Constructor parameters are final, names of composed objects are declared, and member names differ. The
members are visited in order. -/
def visitObject (visit : NodeId → Analysis Unit) (params : Option (List Param))
    (composed : List Label) (members : List NodeId) : Analysis Unit := do
  forLabels Param.toLabel (fun param again =>
    if again then report (.duplicateConstructorParameter param.name) param.position
    else declare ⟨param.name, param.position, true, param.isMutable⟩) (params.getD [])
  forLabels id (fun source again => do
    reportIf (!(← isBound source.name)) (.unknownComposition source.name) source.position
    reportIf again (.duplicateComposition source.name) source.position) composed
  visitMembers [] members
where
  /-- Visit the members when the names `seen` stand before all of them. -/
  visitMembers (seen : List String) : List NodeId → Analysis Unit
    | [] => pure ()
    | member :: rest => do
      let node ← Analysis.node member
      match node.kind with
      | .binding name _ _ _ =>
        reportIf (seen.contains name) (.duplicateField name) node.position
        visit member
        visitMembers (name :: seen) rest
      | _ => throw (.misplacedNode member)

/-- The value of a binding; an object gets an environment of its own, named like the binding. -/
def visitValue (visit : NodeId → Analysis Unit) (name : String) (value : NodeId) : Analysis Unit := do
  match (← node value).kind with
  | .object params composed members =>
    inEnvironment name (visitObject visit params composed members)
  | _ => visit value

/-- A binding declares its name after its value, or before it when it is recursive. At the top level `main`
should be final. -/
def visitBinding (visit : NodeId → Analysis Unit) (name : String) (mode : BindingMode)
    (isFinal : Bool) (value : NodeId) (position : Option Position) : Analysis Unit := do
  let declaration : Declaration := ⟨name, position, isFinal, mode = .mutable⟩
  if mode = .recursive then
    declare declaration
    visitValue visit name value
  else
    visitValue visit name value
    declare declaration
  let s ← get
  let atTop := s.current = EnvTree.root && s.tree.scopeCount EnvTree.root = 1
  reportIf (name = mainName && !isFinal && atTop) .mainNotFinal position

/-- Parameters are final and not mutable; the body may return. -/
def visitFunction (visit : NodeId → Analysis Unit) (params : List Param) (body : NodeId) :
    Analysis Unit :=
  allowingReturn true <| inScope do
    forLabels Param.toLabel (fun param again =>
      if again then report (.duplicateParameter param.name) param.position
      else declare ⟨param.name, param.position, true, false⟩) params
    visit body

/-- An object literal cannot be called. -/
def visitCall (visit : NodeId → Analysis Unit) (callee : NodeId) (args : List NodeId)
    (position : Option Position) : Analysis Unit := do
  match (← node callee).kind with
  | .object _ _ _ => report .callOnObject position
  | _ => pure ()
  visit callee
  visitAll visit args

/-- The fields of a record have different names. -/
def visitRecord (visit : NodeId → Analysis Unit) (fields : List Field) : Analysis Unit :=
  forLabels Field.toLabel (fun field again => do
    reportIf again (.duplicateField field.name) field.position
    visit field.value) fields

/-- The bounds of a loop stand outside of its scope. -/
def visitLoop (visit : NodeId → Analysis Unit) (start stop body : NodeId) : Analysis Unit := do
  visit start
  visit stop
  inScope do
    declare ⟨loopName, none, true, false⟩
    visit body

/-- The value is visited first. A name on the left has to be declared and mutable. -/
def visitAssign (visit : NodeId → Analysis Unit) (target value : NodeId) : Analysis Unit := do
  let targetNode ← node target
  visit value
  match targetNode.kind with
  | .ident name =>
    match ← lookup? name with
    | none => report (.unknownAssignment name) targetNode.position
    | some d => reportIf (!d.isMutable) (.immutableAssignment name) targetNode.position
  | _ => visit target

/-- The call that takes the left operand of a pipe: the right operand, or the left operand of the pipe that
stands there. -/
def pipeCall? (arena : Arena) (rhs : NodeId) : Option NodeId :=
  match arena.kind? rhs with
  | some (.call _ _) => some rhs
  | some (.pipe inner _ _) =>
    match arena.kind? inner with
    | some (.call _ _) => some inner
    | _ => none
  | _ => none

/-- Add an argument to a call. -/
def appendArgument (arena : Arena) (call arg : NodeId) : Arena :=
  match arena.kind? call with
  | some (.call callee args) => arena.setKind call (.call callee (args ++ [arg]))
  | _ => arena

/-- Mark a pipe as desugared. -/
def markDesugared (arena : Arena) (id : NodeId) : Arena :=
  match arena.kind? id with
  | some (.pipe lhs rhs _) => arena.setKind id (.pipe lhs rhs true)
  | _ => arena

/-- A pipe into a call makes its left operand the last argument, and is marked so that this happens once. -/
def visitPipe (visit : NodeId → Analysis Unit) (id lhs rhs : NodeId) (desugared : Bool) :
    Analysis Unit := do
  if desugared then visit rhs
  else
    let rhsNode ← node rhs
    match pipeCall? (← get).arena rhs with
    | none =>
      visit lhs
      report .pipeIntoNonCall rhsNode.position
    | some call =>
      modify fun s => { s with arena := markDesugared (appendArgument s.arena call lhs) id }
      visit rhs

/-- The scopes of the environment that the target names are brought into the scope of the body, which may
not return. -/
def visitEnvOpen (visit : NodeId → Analysis Unit) (target body : NodeId) : Analysis Unit :=
  allowingReturn false do
    let s ← get
    let saved := s.tree.scopeCount s.current
    modifyTree EnvTree.pushScope
    visit target
    match (← node target).kind with
    | .ident name =>
      modifyTree fun tree current =>
        match tree.findEnv? current name with
        | some env => tree.bringIntoScope current env
        | none => tree
    | _ => pure ()
    visit body
    modifyTree fun tree current => tree.truncateScopes current saved

/-- Only modules export, and they export names that are declared, each once in an export. -/
def visitExport (role : Role) (names : List Label) (position : Option Position) : Analysis Unit := do
  reportIf (role = .entry) .exportFromEntry position
  forLabels id (fun label again => do
    reportIf (!(← isBound label.name)) (.unknownExport label.name) label.position
    reportIf again (.duplicateExport label.name) label.position) names

/-- A return has to stand in a function. -/
def visitReturn (visit : NodeId → Analysis Unit) (value : Option NodeId)
    (position : Option Position) : Analysis Unit := do
  reportIf (!(← get).inFunction) .returnOutsideFunction position
  match value with
  | some value => visit value
  | none => pure ()

/-- Visit a node, with `visit` for the nodes below it. -/
def visitNode (role : Role) (visit : NodeId → Analysis Unit) (id : NodeId) : Analysis Unit := do
  let node ← Analysis.node id
  let position := node.position
  match node.kind with
  | .block items => inScope (visitAll visit items)
  | .binding name mode isFinal value => visitBinding visit name mode isFinal value position
  | .function params body => visitFunction visit params body
  | .call callee args => visitCall visit callee args position
  | .ident name => visitIdent name position
  | .literal _ | .imports _ _ => pure ()
  | .list items | .print items => visitAll visit items
  | .record fields => visitRecord visit fields
  | .index target index => visitAll visit [target, index]
  | .property target _ => visit target
  | .len operand | .negate operand | .clone operand => visit operand
  | .loop start stop body => visitLoop visit start stop body
  | .conditional condition thenBranch elseBranch =>
    visitAll visit (condition :: thenBranch :: elseBranch.toList)
  | .assign target value => visitAssign visit target value
  | .logical _ lhs rhs | .equality _ lhs rhs | .comparison _ lhs rhs | .arithmetic _ lhs rhs =>
    visitAll visit [lhs, rhs]
  | .prepend item list => visitAll visit [item, list]
  | .pipe lhs rhs desugared => visitPipe visit id lhs rhs desugared
  | .object params composed members => inScope (visitObject visit params composed members)
  | .envOpen target body => visitEnvOpen visit target body
  | .exports names => visitExport role names position
  | .returns value => visitReturn visit value position

/-- Visit a node and the tree below it, at most `levels` deep. -/
def visitWithin (role : Role) : Nat → NodeId → Analysis Unit
  | 0, _ => throw .endlessTree
  | levels + 1, id => visitNode role (visitWithin role levels) id

/-- The statements of a block; any other node is a block of its own. -/
def statements (id : NodeId) : Analysis (List NodeId) := do
  match (← node id).kind with
  | .block items => return items
  | _ => return [id]

/-- Visit the top level of a unit, which shares the scope of the root environment. -/
def visitProgram (role : Role) (body : NodeId) : Analysis Unit := do
  let levels := (← get).arena.size + 1
  visitAll (visitWithin role levels) (← statements body)

/-- The environments before anything is visited: only the name of the host is declared. -/
def initialTree : EnvTree :=
  let tree := EnvTree.new rootName
  (tree.define EnvTree.root ⟨hostName, none, true, false⟩).toOption.getD tree

/-- The state before anything is visited. -/
def initialState (arena : Arena) (queue : Queue) : AnalysisState :=
  { arena, queue, tree := initialTree, current := EnvTree.root, inFunction := false, errors := 0 }

end Analysis

/-- What an analysis leaves behind. -/
structure Analysed where
  /-- The unit, with the pipes desugared. -/
  program : Program
  /-- The queue with what was found added at its end. -/
  queue : Queue
  /-- How many errors were found. -/
  errors : Nat

namespace Analysed

/-- A unit with errors may not run. -/
def failed (a : Analysed) : Bool := a.errors > 0

end Analysed

/-- Analyse a unit. -/
def analyse (program : Program) (role : Role) (queue : Queue) : Except Defect Analysed :=
  match (Analysis.visitProgram role program.body).run (Analysis.initialState program.arena queue) with
  | .ok ((), s) => .ok ⟨⟨s.arena, program.body⟩, s.queue, s.errors⟩
  | .error defect => .error defect

end DynScript
