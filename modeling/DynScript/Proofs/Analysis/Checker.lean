import DynScript.Proofs.Analysis.Exports
import DynScript.Proofs.Tree.Direct

/-!
# A checker without environments

`Program.check` lists what is wrong with a program that has just been parsed. It reads the nodes and changes none
of them, and all it carries along is a `Place`: the scopes around it, the innermost first, and whether a return is
allowed. A block, a function, the body of a loop and an object each have a scope of their own, whether or not the
object is bound to a name. What is piped into a call is checked as the last argument of that call.
-/

namespace DynScript

/-- Where a checker is. -/
structure Place where
  /-- The scopes around it, the innermost first. -/
  scopes : List Scope
  /-- Whether a return is allowed. -/
  inFunction : Bool

namespace Place

/-- A new scope is opened. -/
def opened (p : Place) : Place := { p with scopes := .empty :: p.scopes }

/-- A return is allowed. -/
def returning (p : Place) : Place := { p with inFunction := true }

/-- A name is declared, unless it is final in the innermost scope. -/
def declare (p : Place) (d : Declaration) : Place := { p with scopes := Scope.declareIn d p.scopes }

/-- Several names are declared. -/
def declareAll (p : Place) (ds : List Declaration) : Place := ds.foldl declare p

/-- The declaration of a name that is in force. -/
def inForce? (p : Place) (name : String) : Option Declaration := Scope.inForce? p.scopes name

/-- Whether a name is declared. -/
def isBound (p : Place) (name : String) : Bool := (p.inForce? name).isSome

/-- Whether a name is final in the innermost scope. -/
def fixes (p : Place) (name : String) : Bool := Scope.fixes p.scopes name

/-- Whether no scope is open but that of the unit. -/
def isTop (p : Place) : Bool := p.scopes.length = 1

/-- The place after a statement. -/
def past (a : Arena) (p : Place) (id : NodeId) : Place := { p with scopes := a.adds id p.scopes }

/-- The place at the top of a unit: only the name of the host is declared. -/
def top : Place := ⟨[⟨[⟨Analysis.hostName, none, true, false⟩]⟩], false⟩

end Place

namespace Checker

open Analysis (foundIf exported loopName mainName pipeCall?)

/-- Items together with whether a label of the same name stands before them; the names `seen` stand before all. -/
def withRepeats {α : Type} (label : α → Label) (seen : List String) : List α → List (α × Bool)
  | [] => []
  | item :: rest => (item, seen.contains (label item).name) :: withRepeats label ((label item).name :: seen) rest

/-- What is found at a declaration. -/
def declared (p : Place) (d : Declaration) : Found := foundIf (p.fixes d.name) (.finalRedeclaration d.name) d.position

/-- What is found in a parameter list. -/
def params (again : Param → Finding) (items : List Param) : Found :=
  (withRepeats Param.toLabel [] items).flatMap fun (param, repeated) => foundIf repeated (again param) param.position

section

variable (a : Arena) (role : Role) (check : Place → NodeId → Found)

/-- What is found in statements, each of which is in the scope of those before it. -/
def statements : Place → List NodeId → Found
  | _, [] => []
  | p, id :: rest => check p id ++ statements (p.past a id) rest

/-- What is found in members when the names `seen` stand before all of them. -/
def members : List String → Place → List NodeId → Found
  | _, _, [] => []
  | seen, p, id :: rest =>
    match a.get? id with
    | some ⟨.binding name _ _ _, position⟩ =>
      foundIf (seen.contains name) (.duplicateField name) position ++ check p id ++
        members (name :: seen) (p.past a id) rest
    | _ => []

/-- What is found at a name that an object is composed from. -/
def source (p : Place) (label : Label) (repeated : Bool) : Found :=
  foundIf (!p.isBound label.name) (.unknownComposition label.name) label.position ++
    foundIf repeated (.duplicateComposition label.name) label.position

/-- What is found in an object, in the scope of its constructor parameters. -/
def object (p : Place) (parameters : List Param) (composed : List Label) (items : List NodeId) : Found :=
  let inside := p.opened.declareAll (parameters.map Param.ofClass)
  params (fun param => .duplicateConstructorParameter param.name) parameters ++
    ((withRepeats id [] composed).flatMap fun (label, repeated) => source inside label repeated) ++
    members a check [] inside items

/-- What is found in a binding: its name is declared after the value, or before it when it is recursive. -/
def binding (p : Place) (name : String) (mode : BindingMode) (isFinal : Bool) (value : NodeId)
    (position : Option Position) : Found :=
  let d : Declaration := ⟨name, position, isFinal, mode = .mutable⟩
  let after := p.declare d
  (if mode = .recursive then declared p d ++ check after value else check p value ++ declared p d) ++
    foundIf (name = mainName && !isFinal && after.isTop) .mainNotFinal position

/-- What is found in a function, whose parameters are final. -/
def function (p : Place) (parameters : List Param) (body : NodeId) : Found :=
  params (fun param => .duplicateParameter param.name) parameters ++
    check (p.returning.opened.declareAll (parameters.map Param.ofFunction)) body

/-- What is found in a call, with what is piped into it. -/
def call (p : Place) (id callee : NodeId) (args : List NodeId) (position : Option Position) : Found :=
  foundIf (((a.kind? callee).map NodeKind.isObject).getD false) .callOnObject position ++
    (callee :: (args ++ (a.pipedInto? id).toList)).flatMap (check p)

/-- What is found in a record. -/
def record (p : Place) (fields : List Field) : Found :=
  (withRepeats Field.toLabel [] fields).flatMap fun (field, repeated) =>
    foundIf repeated (.duplicateField field.name) field.position ++ check p field.value

/-- What is found in a loop. -/
def loop (p : Place) (start stop body : NodeId) : Found :=
  check p start ++ check p stop ++ check (p.opened.declare ⟨loopName, none, true, false⟩) body

/-- What is found when a name is assigned. -/
def assigned (p : Place) (name : String) (position : Option Position) : Found :=
  match p.inForce? name with
  | none => [(.unknownAssignment name, position)]
  | some d => foundIf (!d.isMutable) (.immutableAssignment name) position

/-- What is found in an assignment. -/
def assign (p : Place) (target value : NodeId) : Found :=
  check p value ++
    match a.get? target with
    | some ⟨.ident name, position⟩ => assigned p name position
    | _ => check p target

/-- What is found in a pipe: the left operand is checked by itself only if no call takes it. -/
def pipe (p : Place) (lhs rhs : NodeId) : Found :=
  match pipeCall? a rhs with
  | some _ => check p rhs
  | none => check p lhs ++ [(.pipeIntoNonCall, a.position? rhs)]

/-- What is found in a node, with `check` for the nodes below it. Records that stand open are none of its business. -/
def node (p : Place) (id : NodeId) (node : Node) : Found :=
  let position := node.position
  match node.kind with
  | .block items => statements a check p.opened items
  | .binding name mode isFinal value => binding check p name mode isFinal value position
  | .function parameters body => function check p parameters body
  | .call callee args => call a check p id callee args position
  | .ident name => foundIf (!p.isBound name) (.unknownIdentifier name) position
  | .record fields => record check p fields
  | .loop start stop body => loop check p start stop body
  | .assign target value => assign a check p target value
  | .pipe lhs rhs _ => pipe a check p lhs rhs
  | .object parameters composed items => object a check p (parameters.getD []) composed items
  | .envOpen _ _ => []
  | .exports names => foundIf (role = .entry) .exportFromEntry position ++ exported p.isBound [] names
  | .returns value => foundIf (!p.inFunction) .returnOutsideFunction position ++ value.toList.flatMap (check p)
  | kind => kind.children.flatMap (check p)

end

/-- What is found in a node and in the tree below it, at most `levels` deep. -/
def within (a : Arena) (role : Role) : Nat → Place → NodeId → Found
  | 0, _, _ => []
  | levels + 1, p, id => ((a.get? id).map (node a role (within a role levels) p id)).getD []

end Checker

/-- What is wrong with a program: the errors and the warnings in its statements, in the order of the text. -/
def Program.check (program : Program) (role : Role) : Found :=
  match program.arena.kind? program.body with
  | some (.block items) =>
    Checker.statements program.arena (Checker.within program.arena role (2 * program.arena.size + 2)) .top items
  | _ => []

end DynScript
