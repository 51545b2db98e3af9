import DynScript.Analysis.Finding
import DynScript.Diagnostic.Queue
import DynScript.Scope.Tree
import DynScript.Tree.Arena
import DynScript.Tree.Defect

/-!
# The state of an analysis

An analysis walks through a unit with the environments known so far, adds what it finds to a queue, and
desugars pipes in the unit's arena. It goes on after a finding and stops only at a defect of the tree.
-/

namespace DynScript

/-- What a unit is for. -/
inductive Role where
  /-- The unit that a run starts with. -/
  | entry
  /-- A unit that others import. -/
  | module
deriving DecidableEq, Repr

/-- The state of an analysis. -/
structure AnalysisState where
  /-- The nodes of the unit. -/
  arena : Arena
  /-- What has been found. -/
  queue : Queue
  /-- The environments of the unit. -/
  tree : EnvTree
  /-- The environment that the walk is in. -/
  current : EnvId
  /-- Whether a return is allowed here. -/
  inFunction : Bool
  /-- How many errors this analysis has found. -/
  errors : Nat

/-- A step of an analysis. -/
abbrev Analysis (α : Type) : Type := StateT AnalysisState (Except Defect) α

namespace Analysis

/-- The node with a number. -/
def node (id : NodeId) : Analysis Node := do
  match (← get).arena.get? id with
  | some node => return node
  | none => throw (.missingNode id)

/-- Emit a finding. -/
def report (f : Finding) (position : Option Position) : Analysis Unit :=
  modify fun s =>
    { s with
      queue := s.queue.push (f.toDiagnostic position)
      errors := if f.severity = .error then s.errors + 1 else s.errors }

/-- Emit a finding if it is one. -/
def reportIf (p : Bool) (f : Finding) (position : Option Position) : Analysis Unit :=
  if p then report f position else pure ()

/-- Change the environments. -/
def modifyTree (f : EnvTree → EnvId → EnvTree) : Analysis Unit :=
  modify fun s => { s with tree := f s.tree s.current }

/-- The declaration of a name that is in force here. -/
def lookup? (name : String) : Analysis (Option Declaration) :=
  return (← get).tree.lookup? (← get).current name

/-- Whether a name is declared here. -/
def isBound (name : String) : Analysis Bool :=
  return (← lookup? name).isSome

/-- Declare a name in the innermost scope, unless it is final there. -/
def declare (d : Declaration) : Analysis Unit := do
  match (← get).tree.define (← get).current d with
  | .ok tree => modify fun s => { s with tree := tree }
  | .error _ => report (.finalRedeclaration d.name) d.position

/-- Do something inside a new scope, which is closed afterwards. -/
def inScope (inner : Analysis Unit) : Analysis Unit := do
  modifyTree EnvTree.pushScope
  inner
  modifyTree EnvTree.popScope

/-- Do something inside a new environment of the current one. -/
def inEnvironment (name : String) (inner : Analysis Unit) : Analysis Unit := do
  let parent := (← get).current
  modify fun s =>
    let (child, tree) := s.tree.pushEnvironment parent name
    { s with tree := tree, current := child }
  inner
  modify fun s => { s with current := parent }

/-- Do something while returns are allowed, or while they are not. -/
def allowingReturn (allowed : Bool) (inner : Analysis Unit) : Analysis Unit := do
  let before := (← get).inFunction
  modify fun s => { s with inFunction := allowed }
  inner
  modify fun s => { s with inFunction := before }

/-- Do something for every label, with whether a label of the same name stands before it. -/
def forLabels {α : Type} (label : α → Label) (visit : α → Bool → Analysis Unit) (items : List α) :
    Analysis Unit :=
  go [] items
where
  /-- The same, when the names `seen` stand before all of the items. -/
  go (seen : List String) : List α → Analysis Unit
    | [] => pure ()
    | item :: rest => do
      visit item (seen.contains (label item).name)
      go ((label item).name :: seen) rest

end Analysis

end DynScript
