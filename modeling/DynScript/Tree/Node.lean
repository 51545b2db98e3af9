import DynScript.Source.Position

/-!
# Nodes of a program

A program is a tree whose nodes refer to each other by number. `NodeKind` is what a node is, `Node` adds
where it stands, and `NodeKind.children` lists the nodes right below it.
-/

namespace DynScript

/-- The number of a node in its arena. -/
structure NodeId where
  /-- The place in the arena. -/
  index : Nat
deriving DecidableEq, Repr, Inhabited

/-- How a `let` introduces its name. -/
inductive BindingMode where
  /-- Not assignable; bound after its value. -/
  | plain
  /-- Assignable; bound after its value. -/
  | mutable
  /-- Not assignable; bound before its value, which may refer to it. -/
  | recursive
deriving DecidableEq, Repr

/-- A name where it is written. -/
structure Label where
  /-- The name. -/
  name : String
  /-- Where it is written. -/
  position : Option Position
deriving DecidableEq, Repr

/-- A parameter of a function or of a constructor. -/
structure Param extends Label where
  /-- Whether it may be assigned; only constructors have such parameters. -/
  isMutable : Bool
deriving DecidableEq, Repr

/-- An entry `name: value` of a record literal. -/
structure Field extends Label where
  /-- The node of the value. -/
  value : NodeId
deriving DecidableEq, Repr

/-- The values that are written out. -/
inductive Literal where
  | nil
  | bool (b : Bool)
  | number (x : Float)
  | string (s : String)
deriving DecidableEq

/-- The operators that may leave out their right operand. -/
inductive LogicalOp where
  | and | or
deriving DecidableEq, Repr

/-- The operators that compare any two values. -/
inductive EqualityOp where
  | equal | notEqual
deriving DecidableEq, Repr

/-- The operators that order two numbers. -/
inductive ComparisonOp where
  | less | lessEqual | greater | greaterEqual
deriving DecidableEq, Repr

/-- The operators of arithmetic. -/
inductive ArithmeticOp where
  | add | subtract | multiply | divide
deriving DecidableEq, Repr

/-- How an equality operator is written. -/
def EqualityOp.text : EqualityOp → String
  | equal => "=="
  | notEqual => "<>"

/-- How a comparison operator is written. -/
def ComparisonOp.text : ComparisonOp → String
  | less => "<"
  | lessEqual => "<="
  | greater => ">"
  | greaterEqual => ">="

/-- How an arithmetic operator is written. -/
def ArithmeticOp.text : ArithmeticOp → String
  | add => "+"
  | subtract => "-"
  | multiply => "*"
  | divide => "/"

/-- The directory that the path of an import starts from. -/
inductive ImportRoot where
  /-- The directory of the importing unit. -/
  | relative
  /-- The directory of the entry unit. -/
  | base
  /-- The root of the standard library. -/
  | std
deriving DecidableEq, Repr

/-- What a node is. -/
inductive NodeKind where
  /-- Statements between braces, or a whole unit. -/
  | block (items : List NodeId)
  /-- A `let`, or a member of an object. -/
  | binding (name : String) (mode : BindingMode) (isFinal : Bool) (value : NodeId)
  /-- A function literal. -/
  | function (params : List Param) (body : NodeId)
  /-- A call. -/
  | call (callee : NodeId) (args : List NodeId)
  /-- The use of a name. -/
  | ident (name : String)
  /-- A value that is written out. -/
  | literal (value : Literal)
  /-- A list of items between brackets. -/
  | list (items : List NodeId)
  /-- A record of fields between braces. -/
  | record (fields : List Field)
  /-- Written `target[index]` -/
  | index (target index : NodeId)
  /-- Written `target.name` -/
  | property (target : NodeId) (name : String)
  /-- Written `len operand` -/
  | len (operand : NodeId)
  /-- Written `for start to stop { body }` -/
  | loop (start stop body : NodeId)
  /-- Written `if condition then { .. } else { .. }` -/
  | conditional (condition thenBranch : NodeId) (elseBranch : Option NodeId)
  /-- Written `target <- value` -/
  | assign (target value : NodeId)
  /-- Written `lhs and rhs`, `lhs or rhs` -/
  | logical (op : LogicalOp) (lhs rhs : NodeId)
  /-- Written `lhs == rhs`, `lhs <> rhs` -/
  | equality (op : EqualityOp) (lhs rhs : NodeId)
  /-- Written `lhs < rhs` and the like. -/
  | comparison (op : ComparisonOp) (lhs rhs : NodeId)
  /-- Written `lhs + rhs` and the like. -/
  | arithmetic (op : ArithmeticOp) (lhs rhs : NodeId)
  /-- Written `-operand` -/
  | negate (operand : NodeId)
  /-- Written `item @ list` -/
  | prepend (item list : NodeId)
  /-- Written `lhs |> rhs`; once it is desugared the left operand is the last argument of the call on the right. -/
  | pipe (lhs rhs : NodeId) (desugared : Bool)
  /-- Written `object { .. }`, which is a class when it has a parameter list. -/
  | object (params : Option (List Param)) (composed : List Label) (members : List NodeId)
  /-- Written `clone operand` -/
  | clone (operand : NodeId)
  /-- Written `target.{ body }` -/
  | envOpen (target body : NodeId)
  /-- Written `import a.b.c` -/
  | imports (root : ImportRoot) (path : List String)
  /-- Written `export a, b` -/
  | exports (names : List Label)
  /-- Written `print a, b` -/
  | print (args : List NodeId)
  /-- Written `return value` -/
  | returns (value : Option NodeId)
deriving DecidableEq

/-- The nodes right below a node, in the order in which they are written. The left operand of a desugared
pipe stands below the call that it was moved to. -/
def NodeKind.children : NodeKind → List NodeId
  | block items | list items | print items => items
  | binding _ _ _ value => [value]
  | function _ body => [body]
  | call callee args => callee :: args
  | ident _ | literal _ | imports _ _ | exports _ => []
  | record fields => fields.map Field.value
  | index target i => [target, i]
  | property target _ => [target]
  | len operand | negate operand | clone operand => [operand]
  | loop start stop body => [start, stop, body]
  | conditional condition thenBranch elseBranch => condition :: thenBranch :: elseBranch.toList
  | assign target value => [target, value]
  | logical _ lhs rhs | equality _ lhs rhs | comparison _ lhs rhs | arithmetic _ lhs rhs => [lhs, rhs]
  | prepend item rest => [item, rest]
  | pipe lhs rhs desugared => if desugared then [rhs] else [lhs, rhs]
  | object _ _ members => members
  | envOpen target body => [target, body]
  | returns value => value.toList

/-- A node of a program. -/
structure Node where
  /-- What the node is. -/
  kind : NodeKind
  /-- The position of its leading token, if it has one. -/
  position : Option Position
deriving DecidableEq

end DynScript
