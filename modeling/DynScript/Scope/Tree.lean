import DynScript.Scope.Declaration

/-!
# Trees of environments

Analysis keeps a tree of named environments, each a stack of scopes. The root stands for the unit; a child is
made for an object that is bound to a name and keeps the scope of that object, so that opening the
environment later brings it back. A parent is made before its children, so its number is smaller as long as there
are numbers for all: the walk to the ancestors and the walk through the descendants both end.
-/

namespace DynScript

/-- The number of an environment in its tree. -/
structure EnvId where
  /-- The number. -/
  number : UInt32
deriving DecidableEq, Repr, Inhabited

namespace EnvId

/-- The place in the tree's table. -/
def index (e : EnvId) : Nat := e.number.toNat

/-- The number of a place in the table. From the last number on all places have that one. -/
def ofIndex (i : Nat) : EnvId := ⟨.ofNatClamp i⟩

end EnvId

/-- A named environment. -/
structure EnvNode where
  /-- The name that the environment is opened by. -/
  name : String
  /-- The environment in which it was made. -/
  parent : Option EnvId
  /-- The environments made in it, the first one of each name, in the order in which they were made. -/
  children : List EnvId
  /-- Its scopes, the innermost first. -/
  scopes : List Scope
deriving DecidableEq, Repr

/-- A tree of environments. -/
structure EnvTree where
  /-- The environments, by number. -/
  nodes : Array EnvNode
deriving DecidableEq, Repr

namespace EnvTree

/-- The number of the root. -/
def root : EnvId := ⟨0⟩

/-- A tree of a root alone, with one empty scope. -/
def new (name : String) : EnvTree := ⟨#[⟨name, none, [], [.empty]⟩]⟩

/-- How many environments the tree has. -/
def size (t : EnvTree) : Nat := t.nodes.size

/-- The environment with a number. -/
def get? (t : EnvTree) (e : EnvId) : Option EnvNode := t.nodes[e.index]?

/-- The name of an environment. -/
def name? (t : EnvTree) (e : EnvId) : Option String := (t.get? e).map EnvNode.name

/-- The environment in which one was made. -/
def parent? (t : EnvTree) (e : EnvId) : Option EnvId := (t.get? e).bind EnvNode.parent

/-- The children of an environment. -/
def children (t : EnvTree) (e : EnvId) : List EnvId := ((t.get? e).map EnvNode.children).getD []

/-- The scopes of an environment, the innermost first. -/
def scopes (t : EnvTree) (e : EnvId) : List Scope := ((t.get? e).map EnvNode.scopes).getD []

/-- Change one environment. -/
def modify (t : EnvTree) (e : EnvId) (f : EnvNode → EnvNode) : EnvTree :=
  ⟨t.nodes.modify e.index f⟩

/-- Change the scopes of one environment. -/
def modifyScopes (t : EnvTree) (e : EnvId) (f : List Scope → List Scope) : EnvTree :=
  t.modify e fun node => { node with scopes := f node.scopes }

/-- Make an environment with one empty scope in another one. Its parent lists it among its children unless
one of them has the same name. -/
def pushEnvironment (t : EnvTree) (parent : EnvId) (name : String) : EnvId × EnvTree :=
  let id := EnvId.ofIndex t.size
  let grown : EnvTree := ⟨t.nodes.push ⟨name, some parent, [], [.empty]⟩⟩
  if (t.children parent).any fun child => t.name? child = some name then (id, grown)
  else (id, grown.modify parent fun node => { node with children := node.children ++ [id] })

/-- The first environment of a name in the tree below one, which comes before its descendants; `levels`
bounds how far down the search goes. -/
def findBelow? (t : EnvTree) (name : String) : Nat → EnvId → Option EnvId
  | 0, _ => none
  | levels + 1, e =>
    if t.name? e = some name then some e
    else (t.children e).findSome? (t.findBelow? name levels)

/-- The first environment of a name below one, or below the nearest ancestor that has one; `levels` bounds
how far up the search goes. -/
def findFrom? (t : EnvTree) (name : String) : Nat → EnvId → Option EnvId
  | 0, _ => none
  | levels + 1, e =>
    (t.findBelow? name t.size e).or ((t.parent? e).bind (t.findFrom? name levels))

/-- The environment that a name stands for when seen from one. -/
def findEnv? (t : EnvTree) (e : EnvId) (name : String) : Option EnvId := t.findFrom? name t.size e

/-- The declaration of a name in the scopes of an environment or of its ancestors, the innermost first;
`levels` bounds how far up the search goes. -/
def lookupFrom? (t : EnvTree) (name : String) : Nat → EnvId → Option Declaration
  | 0, _ => none
  | levels + 1, e =>
    ((t.scopes e).findSome? (·.find? name)).or ((t.parent? e).bind (t.lookupFrom? name levels))

/-- The declaration of a name that is in force in an environment. -/
def lookup? (t : EnvTree) (e : EnvId) (name : String) : Option Declaration :=
  t.lookupFrom? name t.size e

/-- Whether a name is declared for an environment. -/
def isBound (t : EnvTree) (e : EnvId) (name : String) : Bool := (t.lookup? e name).isSome

/-- The final declaration of a name in the innermost scope of an environment. -/
def finalInScope? (t : EnvTree) (e : EnvId) (name : String) : Option Declaration :=
  match t.scopes e with
  | [] => none
  | scope :: _ => (scope.find? name).filter Declaration.isFinal

/-- Add a declaration to the innermost scope. A name that is final there is refused with its declaration. -/
def define (t : EnvTree) (e : EnvId) (d : Declaration) : Except Declaration EnvTree :=
  match t.finalInScope? e d.name with
  | some existing => .error existing
  | none =>
    .ok (t.modifyScopes e fun
      | [] => [Scope.empty.push d]
      | scope :: outer => scope.push d :: outer)

/-- Open an empty scope. -/
def pushScope (t : EnvTree) (e : EnvId) : EnvTree := t.modifyScopes e (Scope.empty :: ·)

/-- Close the innermost scope. -/
def popScope (t : EnvTree) (e : EnvId) : EnvTree := t.modifyScopes e List.tail

/-- How many scopes an environment has. -/
def scopeCount (t : EnvTree) (e : EnvId) : Nat := (t.scopes e).length

/-- Put copies of the scopes of `source` inside those of `target`. -/
def bringIntoScope (t : EnvTree) (target source : EnvId) : EnvTree :=
  let scopes := t.scopes source
  t.modifyScopes target (scopes ++ ·)

/-- Close scopes until no more than `count` are left. -/
def truncateScopes (t : EnvTree) (e : EnvId) (count : Nat) : EnvTree :=
  t.modifyScopes e fun scopes => scopes.drop (scopes.length - count)

end EnvTree

end DynScript
