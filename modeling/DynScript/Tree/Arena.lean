import DynScript.Tree.Node

/-!
# Arenas

The nodes of one unit stand in an `Arena`, in the order in which they were made; the number of a node is its
place there. A node is made after its children, so a child has a smaller number than its parent.
-/

namespace DynScript

/-- The nodes of one unit. -/
structure Arena where
  /-- The nodes, by number. -/
  nodes : Array Node
deriving DecidableEq

namespace Arena

/-- An arena without nodes. -/
def empty : Arena := ⟨#[]⟩

instance : Inhabited Arena := ⟨empty⟩

/-- How many nodes the arena holds. -/
def size (a : Arena) : Nat := a.nodes.size

/-- Add a node at the end; its number is the old size. -/
def alloc (a : Arena) (node : Node) : NodeId × Arena := (⟨a.size⟩, ⟨a.nodes.push node⟩)

/-- The node with a number. -/
def get? (a : Arena) (id : NodeId) : Option Node := a.nodes[id.index]?

/-- What the node with a number is. -/
def kind? (a : Arena) (id : NodeId) : Option NodeKind := (a.get? id).map Node.kind

/-- The position of the node with a number. -/
def position? (a : Arena) (id : NodeId) : Option Position := (a.get? id).bind Node.position

/-- Change what a node is and leave its position. -/
def setKind (a : Arena) (id : NodeId) (kind : NodeKind) : Arena :=
  ⟨a.nodes.modify id.index fun node => ⟨kind, node.position⟩⟩

/-- The tree below a node, each node before its children and with its depth; `levels` bounds how far down
the listing goes. -/
def preorderWithin (a : Arena) : Nat → Nat → NodeId → List (Nat × Node)
  | 0, _, _ => []
  | levels + 1, depth, id =>
    match a.get? id with
    | none => []
    | some node =>
      (depth, node) :: node.kind.children.flatMap (a.preorderWithin levels (depth + 1))

/-- The tree below a node, each node before its children and with its depth. -/
def preorder (a : Arena) (root : NodeId) : List (Nat × Node) := a.preorderWithin (a.size + 1) 0 root

end Arena

/-- A parsed unit: its nodes, and the block of its top level. -/
structure Program where
  /-- The nodes of the unit. -/
  arena : Arena
  /-- The block of the unit's statements. -/
  body : NodeId
deriving DecidableEq

end DynScript
