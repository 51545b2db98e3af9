import DynScript.Tree.Node

/-!
# Defects of a tree

The passes over a tree rely on what the parser promises: the nodes that a node refers to are there, and each
stands where its kind may stand. A `Defect` tells that a tree breaks a promise.
-/

namespace DynScript

/-- How a tree fails the passes over it. -/
inductive Defect where
  /-- A node refers to a node that the arena does not hold. -/
  | missingNode (id : NodeId)
  /-- A node stands where its kind may not stand. -/
  | misplacedNode (id : NodeId)
  /-- The number of a node is used while another unit is evaluated than the one that it comes from. -/
  | foreignNode (id : NodeId)
  /-- The tree goes deeper than it has nodes. -/
  | endlessTree
deriving DecidableEq, Repr

end DynScript
