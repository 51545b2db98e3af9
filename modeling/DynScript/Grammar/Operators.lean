import DynScript.Grammar.Parser

/-!
# Operators

The operators of an expression bind in tiers. From the loosest: assignment and pipe, which group to the
right; `or`; `and`; equality; comparison; prepending, which groups to the right; sums; products; unary
operators; and at last what follows a primary expression.
-/

namespace DynScript.Grammar

/-- The tiers of binary operators between the pipe and the unary operators. -/
inductive Tier where
  | disjunction | conjunction | equality | comparison | prepending | sum | product
deriving DecidableEq, Repr

/-- The tiers from the loosest to the tightest. -/
def tiers : List Tier :=
  [.disjunction, .conjunction, .equality, .comparison, .prepending, .sum, .product]

/-- The tiers that bind at least as tightly as prepending. -/
def prependTiers : List Tier := [.prepending, .sum, .product]

/-- The node that an operator of a tier makes of its operands. -/
def Tier.build? : Tier → TokenKind → Option (NodeId → NodeId → NodeKind)
  | disjunction, .keyword .or => some (.logical .or)
  | conjunction, .keyword .and => some (.logical .and)
  | equality, .symbol .equal => some (.equality .equal)
  | equality, .symbol .notEqual => some (.equality .notEqual)
  | comparison, .symbol .less => some (.comparison .less)
  | comparison, .symbol .lessEqual => some (.comparison .lessEqual)
  | comparison, .symbol .greater => some (.comparison .greater)
  | comparison, .symbol .greaterEqual => some (.comparison .greaterEqual)
  | prepending, .symbol .prepend => some .prepend
  | sum, .symbol .plus => some (.arithmetic .add)
  | sum, .symbol .minus => some (.arithmetic .subtract)
  | product, .symbol .star => some (.arithmetic .multiply)
  | product, .symbol .slash => some (.arithmetic .divide)
  | _, _ => none

/-- The node that a unary operator makes of its operand. -/
def unary? : TokenKind → Option (NodeId → NodeKind)
  | .symbol .minus => some .negate
  | .keyword .len => some .len
  | .keyword .clone => some .clone
  | _ => none

/-- An expression of the given tiers: operands of the tighter ones with operators of the loosest between
them, grouped to the left, or to the right for prepending. `operand` reads what binds tighter than all. -/
def binary (g : Grammar) (operand : Parser NodeId) : List Tier → Parser NodeId
  | [] => operand
  | tier :: tighter => do
    let first ← g.binary operand tighter
    g.repeating first fun lhs => do
      match tier.build? (← Parser.kind) with
      | none => return .done lhs
      | some build =>
        let operator ← Parser.advance
        if tier = .prepending then
          let rhs ← g.read .prepend
          return .done (← Parser.node (build lhs rhs) operator.position)
        else
          let rhs ← g.binary operand tighter
          return .more (← Parser.node (build lhs rhs) operator.position)

/-- A unary operator and its operand, or what `operand` reads. -/
def unary (g : Grammar) (operand : Parser NodeId) : Parser NodeId := do
  match unary? (← Parser.kind) with
  | none => operand
  | some build =>
    let operator ← Parser.advance
    let operand ← g.read .unary
    Parser.node (build operand) operator.position

/-- Expressions with pipes between them, grouped to the right. -/
def pipe (g : Grammar) (operand : Parser NodeId) : Parser NodeId := do
  let lhs ← g.binary operand tiers
  if ← Parser.checkSymbol .pipe then
    let operator ← Parser.advance
    let rhs ← g.read .pipe
    Parser.node (.pipe lhs rhs false) operator.position
  else return lhs

/-- Whether an assignment may have a node on its left. -/
def isAssignable : NodeKind → Bool
  | .ident _ | .property _ _ => true
  | _ => false

/-- A pipe, or an assignment to a name or a property. -/
def assignment (g : Grammar) (operand : Parser NodeId) : Parser NodeId := do
  let target ← g.pipe operand
  if ← Parser.checkSymbol .assign then
    if ((← get).arena.kind? target).any isAssignable then
      let operator ← Parser.advance
      let value ← g.read .expression
      Parser.node (.assign target value) operator.position
    else Parser.fail .invalidAssignTarget
  else return target

end DynScript.Grammar
