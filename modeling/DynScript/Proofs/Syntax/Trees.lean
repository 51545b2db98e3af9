import DynScript.Grammar.Operators
import DynScript.Proofs.Grammar.Layout

/-!
# Syntax trees

The statements and expressions of the language as trees of their own, how they are written out as tokens, and when a
node of an arena shows a tree. A tree has no positions. It is written with a semicolon after every statement and with
parentheses only where the levels of the operators require them, around an expression statement that would begin with
a brace, and around an import before a point.
-/

namespace DynScript

/-! ## Operators -/

/-- The operators before their operand. -/
inductive UnaryOp where
  | negate | len | clone
deriving DecidableEq, Repr

/-- The operators between two operands, apart from assignment and pipe. -/
inductive BinaryOp where
  | logical (op : LogicalOp)
  | equality (op : EqualityOp)
  | comparison (op : ComparisonOp)
  | prepend
  | arithmetic (op : ArithmeticOp)
deriving DecidableEq, Repr

namespace UnaryOp

/-- How an operator is written. -/
def token : UnaryOp → TokenKind
  | negate => .symbol .minus
  | len => .keyword .len
  | clone => .keyword .clone

/-- The node that an operator makes. -/
def node : UnaryOp → NodeId → NodeKind
  | negate => .negate
  | len => .len
  | clone => .clone

end UnaryOp

namespace BinaryOp

/-- How an operator is written. -/
def token : BinaryOp → TokenKind
  | logical .or => .keyword .or
  | logical .and => .keyword .and
  | equality .equal => .symbol .equal
  | equality .notEqual => .symbol .notEqual
  | comparison .less => .symbol .less
  | comparison .lessEqual => .symbol .lessEqual
  | comparison .greater => .symbol .greater
  | comparison .greaterEqual => .symbol .greaterEqual
  | prepend => .symbol .prepend
  | arithmetic .add => .symbol .plus
  | arithmetic .subtract => .symbol .minus
  | arithmetic .multiply => .symbol .star
  | arithmetic .divide => .symbol .slash

/-- The node that an operator makes. -/
def node : BinaryOp → NodeId → NodeId → NodeKind
  | logical op => .logical op
  | equality op => .equality op
  | comparison op => .comparison op
  | prepend => .prepend
  | arithmetic op => .arithmetic op

/-- The tier of an operator. -/
def tier : BinaryOp → Grammar.Tier
  | logical .or => .disjunction
  | logical .and => .conjunction
  | equality _ => .equality
  | comparison _ => .comparison
  | prepend => .prepending
  | arithmetic .add | arithmetic .subtract => .sum
  | arithmetic .multiply | arithmetic .divide => .product

end BinaryOp

/-- The levels of the tiers: 1 is that of assignments and 2 that of pipes, and after the tiers 10 is that of unary
operators, 11 that of calls, indices and the like, and 12 that of what stands alone. -/
def Grammar.Tier.level : Tier → Nat
  | disjunction => 3
  | conjunction => 4
  | equality => 5
  | comparison => 6
  | prepending => 7
  | sum => 8
  | product => 9

/-- The level of an operator. -/
def BinaryOp.level (op : BinaryOp) : Nat := op.tier.level

/-- The level of the left operand: operators group to the left, except for prepending. -/
def BinaryOp.leftLevel (op : BinaryOp) : Nat := if op = prepend then op.level + 1 else op.level

/-- The level of the right operand. -/
def BinaryOp.rightLevel (op : BinaryOp) : Nat := if op = prepend then op.level else op.level + 1

/-! ## Trees -/

namespace Syntax

mutual

/-- An expression. -/
inductive Expression where
  | literal (value : Literal)
  | name (name : String)
  | list (items : List Expression)
  | record (fields : List Entry)
  | function (params : List String) (body : List Statement)
  /-- The flag of a parameter says whether it is `mut`. -/
  | object (params : Option (List (String × Bool))) (composed : List String) (members : List Member)
  /-- The path has a first name and more. -/
  | imports (root : ImportRoot) (first : String) (more : List String)
  | conditional (condition : Expression) (body : List Statement) (otherwise : Alternative)
  | loop (start stop : Expression) (body : List Statement)
  | call (callee : Expression) (args : List Expression)
  | index (target index : Expression)
  | property (target : Expression) (name : String)
  | envOpen (target : Expression) (body : List Statement)
  | unary (op : UnaryOp) (operand : Expression)
  | binary (op : BinaryOp) (lhs rhs : Expression)
  | pipe (lhs rhs : Expression)
  | assignName (name : String) (value : Expression)
  | assignProperty (target : Expression) (name : String) (value : Expression)

/-- An entry of a record literal. -/
inductive Entry where
  | field (name : String) (value : Expression)

/-- A member of an object. -/
inductive Member where
  | binding (name : String) (mode : BindingMode) (isFinal : Bool) (value : Expression)

/-- What stands after the block of a conditional. -/
inductive Alternative where
  | none
  | block (body : List Statement)
  | conditional (condition : Expression) (body : List Statement) (otherwise : Alternative)

/-- A statement. -/
inductive Statement where
  | binding (name : String) (mode : BindingMode) (isFinal : Bool) (value : Expression)
  | print (args : List Expression)
  | returns
  | returnsValue (value : Expression)
  /-- There is a first name and more. -/
  | exports (first : String) (more : List String)
  | block (body : List Statement)
  | expression (value : Expression)

end

namespace Expression

/-- How tightly the operator of an expression binds. -/
def level : Expression → Nat
  | assignName _ _ | assignProperty _ _ _ => 1
  | pipe _ _ => 2
  | binary op _ _ => op.level
  | unary _ _ => 10
  | _ => 11

/-- Whether an expression is an import. -/
def isImport : Expression → Bool
  | imports _ _ _ => true
  | _ => false

end Expression

/-! ## Writing -/

/-- Tokens between parentheses if that is asked for. -/
def parenthesized (p : Bool) (words : List TokenKind) : List TokenKind :=
  if p then .symbol .leftParen :: words ++ [.symbol .rightParen] else words

/-- Items with commas between them. -/
def commas : List (List TokenKind) → List TokenKind
  | [] => []
  | [item] => item
  | item :: next :: rest => item ++ .symbol .comma :: commas (next :: rest)

/-- Tokens between braces. -/
def braced (words : List TokenKind) : List TokenKind := .symbol .leftBrace :: words ++ [.symbol .rightBrace]

/-- A literal. -/
def literalWord : Literal → TokenKind
  | .number x => .number x
  | .string s => .string s
  | .bool true => .keyword .yes
  | .bool false => .keyword .no
  | .nil => .keyword .nil

/-- The directory of an import. -/
def rootWords : ImportRoot → List TokenKind
  | .relative => []
  | .base => [.identifier "base"]
  | .std => [.identifier "std"]

/-- A parameter of a constructor. -/
def paramWords (param : String × Bool) : List TokenKind :=
  if param.2 then [.keyword .mutable, .identifier param.1] else [.identifier param.1]

/-- The mode of a binding. -/
def modeWords : BindingMode → List TokenKind
  | .plain => []
  | .mutable => [.keyword .mutable]
  | .recursive => [.keyword .recursive]

/-- What comes before the value of a `let`. -/
def bindingWords (name : String) (mode : BindingMode) (isFinal : Bool) : List TokenKind :=
  .keyword .define :: (if isFinal then [.keyword .final] else []) ++ modeWords mode ++
    [.identifier name, .symbol .bind]

mutual

/-- An expression in tokens. -/
def Expression.write : Expression → List TokenKind
  | .literal value => [literalWord value]
  | .name name => [.identifier name]
  | .list items => .symbol .leftBracket :: commas (Expression.writeEach items) ++ [.symbol .rightBracket]
  | .record fields => braced (commas (Entry.writeEach fields))
  | .function params body =>
    .keyword .func :: .symbol .leftParen :: commas (params.map fun name => [.identifier name]) ++
      .symbol .rightParen :: braced (Statement.writeAll body)
  | .object params composed members =>
    .keyword .object ::
      (match params with
        | none => []
        | some params => .symbol .leftParen :: commas (params.map paramWords) ++ [.symbol .rightParen]) ++
      composed.flatMap (fun name => [.symbol .plus, .identifier name]) ++ braced (Member.writeAll members)
  | .imports root first more =>
    .keyword .imports :: rootWords root ++ .identifier first ::
      more.flatMap (fun name => [.symbol .dot, .identifier name])
  | .conditional condition body otherwise =>
    .keyword .cond :: condition.write ++ .keyword .thenBranch :: braced (Statement.writeAll body) ++ otherwise.write
  | .loop start stop body =>
    .keyword .loop :: start.write ++ .keyword .upTo :: stop.write ++ braced (Statement.writeAll body)
  | .call callee args =>
    parenthesized (callee.level < 11) callee.write ++
      .symbol .leftParen :: commas (Expression.writeEach args) ++ [.symbol .rightParen]
  | .index target index =>
    parenthesized (target.level < 11) target.write ++ .symbol .leftBracket :: index.write ++ [.symbol .rightBracket]
  | .property target name =>
    parenthesized (target.level < 11 || target.isImport) target.write ++ [.symbol .dot, .identifier name]
  | .envOpen target body =>
    parenthesized (target.level < 11) target.write ++
      .symbol .dotBrace :: Statement.writeAll body ++ [.symbol .rightBrace]
  | .unary op operand => op.token :: parenthesized (operand.level < 10) operand.write
  | .binary op lhs rhs =>
    parenthesized (lhs.level < op.leftLevel) lhs.write ++ op.token ::
      parenthesized (rhs.level < op.rightLevel) rhs.write
  | .pipe lhs rhs =>
    parenthesized (lhs.level < 3) lhs.write ++ .symbol .pipe :: parenthesized (rhs.level < 2) rhs.write
  | .assignName name value => .identifier name :: .symbol .assign :: value.write
  | .assignProperty target name value =>
    parenthesized (target.level < 11 || target.isImport) target.write ++
      .symbol .dot :: .identifier name :: .symbol .assign :: value.write

/-- Several expressions, each for itself. -/
def Expression.writeEach : List Expression → List (List TokenKind)
  | [] => []
  | e :: rest => e.write :: Expression.writeEach rest

/-- An entry of a record. -/
def Entry.write : Entry → List TokenKind
  | .field name value => .identifier name :: .symbol .colon :: value.write

/-- Several entries, each for itself. -/
def Entry.writeEach : List Entry → List (List TokenKind)
  | [] => []
  | entry :: rest => entry.write :: Entry.writeEach rest

/-- A member of an object: `name: value,` where that is enough, and a `let` otherwise. -/
def Member.write : Member → List TokenKind
  | .binding name mode isFinal value =>
    if mode = .plain && !isFinal then .identifier name :: .symbol .colon :: value.write ++ [.symbol .comma]
    else bindingWords name mode isFinal ++ value.write ++ [.symbol .semicolon]

/-- Members in a row. -/
def Member.writeAll : List Member → List TokenKind
  | [] => []
  | member :: rest => member.write ++ Member.writeAll rest

/-- What stands after the block of a conditional. -/
def Alternative.write : Alternative → List TokenKind
  | .none => []
  | .block body => .keyword .elseBranch :: braced (Statement.writeAll body)
  | .conditional condition body otherwise =>
    .keyword .elseBranch :: .keyword .cond :: condition.write ++
      .keyword .thenBranch :: braced (Statement.writeAll body) ++ otherwise.write

/-- A statement and its semicolon. -/
def Statement.write : Statement → List TokenKind
  | .binding name mode isFinal value => bindingWords name mode isFinal ++ value.write ++ [.symbol .semicolon]
  | .print args => .keyword .print :: commas (Expression.writeEach args) ++ [.symbol .semicolon]
  | .returns => [.keyword .ret, .symbol .semicolon]
  | .returnsValue value => .keyword .ret :: value.write ++ [.symbol .semicolon]
  | .exports first more =>
    .keyword .exports :: commas ((first :: more).map fun name => [.identifier name]) ++ [.symbol .semicolon]
  | .block body => braced (Statement.writeAll body) ++ [.symbol .semicolon]
  | .expression value =>
    parenthesized (value.write.head? = some (.symbol .leftBrace)) value.write ++ [.symbol .semicolon]

/-- Statements in a row. -/
def Statement.writeAll : List Statement → List TokenKind
  | [] => []
  | statement :: rest => statement.write ++ Statement.writeAll rest

end

/-! ## Trees in an arena -/

mutual

/-- The node of an arena shows an expression. -/
def Expression.At (a : Arena) : Expression → NodeId → Prop
  | .literal value, id => a.kind? id = some (.literal value)
  | .name name, id => a.kind? id = some (.ident name)
  | .list items, id => ∃ ids, a.kind? id = some (.list ids) ∧ Expression.EachAt a items ids
  | .record fields, id => ∃ shown, a.kind? id = some (.record shown) ∧ Entry.EachAt a fields shown
  | .function params body, id => ∃ shown block ids, a.kind? id = some (.function shown block) ∧
      shown.map (fun q => (q.name, q.isMutable)) = params.map (·, false) ∧
      a.kind? block = some (.block ids) ∧ Statement.EachAt a body ids
  | .object params composed members, id => ∃ shown labels ids, a.kind? id = some (.object shown labels ids) ∧
      shown.map (List.map fun q => (q.name, q.isMutable)) = params ∧ labels.map Label.name = composed ∧
      Member.EachAt a members ids
  | .imports root first more, id => a.kind? id = some (.imports root (first :: more))
  | .conditional condition body otherwise, id => ∃ i block ids branch,
      a.kind? id = some (.conditional i block branch) ∧ condition.At a i ∧ a.kind? block = some (.block ids) ∧
      Statement.EachAt a body ids ∧ otherwise.At a branch
  | .loop start stop body, id => ∃ i j block ids, a.kind? id = some (.loop i j block) ∧ start.At a i ∧ stop.At a j ∧
      a.kind? block = some (.block ids) ∧ Statement.EachAt a body ids
  | .call callee args, id => ∃ i ids, a.kind? id = some (.call i ids) ∧ callee.At a i ∧ Expression.EachAt a args ids
  | .index target index, id => ∃ i j, a.kind? id = some (.index i j) ∧ target.At a i ∧ index.At a j
  | .property target name, id => ∃ i, a.kind? id = some (.property i name) ∧ target.At a i
  | .envOpen target body, id => ∃ i block ids, a.kind? id = some (.envOpen i block) ∧ target.At a i ∧
      a.kind? block = some (.block ids) ∧ Statement.EachAt a body ids
  | .unary op operand, id => ∃ i, a.kind? id = some (op.node i) ∧ operand.At a i
  | .binary op lhs rhs, id => ∃ i j, a.kind? id = some (op.node i j) ∧ lhs.At a i ∧ rhs.At a j
  | .pipe lhs rhs, id => ∃ i j, a.kind? id = some (.pipe i j false) ∧ lhs.At a i ∧ rhs.At a j
  | .assignName name value, id => ∃ i j, a.kind? id = some (.assign i j) ∧ a.kind? i = some (.ident name) ∧ value.At a j
  | .assignProperty target name value, id => ∃ i j k, a.kind? id = some (.assign i j) ∧
      a.kind? i = some (.property k name) ∧ target.At a k ∧ value.At a j

/-- Nodes show expressions, one by one. -/
def Expression.EachAt (a : Arena) : List Expression → List NodeId → Prop
  | [], ids => ids = []
  | e :: rest, ids => ∃ id more, ids = id :: more ∧ e.At a id ∧ Expression.EachAt a rest more

/-- A field of a record shows an entry. -/
def Entry.At (a : Arena) : Entry → Field → Prop
  | .field name value, shown => shown.name = name ∧ value.At a shown.value

/-- Fields show entries, one by one. -/
def Entry.EachAt (a : Arena) : List Entry → List Field → Prop
  | [], shown => shown = []
  | entry :: rest, shown => ∃ field more, shown = field :: more ∧ entry.At a field ∧ Entry.EachAt a rest more

/-- A node shows a member. -/
def Member.At (a : Arena) : Member → NodeId → Prop
  | .binding name mode isFinal value, id => ∃ i, a.kind? id = some (.binding name mode isFinal i) ∧ value.At a i

/-- Nodes show members, one by one. -/
def Member.EachAt (a : Arena) : List Member → List NodeId → Prop
  | [], ids => ids = []
  | member :: rest, ids => ∃ id more, ids = id :: more ∧ member.At a id ∧ Member.EachAt a rest more

/-- What is given for the other branch of a conditional shows what stands there. -/
def Alternative.At (a : Arena) : Alternative → Option NodeId → Prop
  | .none, branch => branch = none
  | .block body, branch => ∃ block ids, branch = some block ∧ a.kind? block = some (.block ids) ∧
      Statement.EachAt a body ids
  | .conditional condition body otherwise, branch => ∃ id i block ids inner, branch = some id ∧
      a.kind? id = some (.conditional i block inner) ∧ condition.At a i ∧ a.kind? block = some (.block ids) ∧
      Statement.EachAt a body ids ∧ otherwise.At a inner

/-- A node shows a statement. -/
def Statement.At (a : Arena) : Statement → NodeId → Prop
  | .binding name mode isFinal value, id => ∃ i, a.kind? id = some (.binding name mode isFinal i) ∧ value.At a i
  | .print args, id => ∃ ids, a.kind? id = some (.print ids) ∧ Expression.EachAt a args ids
  | .returns, id => a.kind? id = some (.returns none)
  | .returnsValue value, id => ∃ i, a.kind? id = some (.returns (some i)) ∧ value.At a i
  | .exports first more, id => ∃ labels, a.kind? id = some (.exports labels) ∧ labels.map Label.name = first :: more
  | .block body, id => ∃ ids, a.kind? id = some (.block ids) ∧ Statement.EachAt a body ids
  | .expression value, id => value.At a id

/-- Nodes show statements, one by one. -/
def Statement.EachAt (a : Arena) : List Statement → List NodeId → Prop
  | [], ids => ids = []
  | statement :: rest, ids => ∃ id more, ids = id :: more ∧ statement.At a id ∧ Statement.EachAt a rest more

end

end Syntax

/-- A program shows statements: they are those of its block. -/
def Program.Shows (p : Program) (body : List Syntax.Statement) : Prop :=
  ∃ ids, p.arena.kind? p.body = some (.block ids) ∧ Syntax.Statement.EachAt p.arena body ids

end DynScript
