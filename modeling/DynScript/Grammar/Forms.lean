import DynScript.Grammar.Parser

/-!
# Forms

The expressions that are no operators: literals, names, lists, records, functions, objects, imports,
conditionals and loops, and what may follow any of them. Blocks and `let` stand here, too, because functions
and objects are made of them.
-/

namespace DynScript.Grammar

/-- Statements up to and including a closing brace. -/
def statementsUntilBrace (g : Grammar) : Parser (List NodeId) :=
  g.repeating #[] fun items => do
    if ← Parser.eatSymbol .rightBrace then return .done items.toList
    else if ← Parser.eatSymbol .semicolon then return .more items
    else if (← Parser.cursor).atEnd then Parser.failExpecting (.symbol .rightBrace)
    else return .more (items.push (← g.read .statement))

/-- Statements between braces. -/
def block (g : Grammar) : Parser NodeId := do
  let opening ← Parser.expectSymbol .leftBrace
  Parser.node (.block (← g.statementsUntilBrace)) opening

/-- Identifiers in a row. -/
def labels (g : Grammar) : Parser (List Label) :=
  g.repeating #[] fun names => do
    match (← Parser.kind).identifier? with
    | some _ => return .more (names.push (← Parser.expectLabel))
    | none => return .done names.toList

/-- Reads `mut`, `rec` or neither. -/
def bindingMode : Parser BindingMode := do
  if ← Parser.eatKeyword .mutable then return .mutable
  else if ← Parser.eatKeyword .recursive then return .recursive
  else return .plain

/-- Reads `let`, then `final`, then `mut` or `rec`, then a name and its value, or a name, parameters and
the body of a function. -/
def binding (g : Grammar) : Parser NodeId := do
  let _ ← Parser.expectKeyword .define
  let isFinal ← Parser.eatKeyword .final
  let mode ← bindingMode
  let name ← Parser.expectLabel
  let params := (← g.labels).map fun label => (⟨label, false⟩ : Param)
  let _ ← Parser.expectSymbol .bind
  let value ←
    if params.isEmpty then g.read .expression
    else Parser.alloc (.function params (← g.block)) name.position
  Parser.alloc (.binding name.name mode isFinal value) name.position

/-- Items between brackets. -/
def list (g : Grammar) : Parser NodeId := do
  let opening ← Parser.expectSymbol .leftBracket
  let items ← g.closedBy .rightBracket (g.read .expression)
  Parser.node (.list items) opening

/-- A field `name: value`. -/
def field (g : Grammar) : Parser Field := do
  let label ← Parser.expectLabel
  let _ ← Parser.expectSymbol .colon
  return ⟨label, ← g.read .expression⟩

/-- Fields between braces. -/
def record (g : Grammar) : Parser NodeId := do
  let opening ← Parser.expectSymbol .leftBrace
  let fields ← g.closedBy .rightBrace g.field
  Parser.node (.record fields) opening

/-- Parameters between parentheses; `mut` may stand before one where that is allowed. -/
def params (g : Grammar) (allowMutable : Bool) : Parser (List Param) := do
  let _ ← Parser.expectSymbol .leftParen
  g.closedBy .rightParen do
    let isMutable ← if allowMutable then Parser.eatKeyword .mutable else pure false
    return ⟨← Parser.expectLabel, isMutable⟩

/-- Reads `fun`, parameters if there are any, and a body. -/
def function (g : Grammar) : Parser NodeId := do
  let opening ← Parser.expectKeyword .func
  let params ← if ← Parser.checkSymbol .leftParen then g.params false else pure []
  Parser.node (.function params (← g.block)) opening

/-- A member of an object: a `let`, or `name: value`. -/
def member (g : Grammar) : Parser NodeId := do
  if ← Parser.checkKeyword .define then g.binding
  else
    let field ← g.field
    Parser.alloc (.binding field.name .plain false field.value) field.position

/-- Members with commas or semicolons between, before and after them, through the closing brace. -/
def members (g : Grammar) : Parser (List NodeId) :=
  g.repeating #[] fun items => do
    if ← Parser.eatSymbol .rightBrace then return .done items.toList
    else if ← Parser.eatSymbol .comma then return .more items
    else if ← Parser.eatSymbol .semicolon then return .more items
    else return .more (items.push (← g.member))

/-- The names of composed objects, each after a plus sign. -/
def composed (g : Grammar) : Parser (List Label) :=
  g.repeating #[] fun names => do
    if ← Parser.eatSymbol .plus then return .more (names.push (← Parser.expectLabel))
    else return .done names.toList

/-- Reads `object`, constructor parameters for a class, composed objects, and members between braces. -/
def object (g : Grammar) : Parser NodeId := do
  let opening ← Parser.expectKeyword .object
  let params ← if ← Parser.checkSymbol .leftParen then some <$> g.params true else pure none
  let composed ← g.composed
  let _ ← Parser.expectSymbol .leftBrace
  Parser.node (.object params composed (← g.members)) opening

/-- The word that may open the path of an import, when an identifier comes after it. -/
def importRoot : Parser ImportRoot := do
  let cursor ← Parser.cursor
  if cursor.peek.identifier?.isSome then
    match cursor.kind.identifier? with
    | some "base" => let _ ← Parser.advance; return .base
    | some "std" => let _ ← Parser.advance; return .std
    | _ => return .relative
  else return .relative

/-- Reads `import`, `base` or `std` if given, and names with points between them. -/
def importForm (g : Grammar) : Parser NodeId := do
  let opening ← Parser.expectKeyword .imports
  let root ← importRoot
  let path ← g.repeating #[] fun names => do
    let names := names.push (← Parser.expectLabel).name
    if ← Parser.eatSymbol .dot then return .more names else return .done names.toList
  Parser.node (.imports root path) opening

/-- What stands after `else`, if that is there: a block or another conditional. -/
def elseBranch (g : Grammar) : Parser (Option NodeId) := do
  if ← Parser.eatKeyword .elseBranch then
    if ← Parser.checkKeyword .cond then return some (← g.read .conditional)
    else return some (← g.block)
  else return none

/-- Reads `if`, a condition, `then`, a block, and after `else` another block or conditional. -/
def conditional (g : Grammar) : Parser NodeId := do
  let opening ← Parser.expectKeyword .cond
  let condition ← g.read .expression
  let _ ← Parser.expectKeyword .thenBranch
  let thenBranch ← g.block
  Parser.node (.conditional condition thenBranch (← g.elseBranch)) opening

/-- Reads `for`, a bound, `to`, another bound, and a block. -/
def loop (g : Grammar) : Parser NodeId := do
  let opening ← Parser.expectKeyword .loop
  let start ← g.read .expression
  let _ ← Parser.expectKeyword .upTo
  let stop ← g.read .expression
  Parser.node (.loop start stop (← g.block)) opening

/-- The value that a single token writes out. -/
def literal? : TokenKind → Option Literal
  | .number x => some (.number x)
  | .string s => some (.string s)
  | .keyword .yes => some (.bool true)
  | .keyword .no => some (.bool false)
  | .keyword .nil => some .nil
  | _ => none

/-- The expressions that nothing inside binds looser than; parentheses make one of any expression. -/
def primary (g : Grammar) : Parser NodeId := do
  let kind ← Parser.kind
  match kind with
  | .identifier name => Parser.node (.ident name) (← Parser.advance).position
  | .symbol .leftParen =>
    let _ ← Parser.advance
    let inner ← g.read .expression
    let _ ← Parser.expectSymbol .rightParen
    return inner
  | .symbol .leftBracket => g.list
  | .symbol .leftBrace => g.record
  | .keyword .func => g.function
  | .keyword .object => g.object
  | .keyword .imports => g.importForm
  | .keyword .cond => g.conditional
  | .keyword .loop => g.loop
  | _ =>
    match literal? kind with
    | some value => Parser.node (.literal value) (← Parser.advance).position
    | none => Parser.fail (.expectedExpression kind)

/-- The arguments of a call after its opening parenthesis, through the closing one. -/
def arguments (g : Grammar) : Parser (List NodeId) := do
  if ← Parser.eatSymbol .rightParen then return []
  else
    let args ← g.commaSeparated (g.read .expression)
    let _ ← Parser.expectSymbol .rightParen
    return args

/-- A primary expression and the calls, indices, properties and opened environments that follow it. -/
def postfixed (g : Grammar) : Parser NodeId := do
  g.repeating (← g.primary) fun target => do
    let opening ← Parser.position
    match ← Parser.kind with
    | .symbol .leftParen =>
      let _ ← Parser.advance
      return .more (← Parser.node (.call target (← g.arguments)) opening)
    | .symbol .leftBracket =>
      let _ ← Parser.advance
      let index ← g.read .expression
      let _ ← Parser.expectSymbol .rightBracket
      return .more (← Parser.node (.index target index) opening)
    | .symbol .dot =>
      let _ ← Parser.advance
      let label ← Parser.expectLabel
      return .more (← Parser.alloc (.property target label.name) label.position)
    | .symbol .dotBrace =>
      let _ ← Parser.advance
      let body ← Parser.node (.block (← g.statementsUntilBrace)) opening
      return .more (← Parser.node (.envOpen target body) opening)
    | _ => return .done target

end DynScript.Grammar
