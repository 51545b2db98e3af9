import DynScript.Grammar.Forms
import DynScript.Grammar.Operators

/-!
# Programs

Statements, and the grammar as a whole: `Grammar.ofDepth` closes the table of productions, and `parse` and
`parseSource` read a unit.
-/

namespace DynScript

namespace Grammar

/-- Whether the current token leaves no room for an operand of the statement. -/
def atStatementEnd : Parser Bool := do
  match ← Parser.kind with
  | .symbol .semicolon | .symbol .rightBrace | .endOfFile => return true
  | _ => return false

/-- Reads `print` and what to print. -/
def printStatement (g : Grammar) : Parser NodeId := do
  let opening ← Parser.expectKeyword .print
  let args ← if ← atStatementEnd then pure [] else g.commaSeparated (g.read .expression)
  Parser.node (.print args) opening

/-- Reads `return` and a value, if there is one. -/
def returnStatement (g : Grammar) : Parser NodeId := do
  let opening ← Parser.expectKeyword .ret
  let value ← if ← atStatementEnd then pure none else some <$> g.read .expression
  Parser.node (.returns value) opening

/-- Reads `export` and names. -/
def exportStatement (g : Grammar) : Parser NodeId := do
  let opening ← Parser.expectKeyword .exports
  Parser.node (.exports (← g.commaSeparated Parser.expectLabel)) opening

/-- The end of a statement: a semicolon, which may be left out after a closing brace, before one, and at the
end of the file. -/
def statementEnd : Parser Unit := do
  if ← Parser.eatSymbol .semicolon then return ()
  else if (← Parser.cursor).previous = some (.symbol .rightBrace) then return ()
  else if ← Parser.checkSymbol .rightBrace then return ()
  else if (← Parser.cursor).atEnd then return ()
  else Parser.failExpecting (.symbol .semicolon)

/-- A statement and its end. -/
def statement (g : Grammar) : Parser NodeId := do
  let stmt ←
    match ← Parser.kind with
    | .keyword .define => g.binding
    | .keyword .print => g.printStatement
    | .keyword .ret => g.returnStatement
    | .keyword .exports => g.exportStatement
    | .symbol .leftBrace => g.block
    | _ => g.read .expression
  statementEnd
  return stmt

/-- The production of a nonterminal. -/
def produce (g : Grammar) : Nonterminal → Parser NodeId
  | .statement => g.statement
  | .expression => g.assignment (g.unary g.postfixed)
  | .pipe => g.pipe (g.unary g.postfixed)
  | .prepend => g.binary (g.unary g.postfixed) prependTiers
  | .unary => g.unary g.postfixed
  | .conditional => g.conditional

/-- The grammar down to a depth: beyond it every nonterminal fails. -/
def ofDepth (limit : Nat) : Nat → Grammar
  | 0 => ⟨limit, fun _ => Parser.fail .limitReached⟩
  | depth + 1 => ⟨limit, fun nonterminal => (ofDepth limit depth).produce nonterminal⟩

/-- The statements of a unit. -/
def unit (g : Grammar) : Parser NodeId := do
  let opening ← Parser.position
  let items ← g.repeating #[] fun items => do
    if (← Parser.cursor).atEnd then return .done items.toList
    else if ← Parser.eatSymbol .semicolon then return .more items
    else return .more (items.push (← g.read .statement))
  Parser.node (.block items) opening

end Grammar

/-- Read a unit, whose tokens end with an end-of-file token. No program nests deeper, and none repeats more
often, than twice the number of its tokens. -/
def parse (tokens : List Lexeme) : Except ParseError Program :=
  let limit := 2 * tokens.length + 2
  match (Grammar.ofDepth limit limit).unit ⟨.ofList tokens, .empty⟩ with
  | .ok (body, s) => .ok ⟨s.arena, body⟩
  | .error e => .error e

/-- Read a source text. -/
def parseSource (source : String) : Except SyntaxError Program :=
  match lex source with
  | .error e => .error (.lexical e)
  | .ok tokens =>
    match parse tokens with
    | .error e => .error (.grammatical e)
    | .ok program => .ok program

end DynScript
