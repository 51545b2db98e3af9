import DynScript.Grammar.Error
import DynScript.Token.Cursor
import DynScript.Tree.Arena

/-!
# Parsers

A `Parser` reads tokens under a cursor and adds nodes to an arena; it stops at the first syntax error. The
productions of the grammar call each other through a table, `Grammar`, so that each of them is a plain
definition over the ones that it mentions.
-/

namespace DynScript

/-- What a parser works on. -/
structure ParseState where
  /-- The tokens, and how far they are read. -/
  cursor : Cursor
  /-- The nodes made so far. -/
  arena : Arena

/-- A step of reading a program. -/
abbrev Parser (α : Type) : Type := StateT ParseState (Except ParseError) α

namespace Parser

/-- The cursor. -/
def cursor : Parser Cursor := return (← get).cursor

/-- The kind of the current token. -/
def kind : Parser TokenKind := return (← cursor).kind

/-- The position of the current token. -/
def position : Parser Position := return (← cursor).position

/-- Stop, because of the current token. -/
def fail {α : Type} (cause : ParseError.Cause) : Parser α := do
  throw ⟨cause, ← position⟩

/-- Stop, because another token was due. -/
def failExpecting {α : Type} (expected : TokenKind) : Parser α := do
  fail (.unexpectedToken expected (← kind))

/-- Pass the current token. -/
def advance : Parser Lexeme := do
  let lexeme := (← cursor).current
  modify fun s => { s with cursor := s.cursor.advance }
  return lexeme

/-- Whether the current token is of a kind. -/
def check (expected : TokenKind) : Parser Bool := return (← kind) = expected

/-- Whether the current token is a symbol. -/
def checkSymbol (s : Symbol) : Parser Bool := check (.symbol s)

/-- Whether the current token is a keyword. -/
def checkKeyword (k : Keyword) : Parser Bool := check (.keyword k)

/-- Pass the current token if it is of a kind, and tell whether it was. -/
def eat (expected : TokenKind) : Parser Bool := do
  if ← check expected then
    let _ ← advance
    return true
  else return false

/-- Pass a symbol if it is there. -/
def eatSymbol (s : Symbol) : Parser Bool := eat (.symbol s)

/-- Pass a keyword if it is there. -/
def eatKeyword (k : Keyword) : Parser Bool := eat (.keyword k)

/-- Pass a token that has to be there. -/
def expect (expected : TokenKind) : Parser Lexeme := do
  if ← check expected then advance else failExpecting expected

/-- Pass a symbol that has to be there; its position. -/
def expectSymbol (s : Symbol) : Parser Position := return (← expect (.symbol s)).position

/-- Pass a keyword that has to be there; its position. -/
def expectKeyword (k : Keyword) : Parser Position := return (← expect (.keyword k)).position

/-- Pass an identifier that has to be there. -/
def expectLabel : Parser Label := do
  match (← kind).identifier? with
  | some name => return ⟨name, some (← advance).position⟩
  | none => fail (.expectedIdentifier (← kind))

/-- Make a node. -/
def alloc (kind : NodeKind) (position : Option Position) : Parser NodeId :=
  modifyGet fun s =>
    let (id, arena) := s.arena.alloc ⟨kind, position⟩
    (id, { s with arena := arena })

/-- Make a node at a token. -/
def node (kind : NodeKind) (position : Position) : Parser NodeId := alloc kind (some position)

end Parser

/-- What is read anew at a deeper level. -/
inductive Nonterminal where
  | statement
  | expression
  | pipe
  | prepend
  | unary
  | conditional
deriving DecidableEq, Repr

/-- The productions as they are seen from one of them. -/
structure Grammar where
  /-- The greatest number of items that a repetition reads. -/
  limit : Nat
  /-- Read one level deeper. -/
  read : Nonterminal → Parser NodeId

/-- What a round of a repetition leads to. -/
inductive Progress (α β : Type) where
  /-- Another round, starting from `a`. -/
  | more (a : α)
  /-- The end of the repetition. -/
  | done (b : β)

namespace Grammar

/-- At most `n` rounds of a repetition. -/
def rounds {α β : Type} (round : α → Parser (Progress α β)) : Nat → α → Parser β
  | 0, _ => Parser.fail .limitReached
  | n + 1, a => do
    match ← round a with
    | .more a' => rounds round n a'
    | .done b => return b

/-- The rounds of a repetition until one ends it. -/
def repeating {α β : Type} (g : Grammar) (a : α) (round : α → Parser (Progress α β)) : Parser β :=
  rounds round g.limit a

/-- Items with commas between them, at least one. -/
def commaSeparated {α : Type} (g : Grammar) (item : Parser α) : Parser (List α) :=
  g.repeating #[] fun items => do
    let items := items.push (← item)
    if ← Parser.eatSymbol .comma then return .more items else return .done items.toList

/-- Items with commas between them through a closing symbol; a comma may stand before that symbol, too. -/
def closedBy {α : Type} (g : Grammar) (close : Symbol) (item : Parser α) : Parser (List α) := do
  let items ← g.repeating #[] fun items => do
    if ← Parser.checkSymbol close then return .done items
    let items := items.push (← item)
    if ← Parser.eatSymbol .comma then return .more items else return .done items
  let _ ← Parser.expectSymbol close
  return items.toList

end Grammar

end DynScript
