import DynScript.Token.Kind

/-!
# Cursors

A `Cursor` is a place in a list of tokens: the token under it, the tokens to come, and the kind of the token
passed last. It does not move past an end-of-file token.
-/

namespace DynScript

/-- A place in a list of tokens. -/
structure Cursor where
  /-- The kind of the token passed last. -/
  previous : Option TokenKind
  /-- The token under the cursor. -/
  current : Lexeme
  /-- The tokens after it. -/
  upcoming : List Lexeme
deriving DecidableEq

namespace Cursor

/-- The beginning of a list; an empty list reads as the end of a file. -/
def ofList : List Lexeme → Cursor
  | [] => ⟨none, ⟨.endOfFile, ⟨⟨0, 0⟩, 1, 1⟩⟩, []⟩
  | first :: rest => ⟨none, first, rest⟩

/-- The kind of the token under the cursor. -/
def kind (c : Cursor) : TokenKind := c.current.kind

/-- The position of the token under the cursor. -/
def position (c : Cursor) : Position := c.current.position

/-- The kind of the token after the one under the cursor; the last token is followed by itself. -/
def peek (c : Cursor) : TokenKind :=
  match c.upcoming with
  | [] => c.kind
  | next :: _ => next.kind

/-- Whether the end of the file is reached. -/
def atEnd (c : Cursor) : Bool := c.kind = .endOfFile

/-- The cursor after the current token. -/
def advance (c : Cursor) : Cursor :=
  if c.atEnd then c
  else
    match c.upcoming with
    | [] => { c with previous := some c.kind }
    | next :: rest => ⟨some c.kind, next, rest⟩

end Cursor

end DynScript
