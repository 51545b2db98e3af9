import DynScript.Token.Lexer

/-!
# Syntax errors

A unit that is no program has one syntax error: the first item that is no token, or the first token that no
program goes on with.
-/

namespace DynScript

/-- Why a list of tokens is no program. -/
inductive ParseError.Cause where
  /-- Another token was due. -/
  | unexpectedToken (expected found : TokenKind)
  /-- An expression was due. -/
  | expectedExpression (found : TokenKind)
  /-- An identifier was due. -/
  | expectedIdentifier (found : TokenKind)
  /-- What stands left of an assignment cannot be assigned. -/
  | invalidAssignTarget
  /-- The program goes deeper, or on for longer, than the reader was asked to follow. -/
  | limitReached
deriving DecidableEq

/-- Why a list of tokens is no program, and the position of the token where that shows. -/
structure ParseError where
  /-- What is wrong. -/
  cause : ParseError.Cause
  /-- The position of the token. -/
  position : Position
deriving DecidableEq

namespace ParseError

/-- The message for a cause. -/
def Cause.message : Cause → String
  | unexpectedToken expected found => "Expected " ++ expected.describe ++ ", found " ++ found.describe
  | expectedExpression found => "Expected expression, found " ++ found.describe
  | expectedIdentifier found => "Expected identifier, found " ++ found.describe
  | invalidAssignTarget => "Invalid assignment target"
  | limitReached => "Program is nested too deeply"

/-- The code of a cause. -/
def Cause.code : Cause → Code
  | unexpectedToken _ _ | limitReached => .unexpectedToken
  | expectedExpression _ => .expectedExpression
  | expectedIdentifier _ => .expectedIdentifier
  | invalidAssignTarget => .invalidAssignTarget

/-- The error as a diagnostic. -/
def toDiagnostic (e : ParseError) : Diagnostic :=
  .error e.cause.code e.cause.message (some e.position)

end ParseError

/-- Why a text is no program. -/
inductive SyntaxError where
  | lexical (e : LexError)
  | grammatical (e : ParseError)
deriving DecidableEq

namespace SyntaxError

/-- The error as a diagnostic. -/
def toDiagnostic : SyntaxError → Diagnostic
  | lexical e => e.toDiagnostic
  | grammatical e => e.toDiagnostic

/-- The message of the error. -/
def message (e : SyntaxError) : String := e.toDiagnostic.message

end SyntaxError

end DynScript
