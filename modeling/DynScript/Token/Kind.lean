import DynScript.Source.Position

/-!
# Tokens

The words of the language: keywords, symbols, literals and identifiers. `Keyword.text` and `Symbol.text`
give the spelling of each; `Keyword.ofText?` and `Symbol.all` are what the lexer searches.
-/

namespace DynScript

/-- The reserved words. -/
inductive Keyword where
  | func | ret | mutable | recursive | object | final | or | and | loop | upTo
  | cond | thenBranch | elseBranch | print | define | nil | imports | exports | len | clone
  | yes | no
deriving DecidableEq, Repr

namespace Keyword

/-- All keywords. -/
def all : List Keyword :=
  [func, ret, mutable, recursive, object, final, or, and, loop, upTo, cond, thenBranch, elseBranch,
    print, define, nil, imports, exports, len, clone, yes, no]

/-- The first spelling of a keyword, which is the one that messages show. -/
def text : Keyword → String
  | func => "fun"
  | ret => "return"
  | mutable => "mut"
  | recursive => "rec"
  | object => "object"
  | final => "final"
  | or => "or"
  | and => "and"
  | loop => "for"
  | upTo => "to"
  | cond => "if"
  | thenBranch => "then"
  | elseBranch => "else"
  | print => "print"
  | define => "let"
  | nil => "nil"
  | imports => "import"
  | exports => "export"
  | len => "len"
  | clone => "clone"
  | yes => "true"
  | no => "false"

/-- The keyword that a word spells; `explicit` is a second spelling of `final`. -/
def ofText? (word : String) : Option Keyword :=
  if word = "explicit" then some final else all.find? (fun k => k.text = word)

end Keyword

/-- Punctuation and operators. -/
inductive Symbol where
  | leftParen | rightParen | leftBrace | rightBrace | leftBracket | rightBracket
  | comma | semicolon | colon | dot | dotBrace | assign | bind | equal | notEqual
  | less | lessEqual | greater | greaterEqual | plus | minus | star | slash | prepend | pipe
deriving DecidableEq, Repr

namespace Symbol

/-- The spelling of a symbol. -/
def text : Symbol → String
  | leftParen => "("
  | rightParen => ")"
  | leftBrace => "\x7b"
  | rightBrace => "\x7d"
  | leftBracket => "["
  | rightBracket => "]"
  | comma => ","
  | semicolon => ";"
  | colon => ":"
  | dot => "."
  | dotBrace => ".\x7b"
  | assign => "<-"
  | bind => "="
  | equal => "=="
  | notEqual => "<>"
  | less => "<"
  | lessEqual => "<="
  | greater => ">"
  | greaterEqual => ">="
  | plus => "+"
  | minus => "-"
  | star => "*"
  | slash => "/"
  | prepend => "@"
  | pipe => "|>"

/-- All symbols, a longer spelling before each of its beginnings, so that the first match is the longest. -/
def all : List Symbol :=
  [dotBrace, assign, equal, notEqual, lessEqual, greaterEqual, pipe, leftParen, rightParen, leftBrace,
    rightBrace, leftBracket, rightBracket, comma, semicolon, colon, dot, bind, less, greater, plus, minus,
    star, slash, prepend]

/-- No symbol is spelled with nothing. -/
theorem length_text_pos (s : Symbol) : 0 < s.text.length := by
  cases s <;> decide

end Symbol

/-- What a token is, apart from where it stands. -/
inductive TokenKind where
  | keyword (k : Keyword)
  | symbol (s : Symbol)
  | number (x : Float)
  | string (content : String)
  | identifier (name : String)
  | endOfFile
deriving DecidableEq

namespace TokenKind

/-- The words for a kind of token in messages: a fixed spelling in backquotes, or the name of the class. -/
def describe : TokenKind → String
  | keyword k => "`" ++ k.text ++ "`"
  | symbol s => "`" ++ s.text ++ "`"
  | number _ => "number"
  | string _ => "string literal"
  | identifier _ => "identifier"
  | endOfFile => "end of file"

/-- The name that an identifier spells. -/
def identifier? : TokenKind → Option String
  | identifier name => some name
  | _ => none

end TokenKind

/-- A token with its position. -/
structure Lexeme where
  /-- What the token is. -/
  kind : TokenKind
  /-- Where it stands. -/
  position : Position
deriving DecidableEq

end DynScript
