/-!
# Escapes in string literals

Between the quotes of a string literal a backslash and the character after it stand for one character.
`Escape.cook` turns what is written into what is meant.
-/

namespace DynScript.Escape

/-- The character that a backslash followed by `c` stands for. -/
def meaning : Char → Option Char
  | 'n' => some '\n'
  | 't' => some '\t'
  | 'r' => some '\r'
  | '0' => some '\x00'
  | '\\' => some '\\'
  | '"' => some '"'
  | '\'' => some '\''
  | _ => none

/-- The content of a literal with its escapes replaced, or the first character that no escape ends with; a
backslash at the very end counts as one before a space. -/
def cook : List Char → Except Char (List Char)
  | [] => .ok []
  | ['\\'] => .error ' '
  | '\\' :: e :: rest =>
    match meaning e with
    | some c => (cook rest).map (c :: ·)
    | none => .error e
  | c :: rest => (cook rest).map (c :: ·)

end DynScript.Escape
