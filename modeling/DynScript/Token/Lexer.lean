import DynScript.Diagnostic.Basic
import DynScript.Number.Text
import DynScript.Token.Escape
import DynScript.Token.Kind

/-!
# Lexing

A source text is cut from the left into its longest lexical items (`Item.cut?`); blanks and comments are
dropped, the others become tokens. `lex` gives the tokens with an end-of-file token after them, or the first
item that is none.
-/

namespace DynScript

/-- Why a text has no tokens. -/
inductive LexError.Cause where
  | unexpectedChar (found : Char)
  | unterminatedString (quote : Char)
  | invalidEscape (escape : Char)
  | invalidNumber (text : String)
deriving DecidableEq, Repr

/-- Why a text has no tokens, and where. -/
structure LexError where
  /-- What is wrong. -/
  cause : LexError.Cause
  /-- The line of the first character of what is wrong. -/
  line : UInt32
  /-- The column of that character. -/
  column : UInt32
deriving DecidableEq, Repr

namespace LexError

/-- The message for a cause. -/
def Cause.message : Cause → String
  | unexpectedChar found => "Unexpected character '" ++ found.toString ++ "'"
  | unterminatedString quote => "Unterminated string literal, expected closing " ++ quote.toString
  | invalidEscape escape => "Invalid escape sequence '\\" ++ escape.toString ++ "'"
  | invalidNumber text => "Invalid number literal '" ++ text ++ "'"

/-- The code of a cause. -/
def Cause.code : Cause → Code
  | unexpectedChar _ | invalidNumber _ => .invalidCharacter
  | unterminatedString _ => .unterminatedString
  | invalidEscape _ => .invalidEscape

/-- The error as a diagnostic; its place covers no bytes. -/
def toDiagnostic (e : LexError) : Diagnostic :=
  .error e.cause.code e.cause.message (some ⟨⟨0, 0⟩, e.line, e.column⟩)

end LexError

namespace Lexer

/-- The characters that only separate tokens, the line feed apart. -/
def isBlank (c : Char) : Bool := c = ' ' || c = '\t' || c = '\r'

/-- Identifiers and keywords start with an ASCII letter or an underscore. -/
def isWordStart (c : Char) : Bool := c.isAlpha || c = '_'

/-- They go on with ASCII letters, digits and underscores. -/
def isWordPart (c : Char) : Bool := c.isAlphanum || c = '_'

/-- Strings stand between two double or two single quotes. -/
def isQuote (c : Char) : Bool := c = '"' || c = '\''

/-- The longest front of a text whose characters all pass a test, and the rest. -/
def cutWhile (p : Char → Bool) (cs : List Char) : List Char × List Char :=
  (cs.takeWhile p, cs.dropWhile p)

/-- The lexical items. -/
inductive Item where
  /-- Blanks, a line feed, or a comment. -/
  | gap
  /-- A symbol. -/
  | symbol (s : Symbol)
  /-- Digits with an optional fraction. -/
  | number
  /-- A string literal with its quotes. -/
  | quoted
  /-- A keyword or an identifier. -/
  | word
deriving DecidableEq, Repr

/-- The rest of a string literal through its closing quote, and what follows it; a backslash takes the next
character with it, and neither may be a line feed. -/
def quotedTail (quote : Char) : List Char → Option (List Char × List Char)
  | [] => none
  | '\\' :: c :: rest =>
    if c = '\n' then none
    else (quotedTail quote rest).map fun (body, after) => ('\\' :: c :: body, after)
  | c :: rest =>
    if c = quote then some ([c], rest)
    else if c = '\\' || c = '\n' then none
    else (quotedTail quote rest).map fun (body, after) => (c :: body, after)

/-- The digits at the front, with a point and more digits when those follow at once. -/
def numberFront (cs : List Char) : List Char × List Char :=
  let (whole, rest) := cutWhile Char.isDigit cs
  match rest with
  | '.' :: c :: more =>
    if c.isDigit then
      let (fraction, after) := cutWhile Char.isDigit (c :: more)
      (whole ++ '.' :: fraction, after)
    else (whole, rest)
  | _ => (whole, rest)

/-- The longest symbol at the front. -/
def symbolFront? (cs : List Char) : Option Symbol :=
  Symbol.all.find? fun s => s.text.toList.isPrefixOf cs

/-- The longest lexical item at the front of a text, its characters, and the text after it. -/
def Item.cut? (cs : List Char) : Option (Item × List Char × List Char) :=
  match cs with
  | [] => none
  | '\n' :: rest => some (.gap, ['\n'], rest)
  | '/' :: '/' :: _ => some (.gap, cutWhile (· ≠ '\n') cs)
  | c :: rest =>
    if isBlank c then some (.gap, cutWhile isBlank cs)
    else if isWordStart c then some (.word, cutWhile isWordPart cs)
    else if c.isDigit then some (.number, numberFront cs)
    else if isQuote c then
      (quotedTail c rest).map fun (body, after) => (.quoted, c :: body, after)
    else
      (symbolFront? cs).map fun s => (.symbol s, cs.splitAt s.text.length)

/-- The token that an item with the characters `text` stands for; a gap stands for none. -/
def Item.kind? (item : Item) (text : List Char) : Except LexError.Cause (Option TokenKind) :=
  match item with
  | .gap => .ok none
  | .symbol s => .ok (some (.symbol s))
  | .number =>
    match Number.read? text with
    | some x => .ok (some (.number x))
    | none => .error (.invalidNumber (String.ofList text))
  | .quoted =>
    match Escape.cook (text.drop 1).dropLast with
    | .ok content => .ok (some (.string (String.ofList content)))
    | .error c => .error (.invalidEscape c)
  | .word =>
    let word := String.ofList text
    .ok (some ((Keyword.ofText? word).elim (.identifier word) .keyword))

/-- What is wrong with a text that starts with `c` but with no lexical item. -/
def noItem (c : Char) : LexError.Cause :=
  if isQuote c then .unterminatedString c else .unexpectedChar c

/-- A place between two characters of a text. -/
structure Place where
  /-- The number of bytes before it. -/
  offset : Nat
  /-- The line of the next character. After the last line that has a number the numbers begin again. -/
  line : UInt32
  /-- The number of characters between the start of this line and the place. -/
  inLine : Nat
deriving DecidableEq, Repr

namespace Place

/-- The beginning of a text. -/
def start : Place := ⟨0, 1, 0⟩

/-- The place after one more character; a line feed starts the next line. -/
def next (p : Place) (c : Char) : Place :=
  if c = '\n' then ⟨p.offset + c.utf8Size, p.line + 1, 0⟩
  else ⟨p.offset + c.utf8Size, p.line, p.inLine + 1⟩

/-- The column of the next character. All columns that have no number share the greatest one. -/
def column (p : Place) : UInt32 := .ofNatClamp (p.inLine + 1)

/-- The place after some characters. -/
def after (p : Place) (text : List Char) : Place := text.foldl next p

/-- The position of an item that starts at `p` and has the characters `text`. -/
def position (p : Place) (text : List Char) : Position :=
  ⟨.ofOffsets p.offset (p.after text).offset, p.line, p.column⟩

/-- An error at a place. -/
def error (p : Place) (cause : LexError.Cause) : LexError := ⟨cause, p.line, p.column⟩

end Place

theorem length_cutWhile_le (p : Char → Bool) (cs : List Char) :
    (cutWhile p cs).2.length ≤ cs.length :=
  (List.dropWhile_sublist p).length_le

theorem length_cutWhile_lt {p : Char → Bool} {c : Char} (rest : List Char) (h : p c = true) :
    (cutWhile p (c :: rest)).2.length < (c :: rest).length := by
  simp only [cutWhile, List.dropWhile_cons_of_pos h, List.length_cons]
  exact Nat.lt_succ_of_le (List.dropWhile_sublist p).length_le

theorem length_quotedTail_le {quote : Char} {cs body after : List Char}
    (h : quotedTail quote cs = some (body, after)) : after.length ≤ cs.length := by
  fun_induction quotedTail quote cs generalizing body after with
  | case1 => simp at h
  | case2 => simp at h
  | case3 c rest _ ih =>
    obtain ⟨⟨b, a⟩, hb, he⟩ := Option.map_eq_some_iff.1 h
    have := ih hb
    simp only [Prod.mk.injEq] at he
    simp only [List.length_cons, ← he.2]
    omega
  | case4 => simp_all
  | case5 => simp at h
  | case6 c rest _ _ _ ih =>
    obtain ⟨⟨b, a⟩, hb, he⟩ := Option.map_eq_some_iff.1 h
    have := ih hb
    simp only [Prod.mk.injEq] at he
    simp only [List.length_cons, ← he.2]
    omega

theorem length_numberFront_lt {c : Char} (rest : List Char) (h : c.isDigit = true) :
    (numberFront (c :: rest)).2.length < (c :: rest).length := by
  have hw := length_cutWhile_lt rest h
  unfold numberFront
  generalize cutWhile Char.isDigit (c :: rest) = cut at hw ⊢
  obtain ⟨whole, tail⟩ := cut
  dsimp only at hw ⊢
  split
  · rename_i d more
    split
    · have := length_cutWhile_le Char.isDigit (d :: more)
      simp only [List.length_cons] at this hw ⊢
      omega
    · exact hw
  · exact hw

/-- Every item takes at least one character. -/
theorem Item.length_cut_lt {cs text rest : List Char} {item : Item}
    (h : Item.cut? cs = some (item, text, rest)) : rest.length < cs.length := by
  unfold Item.cut? at h
  split at h
  · simp at h
  · simp only [Option.some.injEq, Prod.mk.injEq] at h
    simp [← h.2.2]
  · rename_i tail
    simp only [Option.some.injEq, Prod.mk.injEq] at h
    have := length_cutWhile_lt (p := fun x => decide (x ≠ '\n')) (c := '/') ('/' :: tail) (by decide)
    rwa [h.2] at this
  · rename_i c tail _ _
    split at h
    · rename_i hc
      simp only [Option.some.injEq, Prod.mk.injEq] at h
      simpa [h.2] using length_cutWhile_lt tail hc
    split at h
    · rename_i hc
      simp only [Option.some.injEq, Prod.mk.injEq] at h
      have hc' : isWordPart c = true := by
        simp only [isWordStart, isWordPart, Bool.or_eq_true, Char.isAlphanum] at hc ⊢
        exact hc.imp_left Or.inl
      simpa [h.2] using length_cutWhile_lt tail hc'
    split at h
    · rename_i hc
      simp only [Option.some.injEq, Prod.mk.injEq] at h
      have := length_numberFront_lt tail hc
      rwa [h.2] at this
    split at h
    · obtain ⟨⟨b, a⟩, hb, he⟩ := Option.map_eq_some_iff.1 h
      have := length_quotedTail_le hb
      simp only [Prod.mk.injEq] at he
      simp only [List.length_cons, ← he.2.2]
      omega
    · obtain ⟨s, hs, he⟩ := Option.map_eq_some_iff.1 h
      simp only [Prod.mk.injEq, List.splitAt_eq] at he
      have := s.length_text_pos
      simp only [← he.2.2, List.length_drop, List.length_cons]
      omega

/-- The tokens of a text that starts at a place. -/
def tokensFrom (p : Place) (cs : List Char) : Except LexError (List Lexeme) :=
  match _h : Item.cut? cs with
  | none =>
    match cs with
    | [] => .ok [⟨.endOfFile, p.position []⟩]
    | c :: _ => .error (p.error (noItem c))
  | some (item, text, rest) =>
    match item.kind? text with
    | .error cause => .error (p.error cause)
    | .ok none => tokensFrom (p.after text) rest
    | .ok (some kind) => (tokensFrom (p.after text) rest).map (⟨kind, p.position text⟩ :: ·)
termination_by cs.length
decreasing_by all_goals exact Item.length_cut_lt ‹_›

end Lexer

/-- The tokens of a source text, the last of which marks the end of the file. -/
def lex (source : String) : Except LexError (List Lexeme) :=
  Lexer.tokensFrom .start source.toList

end DynScript
