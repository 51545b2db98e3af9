/-!
# Places in a source text

A `Span` is a range of bytes; a `Position` is what a token or a node remembers of where it stands: its
span, and the line and column of its first character, both counted from one and kept in 32 bits.
-/

namespace DynScript

/-- A range of bytes, from `start` up to but not including `stop`. -/
structure Span where
  /-- The offset of the first byte. -/
  start : Nat
  /-- The offset after the last byte. -/
  stop : Nat
deriving DecidableEq, Repr, Inhabited

namespace Span

/-- The greatest offset that a span records; larger ones are recorded as this one. -/
def maxOffset : Nat := 4294967295

/-- The span between two offsets, each cut down to `maxOffset`. -/
def ofOffsets (start stop : Nat) : Span := ⟨min start maxOffset, min stop maxOffset⟩

/-- The number of bytes covered. -/
def length (s : Span) : Nat := s.stop - s.start

/-- A span is empty when it ends where it starts. -/
def isEmpty (s : Span) : Bool := s.start == s.stop

/-- The least span that covers both. -/
def merge (a b : Span) : Span := ⟨min a.start b.start, max a.stop b.stop⟩

/-- A span is written `start..stop`. -/
def text (s : Span) : String := toString s.start ++ ".." ++ toString s.stop

end Span

/-- Where a token stands: its bytes, and the line and column of its first character. -/
structure Position where
  /-- The bytes of the token. -/
  span : Span
  /-- The line, counted from one. -/
  line : UInt32
  /-- The column, counted in characters from one. -/
  column : UInt32
deriving DecidableEq, Repr, Inhabited

namespace Position

/-- A position is written `line:column`. -/
def text (p : Position) : String := toString p.line ++ ":" ++ toString p.column

end Position

end DynScript
