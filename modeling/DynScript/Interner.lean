import Std.Data.HashMap

/-!
# Interned strings

An `Interner` hands out a number for every distinct string, densely and in order of first sight, with the
empty string as number zero. It keeps a map from strings to numbers beside the table of strings by number.
Numbers have 32 bits, so there comes a point at which a new string gets none.
-/

namespace DynScript

/-- All strings seen so far, each once. -/
structure Interner where
  /-- The number of each string. -/
  numbers : Std.HashMap String UInt32
  /-- The strings, by number. -/
  strings : Array String
deriving Repr

namespace Interner

/-- A new interner knows the empty string alone. -/
def new : Interner := ⟨(∅ : Std.HashMap String UInt32).insert "" 0, #[""]⟩

/-- The number of a string that has been interned. -/
def find? (t : Interner) (s : String) : Option UInt32 := t.numbers[s]?

/-- The number of `s`, which is added at the end when it is new. Nothing comes back when all numbers have been handed
out to other strings. -/
def intern (t : Interner) (s : String) : Option (UInt32 × Interner) :=
  match t.find? s with
  | some i => some (i, t)
  | none =>
    if h : t.strings.size < UInt32.size then
      let i := UInt32.ofNatLT t.strings.size h
      some (i, ⟨t.numbers.insert s i, t.strings.push s⟩)
    else none

/-- The string with a number, if that number has been handed out. -/
def lookup? (t : Interner) (i : UInt32) : Option String := t.strings[i.toNat]?

/-- How many strings there are. -/
def size (t : Interner) : Nat := t.strings.size

end Interner

end DynScript
