import DynScript.Files.Path
import DynScript.Number.Text
import DynScript.Run.CallStack

/-!
# Settings

What a session can be told from outside: the directory of the standard library and how deeply calls may nest.
A setting that cannot be understood is passed over.
-/

namespace DynScript

/-- The settings of a session. -/
structure Settings where
  /-- The directory of the standard library, if it is not to be found beside the entry unit. -/
  stdDir : Option Path
  /-- How deeply calls may nest. -/
  maxDepth : Nat
deriving DecidableEq, Repr

namespace Settings

/-- The settings when nothing is said. -/
def standard : Settings := ⟨none, CallStack.defaultMaxDepth⟩

instance : Inhabited Settings := ⟨standard⟩

/-- The name of the variable for the directory of the standard library. -/
def stdDirVariable : String := "BLU_STDLIB"

/-- The name of the variable for the depth of calls. -/
def maxDepthVariable : String := "BLU_MAX_CALL_DEPTH"

/-- The name of the directory of the standard library beside the entry unit. -/
def stdDirName : String := "library"

/-- The characters that count as white space in Unicode. -/
def isBlank (c : Char) : Bool :=
  let n := c.toNat
  (0x9 ≤ n && n ≤ 0xd) || n = 0x20 || n = 0x85 || n = 0xa0 || n = 0x1680 || (0x2000 ≤ n && n ≤ 0x200a)
    || n = 0x2028 || n = 0x2029 || n = 0x202f || n = 0x205f || n = 0x3000

/-- A text without the white space at its ends. -/
def trim (cs : List Char) : List Char :=
  ((cs.dropWhile isBlank).reverse.dropWhile isBlank).reverse

/-- The greatest number that a setting may be. -/
def maxNumber : Nat := 18446744073709551615

/-- The number that is written in decimal digits, perhaps with a plus in front. -/
def readNumber? (text : String) : Option Nat :=
  let cs := trim text.toList
  let digits := match cs with
    | '+' :: rest => rest
    | _ => cs
  if Number.isDigits digits && Number.digitsValue digits ≤ maxNumber then some (Number.digitsValue digits)
  else none

/-- A depth of calls that is written as a positive number. -/
def readDepth? (text : String) : Option Nat := (readNumber? text).filter (0 < ·)

/-- The settings that variables tell. An empty directory is none. -/
def ofVariables (valueOf? : String → Option String) : Settings :=
  let dir := (valueOf? stdDirVariable).filter (· ≠ "")
  ⟨dir.map Path.mk,
    ((valueOf? maxDepthVariable).bind readDepth?).getD standard.maxDepth⟩

/-- The directory of the standard library for an entry unit in a directory. -/
def stdDirFor (s : Settings) (entryDir : Path) : Path := s.stdDir.getD (entryDir.join stdDirName)

end Settings

end DynScript
