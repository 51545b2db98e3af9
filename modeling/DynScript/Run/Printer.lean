/-!
# Printers

Where the lines go that a program prints.
-/

namespace DynScript

/-- Where printed lines go. -/
inductive Printer where
  /-- Nowhere. -/
  | silent
  /-- At the end of a text. -/
  | buffer (text : String)
deriving DecidableEq, Repr, Inhabited

namespace Printer

/-- A printer that has kept nothing yet. -/
def empty : Printer := buffer ""

/-- Print a line. -/
def println (line : String) : Printer → Printer
  | silent => silent
  | buffer text => buffer (text ++ line ++ "\n")

/-- What has been kept. -/
def output : Printer → String
  | silent => ""
  | buffer text => text

/-- Forget what has been kept. -/
def clear : Printer → Printer
  | silent => silent
  | buffer _ => empty

end Printer

end DynScript
