import DynScript.Source.Position
import DynScript.Diagnostic.Code

/-!
# Diagnostics

A `Diagnostic` is a complaint about a program: a code, a message, a place if there is one, and notes.
`Diagnostic.headline` and `Diagnostic.render` are the two forms in which it is shown.
-/

namespace DynScript

/-- How grave a diagnostic is: an error keeps a unit from running, a warning does not. -/
inductive Severity where
  | error | warning
deriving DecidableEq, Repr

namespace Severity

/-- The word that opens a diagnostic. -/
def text : Severity → String
  | error => "error"
  | warning => "warning"

end Severity

/-- A complaint about a program. -/
structure Diagnostic where
  /-- What kind of complaint it is. -/
  code : Code
  /-- How grave it is. -/
  severity : Severity
  /-- The complaint in words. -/
  message : String
  /-- The place it is about, when there is one. -/
  position : Option Position
  /-- Further remarks, one line each. -/
  notes : List String
deriving DecidableEq, Repr

namespace Diagnostic

/-- An error without notes. -/
def error (code : Code) (message : String) (position : Option Position) : Diagnostic :=
  ⟨code, .error, message, position, []⟩

/-- A warning without notes. -/
def warning (code : Code) (message : String) (position : Option Position) : Diagnostic :=
  ⟨code, .warning, message, position, []⟩

/-- Only errors keep a unit from running. -/
def isError (d : Diagnostic) : Bool := d.severity = .error

/-- The diagnostic on one line, without its place: `severity[code]: message`. -/
def headline (d : Diagnostic) : String :=
  d.severity.text ++ "[" ++ d.code.text ++ "]: " ++ d.message

/-- The headline, the file, the place when there is one, and a line for every note. -/
def render (d : Diagnostic) (file : String) : String :=
  let place := match d.position with
    | some p => " at " ++ p.text
    | none => ""
  let notes := d.notes.map fun note => "\n  = note: " ++ note
  d.headline ++ " in " ++ file ++ place ++ String.join notes

end Diagnostic

end DynScript
