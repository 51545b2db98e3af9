import DynScript.Diagnostic.Basic
import DynScript.Fault.Cause

/-!
# Faults

A `Fault` is a cause with the place of the innermost node that was being evaluated and, once it has left a
call, the calls that were in progress. A place that is known is kept: it is the more precise one.
-/

namespace DynScript

/-- A call in a backtrace. -/
structure BacktraceFrame where
  /-- The name of the function. -/
  name : String
  /-- The parameters with their values, as they are shown. -/
  args : List String
  /-- The position of the call. -/
  callSite : Option Position
deriving DecidableEq, Repr

namespace BacktraceFrame

/-- The name of a function that has none. -/
def anonymous : String := "<anonymous>"

/-- A call is written as its name and arguments, and its position if there is one. -/
def text (f : BacktraceFrame) : String :=
  let place := match f.callSite with
    | some p => " at " ++ p.text
    | none => ""
  f.name ++ "(" ++ ", ".intercalate f.args ++ ")" ++ place

end BacktraceFrame

/-- The calls in progress when a fault arose, the innermost first. -/
structure Backtrace where
  /-- The calls, the innermost first. -/
  frames : List BacktraceFrame
deriving DecidableEq, Repr

namespace Backtrace

/-- How many calls were in progress. -/
def size (b : Backtrace) : Nat := b.frames.length

/-- The greatest number of calls that a report shows. -/
def maxNotes : Nat := 16

/-- A line for each call, with its number, below a heading; nothing when there are no calls. -/
def text (b : Backtrace) : String :=
  match b.frames with
  | [] => ""
  | frames =>
    let lines := frames.zipIdx.map fun (frame, i) => "  " ++ toString i ++ ": " ++ frame.text ++ "\n"
    "stack backtrace:\n" ++ String.join lines

/-- A note for each of the innermost calls, and one that counts the others. -/
def notes (b : Backtrace) : List String :=
  let shown := (b.frames.take maxNotes).map fun frame => "in " ++ frame.text
  if b.size > maxNotes then shown ++ ["... " ++ toString (b.size - maxNotes) ++ " more frames"]
  else shown

end Backtrace

/-- A fault or a signal on its way out of an evaluation. -/
structure Fault where
  /-- What stopped the evaluation. -/
  cause : Cause
  /-- The place where that was. -/
  position : Option Position
  /-- The calls that were in progress, if any was. -/
  backtrace : Option Backtrace
deriving Inhabited

namespace Fault

/-- A fault right where it arises. -/
def ofCause (cause : Cause) : Fault := ⟨cause, none, none⟩

/-- Whether it is a signal and no fault. -/
def isSignal (f : Fault) : Bool := f.cause.isSignal

/-- Add a place, unless one is known. -/
def locatedAt (f : Fault) (position : Option Position) : Fault :=
  { f with position := f.position.or position }

/-- Put a backtrace in. -/
def withBacktrace (f : Fault) (backtrace : Backtrace) : Fault := { f with backtrace := some backtrace }

/-- The fault as a diagnostic, with the backtrace in its notes. -/
def toDiagnostic (f : Fault) : Diagnostic :=
  ⟨f.cause.code, .error, f.cause.message, f.position, (f.backtrace.map Backtrace.notes).getD []⟩

end Fault

end DynScript
