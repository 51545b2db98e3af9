import DynScript.Diagnostic.Basic

/-!
# Queues of diagnostics

Analysis goes on after a complaint; what it found is kept in a `Queue`, in the order of emission, until it
is flushed in the order of places.
-/

namespace DynScript

/-- The diagnostics emitted and not yet flushed, oldest first. -/
structure Queue where
  /-- The diagnostics in the order of emission. -/
  emitted : Array Diagnostic
deriving DecidableEq, Repr

namespace Queue

/-- A queue without diagnostics. -/
def empty : Queue := ⟨#[]⟩

instance : Inhabited Queue := ⟨empty⟩

/-- Add a diagnostic at the end. -/
def push (q : Queue) (d : Diagnostic) : Queue := ⟨q.emitted.push d⟩

/-- The diagnostics in the order of emission. -/
def toList (q : Queue) : List Diagnostic := q.emitted.toList

/-- How many diagnostics wait. -/
def size (q : Queue) : Nat := q.emitted.size

/-- How many of the waiting diagnostics have a severity. -/
def count (q : Queue) (s : Severity) : Nat := q.toList.countP (fun d => d.severity = s)

/-- Whether an error waits. -/
def hasErrors (q : Queue) : Bool := q.toList.any Diagnostic.isError

/-- The place by which a flush sorts: line and column, and after all others for a diagnostic without
place. -/
def sortKey (d : Diagnostic) : UInt32 × UInt32 :=
  match d.position with
  | some p => (p.line, p.column)
  | none => (4294967295, 4294967295)

/-- Whether the first diagnostic may stand before the second one in a flush. -/
def notAfter (a b : Diagnostic) : Bool :=
  let (line, column) := sortKey a
  let (line', column') := sortKey b
  line < line' || (line == line' && column ≤ column')

/-- All diagnostics by place, those of one place in the order of emission, and the emptied queue. -/
def flush (q : Queue) : List Diagnostic × Queue := (q.toList.mergeSort notAfter, empty)

end Queue

end DynScript
