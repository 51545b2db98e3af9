import Std.Data.HashMap
import DynScript.Value.Heap

/-!
# Living records

A record lives as long as something keeps it: one of the given roots, or a list or record that lives itself.
Records that keep each other in a circle live on. Reference counts decide this, of lists as well as of records:
`Heap.references` counts the references that the roots and all records make, each list once however often it
is met, and takes away, again and again, what a record or list without references keeps.

A record that is dead once stays dead, so `Heap.sweep` lets a heap remember which records have been found
dead. They keep nothing and need not be looked at again.
-/

namespace DynScript

/-- What a value keeps directly. -/
inductive Kept where
  /-- A record: the value itself, or the one that a function holds. -/
  | record (r : RecordId)
  /-- A list. -/
  | list (id : Nat) (items : List Value)

/-- What a value keeps directly, if it keeps anything. -/
def Value.kept? : Value → Option Kept
  | .record r => some (.record r)
  | .function f =>
    match f.receiver with
    | some (.held r) => some (.record r)
    | _ => none
  | .list id items => some (.list id items.toList)
  | _ => none

/-- Whether a value is a record or holds it, not counting what lies inside a list. -/
def Value.keepsRecord (v : Value) (r : RecordId) : Bool :=
  match v.kept? with
  | some (.record q) => q = r
  | _ => false

/-- How often records and lists are referred to. -/
structure References where
  /-- The references to each record. -/
  records : Std.HashMap RecordId Nat
  /-- The references to each list, by number. -/
  lists : Std.HashMap Nat Nat

namespace References

/-- No references. -/
def zero : References := ⟨∅, ∅⟩

/-- How often a record is referred to. -/
def ofRecord (refs : References) (r : RecordId) : Nat := refs.records.getD r 0

/-- How often a list is referred to. -/
def ofList (refs : References) (id : Nat) : Nat := refs.lists.getD id 0

/-- Tell how often a record is referred to. -/
def setRecord (refs : References) (r : RecordId) (count : Nat) : References :=
  { refs with records := refs.records.insert r count }

/-- Tell how often a list is referred to. -/
def setList (refs : References) (id : Nat) (count : Nat) : References :=
  { refs with lists := refs.lists.insert id count }

/-- Add the references that a row of values makes. The items of lists that were not met before are put before
the rows that wait. -/
def addRow (refs : References) (waiting : List (List Value)) : List Value → References × List (List Value)
  | [] => (refs, waiting)
  | value :: rest =>
    match value.kept? with
    | some (.record r) => addRow (refs.setRecord r (refs.ofRecord r + 1)) waiting rest
    | some (.list id items) =>
      let count := refs.ofList id
      addRow (refs.setList id (count + 1)) (if count = 0 then items :: waiting else waiting) rest
    | none => addRow refs waiting rest

/-- Add the references that rows of values make; `steps` bounds how many rows there are. -/
def addRows : Nat → References → List (List Value) → References
  | 0, refs, _ => refs
  | _, refs, [] => refs
  | steps + 1, refs, row :: rows =>
    let (refs, rows) := refs.addRow rows row
    addRows steps refs rows

/-- Take away the references that a row of values makes. What the records and lists keep that are left without
references is put before the rows that wait; `row` tells it for a record. -/
def removeRow (row : RecordId → List Value) (refs : References) (waiting : List (List Value)) :
    List Value → References × List (List Value)
  | [] => (refs, waiting)
  | value :: rest =>
    match value.kept? with
    | some (.record r) =>
      let count := refs.ofRecord r
      removeRow row (refs.setRecord r (count - 1)) (if count = 1 then row r :: waiting else waiting) rest
    | some (.list id items) =>
      let count := refs.ofList id
      removeRow row (refs.setList id (count - 1)) (if count = 1 then items :: waiting else waiting) rest
    | none => removeRow row refs waiting rest

/-- Take away the references that rows of values make; `steps` bounds how many rows there are. -/
def removeRows (row : RecordId → List Value) : Nat → References → List (List Value) → References
  | 0, refs, _ => refs
  | _, refs, [] => refs
  | steps + 1, refs, values :: rows =>
    let (refs, rows) := refs.removeRow row rows values
    removeRows row steps refs rows

end References

namespace RecordData

/-- The values that a record keeps: those of its properties, and its parent. -/
def kept (data : RecordData) : List Value :=
  data.properties.values ++ data.parent.toList.map Value.record

end RecordData

namespace Heap

/-- The values that a record keeps. -/
def keptBy (h : Heap) (r : RecordId) : List Value := ((h.get? r).map RecordData.kept).getD []

/-- A bound on how many records and lists there are, and with them rows of values that they keep. -/
def rowBound (h : Heap) : Nat := h.size + h.nextList + 1

/-- The references from the roots and from some records and the lists in them. -/
def referencesFrom (h : Heap) (roots : List Value) (records : List RecordId) : References :=
  References.zero.addRows h.rowBound (roots :: records.map h.keptBy)

/-- The references from the roots and from the records and lists that live. -/
def references (h : Heap) (roots : List Value) : References :=
  let present := h.present.toList
  let refs := h.referencesFrom roots present
  let dead := present.filter fun r => refs.ofRecord r = 0
  refs.removeRows h.keptBy h.rowBound (dead.map h.keptBy)

/-- Find out which records have died, when the roots are kept. -/
def sweep (h : Heap) (roots : List Value) : Heap :=
  let refs := h.references roots
  { h with present := h.present.filter fun r => 0 < refs.ofRecord r }

/-- Whether a record lives when the roots are kept. -/
def lives (h : Heap) (roots : List Value) (r : RecordId) : Bool := (h.sweep roots).present.contains r

end Heap

namespace Function

/-- The record whose properties the function sees, when `lives` tells whether a stored one still lives. -/
def receiver? {m : Type → Type} [Monad m] (f : Function) (lives : RecordId → m Bool) :
    m (Option RecordId) := do
  match f.receiver with
  | none => return none
  | some (.held r) => return some r
  | some (.stored r) => return if ← lives r then some r else none

/-- The function as it is read out of a record: it keeps the record that it points back at. -/
def holding {m : Type → Type} [Monad m] (f : Function) (lives : RecordId → m Bool) : m Function := do
  match f.receiver with
  | some (.stored r) => return { f with receiver := if ← lives r then some (.held r) else none }
  | _ => return f

end Function

end DynScript
