import Std.Data.HashSet
import DynScript.Value.Bindings

/-!
# Heaps

A `Heap` holds the records that a run has made. A record has properties, a template if it is a class, and a
parent if it was made by calling one. A function that becomes a property points back at its record.
-/

namespace DynScript

/-- The object literal that a class runs when it is called. -/
structure Template where
  /-- The unit that the literal belongs to. -/
  unit : UnitId
  /-- The object literal. -/
  node : NodeId
deriving DecidableEq, Repr

/-- What a heap knows about a record. -/
structure RecordData where
  /-- The literal that makes the record a class. -/
  template : Option Template
  /-- The properties. -/
  properties : Bindings
  /-- The class that the record was made by. -/
  parent : Option RecordId
deriving Inhabited

/-- The records of a run, and how many lists it has made. -/
structure Heap where
  /-- The records, by number. -/
  records : Array RecordData
  /-- The number of the next list. -/
  nextList : Nat
  /-- The records that have not been found dead. -/
  present : Std.HashSet RecordId
deriving Inhabited

namespace Heap

/-- A heap without records. -/
def empty : Heap := ⟨#[], 0, ∅⟩

/-- How many records the heap holds. -/
def size (h : Heap) : Nat := h.records.size

/-- Add a record; its number is the old size. -/
def alloc (h : Heap) (data : RecordData) : RecordId × Heap :=
  let r : RecordId := ⟨h.size⟩
  (r, { h with records := h.records.push data, present := h.present.insert r })

/-- Make a list that is the same as no other. -/
def newList (h : Heap) (items : Array Value) : Value × Heap :=
  (.list h.nextList items, { h with nextList := h.nextList + 1 })

/-- A record without properties. -/
def newRecord (h : Heap) : RecordId × Heap := h.alloc ⟨none, .empty, none⟩

/-- A class. -/
def newClass (h : Heap) (template : Template) : RecordId × Heap := h.alloc ⟨some template, .empty, none⟩

/-- A record without properties, made by a class. -/
def newInstance (h : Heap) (parent : RecordId) : RecordId × Heap := h.alloc ⟨none, .empty, some parent⟩

/-- What the heap knows about a record. -/
def get? (h : Heap) (r : RecordId) : Option RecordData := h.records[r.index]?

/-- The properties of a record. -/
def properties (h : Heap) (r : RecordId) : Bindings := ((h.get? r).map RecordData.properties).getD .empty

/-- The template of a class. -/
def template? (h : Heap) (r : RecordId) : Option Template := (h.get? r).bind RecordData.template

/-- The class that a record was made by. -/
def parent? (h : Heap) (r : RecordId) : Option RecordId := (h.get? r).bind RecordData.parent

/-- The value of a property. -/
def property? (h : Heap) (r : RecordId) (name : String) : Option Value := (h.properties r).get? name

/-- Whether a record has a property. -/
def has (h : Heap) (r : RecordId) (name : String) : Bool := (h.properties r).has name

/-- How many properties a record has. -/
def propertyCount (h : Heap) (r : RecordId) : Nat := (h.properties r).size

/-- Give a property a value. -/
def set (h : Heap) (r : RecordId) (name : String) (value : Value) : Heap :=
  { h with
    records := h.records.modify r.index fun data =>
      { data with properties := data.properties.set name (value.boundTo r) } }

/-- Give several properties their values, in order. -/
def setAll (h : Heap) (r : RecordId) (entries : List (String × Value)) : Heap :=
  entries.foldl (fun h (name, value) => h.set r name value) h

/-- A record with the given properties. -/
def ofEntries (h : Heap) (entries : List (String × Value)) : RecordId × Heap :=
  let (r, h) := h.newRecord
  (r, h.setAll r entries)

/-- A record with the same properties, template and parent; its functions point at the copy. -/
def shallowClone (h : Heap) (r : RecordId) : RecordId × Heap :=
  match h.get? r with
  | none => h.newRecord
  | some data =>
    let (copy, h) := h.alloc ⟨data.template, .empty, data.parent⟩
    (copy, h.setAll copy data.properties.entries)

end Heap

end DynScript
