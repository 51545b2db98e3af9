import DynScript.Tree.Node

/-!
# Values

Strings, characters and lists never change once they are made; only the properties of a record do. A record
is a number that refers to a heap, and so is the unit whose arena holds the node of a function. A list has a
number, too: two lists are the same only when they were made at once.
-/

namespace DynScript

/-- The number of a record in a heap. -/
structure RecordId where
  /-- The place in the heap. -/
  index : Nat
deriving DecidableEq, Hashable, Repr, Inhabited

/-- The number of a unit whose nodes can be evaluated. -/
structure UnitId where
  /-- The place in the table of units. -/
  index : Nat
deriving DecidableEq, Repr, Inhabited

/-- The record whose properties a function sees. A function that is stored in a record points back at it
without keeping it; a function that was read out of a record keeps it. -/
inductive Receiver where
  | stored (record : RecordId)
  | held (record : RecordId)
deriving DecidableEq, Repr

/-- A function: a node of a unit, without the scope in which it was written. -/
structure Function where
  /-- The unit that the node belongs to. -/
  unit : UnitId
  /-- The function literal. -/
  node : NodeId
  /-- The name under which the function was stored first. -/
  name : Option String
  /-- The record that the function was stored in last. -/
  receiver : Option Receiver
deriving DecidableEq, Repr

namespace Function

/-- A function right after its literal was evaluated. -/
def ofNode (unit : UnitId) (node : NodeId) : Function := ⟨unit, node, none, none⟩

/-- A function without a name takes one. -/
def named (f : Function) (name : String) : Function :=
  { f with name := some (f.name.getD name) }

/-- A function that is stored in a record. -/
def boundTo (f : Function) (record : RecordId) : Function :=
  { f with receiver := some (.stored record) }

/-- Whether two functions come from one literal. -/
def sameDefinition (f g : Function) : Bool := f.unit = g.unit && f.node = g.node

end Function

/-- The functions that the host provides. -/
inductive Native where
  | ioRead | ioWrite | ioExists
  | systemAssert | systemClock | systemNow | systemElapsed | systemEnv | systemTypeOf | systemExit
deriving DecidableEq, Repr

/-- The things of the host that a program can hold but not look into. -/
inductive HostObject where
  /-- A point in time, in nanoseconds of the host's steady clock. -/
  | instant (nanoseconds : Nat)
deriving DecidableEq, Repr

/-- The values of the language. -/
inductive Value where
  | nil
  | bool (b : Bool)
  | number (x : Float)
  | char (c : Char)
  | string (s : String)
  | list (id : Nat) (items : Array Value)
  | function (f : Function)
  | native (n : Native)
  | record (r : RecordId)
  | host (h : HostObject)
deriving Inhabited

namespace Value

/-- The name of a value's kind. -/
def kindName : Value → String
  | nil => "nil"
  | bool _ => "bool"
  | number _ => "number"
  | char _ => "char"
  | string _ => "string"
  | list _ _ => "list"
  | function _ => "function"
  | native _ => "native"
  | record _ => "record"
  | host _ => "opaque"

/-- Whether a value is nil. -/
def isNil : Value → Bool
  | nil => true
  | _ => false

/-- The truth value that a value is. -/
def bool? : Value → Option Bool
  | bool b => some b
  | _ => none

/-- The number that a value is. -/
def number? : Value → Option Float
  | number x => some x
  | _ => none

/-- The string that a value is. -/
def string? : Value → Option String
  | string s => some s
  | _ => none

/-- The record that a value is. -/
def record? : Value → Option RecordId
  | record r => some r
  | _ => none

/-- A function without a name takes one; other values stay as they are. -/
def named (name : String) : Value → Value
  | function f => function (f.named name)
  | v => v

/-- The value as a property of a record: a function points back at that record. -/
def boundTo (owner : RecordId) : Value → Value
  | function f => function (f.boundTo owner)
  | v => v

mutual

/-- Whether two values are the same for the host: lists by their items, functions by their literals, records
by identity. -/
def same : Value → Value → Bool
  | nil, nil => true
  | bool a, bool b => a == b
  | number a, number b => a == b
  | char a, char b => a == b
  | string a, string b => a == b
  | list _ ⟨as⟩, list _ ⟨bs⟩ => sameItems as bs
  | function f, function g => f.sameDefinition g
  | native m, native n => m = n
  | record r, record s => r = s
  | host g, host h => g = h
  | _, _ => false

/-- Whether two rows of values are the same, item by item. -/
def sameItems : List Value → List Value → Bool
  | [], [] => true
  | a :: as, b :: bs => same a b && sameItems as bs
  | _, _ => false

end

end Value

end DynScript
