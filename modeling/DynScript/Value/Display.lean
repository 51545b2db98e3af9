import DynScript.Number.Text
import DynScript.Value.Heap

/-!
# The text of a value

`Heap.text` is what a program prints for a value. Records are written with their properties in the order of
their names; a record that is reached again from inside itself is written as three dots between braces.
-/

namespace DynScript

namespace Native

/-- The group that a native function belongs to. -/
def group : Native → String
  | ioRead | ioWrite | ioExists => "io"
  | systemAssert | systemClock | systemNow | systemElapsed | systemEnv | systemTypeOf | systemExit => "system"

/-- The name of a native function in its group. -/
def shortName : Native → String
  | ioRead => "read"
  | ioWrite => "write"
  | ioExists => "exists"
  | systemAssert => "assert"
  | systemClock => "clock"
  | systemNow => "now"
  | systemElapsed => "elapsed"
  | systemEnv => "env"
  | systemTypeOf => "type_of"
  | systemExit => "exit"

/-- The full name of a native function. -/
def name (n : Native) : String := n.group ++ "." ++ n.shortName

end Native

/-- What is written for a thing of the host. -/
def HostObject.text : HostObject → String
  | instant _ => "<instant>"

/-- What is written for a function. -/
def Function.text (f : Function) : String :=
  match f.name with
  | some name => "<fun " ++ name ++ ">"
  | none => "<fun>"

mutual

/-- The text of a value, when `record` gives the text of the records in it. -/
def Value.textWith (record : RecordId → String) : Value → String
  | .nil => "nil"
  | .bool b => if b then "true" else "false"
  | .number x => Number.text x
  | .char c => c.toString
  | .string s => s
  | .list _ ⟨items⟩ => "[" ++ ", ".intercalate (Value.textsWith record items) ++ "]"
  | .function f => f.text
  | .native n => "<native " ++ n.name ++ ">"
  | .record r => record r
  | .host h => h.text

/-- The texts of a row of values. -/
def Value.textsWith (record : RecordId → String) : List Value → List String
  | [] => []
  | item :: rest => item.textWith record :: Value.textsWith record rest

end

namespace Heap

/-- What is written for a record inside itself. -/
def cycleText : String := "\x7b...\x7d"

/-- The text of a record inside the records `enclosing`; `levels` bounds how many records lie inside each
other. -/
def recordTextWithin (h : Heap) : Nat → List RecordId → RecordId → String
  | 0, _, _ => cycleText
  | levels + 1, enclosing, r =>
    if enclosing.contains r then cycleText
    else
      let entries := (h.properties r).sorted.map fun (name, value) =>
        name ++ ": " ++ value.textWith (h.recordTextWithin levels (r :: enclosing))
      "\x7b" ++ ", ".intercalate entries ++ "\x7d"

/-- The text of a record. -/
def recordText (h : Heap) (r : RecordId) : String := h.recordTextWithin (h.size + 1) [] r

/-- The text of a value. -/
def text (h : Heap) (v : Value) : String := v.textWith h.recordText

end Heap

end DynScript
