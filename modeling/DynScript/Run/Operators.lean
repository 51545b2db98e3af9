import DynScript.Fault.Cause
import DynScript.Tree.Node
import DynScript.Value.Heap

/-!
# Operators

What the operators do with values. Both operands have to be of one kind. Strings and lists are joined by `+`
and ordered by length; a list equals itself only; records are compared by how many properties they have, so
that two different ones can be equal.
-/

namespace DynScript

/-- The order of two numbers, unless one of them is not a number. -/
def compareNumbers (a b : Float) : Option Ordering :=
  if a < b then some .lt else if b < a then some .gt else if a == b then some .eq else none

/-- The order of two records, which is that of their numbers of properties. -/
def Heap.compareRecords (h : Heap) (r s : RecordId) : Ordering :=
  compare (h.propertyCount r) (h.propertyCount s)

/-- The number that an operator of arithmetic makes of two. -/
def ArithmeticOp.apply : ArithmeticOp → Float → Float → Float
  | add, a, b => a + b
  | subtract, a, b => a - b
  | multiply, a, b => a * b
  | divide, a, b => a / b

/-- Which orders of its operands a comparison asks for. -/
def ComparisonOp.accepts : ComparisonOp → Ordering → Bool
  | less, order => order.isLT
  | lessEqual, order => order.isLE
  | greater, order => order.isGT
  | greaterEqual, order => order.isGE

/-- What an equality operator makes of the answer whether its operands are equal. -/
def EqualityOp.apply : EqualityOp → Bool → Bool
  | equal, same => same
  | notEqual, same => !same

namespace Heap

/-- The value of an operation of arithmetic. -/
def arithmetic (h : Heap) (op : ArithmeticOp) (lhs rhs : Value) : Except Cause (Value × Heap) :=
  match lhs, op, rhs with
  | .number a, op, .number b => .ok (.number (op.apply a b), h)
  | .string a, .add, .string b => .ok (.string (a ++ b), h)
  | .list _ as, .add, .list _ bs => .ok (h.newList (as ++ bs))
  | lhs, op, rhs => .error (.operandMismatch op.text lhs.kindName rhs.kindName)

/-- Whether two values are equal, for a program; nothing for those that cannot be compared. -/
def equal? (h : Heap) : Value → Value → Option Bool
  | .nil, .nil => some true
  | .bool a, .bool b => some (a == b)
  | .number a, .number b => some (a == b)
  | .char a, .char b => some (a == b)
  | .string a, .string b => some (a == b)
  | .list a _, .list b _ => some (a == b)
  | .record r, .record s => some (h.compareRecords r s == .eq)
  | _, _ => none

/-- The value of an equality. -/
def equality (h : Heap) (op : EqualityOp) (lhs rhs : Value) : Except Cause Value :=
  match h.equal? lhs rhs with
  | some same => .ok (.bool (op.apply same))
  | none => .error (.operandMismatch op.text lhs.kindName rhs.kindName)

/-- The value of a comparison. Whatever is compared with something that is not a number, the answer is no. -/
def comparison (h : Heap) (op : ComparisonOp) (lhs rhs : Value) : Except Cause Value :=
  match lhs, rhs with
  | .number a, .number b => .ok (.bool ((compareNumbers a b).any op.accepts))
  | .char a, .char b => .ok (.bool (op.accepts (compare a.toNat b.toNat)))
  | .string a, .string b => .ok (.bool (op.accepts (compare a.length b.length)))
  | .list _ as, .list _ bs => .ok (.bool (op.accepts (compare as.size bs.size)))
  | .record r, .record s => .ok (.bool (op.accepts (h.compareRecords r s)))
  | lhs, rhs => .error (.operandMismatch op.text lhs.kindName rhs.kindName)

/-- The list with one more item in front. -/
def prepend (h : Heap) (item : Value) : Value → Except Cause (Value × Heap)
  | .list _ items => .ok (h.newList (#[item] ++ items))
  | other => .error (.wrongOperand "@" "list" other.kindName)

end Heap

namespace Value

/-- The character that stands a number of characters after a position. -/
def charAfter? (s : String) (p : s.Pos) : Nat → Option Char
  | 0 => p.get?
  | n + 1 => if h : p = s.endPos then none else charAfter? s (p.next h) n

/-- The character at an index of a string. -/
def charAt? (s : String) (i : Nat) : Option Char := charAfter? s s.startPos i

/-- The number with the other sign. -/
def negate : Value → Except Cause Value
  | number x => .ok (number (-x))
  | other => .error (.wrongOperand "-" "number" other.kindName)

/-- How many items a list has, or characters a string. -/
def len : Value → Except Cause Value
  | list _ items => .ok (number (Float.ofNat items.size))
  | string s => .ok (number (Float.ofNat s.length))
  | other => .error (.invalidTarget "take the length of" other.kindName)

/-- The integer that a number stands for as an index or a bound: its fraction is dropped, and it is kept
within the range of 64 bits. -/
def integer (x : Float) : Int := x.toModel.toInt64.toInt

/-- What stands at an index. -/
def itemAt (target index : Value) : Except Cause Value :=
  match index with
  | number x =>
    let i := integer x
    match target with
    | list _ items =>
      match if 0 ≤ i then items[i.toNat]? else none with
      | some item => .ok item
      | none => .error (.indexOutOfRange i items.size)
    | string s =>
      match if 0 ≤ i then charAt? s i.toNat else none with
      | some c => .ok (char c)
      | none => .error (.indexOutOfRange i s.length)
    | other => .error (.invalidTarget "index" other.kindName)
  | other => .error (.wrongOperand "index" "number" other.kindName)

end Value

end DynScript
