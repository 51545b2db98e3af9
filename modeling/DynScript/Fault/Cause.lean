import DynScript.Diagnostic.Code
import DynScript.Value.Basic

/-!
# Causes of faults

What can stop an evaluation: the faults of a program, each with its words, and the two signals that leave a
call or the whole run.
-/

namespace DynScript

/-- What stops an evaluation. -/
inductive Cause where
  /-- A value is called that is no function, class or record. -/
  | notCallable (kind : String)
  /-- A call has the wrong number of arguments. -/
  | arityMismatch (name : String) (expected got : Nat)
  /-- A binary operator has operands that do not go together. -/
  | operandMismatch (op left right : String)
  /-- An operand is of the wrong kind. -/
  | wrongOperand (operation expected got : String)
  /-- A name has no value. -/
  | unboundName (name : String)
  /-- An index is negative or too large. -/
  | indexOutOfRange (index : Int) (length : Nat)
  /-- A condition is no truth value. -/
  | nonBooleanCondition (got : String)
  /-- A bound of a loop is no number. -/
  | nonNumericBound (got : String)
  /-- A record lacks a property. -/
  | missingProperty (name : String)
  /-- Something is done to a value as if it were a record. -/
  | notARecord (operation got : String)
  /-- Calls are nested too deeply. -/
  | stackExhausted (limit : Nat)
  /-- The file of an import is not there. -/
  | importNotFound (path : String)
  /-- An imported unit failed. -/
  | importFailed (path reason : String)
  /-- A unit imports itself, perhaps through others. -/
  | circularImport (path : String)
  /-- A function of the host failed. -/
  | nativeFailed (function message : String)
  /-- A record literal has two fields of a name. -/
  | duplicateField (name : String)
  /-- Something is done to a value that cannot be done to it. -/
  | invalidTarget (action got : String)
  /-- The interpreter was given something that analysis would have refused. -/
  | internal (message : String)
  /-- A return leaves the innermost call. -/
  | returning (value : Value)
  /-- The run ends with an exit code. -/
  | exiting (code : Int)
deriving Inhabited

namespace Cause

/-- Whether the cause is a signal and no fault. -/
def isSignal : Cause → Bool
  | returning _ | exiting _ => true
  | _ => false

/-- The code of a cause. -/
def code : Cause → Code
  | notCallable _ => .notCallable
  | arityMismatch _ _ _ => .arityMismatch
  | operandMismatch _ _ _ | wrongOperand _ _ _ => .wrongOperand
  | unboundName _ => .unboundName
  | indexOutOfRange _ _ => .indexOutOfRange
  | nonBooleanCondition _ => .nonBooleanCondition
  | nonNumericBound _ => .nonNumericBound
  | missingProperty _ | notARecord _ _ => .missingProperty
  | stackExhausted _ => .stackExhausted
  | importNotFound _ => .importNotFound
  | importFailed _ _ => .importFailed
  | circularImport _ => .circularImport
  | nativeFailed _ _ => .nativeFailed
  | duplicateField _ => .duplicateFieldAtRun
  | invalidTarget _ _ => .invalidTarget
  | internal _ | returning _ | exiting _ => .internal

/-- The words of a cause. -/
def message : Cause → String
  | notCallable kind => "Trying to call non-function value of kind " ++ kind
  | arityMismatch name expected got =>
    "Trying to call " ++ name ++ " with " ++ toString got ++ " arguments, but expected "
      ++ toString expected
  | operandMismatch op left right =>
    "Operator '" ++ op ++ "' cannot be applied to " ++ left ++ " and " ++ right
  | wrongOperand operation expected got =>
    operation ++ " expects a " ++ expected ++ ", got " ++ got
  | unboundName name => "Cannot find binding '" ++ name ++ "'"
  | indexOutOfRange index length =>
    "Index '" ++ toString index ++ "' out of range of '" ++ toString length ++ "'"
  | nonBooleanCondition got => "Cannot operate if on a non-boolean value of kind " ++ got
  | nonNumericBound got => "Cannot use " ++ got ++ " values in to range"
  | missingProperty name => "Record does not contain property '" ++ name ++ "'"
  | notARecord operation got => "Cannot " ++ operation ++ " a non-record value of kind " ++ got
  | stackExhausted limit => "Call depth exceeded the limit of " ++ toString limit
  | importNotFound path => "Cannot find file path '" ++ path ++ "'"
  | importFailed path reason => "Failed to import '" ++ path ++ "': " ++ reason
  | circularImport path => "Circular import of '" ++ path ++ "'"
  | nativeFailed function message => function ++ ": " ++ message
  | duplicateField name => "Field '" ++ name ++ "' is already defined in this record"
  | invalidTarget action got => "Cannot " ++ action ++ " a value of kind " ++ got
  | internal message => "internal error: " ++ message
  | returning _ | exiting _ => "control flow signal"

end Cause

end DynScript
