/-!
# Codes of diagnostics

Every complaint about a program carries a code. The first digit tells the phase that found it: 0 reading
tokens, 1 reading the grammar, 2 analysis, 6 running, 9 a defect of the interpreter itself.
-/

namespace DynScript

/-- The phases that complain. -/
inductive Phase where
  | lexing | parsing | analysis | running | internal
deriving DecidableEq, Repr

/-- The kinds of complaint. -/
inductive Code where
  | unterminatedString | invalidCharacter | invalidEscape
  | unexpectedToken | expectedExpression | invalidAssignTarget | expectedIdentifier
  | unknownIdentifier | duplicateExport | exportFromEntry | duplicateParameter | immutableAssignment
  | unknownAssignment | finalRedeclaration | duplicateField | returnOutsideFunction | pipeIntoNonCall
  | callOnObject | unknownComposition | unknownExport
  | duplicateConstructorParameter | duplicateComposition | mainNotFinal
  | notCallable | arityMismatch | wrongOperand | unboundName | indexOutOfRange | nonBooleanCondition
  | nonNumericBound | missingProperty | stackExhausted | importNotFound | importFailed | circularImport
  | nativeFailed | invalidTarget | duplicateFieldAtRun
  | internal
deriving DecidableEq, Repr

namespace Code

/-- All codes, in the order of their numbers. -/
def all : List Code :=
  [unterminatedString, invalidCharacter, invalidEscape,
    unexpectedToken, expectedExpression, invalidAssignTarget, expectedIdentifier,
    unknownIdentifier, duplicateExport, exportFromEntry, duplicateParameter, immutableAssignment,
    unknownAssignment, finalRedeclaration, duplicateField, returnOutsideFunction, pipeIntoNonCall,
    callOnObject, unknownComposition, unknownExport,
    duplicateConstructorParameter, duplicateComposition, mainNotFinal,
    notCallable, arityMismatch, wrongOperand, unboundName, indexOutOfRange, nonBooleanCondition,
    nonNumericBound, missingProperty, stackExhausted, importNotFound, importFailed, circularImport,
    nativeFailed, invalidTarget, duplicateFieldAtRun,
    internal]

/-- The code as it is written. -/
def text : Code → String
  | unterminatedString => "E0001"
  | invalidCharacter => "E0002"
  | invalidEscape => "E0003"
  | unexpectedToken => "E1001"
  | expectedExpression => "E1002"
  | invalidAssignTarget => "E1003"
  | expectedIdentifier => "E1004"
  | unknownIdentifier => "E2001"
  | duplicateExport => "E2002"
  | exportFromEntry => "E2003"
  | duplicateParameter => "E2004"
  | immutableAssignment => "E2005"
  | unknownAssignment => "E2006"
  | finalRedeclaration => "E2007"
  | duplicateField => "E2008"
  | returnOutsideFunction => "E2009"
  | pipeIntoNonCall => "E2010"
  | callOnObject => "E2011"
  | unknownComposition => "E2012"
  | unknownExport => "E2013"
  | duplicateConstructorParameter => "E2101"
  | duplicateComposition => "E2102"
  | mainNotFinal => "E2103"
  | notCallable => "E6001"
  | arityMismatch => "E6002"
  | wrongOperand => "E6003"
  | unboundName => "E6004"
  | indexOutOfRange => "E6005"
  | nonBooleanCondition => "E6006"
  | nonNumericBound => "E6007"
  | missingProperty => "E6008"
  | stackExhausted => "E6009"
  | importNotFound => "E6010"
  | importFailed => "E6011"
  | circularImport => "E6012"
  | nativeFailed => "E6013"
  | invalidTarget => "E6014"
  | duplicateFieldAtRun => "E6015"
  | internal => "E9001"

/-- The phase that raises a code. -/
def phase : Code → Phase
  | unterminatedString | invalidCharacter | invalidEscape => .lexing
  | unexpectedToken | expectedExpression | invalidAssignTarget | expectedIdentifier => .parsing
  | unknownIdentifier | duplicateExport | exportFromEntry | duplicateParameter | immutableAssignment
  | unknownAssignment | finalRedeclaration | duplicateField | returnOutsideFunction | pipeIntoNonCall
  | callOnObject | unknownComposition | unknownExport
  | duplicateConstructorParameter | duplicateComposition | mainNotFinal => .analysis
  | notCallable | arityMismatch | wrongOperand | unboundName | indexOutOfRange | nonBooleanCondition
  | nonNumericBound | missingProperty | stackExhausted | importNotFound | importFailed
  | circularImport | nativeFailed | invalidTarget | duplicateFieldAtRun => .running
  | internal => .internal

/-- A few words on what a code means. -/
def description : Code → String
  | unterminatedString => "unterminated string literal"
  | invalidCharacter => "invalid character in source"
  | invalidEscape => "invalid escape sequence"
  | unexpectedToken => "unexpected token"
  | expectedExpression => "expected expression"
  | invalidAssignTarget => "invalid assignment target"
  | expectedIdentifier => "expected identifier"
  | unknownIdentifier => "identifier not found"
  | duplicateExport => "duplicate export"
  | exportFromEntry => "export from the entry unit"
  | duplicateParameter => "duplicate parameter"
  | immutableAssignment => "reassignment of immutable binding"
  | unknownAssignment => "assignment to unknown binding"
  | finalRedeclaration => "binding shadows final binding"
  | duplicateField => "duplicate record field"
  | returnOutsideFunction => "return outside function"
  | pipeIntoNonCall => "pipe target is not a call"
  | callOnObject => "call on object literal"
  | unknownComposition => "composition from unknown binding"
  | unknownExport => "export of unknown binding"
  | duplicateConstructorParameter => "duplicate object parameter"
  | duplicateComposition => "duplicate composition source"
  | mainNotFinal => "main is not final"
  | notCallable => "value is not callable"
  | arityMismatch => "arity mismatch"
  | wrongOperand => "wrong operand kind"
  | unboundName => "unresolvable binding"
  | indexOutOfRange => "index out of range"
  | nonBooleanCondition => "non-boolean condition"
  | nonNumericBound => "non-numeric range bound"
  | missingProperty => "record or property not found"
  | stackExhausted => "stack exhausted"
  | importNotFound => "import not found"
  | importFailed => "import failed"
  | circularImport => "circular import"
  | nativeFailed => "native function failed"
  | invalidTarget => "invalid target"
  | duplicateFieldAtRun => "duplicate record field"
  | internal => "internal error"

end Code

end DynScript
