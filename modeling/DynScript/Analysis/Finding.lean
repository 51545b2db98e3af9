import DynScript.Diagnostic.Basic

/-!
# What analysis finds

Every complaint of the analysis, with its code, its severity and its words.
-/

namespace DynScript

/-- A complaint of the analysis. -/
inductive Finding where
  /-- A name is used that is declared nowhere. -/
  | unknownIdentifier (name : String)
  /-- An export lists a name twice. -/
  | duplicateExport (name : String)
  /-- The entry unit exports. -/
  | exportFromEntry
  /-- A function has two parameters of a name. -/
  | duplicateParameter (name : String)
  /-- A name is assigned that is not mutable. -/
  | immutableAssignment (name : String)
  /-- A name is assigned that is declared nowhere. -/
  | unknownAssignment (name : String)
  /-- A name that is final in a scope is declared again there. -/
  | finalRedeclaration (name : String)
  /-- A record or an object has two fields of a name. -/
  | duplicateField (name : String)
  /-- A return stands outside of all functions. -/
  | returnOutsideFunction
  /-- A pipe leads into something that is not a call. -/
  | pipeIntoNonCall
  /-- An object literal is called. -/
  | callOnObject
  /-- An object is composed from a name that is declared nowhere. -/
  | unknownComposition (name : String)
  /-- An export lists a name that is declared nowhere. -/
  | unknownExport (name : String)
  /-- A constructor has two parameters of a name. -/
  | duplicateConstructorParameter (name : String)
  /-- An object is composed twice from a name. -/
  | duplicateComposition (name : String)
  /-- The top level binds `main` without `final`. -/
  | mainNotFinal
deriving DecidableEq, Repr

namespace Finding

/-- The code of a finding. -/
def code : Finding → Code
  | unknownIdentifier _ => .unknownIdentifier
  | duplicateExport _ => .duplicateExport
  | exportFromEntry => .exportFromEntry
  | duplicateParameter _ => .duplicateParameter
  | immutableAssignment _ => .immutableAssignment
  | unknownAssignment _ => .unknownAssignment
  | finalRedeclaration _ => .finalRedeclaration
  | duplicateField _ => .duplicateField
  | returnOutsideFunction => .returnOutsideFunction
  | pipeIntoNonCall => .pipeIntoNonCall
  | callOnObject => .callOnObject
  | unknownComposition _ => .unknownComposition
  | unknownExport _ => .unknownExport
  | duplicateConstructorParameter _ => .duplicateConstructorParameter
  | duplicateComposition _ => .duplicateComposition
  | mainNotFinal => .mainNotFinal

/-- The three findings of the last group are warnings, all others errors. -/
def severity : Finding → Severity
  | duplicateConstructorParameter _ | duplicateComposition _ | mainNotFinal => .warning
  | _ => .error

/-- The words of a finding. -/
def message : Finding → String
  | unknownIdentifier name => "Identifier '" ++ name ++ "' does not exist"
  | duplicateExport name => "Item '" ++ name ++ "' has already been exported"
  | exportFromEntry => "Cannot export from the entry unit"
  | duplicateParameter name => "Parameter '" ++ name ++ "' has already been defined"
  | immutableAssignment name => "Binding '" ++ name ++ "' is not mutable"
  | unknownAssignment name => "Binding '" ++ name ++ "' does not exist in any scope"
  | finalRedeclaration name =>
    "Cannot overwrite '" ++ name ++ "' in current scope, as it's marked as final"
  | duplicateField name => "Field '" ++ name ++ "' is already defined in this record"
  | returnOutsideFunction => "Cannot use return outside of functions"
  | pipeIntoNonCall => "Right-hand side of a pipe must be a function call"
  | callOnObject => "Cannot call an object literal"
  | unknownComposition name => "Cannot compose with '" ++ name ++ "' as it does not exist"
  | unknownExport name => "Cannot export item '" ++ name ++ "' which does not exist"
  | duplicateConstructorParameter name => "Record constructor already contains '" ++ name ++ "'"
  | duplicateComposition name => "Already composing object with '" ++ name ++ "'"
  | mainNotFinal => "main should be marked as final"

/-- A finding at a place. -/
def toDiagnostic (f : Finding) (position : Option Position) : Diagnostic :=
  ⟨f.code, f.severity, f.message, position, []⟩

end Finding

end DynScript
