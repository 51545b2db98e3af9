import DynScript.Source.Position

/-!
# Declarations and scopes

A `Declaration` is a name with what analysis knows about it. A `Scope` is a list of declarations, the latest
first, so that the first one of a name is the one in force.
-/

namespace DynScript

/-- A declared name. -/
structure Declaration where
  /-- The name. -/
  name : String
  /-- Where it is declared; nowhere for names that the language itself brings into scope. -/
  position : Option Position
  /-- Whether the name may not be declared again in the same scope. -/
  isFinal : Bool
  /-- Whether the name may be assigned. -/
  isMutable : Bool
deriving DecidableEq, Repr

/-- The declarations of one scope, the latest first. -/
structure Scope where
  /-- The declarations, the latest first. -/
  declarations : List Declaration
deriving DecidableEq, Repr

namespace Scope

/-- A scope without declarations. -/
def empty : Scope := ⟨[]⟩

/-- The latest declaration of a name. -/
def find? (s : Scope) (name : String) : Option Declaration :=
  s.declarations.find? fun d => d.name = name

/-- Add a declaration, which is then the latest. -/
def push (s : Scope) (d : Declaration) : Scope := ⟨d :: s.declarations⟩

/-- How many declarations the scope has, counting each one of a name. -/
def size (s : Scope) : Nat := s.declarations.length

end Scope

end DynScript
