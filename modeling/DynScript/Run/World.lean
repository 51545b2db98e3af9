import DynScript.Files.Disk
import DynScript.Module.Cache
import DynScript.Run.Printer
import DynScript.Tree.Arena
import DynScript.Value.Heap

/-!
# Worlds

What all units of a session share: the records, the nodes of all units, the modules that have been loaded,
the printer, and the host with its files, variables and clock.
-/

namespace DynScript

/-- What a clock shows at one moment. -/
structure Reading where
  /-- The nanoseconds since the start of 1970. The clock may be set to a time before. -/
  wall : Int
  /-- The nanoseconds that have gone by since a moment that stays the same, however the clock is set. -/
  steady : Nat
deriving DecidableEq, Repr, Inhabited

/-- A clock, given by what it shows at each reading, and how often it has been read. -/
structure Clock where
  /-- What it shows at a reading, the readings being counted from 0. -/
  readings : Nat → Reading
  /-- The number of readings so far. -/
  made : Nat
deriving Inhabited

namespace Clock

/-- A clock that stands still at the start of 1970. -/
def still : Clock := ⟨fun _ => ⟨0, 0⟩, 0⟩

/-- What the clock shows, and the clock after it was read. -/
def read (clock : Clock) : Reading × Clock := (clock.readings clock.made, { clock with made := clock.made + 1 })

/-- The nanoseconds of a second. -/
def perSecond : Nat := 1000000000

/-- A number of nanoseconds in seconds: the whole seconds, and then the rest of them. -/
def seconds (nanoseconds : Nat) : Float :=
  Float.ofNat (nanoseconds / perSecond) + Float.ofNat (nanoseconds % perSecond) / Float.ofNat perSecond

end Clock

/-- What a program finds around itself. -/
structure Host where
  /-- The files. -/
  disk : Disk
  /-- The variables with their values. -/
  vars : List (String × String)
  /-- The clock. -/
  clock : Clock
deriving Inhabited

namespace Host

/-- A host without files and variables. -/
def empty : Host := ⟨.empty, [], .still⟩

/-- What follows a name and an equals sign in a text that starts with them. -/
def assigned? (name text : String) : Option String :=
  ((name ++ "=").toList.isPrefixOf? text.toList).map String.ofList

/-- The value of a variable. Variables are kept as texts, a name with its value after an equals sign, so a
name that goes on past that sign finds the rest of the value. No variable has an empty name. -/
def valueOf? (host : Host) (name : String) : Option String :=
  if name = "" then none
  else host.vars.findSome? fun (key, value) => assigned? name (key ++ "=" ++ value)

end Host

/-- What all units of a session share. -/
structure World where
  /-- The records. -/
  heap : Heap
  /-- The nodes of the units, by number. -/
  units : Array Arena
  /-- The modules that have been loaded. -/
  cache : ModuleCache
  /-- Where lines are printed. -/
  printer : Printer
  /-- What the host provides. -/
  host : Host
deriving Inhabited

namespace World

/-- A world in which nothing has happened. -/
def new (printer : Printer) (host : Host) : World := ⟨.empty, #[], .empty, printer, host⟩

/-- Add a unit; its number is the number of units before. -/
def addUnit (w : World) (arena : Arena) : UnitId × World :=
  (⟨w.units.size⟩, { w with units := w.units.push arena })

/-- A node of a unit. -/
def node? (w : World) (unit : UnitId) (id : NodeId) : Option Node :=
  (w.units[unit.index]?).bind fun arena => arena.get? id

/-- Print a line. -/
def println (w : World) (line : String) : World := { w with printer := w.printer.println line }

end World

end DynScript
