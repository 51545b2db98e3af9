import DynScript.Session.Modules

/-!
# Sessions

A session runs entry units, checks files and loads modules, one after the other. What it has printed and
loaded stays from one operation to the next. `fuel` bounds how deeply the steps of an evaluation may nest; an
operation that gets stuck has no result.
-/

namespace DynScript

/-- A session between two operations. -/
structure Session where
  /-- The settings. -/
  settings : Settings
  /-- What all units share. -/
  world : World
  /-- The directories of the last entry unit that could run. -/
  roots : Option SearchRoots
deriving Inhabited

/-- How an entry unit ended. -/
inductive RunStatus where
  /-- All of it was evaluated. -/
  | completed
  /-- The program asked for an exit. -/
  | exited (code : Int)
deriving DecidableEq, Repr

namespace Session

/-- A session in which nothing has happened. -/
def new (settings : Settings) (printer : Printer) (host : Host) : Session :=
  ⟨settings, .new printer host, none⟩

/-- Make a step outside of all units. -/
def outsideUnits (s : Session) (x : Eval α) : Except Stuck (Except Fault α × Session) :=
  match x.runOn (Machine.idle s.world) with
  | (.ok a, m) => .ok (.ok a, { s with world := m.world })
  | (.error (.fault fault), m) => .ok (.error fault, { s with world := m.world })
  | (.error (.stuck stuck), _) => .error stuck

/-- The evaluation of nodes in this session, given one for every way of loading modules. -/
def evaluator (s : Session) (evaluation : Loader → Evaluator) : Evaluator :=
  evaluation (.ofSession s.settings s.roots)

/-- Print a failure. -/
def report (s : Session) (e : LoadError) : Session := { s with world := s.world.report e }

/-- Read, parse and analyse a file, and print what was found. -/
def compile (s : Session) (path : Path) (role : Role) :
    Except Stuck (Except LoadError CompiledUnit × Session) :=
  match compileFile s.world.host.disk path role with
  | .error d => .error (.defect d)
  | .ok c => .ok (c.result, { s with world := s.world.emit c.queue path })

/-- Parse and analyse a file without running it. -/
def check (s : Session) (path : Path) (role : Role) : Except Stuck (Except LoadError Unit × Session) := do
  let (result, s) ← s.compile path role
  return (result.map fun _ => (), s)

/-- Load a module for a unit in a directory. -/
def loadBy (s : Session) (evaluation : Loader → Evaluator) (request : ImportRequest) :
    Except Stuck (Except Fault Value × Session) :=
  s.outsideUnits (Loader.ofSession s.settings s.roots (s.evaluator evaluation) request)

/-- Run an entry unit and then its `main`. Meanwhile no module can import it. -/
def runUnit (s : Session) (evaluation : Loader → Evaluator) (unit : CompiledUnit) :
    Except Stuck (Except LoadError RunStatus × Session) := do
  let s := { s with roots := some (s.settings.rootsFor unit.directory) }
  let eval := s.evaluator evaluation
  let run : Eval Unit := do
    Eval.modifyWorld fun w => { w with cache := w.cache.start unit.path }
    Eval.inNewMachine unit s.settings.maxDepth do
      let _ ← Eval.runUnit eval unit.program.body
      let _ ← Eval.invokeMain eval
  let (result, s) ← s.outsideUnits run
  let s := { s with world := { s.world with cache := s.world.cache.stop unit.path } }
  match result with
  | .ok () => return (.ok .completed, s)
  | .error fault =>
    match fault.cause with
    | .exiting code => return (.ok (.exited code), s)
    | _ => return (.error (.faulted unit.path fault), s)

/-- Compile an entry unit and run it. -/
def runEntryBy (s : Session) (evaluation : Loader → Evaluator) (path : Path) :
    Except Stuck (Except LoadError RunStatus × Session) := do
  match s.world.host.disk.canonical path with
  | .error e => return (.error (.unreadable path e), s)
  | .ok path =>
    match ← s.compile path .entry with
    | (.error e, s) => return (.error e, s)
    | (.ok unit, s) => s.runUnit evaluation unit

/-- Load a module when steps nest no deeper than a bound. -/
def load (s : Session) (fuel : Nat) : ImportRequest → Except Stuck (Except Fault Value × Session) :=
  s.loadBy (evalWithin · fuel)

/-- Compile and run an entry unit when steps nest no deeper than a bound. -/
def runEntry (s : Session) (fuel : Nat) : Path → Except Stuck (Except LoadError RunStatus × Session) :=
  s.runEntryBy (evalWithin · fuel)

end Session

end DynScript
