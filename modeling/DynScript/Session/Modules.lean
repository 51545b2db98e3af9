import DynScript.Module.Locate
import DynScript.Run.Unit
import DynScript.Session.Settings
import DynScript.Session.Unit

/-!
# Loading modules

An import of a module that has not been loaded compiles the file and runs it in a machine of its own; its
exports become the properties of a record, which all importers share. A module that fails is reported where
that happens, and its importer sees a fault of the import. A signal passes through: an exit inside a module
ends the whole run.
-/

namespace DynScript

namespace World

/-- Print what compiling a file has found. -/
def emit (w : World) (queue : Queue) (path : Path) : World :=
  queue.flush.1.foldl (fun w d => w.println (d.render path.text)) w

/-- Print a failure. -/
def report (w : World) (e : LoadError) : World := w.println e.report

end World

namespace Settings

/-- The directories for a session whose entry unit is in a directory. -/
def rootsFor (s : Settings) (entryDir : Path) : SearchRoots := ⟨entryDir, s.stdDirFor entryDir⟩

end Settings

namespace Eval

/-- Change what all units share. -/
def modifyWorld (f : World → World) : Eval Unit := modify fun m => { m with world := f m.world }

/-- The record of a module: the one in the cache, or the one that a step makes. A module that is being
evaluated cannot be imported, and a step that fails leaves nothing in the cache. -/
def loadOnce (path : Path) (make : Eval RecordId) : Eval RecordId := do
  match (← get).world.cache.status path with
  | .loaded record => return record
  | .inProgress => fail (.circularImport path.text)
  | .unknown =>
    modifyWorld fun w => { w with cache := w.cache.start path }
    let record ← afterwards
      (fun m => { m with world := { m.world with cache := m.world.cache.stop path } }) make
    modifyWorld fun w => { w with cache := w.cache.insert path record }
    return record

/-- Read, parse and analyse a file, and print what was found. -/
def compiled (path : Path) (role : Role) : Eval (Except LoadError CompiledUnit) := do
  match compileFile (← get).world.host.disk path role with
  | .error d => defect d
  | .ok c =>
    modifyWorld fun w => w.emit c.queue path
    return c.result

/-- Make a step in a machine of its own for a unit. What the machine around it keeps is held meanwhile. -/
def inNewMachine (unit : CompiledUnit) (maxDepth : Nat) (x : Eval α) : Eval α := fun held => do
  let outer ← getThe Machine
  let (id, world) := outer.world.addUnit unit.program.arena
  set (Machine.start world id unit.directory maxDepth)
  afterwards (fun m => { outer with world := m.world }) x (outer.kept held)

/-- Report the failure of a module, which is a fault for its importer. -/
def importFailure (dotted : String) (e : LoadError) : Eval α := do
  modifyWorld fun w => w.report e
  fail (.importFailed dotted e.reason)

/-- Evaluate a module and make a record of its exports. -/
def moduleRecord (settings : Settings) (eval : Evaluator) (path : Path) (dotted : String) :
    Eval RecordId := do
  match ← compiled path .module with
  | .error e => importFailure dotted e
  | .ok unit =>
    match ← attempt (inNewMachine unit settings.maxDepth (runUnit eval unit.program.body)) with
    | .ok exports => onHeap fun h => h.ofEntries exports.entries
    | .error fault =>
      if fault.isSignal then throw (.fault fault)
      else importFailure dotted (.faulted path fault)

end Eval

/-- Load modules as a session does. Before an entry unit has told its directory, that of the importing unit
stands for it. -/
def Loader.ofSession (settings : Settings) (roots : Option SearchRoots) : Loader := fun eval request => do
  let roots := roots.getD (settings.rootsFor request.directory)
  let file := roots.moduleFile request.root request.path request.directory
  let path ← Eval.ofExcept ((← get).world.host.disk.canonicalModule file)
  return .record (← Eval.loadOnce path (Eval.moduleRecord settings eval path request.dotted))

end DynScript
