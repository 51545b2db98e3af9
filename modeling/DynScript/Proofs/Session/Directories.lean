import DynScript.Proofs.Run.Balance
import DynScript.Proofs.Run.Invariants
import DynScript.Proofs.Run.Moments
import DynScript.Proofs.Session.Loading

/-!
# Where relative imports start from

The machine in which a unit runs keeps the directory of the unit from beginning to end. An import in the text of
the unit that is evaluated there is therefore looked up below the directory in which the file of the unit lies. A
function or a class of another unit that the unit calls runs in the same machine, so an import in its body starts
from the directory of the calling unit.
-/

namespace DynScript

/-- A unit that runs, with the number that it has among the units. -/
structure Running where
  /-- The unit. -/
  unit : CompiledUnit
  /-- Its number. -/
  id : UnitId

/-- A machine runs a unit: relative imports start from the directory of the unit, and the nodes of the unit are
found under its number. -/
structure Machine.Runs (home : Running) (m : Machine) : Prop where
  /-- The directory. -/
  directory : m.directory = home.unit.directory
  /-- The nodes. -/
  nodes : m.world.units[home.id.index]? = some home.unit.program.arena

/-- A unit that is about to run in a world. -/
def World.running (w : World) (unit : CompiledUnit) : Running := ⟨unit, (w.addUnit unit.program.arena).1⟩

namespace Machine

variable {home : Running} {m n : Machine}

/-- What a step leaves as it was includes the unit that runs. -/
theorem Restored.runs (h : m.Restored n) (hm : m.Runs home) : n.Runs home where
  directory := h.directory.trans hm.directory
  nodes := h.arena? hm.nodes

theorem invariant_runs (home : Running) : Invariant (·.Runs home) where
  shared hw hd h := ⟨hd.trans h.directory, hw ▸ h.nodes⟩
  simple hx held m := (hx.restored held m).runs

theorem runs_start (w : World) (unit : CompiledUnit) (maxDepth : Nat) :
    (start (w.addUnit unit.program.arena).2 (w.addUnit unit.program.arena).1 unit.directory maxDepth).Runs
      (w.running unit) where
  directory := rfl
  nodes := by simp [start, World.addUnit, World.running]

end Machine

namespace Eval

variable {α β : Type}

/-- Evaluate a module, whose evaluation may depend on the module, and make a record of its exports. -/
def moduleRecordBy (settings : Settings) (eval : Running → Evaluator) (path : Path) (dotted : String) :
    Eval RecordId := do
  match ← compiled path .module with
  | .error e => importFailure dotted e
  | .ok unit =>
    let home := (← get).world.running unit
    match ← attempt (inNewMachine unit settings.maxDepth (runUnit (eval home) unit.program.body)) with
    | .ok exports => onHeap fun h => h.ofEntries exports.entries
    | .error fault =>
      if fault.isSignal then throw (.fault fault)
      else importFailure dotted (.faulted path fault)

/-- Load the module in the file that an import means, whose evaluation may depend on the module. -/
def loadBy (settings : Settings) (roots : Option SearchRoots) (eval : Running → Evaluator)
    (request : ImportRequest) : Eval Value := do
  let file := (roots.getD (settings.rootsFor request.directory)).moduleFile request.root request.path
    request.directory
  let record ← loadFile file fun path => moduleRecordBy settings eval path request.dotted
  return .record record

end Eval

/-- The value of a node in a session, when the machine in which a unit runs has to run this unit at every moment;
so it has to be in the machines of the modules that are imported meanwhile. -/
noncomputable def Running.evaluator (settings : Settings) (roots : Option SearchRoots) : Nat → Running → Evaluator
  | 0, _ => fun _ => throw (.stuck .outOfFuel)
  | fuel + 1, home => fun id =>
    Eval.watching (·.Runs home) id <|
      Eval.nodeStep (fun _ => Eval.loadBy settings roots (evaluator settings roots fuel))
        (evaluator settings roots fuel home) id

namespace Eval

variable {home : Running}

/-- In a machine of its own for a unit, steps do the same that do so as long as a machine runs this unit. -/
theorem inNewMachine_running {unit : CompiledUnit} {x y : Eval α} {m : Machine}
    (h : SameWhile (·.Runs (m.world.running unit)) x y) (maxDepth : Nat) (held : List Value) :
    (inNewMachine unit maxDepth y).runFrom held m = (inNewMachine unit maxDepth x).runFrom held m :=
  congrArg (fun r => (r.1, { m with world := r.2.world }))
    (h (m.kept held) _ (Machine.runs_start m.world unit maxDepth)).2

/-- Modules are evaluated alike by evaluations that agree for each of them. -/
theorem moduleRecordBy_eq (settings : Settings) {eval : Evaluator} {eval' : Running → Evaluator}
    (he : ∀ home id, SameWhile (·.Runs home) (eval id) (eval' home id)) (path : Path) (dotted : String) :
    moduleRecordBy settings eval' path dotted = moduleRecord settings eval path dotted := by
  refine ext_runFrom fun held m => ?_
  rw [moduleRecordBy, moduleRecord, runFrom_bind, runFrom_bind]
  rcases (compiled path .module).runFrom held m with ⟨e | ⟨e | unit⟩, n⟩
  · rfl
  · rfl
  · have hrun := (SameWhile.calling (Machine.invariant_runs _)).runUnit (he (n.world.running unit)) unit.program.body
    have hsame := inNewMachine_running hrun settings.maxDepth held
    dsimp only
    rw [runFrom_bind, runFrom_get]
    dsimp only
    rw [runFrom_bind, runFrom_bind, attempt, attempt, runFrom_finishing, runFrom_finishing]
    generalize (inNewMachine unit settings.maxDepth (runUnit eval unit.program.body)).runFrom held n = r at hsame ⊢
    obtain ⟨⟨fault | stuck⟩ | exports, n'⟩ := r <;> simp only [hsame]

theorem loadBy_eq (settings : Settings) (roots : Option SearchRoots) {eval : Evaluator} {eval' : Running → Evaluator}
    (he : ∀ home id, SameWhile (·.Runs home) (eval id) (eval' home id)) (request : ImportRequest) :
    loadBy settings roots eval' request = Loader.ofSession settings roots eval request := by
  rw [loadBy, ofSession_eq, funext fun path => moduleRecordBy_eq settings he path request.dotted]

/-- In the run of a unit the machine runs this unit at every moment. -/
theorem SameWhile.running (settings : Settings) (roots : Option SearchRoots) (fuel : Nat) (home : Running)
    (id : NodeId) :
    SameWhile (·.Runs home) (evalWithin (.ofSession settings roots) fuel id)
      (home.evaluator settings roots fuel id) := by
  induction fuel generalizing home id with
  | zero => exact throw _
  | succ fuel ih =>
    have heval := Restoring.congruence.evalWithin Restoring.nodeIn Restoring.assignee (.session settings roots) fuel
    refine ((calling (Machine.invariant_runs home)).nodeStep (fun id => ih home id) (fun request => ?_)
      (fun unit id => looking (.nodeIn unit id)) (fun unit id => looking (.assignee unit id)) id).watching id
    rw [loadBy_eq settings roots ih]
    have hload : Restoring (Loader.ofSession settings roots (evalWithin (.ofSession settings roots) fuel) request) :=
      @Loading.ofSession _ Restoring.congruence.toLoading _ (evalWithin (.ofSession settings roots) fuel) heval settings
        roots request
    exact keeping fun held m => (hload held m).runs

/-- A relative import asks for the file that its path means below the directory of the machine. -/
theorem runFrom_relative_import (settings : Settings) (roots : Option SearchRoots) (eval : Evaluator) {id : NodeId}
    {path : List String} {position : Option Position} (held : List Value) {m : Machine}
    (hn : m.world.node? m.unit id = some ⟨.imports .relative path, position⟩) :
    (nodeStep (.ofSession settings roots) eval id).runFrom held m =
      (locating position (loadFile ((m.directory.joinAll path).withExtension unitExtension) (fun file =>
          moduleRecord settings eval file (".".intercalate path)) >>= fun record =>
        pure (.record record))).runFrom held m := by
  rw [runFrom_nodeStep, hn]
  dsimp only [locating, mapFault]
  rw [runFrom_finishing, runFrom_finishing, nodeKind]
  dsimp only
  rw [runFrom_bind, runFrom_get]
  dsimp only
  rw [ofSession_eq]
  rfl

end Eval

/-- The run of an entry unit, in whose machine the unit runs at every moment. -/
theorem Session.runUnit_running (s : Session) (unit : CompiledUnit) (fuel : Nat) :
    s.runUnit (fun _ => (s.world.running unit).evaluator s.settings (some (s.settings.rootsFor unit.directory)) fuel)
        unit = s.runUnit (evalWithin · fuel) unit := by
  have H := Eval.SameWhile.calling (Machine.invariant_runs (s.world.running unit))
  have heval := Eval.SameWhile.running s.settings (some (s.settings.rootsFor unit.directory)) fuel
    (s.world.running unit)
  have hrun := H.bind (H.runUnit heval unit.program.body) fun _ =>
    H.bind (H.invokeMain heval) fun _ => H.still (.pure ())
  rw [runUnit_eq, runUnit_eq]
  exact congrArg (fun result => ({ s with roots := some (s.settings.rootsFor unit.directory) } : Session).left result >>=
      fun r => .ok (ended unit r.1 r.2))
    (Eval.inNewMachine_running (m := (Machine.idle s.world).withCache (·.start unit.path)) hrun s.settings.maxDepth [])

/-- In the runs of entry units and in the evaluation of modules, whatever these import and call, the machine of a
unit runs this unit at every moment. When it evaluates a relative import, the module is looked up below the directory
of the unit that runs, which is the one of its file. So an import in the text of this unit starts from the directory
of the text. An import in a function of another unit that is called does not. -/
theorem relative_imports_start_from_their_directory (fuel : Nat) :
    (∀ (s : Session) (unit : CompiledUnit),
      s.runUnit (fun _ => (s.world.running unit).evaluator s.settings (some (s.settings.rootsFor unit.directory))
          fuel) unit =
        s.runUnit (evalWithin · fuel) unit) ∧
      (∀ settings roots request,
        Eval.loadBy settings roots (Running.evaluator settings roots fuel) request =
          Loader.ofSession settings roots (evalWithin (.ofSession settings roots) fuel) request) ∧
      (∀ (home : Running) (m : Machine), m.Runs home →
        (m.unit = home.id → ∀ id, m.world.node? m.unit id = home.unit.program.arena.get? id) ∧
        ∀ id path position, m.world.node? m.unit id = some ⟨.imports .relative path, position⟩ →
          ∀ settings roots eval held,
            (Eval.nodeStep (.ofSession settings roots) eval id).runFrom held m =
              (Eval.locating position (Eval.loadFile
                  ((home.unit.directory.joinAll path).withExtension unitExtension) (fun file =>
                    Eval.moduleRecord settings eval file (".".intercalate path)) >>= fun record =>
                pure (.record record))).runFrom held m) ∧
      ∀ disk path role c unit, compileFile disk path role = .ok c → c.result = .ok unit →
        unit.directory = path.parent?.getD ⟨"."⟩ := by
  refine ⟨fun s unit => s.runUnit_running unit fuel, fun settings roots request => ?_, fun home m hm => ⟨?_, ?_⟩,
    fun disk path role c unit hc hu => ?_⟩
  · exact Eval.loadBy_eq settings roots (Eval.SameWhile.running settings roots fuel) request
  · intro hunit id
    rw [World.node?, hunit, hm.nodes]
    rfl
  · intro id path position hnode settings roots eval held
    rw [Eval.runFrom_relative_import settings roots eval held hnode, hm.directory]
  · rw [CompiledUnit.directory, Session.path_of_compileFile hc hu]

/-- A module in another directory than the unit that starts a session is what an import of its text means. -/
theorem relative_import_below_library :
    let node : Node := ⟨.imports .relative ["helper"], none⟩
    let unit : CompiledUnit := ⟨⟨"/lib/m.blu"⟩, "import helper", .module, ⟨⟨#[node]⟩, ⟨0⟩⟩⟩
    let added := (World.new .silent .empty).addUnit unit.program.arena
    let m := Machine.start added.2 added.1 unit.directory 7
    m.Runs ((World.new .silent .empty).running unit) ∧ m.world.node? m.unit ⟨0⟩ = some node ∧
      unit.directory = ⟨"/lib"⟩ ∧
      ∀ settings roots eval held,
        (Eval.nodeStep (.ofSession settings roots) eval ⟨0⟩).runFrom held m =
          (Eval.locating none (Eval.loadFile ⟨"/lib/helper.blu"⟩ (fun file =>
              Eval.moduleRecord settings eval file "helper") >>= fun record => pure (.record record))).runFrom held m := by
  intro node unit added m
  have hruns := Machine.runs_start (.new .silent .empty) unit 7
  have hnode : m.world.node? m.unit ⟨0⟩ = some node := rfl
  have hfile : (unit.directory.joinAll ["helper"]).withExtension unitExtension = ⟨"/lib/helper.blu"⟩ := by
    decide +kernel
  refine ⟨hruns, hnode, by decide +kernel, fun settings roots eval held => ?_⟩
  have himport := ((relative_imports_start_from_their_directory 0).2.2.1 ((World.new .silent .empty).running unit) m
    hruns).2 ⟨0⟩ ["helper"] none hnode settings roots eval held
  rwa [show ((World.new .silent .empty).running unit).unit = unit from rfl, hfile] at himport

end DynScript
