import DynScript.Proofs.Run.Manners
import DynScript.Proofs.Session.Safety

/-!
# The steps of a session

A session makes some steps outside of all units: it loads modules, and it runs entry units, each of which is in progress
meanwhile. A `Conduct` tells in which manner this is done and how nodes are evaluated. The usual conduct is that of
`Session.performAll`.
-/

namespace DynScript

/-- The same world with another cache. -/
def World.withCache (w : World) (f : ModuleCache → ModuleCache) : World := { w with cache := f w.cache }

/-- The same machine with another cache. -/
def Machine.withCache (m : Machine) (f : ModuleCache → ModuleCache) : Machine :=
  { m with world := m.world.withCache f }

namespace Session

variable {α : Type}

/-- How a session goes on after a step outside of all units. -/
def left (s : Session) : Except Interruption α × Machine → Except Stuck (Except Fault α × Session)
  | (.ok a, m) => .ok (.ok a, { s with world := m.world })
  | (.error (.fault fault), m) => .ok (.error fault, { s with world := m.world })
  | (.error (.stuck stuck), _) => .error stuck

theorem outsideUnits_eq (s : Session) (x : Eval α) :
    s.outsideUnits x = s.left (x.runFrom [] (Machine.idle s.world)) := rfl

theorem world_of_left {s : Session} {result : Except Interruption α × Machine} {outcome : Except Fault α}
    {s' : Session} (h : s.left result = .ok (outcome, s')) : s' = { s with world := result.2.world } := by
  rcases result with ⟨⟨fault | stuck⟩ | a, n⟩
  · exact (Prod.mk.inj (Except.ok.inj h)).2.symm
  · cases h
  · exact (Prod.mk.inj (Except.ok.inj h)).2.symm

/-- How the run of an entry unit ends, which is in progress no longer. -/
def ended (unit : CompiledUnit) (outcome : Except Fault Unit) (s : Session) :
    Except LoadError RunStatus × Session :=
  let s := { s with world := s.world.withCache (·.stop unit.path) }
  match outcome with
  | .ok () => (.ok .completed, s)
  | .error fault =>
    match fault.cause with
    | .exiting code => (.ok (.exited code), s)
    | _ => (.error (.faulted unit.path fault), s)

theorem world_ended (unit : CompiledUnit) (outcome : Except Fault Unit) (s : Session) :
    (ended unit outcome s).2.world = s.world.withCache (·.stop unit.path) := by
  unfold ended
  dsimp only
  split
  · rfl
  · split <;> rfl

theorem path_of_compileFile {disk : Disk} {path : Path} {role : Role} {c : Compilation} {unit : CompiledUnit}
    (h : compileFile disk path role = .ok c) (hu : c.result = .ok unit) : unit.path = path := by
  unfold compileFile DynScript.compile at h
  split at h
  · obtain rfl := Except.ok.inj h
    cases hu
  · split at h
    · obtain rfl := Except.ok.inj h
      cases hu
    · split at h
      · cases h
      · split at h <;> obtain rfl := Except.ok.inj h
        · cases hu
        · obtain rfl := Except.ok.inj hu
          rfl

/-! ## Conducts -/

/-- How a session goes about its operations. -/
structure Conduct where
  /-- The manner in which modules are made and `main` is called. -/
  manner : Manner
  /-- The evaluation of nodes. -/
  eval : Settings → Option SearchRoots → Evaluator

/-- Only nodes are evaluated in a way of their own. -/
def Conduct.evaluating (evaluation : Loader → Evaluator) : Conduct :=
  ⟨.usual, fun settings roots => evaluation (.ofSession settings roots)⟩

/-- Everything is done in one manner. -/
def Conduct.ofManner (M : Manner) (fuel : Nat) : Conduct :=
  ⟨M, fun settings roots => M.evaluator (M.loader settings roots) fuel⟩

section

variable (s : Session) (c : Conduct)

/-- Load a module for a unit in a directory. -/
def loadAs (request : ImportRequest) : Except Stuck (Except Fault Value × Session) :=
  s.outsideUnits (c.manner.loader s.settings s.roots (c.eval s.settings s.roots) request)

/-- Run an entry unit and then its `main`, in a machine of its own. -/
def entryAs (unit : CompiledUnit) : Eval Unit :=
  let eval := c.eval s.settings (some (s.settings.rootsFor unit.directory))
  Eval.inNewMachine unit s.settings.maxDepth do
    let _ ← Eval.runUnit eval unit.program.body
    let _ ← c.manner.invokeMain eval

/-- Run an entry unit and then its `main`, in a machine of its own, and evaluate nodes in this way. -/
def entry (evaluation : Loader → Evaluator) (unit : CompiledUnit) : Eval Unit := s.entryAs (.evaluating evaluation) unit

/-- Run an entry unit, which is in progress meanwhile. -/
def runUnitAs (unit : CompiledUnit) : Except Stuck (Except LoadError RunStatus × Session) := do
  let s := { s with roots := some (s.settings.rootsFor unit.directory) }
  let (outcome, s) ← s.left
    ((s.entryAs c unit).runFrom [] ((Machine.idle s.world).withCache (·.start unit.path)))
  return ended unit outcome s

/-- Compile an entry unit and run it. -/
def runEntryAs (path : Path) : Except Stuck (Except LoadError RunStatus × Session) := do
  match s.world.host.disk.canonical path with
  | .error e => return (.error (.unreadable path e), s)
  | .ok path =>
    match ← s.compile path .entry with
    | (.error e, s) => return (.error e, s)
    | (.ok unit, s) => s.runUnitAs c unit

/-- Carry out an operation. A failure is reported. -/
def performAs : Operation → Except Stuck (Outcome × Session)
  | .run path => do
    match ← s.runEntryAs c path with
    | (.error e, s) => return (.ran (.error e), s.report e)
    | (.ok status, s) => return (.ran (.ok status), s)
  | .check path role => do
    match ← s.check path role with
    | (.error e, s) => return (.checked (.error e), s.report e)
    | (.ok (), s) => return (.checked (.ok ()), s)
  | .load request => do
    let (result, s) ← s.loadAs c request
    return (.loaded result, s)
  | .edit disk =>
    return (.edited, { s with world := { s.world with host := { s.world.host with disk := disk } } })

end

/-- Carry out operations one after the other, each with a conduct of its own. -/
def performAllAs (s : Session) : List (Operation × Conduct) → Except Stuck (List Outcome × Session)
  | [] => return ([], s)
  | (operation, c) :: rest => do
    let (outcome, s) ← s.performAs c operation
    let (outcomes, s) ← s.performAllAs rest
    return (outcome :: outcomes, s)

/-- The entry unit is in progress while it runs. -/
theorem runUnit_eq (s : Session) (evaluation : Loader → Evaluator) (unit : CompiledUnit) :
    s.runUnit evaluation unit =
      ({ s with roots := some (s.settings.rootsFor unit.directory) } : Session).left
        ((s.entry evaluation unit).runFrom [] ((Machine.idle s.world).withCache (·.start unit.path))) >>=
      fun (outcome, s) => .ok (ended unit outcome s) := by
  have hrun : (Eval.modifyWorld (fun w => { w with cache := w.cache.start unit.path }) >>= fun _ =>
      s.entry evaluation unit).runFrom [] (Machine.idle s.world) =
        (s.entry evaluation unit).runFrom [] ((Machine.idle s.world).withCache (·.start unit.path)) := by
    rw [Eval.runFrom_bind]
    rfl
  rw [← hrun]
  unfold runUnit
  dsimp only
  rw [outsideUnits_eq]
  refine congrArg (Except.bind _) (funext fun (outcome, s') => ?_)
  rcases outcome with ⟨cause, position, backtrace⟩ | _
  · cases cause <;> rfl
  · rfl

theorem performAs_evaluating (s : Session) (evaluation : Loader → Evaluator) (operation : Operation) :
    s.performAs (.evaluating evaluation) operation = s.perform evaluation operation := by
  have hunit (s : Session) (unit : CompiledUnit) :
      s.runUnitAs (.evaluating evaluation) unit = s.runUnit evaluation unit := (s.runUnit_eq evaluation unit).symm
  have hentry (path : Path) : s.runEntryAs (.evaluating evaluation) path = s.runEntryBy evaluation path := by
    unfold runEntryAs runEntryBy
    cases s.world.host.disk.canonical path with
    | error e => rfl
    | ok path =>
      refine congrArg (Except.bind _) (funext fun (result, s') => ?_)
      cases result with
      | error e => rfl
      | ok unit => exact hunit s' unit
  cases operation with
  | run path =>
    show Except.bind (s.runEntryAs (.evaluating evaluation) path) _ = Except.bind (s.runEntryBy evaluation path) _
    exact congrArg₂ Except.bind (hentry path) rfl
  | check path role => rfl
  | load request => rfl
  | edit disk => rfl

/-- A session evaluates all nodes in the same way. -/
theorem performAllAs_evaluating (s : Session) (evaluation : Loader → Evaluator) (operations : List Operation) :
    s.performAllAs (operations.map (·, .evaluating evaluation)) = s.performAll evaluation operations := by
  induction operations generalizing s with
  | nil => rfl
  | cons operation rest ih => simp only [List.map_cons, performAllAs, performAll, performAs_evaluating, ih]

end Session

end DynScript
