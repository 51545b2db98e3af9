import DynScript.Proofs.Run.Traversal

/-!
# Relations that a whole session keeps

The loading of modules and the runs of units are put together in the same few ways as the evaluation of
nodes, so they keep every `Eval.Congruence`, too.
-/

namespace DynScript

/-- How imports are served. -/
inductive Imports where
  /-- Every import fails. -/
  | unserved
  /-- A session loads modules, once its entry unit has told the directories or before. -/
  | session (settings : Settings) (roots : Option SearchRoots)

/-- The loader that serves imports in this way. -/
def Imports.loader : Imports → Loader
  | unserved => .none
  | session settings roots => .ofSession settings roots

/-- The file that an import means in a session. -/
def Settings.fileOf (settings : Settings) (roots : Option SearchRoots) (request : ImportRequest) : Path :=
  (roots.getD (settings.rootsFor request.directory)).moduleFile request.root request.path request.directory

namespace Eval

variable {α : Type}

namespace Plain

/-- A change of the world that has nothing to do with the units and modules, and takes no file away. -/
theorem modifyWorld (f : World → World)
    (hf : ∀ w units, f (w.withUnits units) = (f w).withUnits units)
    (hk : ∀ w : World, w.Keeps (f w)) : Plain (Eval.modifyWorld f) := by
  refine .change _ (fun m => ⟨rfl, rfl, rfl, rfl, rfl, ?_⟩) (fun m units maxDepth => ?_) fun m => hk m.world
  · show _ <+: (f m.world).units.toList
    rw [show f m.world = (f m.world).withUnits m.world.units from hf m.world m.world.units]
    exact List.prefix_rfl
  · exact congrArg (fun w => ((), { m.withMaxDepth maxDepth with world := w })) (hf m.world units)

/-- What compiling finds is printed, and that is all. -/
theorem keeps_emit (w : World) (queue : Queue) (path : Path) : w.Keeps (w.emit queue path) := by
  unfold World.emit
  induction queue.flush.1 generalizing w with
  | nil => exact .refl w
  | cons d rest ih => exact (World.Keeps.println w (d.render path.text)).trans (ih _)

/-- What compiling finds is printed alike whatever the units are. -/
theorem emit_withUnits (w : World) (queue : Queue) (path : Path) (units : Array Arena) :
    (w.withUnits units).emit queue path = (w.emit queue path).withUnits units := by
  unfold World.emit
  induction queue.flush.1 generalizing w with
  | nil => rfl
  | cons d rest ih => exact ih (w.println _)

end Plain

namespace Still

theorem modifyWorld {f : World → World} (hf : Plain (Eval.modifyWorld f)) (h : ∀ w, (f w).heap = w.heap) :
    Still (Eval.modifyWorld f) := by
  refine change (.change hf fun m hm => ?_) (fun m => rfl) fun m => ?_
  · show (f m.world).heap.PointsBack
    rwa [h]
  · show m.world.heap.GrowsTo (f m.world).heap
    rw [h]

/-- What compiling finds is printed, and the heap stays. -/
theorem heap_emit (w : World) (queue : Queue) (path : Path) : (w.emit queue path).heap = w.heap := by
  unfold World.emit
  induction queue.flush.1 generalizing w with
  | nil => rfl
  | cons d rest ih => exact ih (w.println _)

theorem compiled (path : Path) (role : Role) : Still (Eval.compiled path role) := by
  refine reading fun m => ?_
  split
  · exact defect _
  · refine bind (modifyWorld ?_ fun w => heap_emit ..) fun _ => pure _
    exact .modifyWorld _ (fun w units => Plain.emit_withUnits ..) fun w => Plain.keeps_emit ..

theorem importFailure (dotted : String) (e : LoadError) : Still (Eval.importFailure dotted e : Eval α) :=
  bind (modifyWorld (.modifyWorld _ (fun _ _ => rfl) fun w => .println w e.report) fun _ => rfl) fun _ => fail nofun

end Still

namespace Ending

theorem attempt : Ending (β := Except Fault α) fun
    | .ok (a : α), m => (.ok (.ok a), m)
    | .error (.fault fault), m => (.ok (.error fault), m)
    | .error interruption, m => (.error interruption, m) where
  restored result m := by split <;> rfl
  unseen result m units maxDepth := by rcases result with ⟨_ | _⟩ | _ <;> rfl
  stuck _ _ := rfl
  world result m := by split <;> rfl
  env result m := by split <;> rfl

theorem returned : Ending (α := Value) fun
    | .ok _, m => (.ok false, m)
    | .error (.fault ⟨.returning _, _, _⟩), m => (.ok true, m)
    | .error interruption, m => (.error interruption, m) where
  restored result m := by split <;> rfl
  unseen result m units maxDepth := by
    rcases result with ⟨⟨cause, position, backtrace⟩ | _⟩ | _ <;> try rfl
    cases cause <;> rfl
  stuck _ _ := rfl
  world result m := by split <;> rfl
  env result m := by split <;> rfl

end Ending

theorem Passing.returned : Passing (α := Value) fun
    | .ok _, m => (.ok false, m)
    | .error (.fault ⟨.returning _, _, _⟩), m => (.ok true, m)
    | .error interruption, m => (.error interruption, m) where
  toEnding := .returned
  passes fault m h := by
    obtain ⟨cause, position, backtrace⟩ := fault
    cases cause with
    | returning value => exact absurd rfl (h value)
    | _ => exact ⟨_, rfl, rfl⟩

/-- In all manners a session loads the module in the file that the import means. -/
theorem loader_eq (M : Manner) (settings : Settings) (roots : Option SearchRoots) (eval : Evaluator)
    (request : ImportRequest) :
    M.loader settings roots eval request =
      (located (settings.fileOf roots request) >>= fun path =>
        M.known path (M.moduleRecord settings eval path request.dotted)) >>= fun record => pure (.record record) := by
  simp only [Manner.loader, located, bind_assoc, Settings.fileOf]

theorem ofSession_eq (settings : Settings) (roots : Option SearchRoots) (eval : Evaluator)
    (request : ImportRequest) :
    Loader.ofSession settings roots eval request =
      (loadFile ((roots.getD (settings.rootsFor request.directory)).moduleFile request.root request.path
          request.directory) fun path => moduleRecord settings eval path request.dotted) >>= fun record =>
        pure (.record record) :=
  loader_eq .usual settings roots eval request

namespace Invoking

variable {T : ∀ {α : Type}, Eval α → Eval α → Prop} (H : Invoking @T) {eval eval' : Evaluator}
  (he : ∀ id, T (eval id) (eval' id))
include H he

theorem unitStatements (items : List NodeId) :
    T (unitStatements eval items) (unitStatements eval' items) := by
  induction items with
  | nil => exact H.still (.pure _)
  | cons statement rest ih =>
    refine H.bind (H.passing .returned (he statement)) fun ended => ?_
    split
    · exact H.still (.pure _)
    · exact ih

theorem runUnit (bodyId : NodeId) : T (runUnit eval bodyId) (runUnit eval' bodyId) := by
  refine H.reading fun m => ?_
  refine H.bind ?_ fun items => H.bind (H.unitStatements (H.within he m.unit) items) fun _ =>
    H.still (.change (.change ?_))
  · exact H.reading fun m => H.bind (H.blockItems? m.unit bodyId) fun items => H.still (.pure _)
  · exact .change _ (fun _ => ⟨rfl, rfl, rfl, rfl, rfl, List.prefix_rfl⟩) fun _ _ _ => rfl

end Invoking

namespace Calling

variable {T : ∀ {α : Type}, Eval α → Eval α → Prop} (H : Calling @T) {eval eval' : Evaluator}
  (he : ∀ id, T (eval id) (eval' id))
include H he

theorem invokeMainInManner {M M' : Manner} (hM : Alike @T M M') : T (M.invokeMain eval) (M'.invokeMain eval') := by
  refine H.bind (hM.find _) fun value => ?_
  split
  · refine H.bind (H.functionParts _) fun (params, bodyId) => ?_
    dsimp only
    split
    · exact H.bind (H.callInManner he hM ..) fun _ => H.still (.pure _)
    · exact H.still (.pure _)
  · exact H.still (.pure _)

theorem invokeMain : T (invokeMain eval) (invokeMain eval') := H.invokeMainInManner he H.usual

/-- A step towards the value of a node in two manners, if the nodes are looked up alike and imports are served
alike. -/
theorem nodeStepInManner {M M' : Manner} (hM : Alike @T M M') {load load' : Loader}
    (hl : ∀ request, T (load eval request) (load' eval' request)) (hn : ∀ unit id, T (nodeIn unit id) (nodeIn unit id))
    (ha : ∀ unit id, T (assignee unit id) (assignee unit id)) (id : NodeId) :
    T (M.nodeStep load eval id) (M'.nodeStep load' eval' id) := by
  refine H.reading fun m => H.bind (hn m.unit id) fun node => H.locating _ ?_
  exact H.nodeInManner hM (H.within he m.unit) he hl m.unit id node fun target _ _ => ha m.unit target

/-- A step towards the value of a node, if the nodes are looked up alike and imports are served alike. -/
theorem nodeStep {load load' : Loader} (hl : ∀ request, T (load eval request) (load' eval' request))
    (hn : ∀ unit id, T (nodeIn unit id) (nodeIn unit id)) (ha : ∀ unit id, T (assignee unit id) (assignee unit id))
    (id : NodeId) : T (nodeStep load eval id) (nodeStep load' eval' id) := by
  rw [← Manner.nodeStep_usual, ← Manner.nodeStep_usual]
  exact H.nodeStepInManner he H.usual hl hn ha id

omit he in
/-- In two manners the values of nodes are found alike, if imports are served alike. -/
theorem evaluatorInManner {M M' : Manner} (hM : Alike @T M M') {load load' : Loader}
    (hl : ∀ {eval eval' : Evaluator}, (∀ id, T (eval id) (eval' id)) →
      ∀ request, T (load eval request) (load' eval' request))
    (hn : ∀ unit id, T (nodeIn unit id) (nodeIn unit id)) (ha : ∀ unit id, T (assignee unit id) (assignee unit id))
    (fuel : Nat) (id : NodeId) : T (M.evaluator load fuel id) (M'.evaluator load' fuel id) := by
  induction fuel generalizing id with
  | zero => exact H.still (.stuck _)
  | succ fuel ih => exact H.nodeStepInManner ih hM (hl ih) hn ha id

end Calling

namespace Loading

variable {T : ∀ {α : Type}, Eval α → Eval α → Prop} (H : Loading @T)
include H

section

variable {eval eval' : Evaluator} (he : ∀ id, T (eval id) (eval' id))
include he

theorem moduleRecord (settings : Settings) (path : Path) (dotted : String) :
    T (moduleRecord settings eval path dotted) (moduleRecord settings eval' path dotted) := by
  refine H.bind (H.still (.compiled ..)) fun result => ?_
  cases result with
  | error e => exact H.still (.importFailure ..)
  | ok unit =>
    refine H.bind (H.ending .attempt (H.inNewMachine _ _ (H.runUnit he _))) fun result => ?_
    cases result with
    | ok exports => exact H.still (.ofEntries _)
    | error fault =>
      dsimp only
      split
      · exact H.raise _
      · exact H.still (.importFailure ..)

/-- Modules are loaded alike by related evaluations. -/
theorem ofSession (settings : Settings) (roots : Option SearchRoots) (request : ImportRequest) :
    T (Loader.ofSession settings roots eval request) (Loader.ofSession settings roots eval' request) := by
  rw [ofSession_eq, ofSession_eq]
  refine H.bind (H.loadFile _ fun path => ?_) fun _ => H.still (.pure _)
  exact H.moduleRecord he ..

theorem loader (imports : Imports) (request : ImportRequest) :
    T (imports.loader eval request) (imports.loader eval' request) := by
  cases imports with
  | unserved => exact H.still (.fail nofun)
  | session settings roots => exact H.ofSession he settings roots request

/-- A step towards the value of a node, if the nodes are looked up alike. -/
theorem nodeStep (hn : ∀ unit id, T (nodeIn unit id) (nodeIn unit id))
    (ha : ∀ unit id, T (assignee unit id) (assignee unit id)) (imports : Imports) (id : NodeId) :
    T (nodeStep imports.loader eval id) (nodeStep imports.loader eval' id) :=
  H.toCalling.nodeStep he (H.loader he imports) hn ha id

end

/-- In two manners that do the same the values of nodes are found alike. -/
theorem evaluator {M M' : Manner} (hM : Alike @T M M') (hn : ∀ unit id, T (nodeIn unit id) (nodeIn unit id))
    (ha : ∀ unit id, T (assignee unit id) (assignee unit id)) (imports : Imports) (fuel : Nat) (id : NodeId) :
    T (M.evaluator imports.loader fuel id) (M'.evaluator imports.loader fuel id) :=
  H.toCalling.evaluatorInManner hM (fun he => H.loader he imports) hn ha fuel id

/-- What is related to itself in every step is so in every evaluation. -/
theorem evalWithin (hn : ∀ unit id, T (nodeIn unit id) (nodeIn unit id))
    (ha : ∀ unit id, T (assignee unit id) (assignee unit id)) (imports : Imports) (fuel : Nat) (id : NodeId) :
    T (evalWithin imports.loader fuel id) (evalWithin imports.loader fuel id) := by
  rw [← Manner.evaluator_usual]
  exact H.evaluator H.usual hn ha imports fuel id

end Loading

end Eval

end DynScript
