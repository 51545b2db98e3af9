import DynScript.Proofs.Run.Composition

/-!
# Relations that the whole evaluation keeps

An `Eval.Congruence` relates two steps whenever they are put together in the same way from related ones.
Evaluation is put together in a few ways only, so it keeps every such relation: `Calling.nodeKind` says so
for the nodes and `Calling.callValue` for calls. Only how a node is looked up is left to the relation.

Not every relation is kept by all of these ways. An `Eval.Invoking` need not hold of new names and assignments, and an
`Eval.Calling` not of steps in a machine of their own. None of them need hold of plain steps that are not still.
-/

namespace DynScript

namespace Eval

variable {α β : Type}

/-- A way of looking at the end of a step that leaves alone what stands open, has nothing to do with the
units and with the bound on the calls, and goes on being stuck. -/
structure Ending (f : Except Interruption α → Machine → Except Interruption β × Machine) : Prop where
  /-- What stands open stays. -/
  restored : ∀ result (m : Machine), m.Restored (f result m).2
  /-- Other units and another bound on the calls make no difference. -/
  unseen : ∀ result (m : Machine) units maxDepth, f result ((m.withUnits units).withMaxDepth maxDepth) =
    ((f result m).1, ((f result m).2.withUnits units).withMaxDepth maxDepth)
  /-- A step that is stuck stays so. -/
  stuck : ∀ s m, (f (.error (.stuck s)) m).1 = .error (.stuck s)
  /-- The world stays. -/
  world : ∀ result (m : Machine), (f result m).2.world = m.world
  /-- The names stay. -/
  env : ∀ result (m : Machine), (f result m).2.env = m.env

/-- Such a way that lets everything through that is no return: a fault stays a fault, with its cause. -/
structure Passing (f : Except Interruption α → Machine → Except Interruption β × Machine) : Prop extends Ending f where
  /-- A fault stays a fault. -/
  passes : ∀ (fault : Fault) (m : Machine), fault.cause.Quiet →
    ∃ fault', (f (.error (.fault fault)) m).1 = .error (.fault fault') ∧ fault'.cause = fault.cause

/-- Find the canonical path of a module file. -/
def located (file : Path) : Eval Path := do
  ofExcept ((← get).world.host.disk.canonicalModule file)

/-- The record of the module in a file, given the step that makes one for a canonical path. -/
def loadFile (file : Path) (make : Path → Eval RecordId) : Eval RecordId := do
  let path ← located file
  loadOnce path (make path)

/-- A composition that is kept by faults, by looking at the end of a step while faults get through, and by calls. -/
structure Invoking (T : ∀ {α : Type}, Eval α → Eval α → Prop) : Prop extends Composition @T where
  raise {α : Type} (fault : Fault) : T (throw (.fault fault) : Eval α) (throw (.fault fault))
  passing {α β : Type} {f : Except Interruption α → Machine → Except Interruption β × Machine}
    {x y : Eval α} : Passing f → T x y → T (finishing x f) (finishing y f)
  /-- A record is active only where it stands open as well. -/
  withActive {α : Type} (r : RecordId) {x y : Eval α} : T x y → T (Eval.inRecord r x) (Eval.inRecord r y) →
    T (withActive r (Eval.inRecord r x)) (withActive r (Eval.inRecord r y))
  inUnit {α : Type} (unit : UnitId) {x y : Eval α} : T x y → T (inUnit unit x) (inUnit unit y)
  inCall {α : Type} (frame : CallFrame) {x y : Eval α} : T x y → T (inCall frame x) (inCall frame y)
  blockItems? (unit : UnitId) (id : NodeId) : T (blockItems? unit id) (blockItems? unit id)
  functionParts (f : Function) : T (functionParts f) (functionParts f)
  memberParts (unit : UnitId) (id : NodeId) : T (memberParts unit id) (memberParts unit id)
  templateParts (t : Template) : T (templateParts t) (templateParts t)

/-- It is also kept by changes of what names mean, and so by the evaluation of nodes. -/
structure Calling (T : ∀ {α : Type}, Eval α → Eval α → Prop) : Prop extends Invoking @T where
  define (name : String) (value : Value) : T (define name value) (define name value)
  assign (name : String) (value : Value) : T (assign name value) (assign name value)

/-- It is also kept by all that looks at the end of a step, and by the loading of modules. -/
structure Loading (T : ∀ {α : Type}, Eval α → Eval α → Prop) : Prop extends Calling @T where
  ending {α β : Type} {f : Except Interruption α → Machine → Except Interruption β × Machine}
    {x y : Eval α} : Ending f → T x y → T (finishing x f) (finishing y f)
  passing hf h := ending hf.toEnding h
  inNewMachine {α : Type} (unit : CompiledUnit) (maxDepth : Nat) {x y : Eval α} :
    T x y → T (inNewMachine unit maxDepth x) (inNewMachine unit maxDepth y)
  loadFile (file : Path) {x y : Path → Eval RecordId} :
    (∀ path, T (x path) (y path)) → T (loadFile file x) (loadFile file y)

/-- A relation between steps that holds of plain steps, and of steps that are put together in one way from
related steps. -/
structure Congruence (T : ∀ {α : Type}, Eval α → Eval α → Prop) : Prop extends Loading @T where
  plain {α : Type} {x : Eval α} : x.Plain → T x x
  still hx := plain hx.toPlain
  define name value := plain (Simple.define name value).toPlain
  assign name value := plain (Simple.assign name value).toPlain
  raise _ := plain (.throw _)

/-- Two manners that relate steps when the same is done in nodes, and in calls. -/
structure Alike (T : ∀ {α : Type}, Eval α → Eval α → Prop) (M M' : Manner) : Prop extends AlikeInside @T M M' where
  receiver (f : Function) : T (M.receiver f) (M'.receiver f)
  native (n : Native) (args : List Value) : T (M.native n args) (M'.native n args)
  around (callee : Value) (callSite : Option Position) {x y : Eval Value} :
    T x y → T (M.around callee callSite x) (M'.around callee callSite y)
  inCall (frame : CallFrame) {x y : Eval Value} : T x y → T (M.inCall frame x) (M'.inCall frame y)
  inside {eval eval' : Evaluator} (frame : CallFrame) :
    (∀ id, T (eval id) (eval' id)) → ∀ id, T (M.inside eval frame id) (M'.inside eval' frame id)

/-- The bodies of functions and classes are evaluated alike in two manners. -/
structure Bodies (T : ∀ {α : Type}, Eval α → Eval α → Prop) (M M' : Manner) (eval eval' : Evaluator) : Prop where
  function (frame : CallFrame) (unit : UnitId) (bound : List (String × Value)) (id : NodeId) :
    T (inScope (defineAll bound >>= fun _ => body (within unit (M.inside eval frame)) unit id))
      (inScope (defineAll bound >>= fun _ => body (within unit (M'.inside eval' frame)) unit id))
  members (unit : UnitId) (r : RecordId) (ids : List NodeId) :
    T (inRecord r (members (within unit eval) unit r ids)) (inRecord r (members (within unit eval') unit r ids))

theorem Plain.located (file : Path) : Plain (Eval.located file) := .reading fun _ => .ofExcept _

theorem Still.located (file : Path) : Still (Eval.located file) := by
  refine .reading fun m => .ofExcept (P := fun _ => True) ?_
  unfold Disk.canonicalModule
  split
  · trivial
  · exact nofun
  · exact nofun

/-! ## Evaluation -/

namespace Ending

/-- Other units make no difference. -/
theorem blind {f : Except Interruption α → Machine → Except Interruption β × Machine} (hf : Ending f)
    (result : Except Interruption α) (m : Machine) (units : Array Arena) :
    f result (m.withUnits units) = ((f result m).1, (f result m).2.withUnits units) := by
  refine (hf.unseen result m units m.calls.maxDepth).trans ?_
  rw [← (hf.restored result m).calls]
  rfl

/-- Another bound on the calls makes no difference. -/
theorem unbounded {f : Except Interruption α → Machine → Except Interruption β × Machine} (hf : Ending f)
    (result : Except Interruption α) (m : Machine) (maxDepth : Nat) :
    f result (m.withMaxDepth maxDepth) = ((f result m).1, (f result m).2.withMaxDepth maxDepth) := by
  refine (hf.unseen result m m.world.units maxDepth).trans ?_
  rw [← hf.world result m]
  rfl

/-- Changing the faults, in a way that has nothing to do with the units and the bound on the calls, is such a way. -/
theorem mapFault {g : Machine → Fault → Fault}
    (hg : ∀ m units maxDepth f, g ((m.withUnits units).withMaxDepth maxDepth) f = g m f) :
    Ending (α := α) fun
      | .error (.fault fault), m => (.error (.fault (g m fault)), m)
      | result, m => (result, m) where
  restored result m := by split <;> rfl
  unseen result m units maxDepth := by
    rcases result with ⟨fault | stuck⟩ | a
    · simp only [hg]
    · rfl
    · rfl
  stuck _ _ := rfl
  world result m := by split <;> rfl
  env result m := by split <;> rfl

theorem catchReturn : Ending (α := Value) fun
    | .error (.fault ⟨.returning value, _, _⟩), m => (.ok value, m)
    | result, m => (result, m) where
  restored result m := by split <;> rfl
  unseen result m units maxDepth := by
    rcases result with ⟨⟨cause, position, backtrace⟩ | _⟩ | _ <;> try rfl
    cases cause <;> rfl
  stuck _ _ := rfl
  world result m := by split <;> rfl
  env result m := by split <;> rfl

end Ending

namespace Passing

/-- Changing anything but the causes of faults. -/
theorem mapFault {g : Machine → Fault → Fault}
    (hg : ∀ m units maxDepth f, g ((m.withUnits units).withMaxDepth maxDepth) f = g m f)
    (hcause : ∀ m f, (g m f).cause = f.cause) :
    Passing (α := α) fun
      | .error (.fault fault), m => (.error (.fault (g m fault)), m)
      | result, m => (result, m) where
  toEnding := .mapFault hg
  passes fault m _ := ⟨g m fault, rfl, hcause m fault⟩

theorem catchReturn : Passing (α := Value) fun
    | .error (.fault ⟨.returning value, _, _⟩), m => (.ok value, m)
    | result, m => (result, m) where
  toEnding := .catchReturn
  passes fault m h := by
    obtain ⟨cause, position, backtrace⟩ := fault
    cases cause with
    | returning value => exact absurd rfl (h value)
    | _ => exact ⟨_, rfl, rfl⟩

/-- Locating a fault leaves its cause. -/
theorem cause_located (position : Option Position) (fault : Fault) :
    (if fault.isSignal then fault else fault.locatedAt position).cause = fault.cause := by
  split <;> rfl

end Passing

namespace Invoking

variable {T : ∀ {α : Type}, Eval α → Eval α → Prop} (H : Invoking @T)
include H

theorem failAt (position : Option Position) (cause : Cause) :
    T (failAt position cause : Eval α) (Eval.failAt position cause) :=
  H.raise _

theorem locating (position : Option Position) {x y : Eval α} (h : T x y) :
    T (locating position x) (locating position y) :=
  H.passing (.mapFault (fun _ _ _ _ => rfl) fun _ => Passing.cause_located position) h

theorem catchReturn {x y : Eval Value} (h : T x y) : T (catchReturn x) (catchReturn y) :=
  H.passing .catchReturn h

theorem asMethodOf (receiver : Option RecordId) {x y : Eval α} (h : T x y) :
    T (asMethodOf receiver x) (asMethodOf receiver y) := by
  cases receiver with
  | none => exact h
  | some r => exact H.withActive r h (H.inRecord r h)

theorem usual : Alike @T .usual .usual where
  toAlikeInside := H.inside_usual
  receiver f := H.still (.receiverOf f)
  native n args := H.still (.callNative n args)
  around _ _ _ _ h := h
  inCall frame _ _ h := H.inCall frame h
  inside _ h := h

theorem yields {x : Eval α} (h : T x x) {Q : α → Prop} (hQ : ∀ a, Q a) : Yields @T x Q :=
  fun hk => H.bind h fun a => hk a (hQ a)

/-! ### Calls -/

section

variable {M M' : Manner} (hM : Alike @T M M')
include hM

theorem compose (r : RecordId) (sources : List Label) : T (M.compose r sources) (M'.compose r sources) :=
  H.toComposition.compose hM.toAlikeInside r fun _ _ _ _ => H.failAt ..

theorem exportNames (labels : List Label) : T (M.exportNames labels) (M'.exportNames labels) :=
  H.toComposition.exportNames hM.toAlikeInside fun _ _ _ _ => H.failAt ..

variable {eval eval' : Evaluator} (hB : Bodies @T M M' eval eval')
include hB

theorem callFunction (f : Function) (args : List Value) (callSite : Option Position) :
    T (M.callFunction eval f args callSite) (M'.callFunction eval' f args callSite) := by
  refine H.bind (H.functionParts f) fun (params, bodyId) => ?_
  refine H.guarded _ (H.still (.fail nofun)) fun _ => H.catchReturn (hM.inCall _ ?_)
  refine H.bind (hM.receiver f) fun receiver => ?_
  exact H.inUnit _ (H.asMethodOf _ (hB.function ..))

theorem instantiate (cls : RecordId) (t : Template) (args : List Value) (callSite : Option Position) :
    T (M.instantiate eval cls t args callSite) (M'.instantiate eval' cls t args callSite) := by
  refine H.bind (H.templateParts t) fun (params, composed, ids) => ?_
  refine H.guarded _ (H.failAt ..) fun _ => H.bind (H.still (.newInstance _)) fun r => ?_
  refine H.bind (H.holding _ (H.inUnit _ ?_)) fun _ => H.still (.pure _)
  exact H.bind (H.still (.setAll ..)) fun _ => H.bind (H.compose hM ..) fun _ => hB.members ..

theorem callRecord (r : RecordId) (args : List Value) (callSite : Option Position) :
    T (M.callRecord eval r args callSite) (M'.callRecord eval' r args callSite) := by
  refine H.bind (H.still .heapOf) fun heap => ?_
  split
  · exact H.instantiate hM hB ..
  · refine H.guarded _ (H.still (.fail nofun)) fun _ => ?_
    exact H.bind (hM.copy r) fun _ => H.still (.pure _)

/-- Calls are made alike where the bodies of functions and classes are evaluated alike. -/
theorem callWith (callee : Value) (args : List Value) (callSite : Option Position) :
    T (M.callValue eval callee args callSite) (M'.callValue eval' callee args callSite) := by
  refine hM.around _ _ (H.holding _ (H.holding _ ?_))
  split
  · exact H.callFunction hM hB ..
  · exact hM.native ..
  · exact H.callRecord hM hB ..
  · exact H.still (.fail nofun)

end

theorem body {eval eval' : Evaluator} (he : ∀ id, T (eval id) (eval' id)) (unit : UnitId) (id : NodeId) :
    T (body eval unit id) (body eval' unit id) :=
  H.toComposition.body (fun id _ => he id) trivial (H.yields (H.blockItems? unit id) fun _ _ _ _ _ => trivial)

theorem members {eval eval' : Evaluator} (he : ∀ id, T (eval id) (eval' id)) (unit : UnitId) (r : RecordId)
    (ids : List NodeId) : T (members eval unit r ids) (members eval' unit r ids) :=
  H.toComposition.members (D := fun _ => True) (fun id _ => he id) r fun m _ =>
    H.yields (H.memberParts unit m) fun _ => trivial

theorem within {eval eval' : Evaluator} (he : ∀ id, T (eval id) (eval' id)) (unit : UnitId) (id : NodeId) :
    T (within unit eval id) (within unit eval' id) :=
  H.toComposition.within unit (he id)

end Invoking

namespace Calling

variable {T : ∀ {α : Type}, Eval α → Eval α → Prop} (H : Calling @T)
include H

theorem defineAll (bound : List (String × Value)) : T (defineAll bound) (defineAll bound) := by
  induction bound with
  | nil => exact H.still (.pure _)
  | cons entry rest ih => exact H.bind (H.define ..) fun _ => ih

section

variable {eval eval' : Evaluator} (he : ∀ id, T (eval id) (eval' id))
include he

theorem bodies {M M' : Manner} (hM : Alike @T M M') : Bodies @T M M' eval eval' where
  function frame unit bound id := by
    refine H.inScope (H.bind (H.defineAll bound) fun _ => ?_)
    exact H.body (H.within (hM.inside frame he) unit) unit id
  members unit r ids := H.inRecord r (H.members (H.within he unit) unit r ids)

theorem callInManner {M M' : Manner} (hM : Alike @T M M') (callee : Value) (args : List Value)
    (callSite : Option Position) :
    T (M.callValue eval callee args callSite) (M'.callValue eval' callee args callSite) :=
  H.callWith hM (H.bodies he hM) callee args callSite

theorem callValue (callee : Value) (args : List Value) (callSite : Option Position) :
    T (callValue eval callee args callSite) (callValue eval' callee args callSite) := by
  rw [← Manner.callValue_usual, ← Manner.callValue_usual]
  exact H.callInManner he H.usual callee args callSite

end

/-- Where all nodes are evaluated alike there is only the target of an assignment left to know of a node. -/
theorem known {M M' : Manner} (hM : Alike @T M M') {unit : UnitId} {kind : NodeKind}
    (ha : ∀ target value, kind = .assign target value → T (assignee unit target) (assignee unit target)) :
    Known @T M M' (fun _ => True) unit kind where
  children _ _ _ := trivial
  defines name _ _ _ _ := H.define name
  counts _ _ _ _ := H.define "idx"
  target target value h := H.yields (ha target value h) fun assignee => by
    cases assignee with
    | name name => exact H.assign name
    | property owner name => trivial
  members _ _ _ m _ := H.yields (H.memberParts unit m) fun _ => trivial
  composed composed _ _ r := H.compose hM r composed
  fields _ _ _ _ := H.failAt ..
  names names _ := H.exportNames hM names
  leaving _ _ _ := H.raise _

/-- In two manners a node is evaluated alike by related evaluations of the nodes further down. -/
theorem nodeInManner {M M' : Manner} (hM : Alike @T M M') {own own' eval eval' : Evaluator}
    (ho : ∀ id, T (own id) (own' id)) (he : ∀ id, T (eval id) (eval' id)) {load load' : ImportRequest → Eval Value}
    (hl : ∀ request, T (load request) (load' request)) (unit : UnitId) (id : NodeId) (node : Node)
    (ha : ∀ target value, node.kind = .assign target value →
      T (assignee unit target) (assignee unit target)) :
    T (M.nodeKind own eval load unit id node) (M'.nodeKind own' eval' load' unit id node) :=
  H.toComposition.nodeKind (fun id _ => ho id) (H.known hM ha) hM.toAlikeInside
    (fun _ _ _ _ _ => H.callInManner he hM ..) fun _ _ _ _ => hl _

/-- A node is evaluated alike by related evaluations of the nodes further down. -/
theorem nodeKind {own own' eval eval' : Evaluator} (ho : ∀ id, T (own id) (own' id))
    (he : ∀ id, T (eval id) (eval' id)) {load load' : ImportRequest → Eval Value}
    (hl : ∀ request, T (load request) (load' request)) (unit : UnitId) (id : NodeId) (node : Node)
    (ha : ∀ target value, node.kind = .assign target value →
      T (assignee unit target) (assignee unit target)) :
    T (nodeKind own eval load unit id node) (nodeKind own' eval' load' unit id node) := by
  rw [← Manner.nodeKind_usual, ← Manner.nodeKind_usual]
  exact H.nodeInManner H.usual ho he hl unit id node ha

end Calling

/-- Calls are made alike by related evaluations. -/
theorem Congruence.callValue {T : ∀ {α : Type}, Eval α → Eval α → Prop} (H : Congruence @T) {eval eval' : Evaluator}
    (he : ∀ id, T (eval id) (eval' id)) (callee : Value) (args : List Value) (callSite : Option Position) :
    T (callValue eval callee args callSite) (callValue eval' callee args callSite) :=
  H.toCalling.callValue he callee args callSite

end Eval

end DynScript
