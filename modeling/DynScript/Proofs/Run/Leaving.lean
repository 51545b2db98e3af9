import DynScript.Proofs.Run.Balance
import DynScript.Proofs.Tree.Layout

/-!
# Faults that leave the nodes of a unit

`Eval.Leaving` bounds the faults in which a step may end that is made while the nodes of a unit are evaluated. A bound
that allows what can happen in any unit, as `Arena.Admits` says, is kept by all that evaluation does between two
nodes. What is left are calls, which may lead into other units.
-/

namespace DynScript

/-- The names written in a node, apart from parameters, which are wrong at the place where they are written. -/
def NodeKind.labels : NodeKind → List Label
  | .record fields => fields.map Field.toLabel
  | .object _ composed _ => composed
  | .exports names => names
  | _ => []

/-- A machine evaluates the nodes of a unit, which are these. -/
structure Machine.Evaluates (unit : UnitId) (a : Arena) (m : Machine) : Prop where
  /-- The unit. -/
  current : m.unit = unit
  /-- The nodes. -/
  nodes : m.world.units[unit.index]? = some a

theorem Machine.Restored.evaluates {unit : UnitId} {a : Arena} {m n : Machine} (h : m.Restored n)
    (hm : m.Evaluates unit a) : n.Evaluates unit a :=
  ⟨h.unit.trans hm.current, h.arena? hm.nodes⟩

theorem Machine.Evaluates.node? {unit : UnitId} {a : Arena} {m : Machine} (hm : m.Evaluates unit a) (id : NodeId) :
    m.world.node? unit id = a.get? id := by
  rw [World.node?, hm.nodes, Option.bind_some]

/-- `D` holds of the nodes that are evaluated with a node of this kind. -/
structure Arena.Finds (a : Arena) (D : NodeId → Prop) (kind : NodeKind) : Prop where
  /-- The nodes right below. -/
  children : kind.isDeferred = false → ∀ c ∈ kind.children, D c
  /-- The record that an assignment changes. -/
  target : ∀ target value, kind = .assign target value → ∀ owner name,
    a.kind? target = some (.property owner name) → D owner
  /-- The values of the members of an object. -/
  members : ∀ composed members, kind = .object none composed members → ∀ m ∈ members,
    ∀ name mode isFinal value, a.kind? m = some (.binding name mode isFinal value) → D value

/-- A fault as it leaves a node. -/
def Fault.leaving (node : Node) (fault : Fault) : Fault :=
  if fault.isSignal then fault else fault.locatedAt node.position

/-- Whatever nodes are evaluated, these faults may come about. -/
structure Arena.Admits (a : Arena) (Φ : Fault → Prop) : Prop where
  /-- Faults that have just arisen. -/
  fresh : ∀ fault : Fault, fault.Fresh → Φ fault
  /-- Signals other than returns. -/
  signal : ∀ fault : Fault, fault.isSignal → fault.cause.Quiet → Φ fault
  /-- Faults at the labels of the nodes. -/
  label : ∀ id node, a.get? id = some node → ∀ label ∈ node.kind.labels, ∀ cause : Cause, cause.Quiet →
    Φ ((Fault.ofCause cause).locatedAt label.position)
  /-- Faults that leave a node. -/
  leaving : ∀ id node, a.get? id = some node → ∀ fault, Φ fault → Φ (fault.leaving node)
  /-- The calls in progress make no difference. -/
  backtrace : ∀ fault backtrace, Φ fault → Φ (fault.withBacktrace backtrace)

namespace Eval

variable {α β : Type} {unit : UnitId} {a : Arena} {Φ Ψ : Fault → Prop}

/-- A step that is made while the nodes of a unit are evaluated goes back to them, and if it ends in a fault then in
one of these. -/
structure Leaving (unit : UnitId) (a : Arena) (Φ : Fault → Prop) (x : Eval α) : Prop where
  /-- The unit. -/
  stays : ∀ held (m : Machine), m.Evaluates unit a → (x.runFrom held m).2.Evaluates unit a
  /-- The faults. -/
  fault : ∀ held (m : Machine), m.Evaluates unit a → ∀ fault,
    (x.runFrom held m).1 = .error (.fault fault) → Φ fault

namespace Leaving

theorem imp {x : Eval α} (hx : Leaving unit a Φ x) (h : ∀ fault, Φ fault → Ψ fault) : Leaving unit a Ψ x :=
  ⟨hx.stays, fun held m hm fault hf => h fault (hx.fault held m hm fault hf)⟩

theorem restoring {x : Eval α} (hx : Restoring x)
    (h : ∀ held (m : Machine), m.Evaluates unit a → ∀ fault, (x.runFrom held m).1 = .error (.fault fault) → Φ fault) :
    Leaving unit a Φ x :=
  ⟨fun held m => (hx held m).evaluates, h⟩

theorem simple (hΦ : ∀ fault : Fault, fault.Fresh → Φ fault) {x : Eval α} (hx : x.Simple) : Leaving unit a Φ x :=
  restoring (.ofPlain hx.toPlain) fun held m _ fault hf => hΦ fault (hx.fresh held m fault hf)

/-- A step that stops with a fault. -/
theorem raise {fault : Fault} (h : Φ fault) : Leaving unit a Φ (throw (.fault fault) : Eval α) := by
  refine restoring (.ofPlain (.throw _)) fun held m _ other hf => ?_
  obtain rfl : fault = other := by
    cases hf
    rfl
  exact h

theorem bind {x : Eval α} {k : α → Eval β} (hx : Leaving unit a Φ x) (hk : ∀ v, Leaving unit a Φ (k v)) :
    Leaving unit a Φ (x >>= k) := by
  constructor
  · intro held m hm
    have hn := hx.stays held m hm
    rw [runFrom_bind]
    rcases hr : x.runFrom held m with ⟨e | v, n⟩ <;> rw [hr] at hn
    · exact hn
    · exact (hk v).stays held n hn
  · intro held m hm fault hf
    have hn := hx.stays held m hm
    have hfault := hx.fault held m hm
    rw [runFrom_bind] at hf
    rcases hr : x.runFrom held m with ⟨e | v, n⟩ <;> rw [hr] at hf hn hfault
    · obtain rfl : e = .fault fault := Except.error.inj hf
      exact hfault fault rfl
    · exact (hk v).fault held n hn fault hf

/-- Looking at a machine and going on. -/
theorem reading {k : Machine → Eval α} (hk : ∀ m, m.Evaluates unit a → Leaving unit a Φ (k m)) :
    Leaving unit a Φ (get >>= k) :=
  ⟨fun held m hm => (hk m hm).stays held m hm, fun held m hm => (hk m hm).fault held m hm⟩

/-- A step that is made only under a condition, and what comes after it. -/
theorem guarded (c : Prop) [Decidable c] {stop : Eval PUnit} {k : PUnit → Eval α} (hs : Leaving unit a Φ stop)
    (hk : ∀ u, Leaving unit a Φ (k u)) : Leaving unit a Φ (if c then stop >>= k else k ()) := by
  split
  · exact hs.bind hk
  · exact hk ()

theorem holding (g : List Value → List Value) {x : Eval α} (hx : Leaving unit a Φ x) :
    Leaving unit a Φ (withReader g x) :=
  ⟨fun held m => hx.stays (g held) m, fun held m => hx.fault (g held) m⟩

/-- Looking at the faults that a step ends in. -/
theorem mapFault {f : Machine → Fault → Fault} {x : Eval α} (hx : Leaving unit a Φ x)
    (h : ∀ m fault, Φ fault → Ψ (f m fault)) : Leaving unit a Ψ (mapFault f x) := by
  constructor
  · intro held m hm
    have hn := hx.stays held m hm
    rw [Eval.mapFault, runFrom_finishing]
    split <;> exact hn
  · intro held m hm fault hf
    have hfault := hx.fault held m hm
    rw [Eval.mapFault, runFrom_finishing] at hf
    rcases hr : x.runFrom held m with ⟨⟨inner | stuck⟩ | v, n⟩ <;> rw [hr] at hf hfault
    · obtain rfl : f n inner = fault := by
        cases hf
        rfl
      exact h n inner (hfault inner rfl)
    · cases hf
    · cases hf

theorem locating (ha : a.Admits Φ) {id : NodeId} {node : Node} (hn : a.get? id = some node) {x : Eval α}
    (hx : Leaving unit a Φ x) : Leaving unit a Φ (locating node.position x) :=
  hx.mapFault fun _ fault => ha.leaving id node hn fault

/-- A step between an opening and a closing change, neither of which has to do with the nodes. -/
theorem between {x : Eval α} (hx : Leaving unit a Φ x) (f g : Machine → Machine)
    (hf : ∀ m : Machine, m.Evaluates unit a → (f m).Evaluates unit a)
    (hg : ∀ m : Machine, m.Evaluates unit a → (g m).Evaluates unit a) :
    Leaving unit a Φ (modify f >>= fun _ => afterwards g x) :=
  ⟨fun held m hm => hg _ (hx.stays held (f m) (hf m hm)), fun held m hm => hx.fault held (f m) (hf m hm)⟩

theorem inFrame (push : Environment → Environment) {x : Eval α} (hx : Leaving unit a Φ x) :
    Leaving unit a Φ (inFrame push x) :=
  reading fun _ _ => hx.between _ _ (fun _ hm => ⟨hm.current, hm.nodes⟩) fun _ hm => ⟨hm.current, hm.nodes⟩

theorem asMethodOf (receiver : Option RecordId) {x : Eval α} (hx : Leaving unit a Φ x) :
    Leaving unit a Φ (asMethodOf receiver x) := by
  cases receiver with
  | none => exact hx
  | some r =>
    exact (hx.inFrame (·.pushRecord r)).between _ _ (fun _ hm => ⟨hm.current, hm.nodes⟩)
      fun _ hm => ⟨hm.current, hm.nodes⟩

/-- The faults of a step that is made with the nodes of a unit, from whatever unit. -/
theorem fault_inUnit {x : Eval α} (hx : Leaving unit a Φ x) {held : List Value} {m : Machine}
    (hm : m.world.units[unit.index]? = some a) {fault : Fault}
    (hf : ((inUnit unit x).runFrom held m).1 = .error (.fault fault)) : Φ fault :=
  hx.fault held { m with unit := unit } ⟨rfl, hm⟩ fault hf

theorem inUnit {x : Eval α} (hx : Leaving unit a Φ x) : Leaving unit a Φ (inUnit unit x) :=
  reading fun _ hm => hx.between _ _ (fun _ hn => ⟨rfl, hn.nodes⟩) fun _ hn => ⟨hm.current, hn.nodes⟩

theorem inCall (ha : a.Admits Φ) (frame : CallFrame) {x : Eval α} (hx : Leaving unit a Φ x) :
    Leaving unit a Φ (inCall frame x) := by
  have htraced : Leaving unit a Φ
      (Eval.mapFault (fun m fault => m.calls.attachBacktrace m.world.heap fault) x) := by
    refine hx.mapFault fun m fault hfault => ?_
    unfold CallStack.attachBacktrace
    split
    · exact hfault
    · exact ha.backtrace _ _ hfault
  have hentered := htraced.between (fun m => { m with calls := m.calls.enter frame })
    (fun m => { m with calls := m.calls.pop }) (fun _ hm => ⟨hm.current, hm.nodes⟩) fun _ hm => ⟨hm.current, hm.nodes⟩
  refine reading fun m _ => ?_
  split
  · rename_i cause hcause
    have hquiet : cause.Quiet := by
      unfold CallStack.refusal? at hcause
      split at hcause
      · cases hcause
        exact nofun
      · cases hcause
    exact bind (simple ha.fresh (.fail hquiet)) fun _ => hentered
  · exact hentered

/-- A return that is caught leaves no longer. -/
theorem catchReturn {x : Eval Value} (hx : Leaving unit a Φ x) : Leaving unit a Φ (catchReturn x) := by
  constructor
  · intro held m hm
    have hn := hx.stays held m hm
    rw [Eval.catchReturn, runFrom_finishing]
    split <;> exact hn
  · intro held m hm fault hf
    have hfault := hx.fault held m hm
    rw [Eval.catchReturn, runFrom_finishing] at hf
    rcases hr : x.runFrom held m with ⟨⟨⟨cause, position, backtrace⟩ | stuck⟩ | v, n⟩ <;> rw [hr] at hf hfault
    · cases cause <;> first | exact hfault fault hf | cases hf
    · cases hf
    · cases hf

/-! ### Nodes -/

/-- Looking at a node of the unit and going on. -/
theorem nodeIn {id : NodeId} {k : Node → Eval α} (hk : ∀ node, a.get? id = some node → Leaving unit a Φ (k node)) :
    Leaving unit a Φ (Eval.nodeIn unit id >>= k) := by
  constructor
  · intro held m hm
    rw [runFrom_nodeIn_bind, hm.node?]
    cases hn : a.get? id with
    | none => exact hm
    | some node => exact (hk node hn).stays held m hm
  · intro held m hm fault hf
    rw [runFrom_nodeIn_bind, hm.node?] at hf
    cases hn : a.get? id with
    | none =>
      rw [hn] at hf
      cases hf
    | some node =>
      rw [hn] at hf
      exact (hk node hn).fault held m hm fault hf

section

variable (ha : a.Admits Φ)
include ha

/-- Steps are put together so that their faults stay within what is admitted. -/
theorem composition : Composition fun x _ => Leaving unit a Φ x where
  still hx := simple ha.fresh hx.toSimple
  bind := bind
  holding g _ _ := holding g
  inScope := inFrame _
  inRecord _ _ _ := inFrame _

theorem failAt {id : NodeId} {node : Node} (hn : a.get? id = some node) {label : Label}
    (hl : label ∈ node.kind.labels) {cause : Cause} (hc : cause.Quiet) :
    Leaving unit a Φ (Eval.failAt label.position cause : Eval α) :=
  raise (ha.label id node hn label hl cause hc)

/-- In the usual manner nothing else is done in nodes than what is admitted. -/
theorem inside_usual : AlikeInside (fun x _ => Leaving unit a Φ x) .usual .usual :=
  Composition.inside_usual (composition ha)

theorem compose {M : Manner} (hM : AlikeInside (fun x _ => Leaving unit a Φ x) M M) (r : RecordId) {sources : List Label}
    (hf : ∀ source ∈ sources, ∀ cause : Cause, cause.Quiet →
      Leaving unit a Φ (Eval.failAt source.position cause : Eval Unit)) :
    Leaving unit a Φ (M.compose r sources) :=
  @Composition.compose _ (composition ha) M M hM r sources hf

theorem exportNames {M : Manner} (hM : AlikeInside (fun x _ => Leaving unit a Φ x) M M) {labels : List Label}
    (hf : ∀ label ∈ labels, ∀ cause : Cause, cause.Quiet →
      Leaving unit a Φ (Eval.failAt label.position cause : Eval PUnit)) :
    Leaving unit a Φ (M.exportNames labels) :=
  @Composition.exportNames _ (composition ha) M M hM labels hf

theorem nodeOf {id : NodeId} {k : Node → Eval α} (hk : ∀ node, a.get? id = some node → Leaving unit a Φ (k node)) :
    Leaving unit a Φ (Eval.nodeOf unit id >>= k) := by
  rw [nodeOf_bind]
  exact bind (simple ha.fresh (.requireUnit ..)) fun _ => nodeIn hk

/-- Looking at a member finds the value that stands in it. -/
theorem memberParts (m : NodeId) {D : NodeId → Prop}
    (hD : ∀ name mode isFinal value, a.kind? m = some (.binding name mode isFinal value) → D value) :
    Yields (fun x _ => Leaving unit a Φ x) (memberParts unit m) fun parts => D parts.2.2 :=
  @Composition.yields_memberParts _ (composition ha) unit a (fun _ _ _ _ hk => nodeIn hk) m D hD

/-- Looking at what stands left of an assignment finds the record that is changed. -/
theorem assignee (target : NodeId) {D : NodeId → Prop}
    (hD : ∀ owner name, a.kind? target = some (.property owner name) → D owner) :
    Yields (fun x _ => Leaving unit a Φ x) (assignee unit target) fun found => match found with
      | .name name => ∀ v, Leaving unit a Φ (assign name v)
      | .property owner _ => D owner :=
  @Composition.yields_assignee _ (composition ha) unit a (fun _ _ _ _ hk => nodeIn hk) target D
    (fun _ _ _ => simple ha.fresh (.assign ..)) hD

/-- What there is to know of a node. -/
theorem known {M : Manner} (hM : AlikeInside (fun x _ => Leaving unit a Φ x) M M) {id : NodeId} {node : Node}
    (hn : a.get? id = some node) {D : NodeId → Prop} (hD : a.Finds D node.kind)
    (hr : ∀ value, node.kind = .returns value → ∀ v, Φ (.ofCause (.returning v))) :
    Known (fun x _ => Leaving unit a Φ x) M M D unit node.kind where
  children := hD.children
  defines _ _ _ _ _ _ := simple ha.fresh (.define ..)
  counts _ _ _ _ _ := simple ha.fresh (.define ..)
  target target value hk := @fun _ k k' => @assignee unit a Φ ha target D (hD.target target value hk) _ k k'
  members composed members hk m hm := @fun _ k k' =>
    @memberParts unit a Φ ha m D (hD.members composed members hk m hm) _ k k'
  composed composed members hk r := compose ha hM r fun source hsource cause hc =>
    failAt ha hn (by rw [hk]; exact hsource) hc
  fields items hk field hfield := failAt ha hn (by rw [hk]; exact List.mem_map_of_mem hfield) nofun
  names names hk := exportNames ha hM fun label hl cause hc => failAt ha hn (by rw [hk]; exact hl) hc
  leaving value hk v := raise (hr value hk v)

theorem ofUnit {eval : Evaluator} (unit' : UnitId) {id : NodeId} (h : Leaving unit a Φ (eval id)) :
    Leaving unit a Φ (within unit' eval id) :=
  bind (simple ha.fresh (.requireUnit ..)) fun _ => h

/-- The faults of a record that is filled by a literal of the unit. -/
theorem construct {M : Manner} (hM : AlikeInside (fun x _ => Leaving unit a Φ x) M M) {eval : Evaluator}
    {D : NodeId → Prop} (he : ∀ id, D id → Leaving unit a Φ (eval id)) {id : NodeId} {node : Node}
    (hn : a.get? id = some node) {params : Option (List Param)} {composed : List Label} {ids : List NodeId}
    (hk : node.kind = .object params composed ids)
    (hD : ∀ m ∈ ids, ∀ name mode isFinal value, a.kind? m = some (.binding name mode isFinal value) → D value)
    (r : RecordId) (bound : List (String × Value)) :
    Leaving unit a Φ (M.construct (within unit eval) unit r bound composed ids) := by
  have H : Composition fun x _ => Leaving unit a Φ x := composition ha
  exact @Composition.construct _ H D (within unit eval) (within unit eval)
    (fun c hc => ofUnit ha unit (he c hc)) M M unit r bound composed ids
    (compose ha hM r fun source hsource cause hc => failAt ha hn (by rw [hk]; exact hsource) hc)
    fun m hm => @fun _ k k' => @memberParts unit a Φ ha m D (hD m hm) _ k k'

end

end Leaving

/-! ### Modules -/

/-- If a step stops with a fault then with one of these. -/
def Stops (P : Fault → Prop) (x : Eval α) : Prop :=
  ∀ held (m : Machine) fault, (x.runFrom held m).1 = .error (.fault fault) → P fault

namespace Stops

variable {P : Fault → Prop}

theorem simple (hP : ∀ fault : Fault, fault.Fresh → P fault) {x : Eval α} (hx : x.Simple) : Stops P x :=
  fun held m fault hf => hP fault (hx.fresh held m fault hf)

theorem bind {x : Eval α} {k : α → Eval β} (hx : Stops P x) (hk : ∀ v, Stops P (k v)) : Stops P (x >>= k) := by
  intro held m fault hf
  have hfault := hx held m
  rw [runFrom_bind] at hf
  rcases hr : x.runFrom held m with ⟨e | v, n⟩ <;> rw [hr] at hf hfault
  · obtain rfl : e = .fault fault := Except.error.inj hf
    exact hfault fault rfl
  · exact hk v held n fault hf

theorem reading {k : Machine → Eval α} (hk : ∀ m, Stops P (k m)) : Stops P (get >>= k) :=
  fun held m => hk m held m

theorem afterwards {x : Eval α} (change : Machine → Machine) (hx : Stops P x) : Stops P (afterwards change x) :=
  fun held m => hx held m

theorem inNewMachine {x : Eval α} (hx : Stops P x) (unit : CompiledUnit) (maxDepth : Nat) :
    Stops P (inNewMachine unit maxDepth x) :=
  fun held m => hx (m.kept held) (Machine.start (m.world.addUnit unit.program.arena).2
    (m.world.addUnit unit.program.arena).1 unit.directory maxDepth)

theorem blockItems? (hP : ∀ fault : Fault, fault.Fresh → P fault) (unit : UnitId) (id : NodeId) :
    Stops P (blockItems? unit id) := by
  refine bind (bind (simple hP (.requireUnit ..)) fun _ => reading fun m => ?_) fun node => ?_
  · split
    · exact simple hP (.pure _)
    · exact simple hP (.defect _)
  · split <;> exact simple hP (.pure _)

theorem functionParts (hP : ∀ fault : Fault, fault.Fresh → P fault) (f : Function) : Stops P (functionParts f) := by
  refine bind (reading fun m => ?_) fun node => ?_
  · split
    · exact simple hP (.pure _)
    · exact simple hP (.defect _)
  · split
    · exact simple hP (.pure _)
    · exact simple hP (.defect _)

/-- No return leaves the statements of a unit, for a return would end them. -/
theorem unitStatements (eval : Evaluator) (items : List NodeId) :
    Stops (·.cause.Quiet) (unitStatements eval items) := by
  induction items with
  | nil => exact simple (fun _ h => h.cause) (.pure _)
  | cons statement rest ih =>
    refine bind (fun held m fault hf => ?_) fun ended => ?_
    · rw [returned, runFrom_finishing] at hf
      rcases hr : (eval statement).runFrom held m with ⟨⟨⟨cause, position, backtrace⟩ | stuck⟩ | v, n⟩ <;> rw [hr] at hf
      · cases cause <;> cases hf <;> exact nofun
      · cases hf
      · cases hf
    · split
      · exact simple (fun _ h => h.cause) (.pure _)
      · exact ih

/-- No return leaves the run of a unit. -/
theorem runUnit (eval : Evaluator) (body : NodeId) : Stops (·.cause.Quiet) (runUnit eval body) := by
  refine reading fun m => bind (reading fun m => bind (blockItems? (fun _ h => h.cause) _ _) fun _ => ?_) fun items =>
    bind (unitStatements _ items) fun _ => ?_
  · exact simple (fun _ h => h.cause) (.pure _)
  · intro held n fault hf
    cases hf

/-- The loading of a module fails at the import, unless the module asks for an exit. -/
theorem moduleRecord (settings : Settings) (eval : Evaluator) (path : Path) (dotted : String) :
    Stops (fun fault => fault.Fresh ∨ fault.isSignal ∧ fault.cause.Quiet) (moduleRecord settings eval path dotted) := by
  refine bind (simple (fun _ => .inl) (Still.compiled ..).toSimple) fun result => ?_
  cases result with
  | error e => exact simple (fun _ => .inl) (Still.importFailure ..).toSimple
  | ok unit =>
    intro held m fault hf
    have hquiet := (runUnit eval unit.program.body).inNewMachine unit settings.maxDepth held m
    dsimp only at hf
    rw [runFrom_bind, attempt, runFrom_finishing] at hf
    rcases hr : (Eval.inNewMachine unit settings.maxDepth (Eval.runUnit eval unit.program.body)).runFrom held m with
      ⟨⟨inner | stuck⟩ | exports, n⟩ <;> rw [hr] at hf hquiet
    · dsimp only at hf
      split at hf
      · obtain rfl : inner = fault := by
          cases hf
          rfl
        exact .inr ⟨‹_›, hquiet inner rfl⟩
      · exact .inl ((Still.importFailure (α := RecordId) ..).fresh held n fault hf)
    · cases hf
    · cases hf

theorem loader (imports : Imports) (eval : Evaluator) (request : ImportRequest) :
    Stops (fun fault => fault.Fresh ∨ fault.isSignal ∧ fault.cause.Quiet) (imports.loader eval request) := by
  cases imports with
  | unserved => exact simple (fun _ => .inl) (.fail nofun)
  | session settings roots =>
    show Stops _ (Loader.ofSession settings roots eval request)
    rw [ofSession_eq]
    refine bind (bind (simple (fun _ => .inl) (Still.located _).toSimple) fun path => reading fun m => ?_) fun _ =>
      simple (fun _ => .inl) (.pure _)
    · split
      · exact simple (fun _ => .inl) (.pure _)
      · exact simple (fun _ => .inl) (.fail nofun)
      · refine bind (fun held m fault hf => by cases hf) fun _ => ?_
        refine bind (afterwards _ (moduleRecord _ _ _ _)) fun _ => bind (fun held m fault hf => by cases hf) fun _ => ?_
        exact simple (fun _ => .inl) (.pure _)

end Stops

namespace Leaving

variable (ha : a.Admits Φ)
include ha

/-- The parts of a function, be it of the unit or not. -/
theorem functionParts (f : Function) : Leaving unit a Φ (Eval.functionParts f) :=
  restoring (Restoring.congruence.functionParts f) fun held m _ => Stops.functionParts ha.fresh f held m

theorem loader {eval : Evaluator} (hr : ∀ id, Restoring (eval id)) (imports : Imports) (request : ImportRequest) :
    Leaving unit a Φ (imports.loader eval request) := by
  have H : Loading fun x _ => Restoring x := Restoring.congruence.toLoading
  refine restoring (@Loading.loader _ H eval eval hr imports request) fun held m _ fault hf => ?_
  rcases Stops.loader imports eval request held m fault hf with hfresh | ⟨hsignal, hquiet⟩
  · exact ha.fresh fault hfresh
  · exact ha.signal fault hsignal hquiet

/-- The faults of a node, when those of the nodes that are evaluated with it and those of the call that it may be are
known. -/
theorem nodeStep {M : Manner} {eval : Evaluator} {D : NodeId → Prop} (he : ∀ id, D id → Leaving unit a Φ (eval id))
    (hr : ∀ id, Restoring (eval id)) (hM : AlikeInside (fun x _ => Leaving unit a Φ x) M M) (imports : Imports)
    {id : NodeId} (hD : ∀ node, a.get? id = some node → a.Finds D node.kind)
    (hreturn : ∀ node value, a.get? id = some node → node.kind = .returns value → ∀ v, Φ (.ofCause (.returning v)))
    (hcall : ∀ node, a.get? id = some node → ∀ function arguments,
      Leaving unit a Φ (M.callValue eval function arguments node.position)) :
    Leaving unit a Φ (M.nodeStep imports.loader eval id) := by
  refine reading fun m hm => ?_
  rw [hm.current]
  refine nodeIn fun node hn => locating ha hn ?_
  have H : Composition fun x _ => Leaving unit a Φ x := composition ha
  exact @Composition.nodeKind _ H D (within unit eval) (within unit eval) eval eval M M
    (fun c hc => ofUnit ha unit (he c hc)) (imports.loader eval) (imports.loader eval) unit id node
    (known ha hM hn (hD node hn) (hreturn node · hn)) hM (fun _ _ _ => hcall node hn)
    fun root path _ directory => loader ha hr imports _

end Leaving

end Eval

end DynScript
