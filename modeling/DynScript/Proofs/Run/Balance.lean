import DynScript.Proofs.Session.Traversal

/-!
# What is opened is closed again

However the evaluation of a node or a call ends, nothing stands open afterwards that did not stand open
before, and nothing that stood open has been left.
-/

namespace DynScript

namespace Environment

@[simp] theorem depth_pushScope (env : Environment) : env.pushScope.depth = env.depth + 1 := by
  simp [depth, pushScope]

@[simp] theorem depth_pushRecord (env : Environment) (r : RecordId) :
    (env.pushRecord r).depth = env.depth + 1 := by
  simp [depth, pushRecord]

/-- Cutting frames back leaves as many as were asked for, when there are so many. -/
theorem depth_truncate {env : Environment} {depth : Nat} (hd : 0 < depth) (h : depth ≤ env.depth) :
    (env.truncate depth).depth = depth := by
  have hsize : (env.truncate depth).depth = min (max depth 1) env.depth := Array.size_shrink
  omega

end Environment

/-- A frame that is opened is cut off again, for what has been evaluated in it has left none of those below it. -/
theorem Machine.Restored.inFrame {m n : Machine} {env : Environment} (hdepth : env.depth = m.env.depth + 1)
    (hactive : env.active = m.env.active) (h : Restored { m with env } n) :
    m.Restored { n with env := n.env.truncate m.env.depth } := by
  have hn : n.env.depth = env.depth := h.depth
  have hdeep : m.env.depth ≤ n.env.depth := by omega
  have hdepth' := Environment.depth_truncate m.env.nonempty hdeep
  exact ⟨hdepth', h.active.trans hactive, h.calls, h.unit, h.directory, h.units⟩

namespace Eval

variable {α β : Type}

/-- However a step ends, what stood open when it began stands open again. -/
def Restoring (x : Eval α) : Prop := ∀ held (m : Machine), m.Restored (x.runFrom held m).2

namespace Restoring

theorem ofPlain {x : Eval α} (hx : x.Plain) : Restoring x := hx.restored

theorem bind {x : Eval α} {f : α → Eval β} (hx : Restoring x) (hf : ∀ a, Restoring (f a)) :
    Restoring (x >>= f) := by
  intro held m
  have h := hx held m
  rw [runFrom_bind]
  rcases hr : x.runFrom held m with ⟨_ | a, n⟩ <;> rw [hr] at h
  · exact h
  · exact h.trans (hf a held n)

theorem get : Restoring (MonadState.get : Eval Machine) := fun _ m => .refl m

theorem finishing {x : Eval α} {f : Except Interruption α → Machine → Except Interruption β × Machine}
    (hx : Restoring x) (hf : ∀ result (m : Machine), m.Restored (f result m).2) :
    Restoring (finishing x f) :=
  fun held m => (hx held m).trans (hf _ _)

theorem mapFault {x : Eval α} (f : Machine → Fault → Fault) (hx : Restoring x) :
    Restoring (mapFault f x) :=
  hx.finishing fun result _ => by split <;> rfl

/-- A step between an opening and a closing change, when the closing one undoes the opening one. -/
theorem between {x : Eval α} (hx : Restoring x) {f g : Machine → Machine}
    (hfg : ∀ m n, (f m).Restored n → m.Restored (g n)) : Restoring (modify f >>= fun _ => afterwards g x) :=
  fun held m => hfg m _ (hx held (f m))

theorem inFrame {x : Eval α} {push : Environment → Environment} (hx : Restoring x)
    (hdepth : ∀ env, (push env).depth = env.depth + 1) (hactive : ∀ env, (push env).active = env.active) :
    Restoring (inFrame push x) :=
  fun held m => .inFrame (hdepth m.env) (hactive m.env) (hx held _)

theorem inScope {x : Eval α} (hx : Restoring x) : Restoring (inScope x) :=
  hx.inFrame Environment.depth_pushScope fun _ => rfl

theorem inRecord {x : Eval α} (r : RecordId) (hx : Restoring x) : Restoring (inRecord r x) :=
  hx.inFrame (fun env => env.depth_pushRecord r) fun _ => rfl

theorem withActive {x : Eval α} (r : RecordId) (hx : Restoring x) : Restoring (withActive r x) := by
  refine hx.between fun m n h => ⟨h.depth, ?_, h.calls, h.unit, h.directory, h.units⟩
  show n.env.active.tail = _
  rw [h.active]
  rfl

theorem inUnit {x : Eval α} (unit : UnitId) (hx : Restoring x) : Restoring (inUnit unit x) := by
  intro held m
  have h := hx held { m with unit := unit }
  exact ⟨h.depth, h.active, h.calls, rfl, h.directory, h.units⟩

/-- The call that was entered last is left. -/
theorem entering {x : Eval α} (frame : CallFrame) (hx : Restoring x) :
    Restoring (modify (fun m => { m with calls := m.calls.enter frame }) >>= fun _ =>
      afterwards (fun m => { m with calls := m.calls.pop }) x) := by
  refine hx.between fun m n h => ⟨h.depth, h.active, ?_, h.unit, h.directory, h.units⟩
  show n.calls.pop = _
  rw [h.calls]
  simp [CallStack.enter, CallStack.pop]

theorem inCall {x : Eval α} (frame : CallFrame) (hx : Restoring x) : Restoring (inCall frame x) := by
  refine get.bind fun m => ?_
  split
  · exact (ofPlain (.fail _)).bind fun _ => (hx.mapFault _).entering frame
  · exact (hx.mapFault _).entering frame

theorem nodeIn (unit : UnitId) (id : NodeId) : Restoring (nodeIn unit id) := by
  refine get.bind fun m => ?_
  split
  · exact ofPlain (.pure _)
  · exact ofPlain (.defect _)

/-- Looking at a node and going on plainly. -/
theorem nodeOf {k : Node → Eval α} (unit : UnitId) (id : NodeId) (hk : ∀ node, (k node).Plain) :
    Restoring (Eval.nodeOf unit id >>= k) :=
  bind (bind (ofPlain (.requireUnit unit id)) fun _ => nodeIn unit id) fun node => ofPlain (hk node)

theorem inNewMachine {x : Eval α} (unit : CompiledUnit) (maxDepth : Nat) (hx : Restoring x) :
    Restoring (inNewMachine unit maxDepth x) := by
  intro held m
  have h := hx (m.kept held) (Machine.start (m.world.addUnit unit.program.arena).2
    (m.world.addUnit unit.program.arena).1 unit.directory maxDepth)
  refine ⟨rfl, rfl, rfl, rfl, rfl, List.IsPrefix.trans ?_ h.units⟩
  simp [World.addUnit, Machine.start]

theorem modifyWorld {f : World → World} (hf : ∀ w, (f w).units = w.units) : Restoring (modifyWorld f) :=
  fun _ m => ⟨rfl, rfl, rfl, rfl, rfl, by
    show _ <+: (f m.world).units.toList
    rw [hf]⟩

theorem loadOnce {x : Eval RecordId} (path : Path) (hx : Restoring x) : Restoring (loadOnce path x) := by
  refine get.bind fun m => ?_
  split
  · exact ofPlain (.pure _)
  · exact ofPlain (.fail _)
  · refine bind (modifyWorld fun _ => rfl) fun _ => bind ?_ fun record => ?_
    · exact hx.finishing fun _ m => ⟨rfl, rfl, rfl, rfl, rfl, List.prefix_rfl⟩
    · exact bind (modifyWorld fun _ => rfl) fun _ => ofPlain (.pure _)

theorem assignee (unit : UnitId) (id : NodeId) : Restoring (assignee unit id) :=
  nodeOf unit id fun node => by split <;> first | exact .pure _ | exact .fail _

/-- All of evaluation is put together so that what is opened is closed. -/
theorem congruence : Congruence fun x _ => Restoring x where
  plain := ofPlain
  bind := bind
  ending hf hx := hx.finishing hf.restored
  holding g _ _ hx := fun held m => hx (g held) m
  inScope := inScope
  inRecord r _ _ := inRecord r
  withActive r _ _ _ := withActive r
  inUnit unit _ _ := inUnit unit
  inCall frame _ _ := inCall frame
  blockItems? unit id := nodeOf unit id fun node => by split <;> exact .pure _
  functionParts f := (nodeIn f.unit f.node).bind fun node => ofPlain <| by
    split <;> first | exact .pure _ | exact .defect _
  memberParts unit id := nodeOf unit id fun node => by split <;> first | exact .pure _ | exact .defect _
  templateParts t := (nodeIn t.unit t.node).bind fun node => ofPlain <| by
    split <;> first | exact .pure _ | exact .defect _
  inNewMachine unit maxDepth _ _ := inNewMachine unit maxDepth
  loadFile file _ _ hx := bind (ofPlain (.located file)) fun path => loadOnce path (hx path)

/-- In a manner that closes what it opens, evaluation does. -/
theorem evaluator {M : Manner} (hM : Alike (fun x _ => Restoring x) M M) (imports : Imports) (fuel : Nat)
    (id : NodeId) : Restoring (M.evaluator imports.loader fuel id) :=
  @Loading.evaluator _ congruence.toLoading M M hM nodeIn assignee imports fuel id

end Restoring

/-- Evaluating a node, and likewise calling a value, leaves exactly as they were the number of frames, the
active records, the calls in progress and the unit that is being evaluated, its nodes included. So it is for
every node number and every machine, and however the evaluation ends. -/
theorem evaluation_restores (imports : Imports) (fuel : Nat) (held : List Value) (m : Machine) :
    (∀ id, m.Restored ((evalWithin imports.loader fuel id).runFrom held m).2) ∧
      ∀ callee args callSite,
        m.Restored ((callValue (evalWithin imports.loader fuel) callee args callSite).runFrom held m).2 := by
  have heval (id : NodeId) : Restoring (evalWithin imports.loader fuel id) :=
    Restoring.congruence.evalWithin Restoring.nodeIn Restoring.assignee imports fuel id
  refine ⟨fun id => heval id held m, fun callee args callSite => ?_⟩
  have hcall : Restoring (callValue (evalWithin imports.loader fuel) callee args callSite) :=
    @Congruence.callValue _ Restoring.congruence _ (evalWithin imports.loader fuel) heval callee args callSite
  exact hcall held m

end Eval

end DynScript
