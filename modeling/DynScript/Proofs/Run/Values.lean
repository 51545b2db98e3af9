import DynScript.Proofs.Run.Reassigning

/-!
# What nodes evaluate to

Rules that tell the value of a node from the values of the nodes below it, and what a name means in an environment from
its scopes. With them the run of a given program can be followed step by step.
-/

namespace DynScript

namespace Environment

variable {env : Environment} {b : Bindings} {h : Heap} {name : String} {v : Value} {i : Nat}

/-- The environment with one scope more. -/
def withScope (env : Environment) (b : Bindings) : Environment :=
  { env with frames := env.frames.push (.locals b), nonempty := by simp }

theorem ext_frames {env env' : Environment} (hf : env.frames = env'.frames) (ha : env.active = env'.active) :
    env = env' := by
  cases env
  cases env'
  simp_all

@[simp] theorem depth_withScope : (env.withScope b).depth = env.depth + 1 := Array.size_push _

@[simp] theorem active?_withScope : (env.withScope b).active? = env.active? := rfl

theorem pushScope_eq (env : Environment) : env.pushScope = env.withScope .empty := rfl

theorem innermost_withScope : (env.withScope b).innermost = .locals env.depth := by
  simp [innermost, withScope, Frame.holder, depth]

theorem truncate_withScope : (env.withScope b).truncate env.depth = env := by
  refine ext_frames (Array.toList_inj.1 ?_) rfl
  have hpos : max env.depth 1 = env.frames.toList.length := max_eq_left env.nonempty
  have hpush : (env.withScope b).frames.toList = env.frames.toList ++ [.locals b] := Array.toList_push
  show ((env.withScope b).frames.shrink (max env.depth 1)).toList = _
  rw [Array.toList_shrink, hpos, hpush, List.take_left]

theorem put_withScope : (env.withScope b).put h name v (.locals env.depth) = (env.withScope (b.set name v), h) := by
  refine Prod.ext (ext_frames (Array.ext_getElem? fun i => ?_) rfl) rfl
  show ((env.frames.push (.locals b)).modify env.frames.size (Frame.setLocal name v))[i]? =
    (env.frames.push (.locals (b.set name v)))[i]?
  rw [Array.getElem?_modify, Array.getElem?_push, Array.getElem?_push]
  by_cases hi : i = env.frames.size
  · subst hi
    simp [Frame.setLocal]
  · rw [if_neg (Ne.symm hi), if_neg hi, if_neg hi]

/-- A variable of an outer scope is given a value. -/
theorem put_withScope_outer (hi : i < env.depth) :
    (env.withScope b).put h name v (.locals i) = ((env.put h name v (.locals i)).1.withScope b, h) := by
  refine Prod.ext (ext_frames (Array.ext_getElem? fun k => ?_) rfl) rfl
  have hne : env.frames.size ≠ i := by
    have hsize : env.frames.size = env.depth := rfl
    omega
  show ((env.frames.push (.locals b)).modify i (Frame.setLocal name v))[k]? =
    ((env.frames.modify i (Frame.setLocal name v)).push (.locals b))[k]?
  rw [Array.getElem?_modify, Array.getElem?_push, Array.getElem?_push, Array.size_modify, Array.getElem?_modify]
  by_cases hk : k = env.frames.size
  · subst hk
    simp [hne.symm]
  · rw [if_neg hk, if_neg hk]

/-- A name of the scope is found in it. -/
theorem finds_withScope (hb : (b.get? name).isSome) : (env.withScope b).Finds h name env.depth (.locals b) where
  there := Array.getElem?_push_size
  has := hb
  innermost j inner hj hinner := by
    have hlt : j < (env.withScope b).depth := (Array.getElem?_eq_some_iff.1 hinner).1
    rw [depth_withScope] at hlt
    omega

/-- Another name is found where it is found outside of the scope. -/
theorem Finds.withScope {frame : Frame} (hf : env.Finds h name i frame) (hb : b.get? name = none) :
    (env.withScope b).Finds h name i frame where
  there := (getElem?_push (Array.getElem?_eq_some_iff.1 hf.there).1).trans hf.there
  has := hf.has
  innermost j inner hj hinner := by
    replace hinner : (env.frames.push (.locals b))[j]? = some inner := hinner
    rw [Array.getElem?_push] at hinner
    split at hinner
    · obtain rfl := Option.some.inj hinner
      exact Option.not_isSome_iff_eq_none.2 hb
    · exact hf.innermost j inner hj hinner

/-- If it is found nowhere there, it is not found in the scope. -/
theorem not_has_withScope (hnone : ∀ frame ∈ env.frames, ¬(frame.names h).has name) (hb : b.get? name = none) :
    ∀ frame ∈ (env.withScope b).frames, ¬(frame.names h).has name := by
  intro frame hframe
  rcases Array.mem_push.1 hframe with hframe | rfl
  · exact hnone frame hframe
  · exact Option.not_isSome_iff_eq_none.2 hb

theorem holder?_withScope (hb : (b.get? name).isSome) : (env.withScope b).holder? h name = some (.locals env.depth) :=
  (finds_withScope hb).holder?

theorem holder?_withScope_outer (hb : b.get? name = none) : (env.withScope b).holder? h name = env.holder? h name := by
  rcases env.finds_or_none h name with ⟨i, frame, hf⟩ | hnone
  · rw [hf.holder?, (hf.withScope hb).holder?]
  · rw [holder?_eq_none.2 hnone, holder?_eq_none.2 (not_has_withScope hnone hb)]

theorem lookup_withScope (hb : b.get? name = some v) : (env.withScope b).lookup h name = some v := by
  rw [(finds_withScope (Option.isSome_of_eq_some hb)).lookup]
  exact hb

theorem lookup_withScope_outer (hb : b.get? name = none) : (env.withScope b).lookup h name = env.lookup h name := by
  rcases env.finds_or_none h name with ⟨i, frame, hf⟩ | hnone
  · rw [hf.lookup, (hf.withScope hb).lookup]
  · rw [lookup_of_none hnone, lookup_of_none (not_has_withScope hnone hb)]
    rfl

end Environment

namespace Eval

variable {α β : Type} {load : Loader} {eval : Evaluator} {unit : UnitId} {a : Arena} {id : NodeId} {node : Node}
  {held : List Value} {m n : Machine} {env : Environment} {b : Bindings} {v : Value} {name : String}

/-! ## Steps that end in values -/

theorem bind_of_ok {x : Eval α} {k : α → Eval β} {r : α} (hx : x.runFrom held m = (.ok r, n)) :
    (x >>= k).runFrom held m = (k r).runFrom held n := by
  rw [runFrom_bind, hx]

theorem locating_of_ok {position : Option Position} {x : Eval α} {r : α} (hx : x.runFrom held m = (.ok r, n)) :
    (locating position x).runFrom held m = (.ok r, n) := by
  rw [locating, mapFault, runFrom_finishing, hx]

/-- A step in a scope of its own leaves the scopes around it. -/
theorem inScope_of_ok {x : Eval α} {r : α}
    (hx : x.runFrom held { m with env := m.env.withScope .empty } = (.ok r, { n with env := env.withScope b }))
    (hdepth : env.depth = m.env.depth) : (inScope x).runFrom held m = (.ok r, { n with env }) := by
  show (afterwards (fun p => { p with env := p.env.truncate m.env.depth }) x).runFrom held
    { m with env := m.env.pushScope } = _
  rw [afterwards, runFrom_finishing, Environment.pushScope_eq, hx, ← hdepth]
  dsimp only
  rw [Environment.truncate_withScope]

theorem inCall_of_ok {frame : CallFrame} {x : Eval α} {r : α} (hcalls : m.calls.refusal? = none)
    (hx : x.runFrom held { m with calls := m.calls.enter frame } = (.ok r, { n with calls := m.calls.enter frame })) :
    (inCall frame x).runFrom held m = (.ok r, { n with calls := m.calls }) := by
  have hpop : (m.calls.enter frame).pop = m.calls := by
    simp [CallStack.pop, CallStack.enter]
  rw [runFrom_inCall_entered hcalls, afterwards, runFrom_finishing, mapFault, runFrom_finishing, hx]
  dsimp only
  rw [hpop]

theorem catchReturn_of_ok {x : Eval Value} (hx : x.runFrom held m = (.ok v, n)) :
    (catchReturn x).runFrom held m = (.ok v, n) := by
  rw [catchReturn, runFrom_finishing, hx]

theorem inUnit_of_ok {x : Eval α} {r : α} (hunit : m.unit = unit) (hx : x.runFrom held m = (.ok r, n))
    (hn : n.unit = unit) :
    (inUnit unit x).runFrom held m = (.ok r, n) := by
  subst hunit
  show (afterwards (fun p => { p with unit := m.unit }) x).runFrom held m = _
  rw [afterwards, runFrom_finishing, hx, ← hn]

theorem define_of_withScope (henv : m.env = env.withScope b) :
    (define name v).runFrom held m = (.ok (), { m with env := env.withScope (b.set name v) }) := by
  have hput : m.env.put m.world.heap name v m.env.innermost = (env.withScope (b.set name v), m.world.heap) := by
    rw [henv, Environment.innermost_withScope, Environment.put_withScope]
  show (Except.ok (), { m with
    env := (m.env.put m.world.heap name v m.env.innermost).1
    world := { m.world with heap := (m.env.put m.world.heap name v m.env.innermost).2 } }) = _
  rw [hput]

/-- An assignment reaches through a scope that does not have the name. -/
theorem assign_of_outer {c : Bindings} (henv : m.env = (env.withScope b).withScope c) (hc : c.get? name = none)
    (hb : (b.get? name).isSome) (hactive : env.active? = none) :
    (assign name v).runFrom held m = (.ok (), { m with env := (env.withScope (b.set name v)).withScope c }) := by
  have htarget : m.env.target? m.world.heap name = some (.locals env.depth) := by
    rw [henv, Environment.target?, Environment.active?_withScope, Environment.active?_withScope, hactive]
    exact (Environment.holder?_withScope_outer hc).trans (Environment.holder?_withScope hb)
  have hput : m.env.put m.world.heap name v (.locals env.depth) =
      ((env.withScope (b.set name v)).withScope c, m.world.heap) := by
    rw [henv, Environment.put_withScope_outer (by simp), Environment.put_withScope]
  have hfound : (target? name).runFrom held m = (.ok (some (.locals env.depth)), m) := by
    rw [← htarget]
    rfl
  rw [assign, bind_of_ok hfound]
  show (Except.ok (), { m with
    env := (m.env.put m.world.heap name v (.locals env.depth)).1
    world := { m.world with heap := (m.env.put m.world.heap name v (.locals env.depth)).2 } }) = _
  rw [hput]

/-! ## Nodes -/

section

variable (hm : m.Evaluates unit a)
include hm

/-- The value of a node is that of its form. -/
theorem nodeStep_of_ok {kind : NodeKind} (hk : a.kind? id = some kind)
    (h : ∀ position,
      (nodeKind (within unit eval) eval (load eval) unit id ⟨kind, position⟩).runFrom held m = (.ok v, n)) :
    (nodeStep load eval id).runFrom held m = (.ok v, n) := by
  obtain ⟨position, hn⟩ := Arena.kind?_eq_some.1 hk
  rw [runFrom_nodeStep, hm.current, hm.node?, hn]
  exact locating_of_ok (h position)

theorem nodeOf_of_kind {kind : NodeKind} (hk : a.kind? id = some kind) {k : Node → Eval α}
    {r : Except Interruption α × Machine}
    (h : ∀ position, (k ⟨kind, position⟩).runFrom held m = r) : (nodeOf unit id >>= k).runFrom held m = r := by
  obtain ⟨position, hn⟩ := Arena.kind?_eq_some.1 hk
  rw [nodeOf_bind, bind_of_ok (runFrom_requireUnit hm.current), runFrom_nodeIn_bind, hm.node?, hn]
  exact h position

theorem literal_of_ok {value : Literal} (hk : a.kind? id = some (.literal value)) :
    (nodeStep load eval id).runFrom held m = (.ok value.toValue, m) :=
  nodeStep_of_ok hm hk fun _ => rfl

theorem function_of_ok {params : List Param} {bodyId : NodeId} (hk : a.kind? id = some (.function params bodyId)) :
    (nodeStep load eval id).runFrom held m = (.ok (.function (.ofNode unit id)), m) :=
  nodeStep_of_ok hm hk fun _ => rfl

theorem ident_of_ok (hk : a.kind? id = some (.ident name)) (hv : m.env.lookup m.world.heap name = some v) :
    (nodeStep load eval id).runFrom held m = (.ok v, m) := by
  refine nodeStep_of_ok hm hk fun _ => ?_
  have hlookup : (lookup? name).runFrom held m = (.ok (some v), m) := by
    rw [← hv]
    rfl
  show (lookup name).runFrom held m = _
  rw [lookup, bind_of_ok hlookup]
  rfl

/-- A binding that is not recursive. -/
theorem binding_of_ok {mode : BindingMode} {isFinal : Bool} {value : NodeId}
    (hk : a.kind? id = some (.binding name mode isFinal value)) (hmode : mode ≠ .recursive)
    (hv : (eval value).runFrom held m = (.ok v, n)) (henv : n.env = env.withScope b) :
    (nodeStep load eval id).runFrom held m =
      (.ok (v.named name), { n with env := env.withScope (b.set name (v.named name)) }) := by
  refine nodeStep_of_ok hm hk fun _ => ?_
  have hvalue : (within unit eval value).runFrom held m = (.ok v, n) := (runFrom_within hm.current).trans hv
  show (binding (within unit eval) name mode value).runFrom held m = _
  rw [binding, if_neg hmode]
  dsimp only
  rw [bind_of_ok hvalue, bind_of_ok (define_of_withScope henv)]
  rfl

/-- A block, in a scope of its own. -/
theorem block_of_ok {items : List NodeId} (hk : a.kind? id = some (.block items))
    (hv : (statements (within unit eval) items).runFrom held { m with env := m.env.withScope .empty } =
      (.ok v, { n with env := env.withScope b })) (hdepth : env.depth = m.env.depth) :
    (nodeStep load eval id).runFrom held m = (.ok v, { n with env }) :=
  nodeStep_of_ok hm hk fun _ => inScope_of_ok hv hdepth

/-- An assignment to a name. -/
theorem assign_of_ok {target value : NodeId} {n' : Machine} (hk : a.kind? id = some (.assign target value))
    (ht : a.kind? target = some (.ident name)) (hv : (eval value).runFrom held m = (.ok v, n))
    (hevaluates : n.Evaluates unit a) (hassign : (assign name v).runFrom held n = (.ok (), n')) :
    (nodeStep load eval id).runFrom held m = (.ok v, n') := by
  refine nodeStep_of_ok hm hk fun _ => ?_
  have hvalue : (within unit eval value).runFrom held m = (.ok v, n) := (runFrom_within hm.current).trans hv
  have hassignee : (assignee unit target).runFrom held n = (.ok (.name name), n) :=
    nodeOf_of_kind hevaluates ht fun _ => rfl
  show (assignment (within unit eval) unit target value).runFrom held m = _
  rw [assignment, bind_of_ok hvalue, bind_of_ok hassignee]
  dsimp only
  rw [bind_of_ok hassign]
  rfl

/-- A call of a function of the unit that has no parameters and is not stored in a record. -/
theorem call_of_ok {callee bodyId : NodeId} {f : Function} {items : List NodeId}
    (hk : a.kind? id = some (.call callee [])) (hcallee : (eval callee).runFrom held m = (.ok (.function f), m))
    (hunit : f.unit = unit) (hf : f.receiver = none) (hliteral : a.kind? f.node = some (.function [] bodyId))
    (hbody : a.kind? bodyId = some (.block items)) (hcalls : m.calls.refusal? = none)
    (hv : ∀ frame, (statements (within unit eval) items).runFrom (.function f :: held)
        { m with calls := m.calls.enter frame, env := m.env.withScope .empty } =
      (.ok v, { n with calls := m.calls.enter frame, env := env.withScope b }))
    (hcurrent : n.unit = unit) (hdepth : env.depth = m.env.depth) :
    (nodeStep load eval id).runFrom held m = (.ok v, { n with calls := m.calls, env }) := by
  refine nodeStep_of_ok hm hk fun position => ?_
  have hfunction : (within unit eval callee).runFrom held m = (.ok (.function f), m) :=
    (runFrom_within hm.current).trans hcallee
  have hparts : (functionParts f).runFrom (.function f :: held) m = (.ok ([], bodyId), m) := by
    obtain ⟨position', hn⟩ := Arena.kind?_eq_some.1 hliteral
    rw [functionParts, hunit, runFrom_nodeIn_bind, hm.node?, hn]
    rfl
  have hreceiver (m : Machine) : (receiverOf f).runFrom (.function f :: held) m = (.ok none, m) := by
    rw [receiverOf, Function.receiver?, hf]
    rfl
  have hitems (m : Machine) (hm : m.Evaluates unit a) :
      (blockItems? unit bodyId).runFrom (.function f :: held) m = (.ok (some items), m) :=
    nodeOf_of_kind hm hbody fun _ => rfl
  show (call (within unit eval) eval callee [] position).runFrom held m = _
  rw [call, bind_of_ok hfunction]
  show (callFunction eval f [] position).runFrom (.function f :: held) m = _
  rw [callFunction, bind_of_ok hparts]
  show (catchReturn (inCall ⟨f.name, [], position⟩ (receiverOf f >>= fun receiver =>
    inUnit f.unit (asMethodOf receiver (inScope (body (within f.unit eval) f.unit bodyId)))))).runFrom _ m = _
  refine catchReturn_of_ok (inCall_of_ok (n := { n with env }) hcalls ?_)
  rw [bind_of_ok (hreceiver _), hunit]
  refine inUnit_of_ok hm.current
    (inScope_of_ok (b := b) (n := { n with calls := m.calls.enter ⟨f.name, [], position⟩ }) ?_ hdepth) hcurrent
  refine (bind_of_ok (hitems _ ?_)).trans (hv _)
  exact ⟨hm.current, hm.nodes⟩

/-- Statements are evaluated one after the other. -/
theorem statementsAfter_of_ok {last w : Value} {rest : List NodeId} {r : Except Interruption Value × Machine}
    (hv : (eval id).runFrom (last :: held) m = (.ok w, n))
    (hrest : (statementsAfter (within unit eval) w rest).runFrom held n = r) :
    (statementsAfter (within unit eval) last (id :: rest)).runFrom held m = r := by
  have hvalue : (holding last (within unit eval id)).runFrom held m = (.ok w, n) := (runFrom_within hm.current).trans hv
  rw [statementsAfter, bind_of_ok hvalue]
  exact hrest

end

end Eval

end DynScript
