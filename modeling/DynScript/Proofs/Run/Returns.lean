import DynScript.Proofs.Run.Leaving
import DynScript.Proofs.Run.Strict

/-!
# Where returns end

A return that is evaluated ends the call of the function whose text is closest around it, except that it may stand in
a member of a class literal: then it leaves the call of the class. The manner `Manner.sealed` refuses such calls. In
this manner a return leaves only the nodes that it stands in, and no call.
-/

namespace DynScript

/-- The literal that a class was made by, when a return strays from a member of it. -/
def World.StrayTemplate (w : World) (t : Template) : Prop :=
  ∃ a, w.units[t.unit.index]? = some a ∧ a.StrayClass t.node

open Classical in
/-- The literal of a class that is called, when a return strays from a member of it. -/
noncomputable def Machine.strayLiteral? (m : Machine) : Value → Option NodeId
  | .record r => (m.world.heap.template? r).bind fun t => if m.world.StrayTemplate t then some t.node else none
  | _ => none

/-- The usual manner, except that no class is called that a return can leave. -/
noncomputable def Manner.sealed : Manner :=
  { Manner.usual with
    around := fun callee _ x => do
      match (← get).strayLiteral? callee with
      | some id => Eval.defect (.misplacedNode id)
      | none => x }

/-- Whatever nodes are evaluated, faults other than returns may come about. -/
theorem Arena.admits_quiet (a : Arena) (A : Prop) : a.Admits fun fault => fault.cause.Quiet ∨ A where
  fresh _ h := .inl h.cause
  signal _ _ h := .inl h
  label _ _ _ _ _ _ h := .inl h
  leaving _ node _ fault h := by
    unfold Fault.leaving
    split
    · exact h
    · exact h
  backtrace _ _ h := h

/-- What holds of a node that a return strays from also holds of the node above that it is evaluated with. -/
theorem Arena.finds_strays {a : Arena} {id : NodeId} {node : Node} (hn : a.get? id = some node) :
    a.Finds (fun c => a.Strays c → a.Strays id) node.kind where
  children hd c hc := .deeper (kind?_eq_some.2 ⟨node.position, hn⟩) hd hc
  target target value hk owner name ho hstrays :=
    .deeper (kind?_eq_some.2 ⟨node.position, hn⟩) (by rw [hk]; rfl) (by rw [hk]; exact List.mem_cons_self ..)
      (.deeper ho rfl (List.mem_singleton_self _) hstrays)
  members composed members hk m hm name mode isFinal value hv hstrays :=
    .deeper (kind?_eq_some.2 ⟨node.position, hn⟩) (by rw [hk]; rfl) (by rw [hk]; exact hm)
      (.deeper hv rfl (List.mem_singleton_self _) hstrays)

namespace Eval

variable {α β : Type} {unit : UnitId} {a : Arena}

namespace Stops

/-- No return leaves a step in which returns are caught. -/
theorem catchReturn (x : Eval Value) : Stops (·.cause.Quiet) (catchReturn x) := by
  intro held m fault hf
  rw [Eval.catchReturn, runFrom_finishing] at hf
  rcases hr : x.runFrom held m with ⟨⟨⟨cause, position, backtrace⟩ | stuck⟩ | v, n⟩ <;> rw [hr] at hf
  · cases cause <;> cases hf <;> simp [Cause.Quiet]
  · cases hf
  · cases hf

/-- No return leaves the call of a function. -/
theorem callFunction (M : Manner) (eval : Evaluator) (f : Function) (args : List Value) (callSite : Option Position) :
    Stops (·.cause.Quiet) (M.callFunction eval f args callSite) := by
  refine bind (functionParts (fun _ h => h.cause) f) fun (params, bodyId) => ?_
  dsimp only
  split
  · exact bind (simple (fun _ h => h.cause) (.fail nofun)) fun _ => catchReturn _
  · exact catchReturn _

end Stops

end Eval

/-! ## The sealed manner -/

namespace Manner

open Eval

/-- Around a call the sealed manner gets stuck, or it does nothing. -/
theorem runFrom_around_sealed (callee : Value) (callSite : Option Position) (x : Eval Value) (held : List Value)
    (m : Machine) : (sealed.around callee callSite x).runFrom held m = match m.strayLiteral? callee with
      | some id => (.error (.stuck (.defect (.misplacedNode id))), m)
      | none => x.runFrom held m := by
  show ((get >>= fun m => _ : Eval Value).runFrom held m) = _
  rw [runFrom_bind, runFrom_get]
  dsimp only
  cases m.strayLiteral? callee <;> rfl

/-- In the sealed manner, too, what is opened is closed. -/
theorem sealed_restoring : Alike (fun x _ => Restoring x) sealed sealed := by
  have H : Invoking fun x _ => Restoring x := Restoring.congruence.toInvoking
  refine { H.usual with around := fun callee callSite x _ h held m => ?_ }
  rw [runFrom_around_sealed]
  split
  · rfl
  · exact h held m

/-- In the sealed manner the same happens as in the usual one, unless a call is refused. -/
theorem sealed_agrees : Alike (fun x y => Agrees x y) usual sealed := by
  have H : Invoking fun x y => Agrees x y := Agrees.congruence.toInvoking
  refine { H.usual with around := fun callee callSite x y h held m => ?_ }
  rw [runFrom_around_sealed]
  split
  · exact .inr ⟨_, rfl⟩
  · exact h held m

end Manner

namespace Eval

/-! ## Calls -/

/-- In the sealed manner nothing else is done in nodes than usual. -/
theorem inside_sealed {unit : UnitId} {a : Arena} {Φ : Fault → Prop} (ha : a.Admits Φ) :
    AlikeInside (fun x _ => Leaving unit a Φ x) .sealed .sealed :=
  { Leaving.inside_usual ha with }

/-- A class is made from the literal that is there. -/
theorem runFrom_templateParts (t : Template) (held : List Value) (m : Machine) :
    (∃ d, (templateParts t).runFrom held m = (.error (.stuck (.defect d)), m)) ∨
      ∃ a params composed ids, m.world.units[t.unit.index]? = some a ∧
        a.kind? t.node = some (.object params composed ids) ∧
        (templateParts t).runFrom held m = (.ok (params.getD [], composed, ids), m) := by
  rw [templateParts, runFrom_nodeIn_bind]
  cases hnode : m.world.node? t.unit t.node with
  | none => exact .inl ⟨_, rfl⟩
  | some node =>
    obtain ⟨a, ha, hn⟩ := Option.bind_eq_some_iff.1 hnode
    obtain ⟨kind, position⟩ := node
    dsimp only
    split
    · exact .inr ⟨a, _, _, _, ha, Arena.kind?_eq_some.2 ⟨position, hn⟩, rfl⟩
    · exact .inl ⟨_, rfl⟩

section calls

variable {eval : Evaluator}
  (he : ∀ unit a id, Leaving unit a (fun fault => fault.cause.Quiet ∨ a.Strays id) (eval id))
include he

/-- No return leaves a class, unless one strays from a member of its literal. -/
theorem quiet_instantiate {cls : RecordId} {t : Template} {args : List Value} {callSite : Option Position}
    {held : List Value} {m : Machine} (hm : ¬ m.world.StrayTemplate t) {fault : Fault}
    (hf : ((Manner.sealed.instantiate eval cls t args callSite).runFrom held m).1 = .error (.fault fault)) :
    fault.cause.Quiet := by
  rw [Manner.instantiate, runFrom_bind] at hf
  rcases runFrom_templateParts t held m with ⟨d, hparts⟩ | ⟨a, params, composed, ids, ha, hk, hparts⟩ <;>
    rw [hparts] at hf
  · cases hf
  dsimp only at hf
  split at hf
  · cases hf
    exact Cause.quiet_arityMismatch _ _ _
  rw [runFrom_bind] at hf
  rcases hr : (onHeap fun h => h.newInstance cls).runFrom held m with ⟨e | r, n⟩ <;> rw [hr] at hf
  · cases hr
  have hunits : n.world.units[t.unit.index]? = some a := by
    cases hr
    exact ha
  dsimp only at hf
  rw [runFrom_bind] at hf
  obtain ⟨position, hn⟩ := Arena.kind?_eq_some.1 hk
  have hconstruct := Leaving.construct (a.admits_quiet (∃ m ∈ ids, a.StrayMember m))
    (inside_sealed (a.admits_quiet _)) (D := fun c => a.Strays c → ∃ m ∈ ids, a.StrayMember m)
    (fun c hc => (he t.unit a c).imp fun _ h => h.imp_right hc) hn rfl
    (fun m hm name mode isFinal value hk hstrays => ⟨m, hm, name, mode, isFinal, value, hk, hstrays⟩) r
    (((params.getD []).map fun p => p.name).zip args)
  rcases hr : (holding (.record r) (inUnit t.unit (Manner.sealed.construct (within t.unit eval) t.unit r
      (((params.getD []).map fun p => p.name).zip args) composed ids))).runFrom held n with ⟨e | u, n'⟩ <;> rw [hr] at hf
  · obtain rfl : e = .fault fault := Except.error.inj hf
    have hend := congrArg Prod.fst hr
    refine (@Leaving.fault_inUnit _ _ _ _ _ hconstruct (.record r :: held) n hunits fault hend).resolve_right ?_
    rintro ⟨member, hmem, hstray⟩
    exact hm ⟨a, ha, params, composed, ids, hk, member, hmem, hstray⟩
  · cases hf

/-- In the sealed manner no return leaves a call. -/
theorem Stops.callSealed (callee : Value) (args : List Value) (callSite : Option Position) :
    Stops (·.cause.Quiet) (Manner.sealed.callValue eval callee args callSite) := by
  intro held m fault hf
  rw [Manner.callValue, Manner.runFrom_around_sealed] at hf
  split at hf
  · cases hf
  rename_i hstray
  cases callee with
  | function f => exact callFunction _ eval f args callSite _ m fault hf
  | native n => exact simple (fun _ h => h.cause) (.callNative n args) _ m fault hf
  | record r =>
    change ((Manner.sealed.callRecord eval r args callSite).runFrom (args ++ .record r :: held) m).1 = _ at hf
    rw [Manner.callRecord, runFrom_bind, runFrom_heap] at hf
    dsimp only at hf
    split at hf
    · rename_i t ht
      refine quiet_instantiate he (fun ht' => ?_) hf
      rw [Machine.strayLiteral?, ht, Option.bind_some, if_pos ht'] at hstray
      cases hstray
    · refine simple (P := (·.cause.Quiet)) (fun _ h => h.cause) ?_ _ m fault hf
      exact .guarded _ (.fail (Cause.quiet_arityMismatch _ _ _)) fun _ =>
        .bind (.onHeap fun _ hh => hh.shallowClone _) fun _ => .pure _
  | _ =>
    cases hf
    exact Cause.quiet_notCallable _

end calls

/-- In the sealed manner the evaluation of a node ends in a return only if a return strays from the node. -/
theorem Leaving.sealed (imports : Imports) (fuel : Nat) (unit : UnitId) (a : Arena) (id : NodeId) :
    Leaving unit a (fun fault => fault.cause.Quiet ∨ a.Strays id) (Manner.sealed.evaluator imports.loader fuel id) := by
  induction fuel generalizing unit a id with
  | zero => exact simple (a.admits_quiet _).fresh (.stuck _)
  | succ fuel ih =>
    have hr := Restoring.evaluator Manner.sealed_restoring imports fuel
    refine nodeStep (a.admits_quiet _) (D := fun c => a.Strays c → a.Strays id)
      (fun c hc => (ih unit a c).imp fun _ h => h.imp_right hc) hr (inside_sealed (a.admits_quiet _)) imports
      (fun node hn => Arena.finds_strays hn) (fun node value hn hk v => .inr (@Arena.Strays.here _ _ value ?_))
      fun node hn callee args => restoring ?_ fun held m _ fault hf => .inl ?_
    · rw [Arena.kind?_eq_some.2 ⟨node.position, hn⟩, hk]
    · have H : Calling fun x _ => Restoring x := Restoring.congruence.toCalling
      let eval := Manner.sealed.evaluator imports.loader fuel
      exact @Calling.callInManner _ H eval eval hr _ _ Manner.sealed_restoring _ _ _
    · exact Stops.callSealed ih callee args node.position held m fault hf

end Eval

end DynScript
