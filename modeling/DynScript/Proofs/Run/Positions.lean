import DynScript.Proofs.Run.Leaving
import DynScript.Proofs.Run.Strict

/-!
# Places of faults

A fault gets the place of the innermost node whose evaluation it leaves. That is a node of the unit that runs, unless
the fault comes out of a call that leads into another unit. The manner `Manner.confined` gets stuck on such faults. In
this manner the place of a fault always belongs to the unit that runs.
-/

namespace DynScript

namespace Arena

/-- A place that is written down with the nodes: where one of them stands, or a name in one. -/
def HasPlace (a : Arena) (p : Position) : Prop :=
  ∃ id node, a.get? id = some node ∧ (node.position = some p ∨ ∃ label ∈ node.kind.labels, label.position = some p)

/-- If a fault has a place then it belongs to the nodes. Nobody sees the places of signals. -/
def Placed (a : Arena) (fault : Fault) : Prop := fault.isSignal ∨ ∀ p, fault.position = some p → a.HasPlace p

/-- Whatever nodes are evaluated, faults at their places may come about. -/
theorem admits_placed (a : Arena) : a.Admits a.Placed where
  fresh fault h := .inr fun p hp => by simp [h.position] at hp
  signal fault h _ := .inl h
  label id node hn label hl cause _ := .inr fun p hp => ⟨id, node, hn, .inr ⟨label, hl, by
    simpa [Fault.locatedAt, Fault.ofCause] using hp⟩⟩
  leaving id node hn fault h := by
    unfold Fault.leaving
    split
    · exact h
    · refine h.imp_right fun hmarks p hp => ?_
      rcases hposition : fault.position with _ | q
      · exact ⟨id, node, hn, .inl (by simpa [Fault.locatedAt, hposition] using hp)⟩
      · exact hmarks p (by simpa [Fault.locatedAt, hposition] using hp)
  backtrace fault backtrace h := h

end Arena

/-- The node of another unit that a call leads to. -/
def Machine.foreign? (m : Machine) : Value → Option NodeId
  | .function f => if f.unit = m.unit then none else some f.node
  | .record r => (m.world.heap.template? r).bind fun t => if t.unit = m.unit then none else some t.node
  | _ => none

/-- Get stuck on a fault that has another place than this one. -/
def Eval.confining (id : NodeId) (callSite : Option Position) (x : Eval α) : Eval α :=
  finishing x fun
    | .error (.fault fault), m =>
      if fault.isSignal || fault.position.isNone || fault.position = callSite then (.error (.fault fault), m)
      else (.error (.stuck (.defect (.foreignNode id))), m)
    | result, m => (result, m)

namespace Manner

open Eval

/-- The usual manner, except that no fault leaves a call into another unit with a place in there. -/
def confined : Manner :=
  { usual with
    around := fun callee callSite x => do
      match (← get).foreign? callee with
      | some id => confining id callSite x
      | none => x }

/-- Calls into other units are watched. -/
theorem runFrom_around_confined (callee : Value) (callSite : Option Position) (x : Eval Value) (held : List Value)
    (m : Machine) : (confined.around callee callSite x).runFrom held m = match m.foreign? callee with
      | some id => (confining id callSite x).runFrom held m
      | none => x.runFrom held m := by
  show ((get >>= fun m => _ : Eval Value).runFrom held m) = _
  rw [runFrom_bind, runFrom_get]
  dsimp only
  cases m.foreign? callee <;> rfl

/-- In the confined manner, too, what is opened is closed. -/
theorem confined_restoring : Alike (fun x _ => Restoring x) confined confined := by
  have H : Invoking fun x _ => Restoring x := Restoring.congruence.toInvoking
  refine { H.usual with around := fun callee callSite x _ h held m => ?_ }
  rw [runFrom_around_confined]
  split
  · refine h.finishing (fun result m => ?_) held m
    split
    · split <;> rfl
    · rfl
  · exact h held m

/-- In the confined manner the same happens as in the usual one, unless it gets stuck on a fault. -/
theorem confined_agrees : Alike (fun x y => Agrees x y) usual confined := by
  have H : Invoking fun x y => Agrees x y := Agrees.congruence.toInvoking
  refine { H.usual with around := fun callee callSite x y h held m => ?_ }
  rw [runFrom_around_confined]
  split
  · rw [confining, runFrom_finishing]
    rcases h held m with hy | ⟨d, hd⟩
    · rw [hy]
      show _ = x.runFrom held m ∨ _
      rcases x.runFrom held m with ⟨⟨fault | stuck⟩ | value, n⟩
      · dsimp only
        split
        · exact .inl rfl
        · exact .inr ⟨_, rfl⟩
      · exact .inl rfl
      · exact .inl rfl
    · exact .inr ⟨d, by rw [hd]⟩
  · exact h held m

end Manner

namespace Eval

variable {unit : UnitId} {a : Arena}

namespace Leaving

/-- In the confined manner nothing else is done in nodes than usual. -/
theorem inside_confined {Φ : Fault → Prop} (ha : a.Admits Φ) :
    AlikeInside (fun x _ => Leaving unit a Φ x) .confined .confined :=
  { inside_usual ha with }

/-! ## Calls -/

section calls

variable {eval : Evaluator} (he : ∀ id, Leaving unit a a.Placed (eval id))
include he

/-- The faults of a function of the unit. -/
theorem callFunction {f : Function} (hf : f.unit = unit) (args : List Value) (callSite : Option Position) :
    Leaving unit a a.Placed (Manner.confined.callFunction eval f args callSite) := by
  have hΦ := a.admits_placed
  have H : Composition fun x _ => Leaving unit a a.Placed x := composition hΦ
  have hown (id : NodeId) : Leaving unit a a.Placed (within unit eval id) := ofUnit hΦ unit (he id)
  subst hf
  unfold Manner.callFunction Eval.functionParts
  rw [bind_assoc]
  refine nodeIn fun node hn => ?_
  dsimp only
  split
  · rename_i params body hkind
    rw [pure_bind]
    refine guarded _ (simple hΦ.fresh (.fail nofun)) fun _ => catchReturn (inCall hΦ _ ?_)
    refine bind (simple hΦ.fresh (.receiverOf f)) fun receiver => inUnit (asMethodOf receiver (inFrame _ ?_))
    refine bind (simple hΦ.fresh (.defineAll _)) fun _ => ?_
    refine @Composition.body _ H (fun _ => True) (within f.unit eval) (within f.unit eval)
      (fun id _ => hown id) f.unit body trivial @fun _ k k' hk => ?_
    unfold Eval.blockItems?
    rw [bind_assoc]
    refine nodeOf hΦ fun node _ => ?_
    split <;> exact hk _ fun _ _ _ _ => trivial
  · rw [defect, throw_bind]
    exact simple hΦ.fresh (.stuck _)

/-- The faults of a class of the unit. -/
theorem instantiate {cls : RecordId} {t : Template} (ht : t.unit = unit) (args : List Value)
    {callSite : Option Position} (hc : ∀ p, callSite = some p → a.HasPlace p) :
    Leaving unit a a.Placed (Manner.confined.instantiate eval cls t args callSite) := by
  have hΦ := a.admits_placed
  subst ht
  unfold Manner.instantiate Eval.templateParts
  rw [bind_assoc]
  refine nodeIn fun node hn => ?_
  dsimp only
  split
  · rename_i params composed ids hkind
    rw [pure_bind]
    refine guarded _ (raise (.inr fun p hp => hc p ?_)) fun _ => ?_
    · simpa [Fault.locatedAt, Fault.ofCause] using hp
    refine bind (simple hΦ.fresh (.onHeap fun _ hh => hh.newInstance _)) fun r => ?_
    refine bind (holding _ (inUnit ?_)) fun _ => simple hΦ.fresh (.pure _)
    exact construct hΦ (inside_confined hΦ) (D := fun _ => True) (fun id _ => he id) hn hkind
      (fun _ _ _ _ _ _ _ => trivial) r _
  · rw [defect, throw_bind]
    exact simple hΦ.fresh (.stuck _)

/-- The faults of a call, wherever it leads. -/
theorem call (hr : ∀ id, Restoring (eval id)) (callee : Value) (args : List Value) {callSite : Option Position}
    (hc : ∀ p, callSite = some p → a.HasPlace p) :
    Leaving unit a a.Placed (Manner.confined.callValue eval callee args callSite) := by
  have hΦ := a.admits_placed
  have H : Calling fun x _ => Restoring x := Restoring.congruence.toCalling
  refine restoring (@Calling.callInManner _ H eval eval hr _ _ Manner.confined_restoring callee args callSite) ?_
  intro held m hm fault hf
  rw [Manner.callValue, Manner.runFrom_around_confined] at hf
  split at hf
  · rw [confining, runFrom_finishing] at hf
    rcases hrun : (Manner.confined.enter eval callee args callSite).runFrom held m with ⟨⟨inner | stuck⟩ | value, n⟩ <;>
      rw [hrun] at hf
    · dsimp only at hf
      split at hf
      · rename_i hpasses
        obtain rfl : inner = fault := by
          cases hf
          rfl
        simp only [Bool.or_eq_true, Option.isNone_iff_eq_none, decide_eq_true_eq] at hpasses
        rcases hpasses with (hsignal | hnone) | hsite
        · exact .inl hsignal
        · exact .inr fun p hp => by simp [hnone] at hp
        · exact .inr fun p hp => hc p (hsite ▸ hp)
      · cases hf
    · cases hf
    · cases hf
  · rename_i hown
    cases callee with
    | function f =>
      have hunit : f.unit = unit := by
        by_contra hne
        simp [Machine.foreign?, hm.current, hne] at hown
      exact (callFunction he hunit args callSite).fault _ m hm fault hf
    | native n => exact (simple hΦ.fresh (.callNative n args)).fault _ m hm fault hf
    | record r =>
      change ((Manner.confined.callRecord eval r args callSite).runFrom (args ++ .record r :: held) m).1 = _ at hf
      rw [Manner.callRecord, runFrom_bind, runFrom_heap] at hf
      dsimp only at hf
      split at hf
      · rename_i t ht
        have hunit : t.unit = unit := by
          by_contra hne
          simp [Machine.foreign?, ht, hm.current, hne] at hown
        exact (instantiate he hunit args hc).fault _ m hm fault hf
      · refine (simple hΦ.fresh ?_).fault _ m hm fault hf
        exact .guarded _ (.fail (Cause.quiet_arityMismatch _ _ _)) fun _ =>
          .bind (.onHeap fun _ hh => hh.shallowClone _) fun _ => .pure _
    | _ =>
      refine (simple hΦ.fresh ?_).fault _ m hm fault hf
      exact .fail (Cause.quiet_notCallable _)

/-! ## Runs -/

theorem unitStatements (items : List NodeId) : Leaving unit a a.Placed (unitStatements eval items) := by
  have hΦ := a.admits_placed
  induction items with
  | nil => exact simple hΦ.fresh (.pure _)
  | cons statement rest ih =>
    refine bind ⟨fun held m hm => ?_, fun held m hm fault hf => ?_⟩ fun ended => ?_
    · have hn := (he statement).stays held m hm
      rw [returned, runFrom_finishing]
      split <;> exact hn
    · have hfault := (he statement).fault held m hm
      rw [returned, runFrom_finishing] at hf
      rcases hrun : (eval statement).runFrom held m with ⟨⟨⟨cause, position, backtrace⟩ | stuck⟩ | value, n⟩ <;>
        rw [hrun] at hf hfault
      · cases cause <;> first | cases hf; done | (cases hf; exact hfault _ rfl)
      · cases hf
      · cases hf
    · split
      · exact simple hΦ.fresh (.pure _)
      · exact ih

theorem runUnit (body : NodeId) : Leaving unit a a.Placed (runUnit eval body) := by
  have hΦ := a.admits_placed
  have H : Composition fun x _ => Leaving unit a a.Placed x := composition hΦ
  refine reading fun m hm => bind (reading fun n hn => bind ?_ fun items => simple hΦ.fresh (.pure _)) fun items =>
    bind (unitStatements (fun id => ?_) items) fun _ => simple hΦ.fresh (.change (.change _ (fun _ => ?_) fun _ _ _ => rfl))
  · rw [hn.current]
    unfold Eval.blockItems?
    refine nodeOf hΦ fun node _ => ?_
    split <;> exact simple hΦ.fresh (.pure _)
  · rw [hm.current]
    exact ofUnit hΦ unit (he id)
  · exact ⟨rfl, rfl, rfl, rfl, rfl, List.prefix_rfl⟩

theorem invokeMain (hr : ∀ id, Restoring (eval id)) :
    Leaving unit a a.Placed (Manner.confined.invokeMain eval) := by
  have hΦ := a.admits_placed
  refine bind (simple hΦ.fresh (.lookup? _)) fun value => ?_
  split
  · refine bind (functionParts hΦ _) fun (params, body) => ?_
    dsimp only
    split
    · exact bind (call he hr _ [] nofun) fun _ => simple hΦ.fresh (.pure _)
    · exact simple hΦ.fresh (.pure _)
  · exact simple hΦ.fresh (.pure _)

end calls

/-- In the confined manner the place of a fault that leaves a node belongs to the unit of the node. -/
theorem confined (imports : Imports) (fuel : Nat) (unit : UnitId) (a : Arena) (id : NodeId) :
    Leaving unit a a.Placed (Manner.confined.evaluator imports.loader fuel id) := by
  have hΦ := a.admits_placed
  induction fuel generalizing id with
  | zero => exact simple hΦ.fresh (.stuck _)
  | succ fuel ih =>
    have hr := Restoring.evaluator Manner.confined_restoring imports fuel
    refine nodeStep hΦ (D := fun _ => True) (fun id _ => ih id) hr (inside_confined hΦ) imports
      (fun node hn => ⟨fun _ _ _ => trivial, fun _ _ _ _ _ _ => trivial, fun _ _ _ _ _ _ _ _ _ _ => trivial⟩)
      (fun node value hn hk v => .inl rfl) fun node hn callee args => ?_
    exact call ih hr callee args fun p hp => ⟨id, node, hn, .inl hp⟩

end Leaving

end Eval

end DynScript
