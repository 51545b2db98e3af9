import DynScript.Proofs.Run.Invariants
import DynScript.Proofs.Run.Leaving

/-!
# Where faults come from

Between the nodes of a body nothing stops with a fault: neither the opening of scopes and records, nor the giving of
values to parameters, nor a look at the nodes of a unit. So what is true of all faults that leave nodes is true of all
faults that leave the body of a function, or the run of a unit.
-/

namespace DynScript

namespace Eval

variable {α β : Type} {I : Machine → Prop} {P : Fault → Prop}

/-! ## Steps that stop with no fault -/

/-- A step that stops with no fault. -/
abbrev Faultless (x : Eval α) : Prop := Stops (fun _ => False) x

namespace Faultless

theorem pure (a : α) : Faultless (Pure.pure a : Eval α) := fun _ _ _ h => nomatch h

theorem defect (d : Defect) : Faultless (Eval.defect d : Eval α) := fun _ _ _ h => nomatch h

theorem receiverOf (f : Function) : Faultless (Eval.receiverOf f) := by
  unfold Eval.receiverOf Function.receiver?
  split
  · exact pure _
  · exact pure _
  · exact Stops.bind (fun _ _ _ h => nomatch h) fun b => pure _

theorem defineAll (bound : List (String × Value)) : Faultless (Eval.defineAll bound) := by
  induction bound with
  | nil => exact pure _
  | cons entry rest ih => exact Stops.bind (fun _ _ _ h => nomatch h) fun _ => ih

theorem requireUnit (unit : UnitId) (id : NodeId) : Faultless (Eval.requireUnit unit id) := by
  refine .reading fun m => ?_
  split
  · exact defect _
  · exact pure _

theorem nodeIn (unit : UnitId) (id : NodeId) : Faultless (Eval.nodeIn unit id) := by
  refine .reading fun m => ?_
  split
  · exact pure _
  · exact defect _

theorem nodeOf (unit : UnitId) (id : NodeId) : Faultless (Eval.nodeOf unit id) :=
  .bind (requireUnit _ _) fun _ => nodeIn _ _

theorem blockItems? (unit : UnitId) (id : NodeId) : Faultless (Eval.blockItems? unit id) := by
  refine .bind (nodeOf _ _) fun node => ?_
  split <;> exact pure _

theorem functionParts (f : Function) : Faultless (Eval.functionParts f) := by
  refine .bind (nodeIn _ _) fun node => ?_
  split
  · exact pure _
  · exact defect _

theorem memberParts (unit : UnitId) (id : NodeId) : Faultless (Eval.memberParts unit id) := by
  refine .bind (nodeOf _ _) fun node => ?_
  split
  · exact pure _
  · exact defect _

theorem templateParts (t : Template) : Faultless (Eval.templateParts t) := by
  refine .bind (nodeIn _ _) fun node => ?_
  split
  · exact pure _
  · exact defect _

end Faultless

/-! ## Bodies and units -/

/-- As long as an invariant holds, a step stops with one of these faults if it stops with a fault, and the invariant
still holds afterwards. -/
def StopsWhile (I : Machine → Prop) (P : Fault → Prop) (x : Eval α) : Prop :=
  ∀ held (m : Machine), I m → I (x.runFrom held m).2 ∧ ∀ fault, (x.runFrom held m).1 = .error (.fault fault) → P fault

namespace StopsWhile

theorem looking {x : Eval α} (hx : Looks x) (hf : Faultless x) : StopsWhile I P x :=
  fun held m hm => ⟨by rwa [hx held m], fun fault h => (hf held m fault h).elim⟩

theorem bind {x : Eval α} {k : α → Eval β} (hx : StopsWhile I P x) (hk : ∀ a, StopsWhile I P (k a)) :
    StopsWhile I P (x >>= k) := by
  intro held m hm
  obtain ⟨hn, hfault⟩ := hx held m hm
  rw [runFrom_bind]
  rcases hr : x.runFrom held m with ⟨e | a, n⟩ <;> rw [hr] at hn hfault
  · refine ⟨hn, fun fault hf => hfault fault ?_⟩
    obtain rfl := Except.error.inj hf
    rfl
  · exact hk a held n hn

theorem reading {k : Machine → Eval α} (hk : ∀ m, StopsWhile I P (k m)) : StopsWhile I P (get >>= k) :=
  fun held m => hk m held m

theorem holding (g : List Value → List Value) {x : Eval α} (hx : StopsWhile I P x) : StopsWhile I P (withReader g x) :=
  fun held => hx (g held)

section

variable (hI : Machine.Invariant I)
include hI

theorem simple {x : Eval α} (hx : x.Simple) (hf : Faultless x) : StopsWhile I P x :=
  fun held m hm => ⟨hI.simple hx held m hm, fun fault h => (hf held m fault h).elim⟩

/-- A step between an opening and a closing change of scopes, records or units. -/
theorem between {x : Eval α} (hx : StopsWhile I P x) (f g : Machine → Machine)
    (hf : ∀ m, (f m).world = m.world ∧ (f m).directory = m.directory)
    (hg : ∀ m, (g m).world = m.world ∧ (g m).directory = m.directory) :
    StopsWhile I P (modify f >>= fun _ => afterwards g x) := by
  intro held m hm
  obtain ⟨hn, hfault⟩ := hx held (f m) (hI.shared (hf m).1 (hf m).2 hm)
  exact ⟨hI.shared (hg _).1 (hg _).2 hn, hfault⟩

theorem inFrame (push : Environment → Environment) {x : Eval α} (hx : StopsWhile I P x) :
    StopsWhile I P (inFrame push x) :=
  reading fun _ => hx.between hI _ _ (fun _ => ⟨rfl, rfl⟩) fun _ => ⟨rfl, rfl⟩

theorem inUnit (unit : UnitId) {x : Eval α} (hx : StopsWhile I P x) : StopsWhile I P (inUnit unit x) :=
  reading fun _ => hx.between hI _ _ (fun _ => ⟨rfl, rfl⟩) fun _ => ⟨rfl, rfl⟩

theorem asMethodOf (receiver : Option RecordId) {x : Eval α} (hx : StopsWhile I P x) :
    StopsWhile I P (asMethodOf receiver x) := by
  cases receiver with
  | none => exact hx
  | some r => exact (hx.inFrame hI (·.pushRecord r)).between hI _ _ (fun _ => ⟨rfl, rfl⟩) fun _ => ⟨rfl, rfl⟩

end

section

variable {eval : Evaluator} (he : ∀ id, StopsWhile I P (eval id))
include he

theorem within (unit : UnitId) (id : NodeId) : StopsWhile I P (within unit eval id) :=
  bind (looking (.requireUnit _ _) (.requireUnit _ _)) fun _ => he id

theorem statementsAfter (last : Value) (items : List NodeId) : StopsWhile I P (statementsAfter eval last items) := by
  induction items generalizing last with
  | nil => exact looking (.pure _) (.pure _)
  | cons statement rest ih => exact bind ((he statement).holding _) fun value => ih value

theorem body (unit : UnitId) (id : NodeId) : StopsWhile I P (body eval unit id) := by
  refine bind (looking (.blockItems? _ _) (.blockItems? _ _)) fun found => ?_
  cases found with
  | some items => exact statementsAfter he .nil items
  | none => exact he id

/-- What is done in a call of a function stops with no other faults than the nodes of the body do. -/
theorem functionBody (hI : Machine.Invariant I) (f : Function) (bound : List (String × Value)) (id : NodeId) :
    StopsWhile I P (do
      let receiver ← receiverOf f
      Eval.inUnit f.unit <| Eval.asMethodOf receiver <| inScope do
        defineAll bound
        Eval.body (Eval.within f.unit eval) f.unit id) := by
  refine bind (simple hI (.receiverOf f) (.receiverOf f)) fun receiver => ?_
  refine inUnit hI _ (asMethodOf hI _ (inFrame hI _ ?_))
  exact bind (simple hI (.defineAll bound) (.defineAll bound)) fun _ => body (within he f.unit) f.unit id

theorem unitStatements (items : List NodeId) : StopsWhile I P (unitStatements eval items) := by
  induction items with
  | nil => exact looking (.pure _) (.pure _)
  | cons statement rest ih =>
    refine bind (fun held m hm => ?_) fun ended => ?_
    · obtain ⟨hn, hfault⟩ := he statement held m hm
      rw [returned, runFrom_finishing]
      rcases hr : (eval statement).runFrom held m with ⟨⟨⟨cause, position, backtrace⟩ | stuck⟩ | v, n⟩ <;>
        rw [hr] at hn hfault
      · cases cause
        case returning => exact ⟨hn, fun _ hf => by cases hf⟩
        all_goals
          refine ⟨hn, fun fault hf => hfault fault ?_⟩
          obtain rfl := Interruption.fault.inj (Except.error.inj hf)
          rfl
      · exact ⟨hn, fun _ hf => by cases hf⟩
      · exact ⟨hn, fun _ hf => by cases hf⟩
    · split
      · exact looking (.pure _) (.pure _)
      · exact ih

/-- The run of a unit stops with no other faults than its statements do. -/
theorem runUnit (hI : Machine.Invariant I) (id : NodeId) : StopsWhile I P (runUnit eval id) := by
  refine reading fun m => bind (reading fun n => ?_) fun items =>
    bind (unitStatements (within he m.unit) items) fun _ => ?_
  · exact bind (looking (.blockItems? _ _) (.blockItems? _ _)) fun _ => looking (.pure _) (.pure _)
  · intro held n hn
    have hend {n' : Machine} (hw : n'.world = n.world) (hd : n'.directory = n.directory) : I n' := hI.shared hw hd hn
    exact ⟨hend rfl rfl, fun _ hf => by cases hf⟩

end

end StopsWhile

/-- What is done in a call of a function stops with no other faults than nodes do. -/
theorem Stops.functionBody {eval : Evaluator} (he : ∀ id, Stops P (eval id)) (f : Function)
    (bound : List (String × Value)) (id : NodeId) :
    Stops P (do
      let receiver ← receiverOf f
      inUnit f.unit <| asMethodOf receiver <| inScope do
        defineAll bound
        body (within f.unit eval) f.unit id) := by
  intro held m
  have hstops : StopsWhile (fun _ => True) P _ :=
    .functionBody (fun id held m _ => ⟨trivial, he id held m⟩) ⟨fun _ _ h => h, fun _ _ _ h => h⟩ f bound id
  exact (hstops held m trivial).2

end Eval

end DynScript
