import DynScript.Proofs.Run.Invariants
import DynScript.Proofs.Run.Strict
import DynScript.Proofs.Session.Manners

/-!
# The records that functions see

A function that is stored in a record does not keep the record. In the strong manner it does: it sees the record
whenever it is called. Evaluation does the same as long as no function is called that is stored in a record that has
died. Reading a function out of a record never makes a difference, because functions in records point back.
-/

namespace DynScript

/-- The function, keeping a record. -/
def Function.keeping (f : Function) (r : RecordId) : Function := { f with receiver := some (.held r) }

namespace Manner

/-- Functions keep the records that they are stored in. Whether a record lives is asked all the same, so that the
same records are found dead, but the answer makes no difference. -/
def strong : Manner :=
  { usual with
    receiver := fun f => f.receiver? fun r => do
      let _ ← Eval.lives r
      return true
    read := fun owner f => return f.keeping owner }

/-- The strong manner, except that it gets stuck where a function is called that is stored in a dead record. -/
def wary : Manner :=
  { strong with
    receiver := fun f => f.receiver? fun r => do
      if ← Eval.lives r then return true else Eval.defect (.misplacedNode f.node) }

/-- The usual manner, except that a function that is read out of a record keeps it whether it points back or not. -/
def keeping : Manner := { usual with read := strong.read }

end Manner

/-- In a machine functions in records point back. -/
def Machine.PointsBack (m : Machine) : Prop := m.world.heap.PointsBack

theorem Machine.pointsBack_of_world {m n : Machine} (hw : n.world = m.world) (h : m.PointsBack) : n.PointsBack := by
  unfold PointsBack
  rw [hw]
  exact h

theorem Machine.invariant_pointsBack : Invariant PointsBack where
  shared hw _ h := pointsBack_of_world hw h
  simple hx held m := hx.pointsBack held m

/-- A machine for a unit points back where the world did. -/
theorem Machine.pointsBack_start {w : World} (hw : w.heap.PointsBack) (unit : UnitId) (directory : Path)
    (maxDepth : Nat) : (start w unit directory maxDepth).PointsBack :=
  hw.newNamespace

namespace Eval

variable {α : Type}

/-- A function that points back at the record it is read out of keeps it; nobody is asked whether the record lives. -/
theorem holdReceiver_eq {f : Function} {r : RecordId} (hf : f.receiver = some (.stored r)) :
    holdReceiver r f = pure (f.keeping r) := by
  refine ext_runFrom fun held m => ?_
  unfold holdReceiver Function.holding
  rw [hf]
  dsimp only
  rw [if_pos rfl]
  rfl

/-! ## Functions in records point back -/

namespace SameWhile

/-- Sessions, too, do the same as long as functions in records point back. -/
theorem loading : Loading fun x y => SameWhile Machine.PointsBack x y where
  toCalling := calling Machine.invariant_pointsBack
  ending hf := ending Machine.invariant_pointsBack hf
  inNewMachine unit maxDepth _ _ := inNewMachine Machine.pointsBack_of_world unit maxDepth fun m hm =>
    Machine.pointsBack_start (w := (m.world.addUnit unit.program.arena).2) hm _ unit.directory maxDepth
  loadFile _ _ _ h := bind (simple Machine.invariant_pointsBack (Still.located _).toSimple) fun path =>
    loadOnce (fun _ _ hm => hm) path (h path)

/-- Where functions in records point back, a function keeps the record that it is read out of. -/
theorem property (r : RecordId) (name : String) :
    SameWhile Machine.PointsBack (Manner.usual.property r name) (Manner.keeping.property r name) := by
  intro held m hm
  refine ⟨(Still.property r name).toSimple.pointsBack held m hm, ?_⟩
  rw [Manner.property, Manner.property, runFrom_bind, runFrom_bind, runFrom_heap]
  dsimp only
  cases hvalue : m.world.heap.property? r name with
  | none => rfl
  | some value =>
    cases value with
    | function f =>
      show _ = (holdReceiver r f >>= fun f => pure (Value.function f)).runFrom held m
      rw [holdReceiver_eq (Heap.PointsBack.property? hm hvalue)]
      rfl
    | _ => rfl

end SameWhile

/-! ## The manners -/

namespace Agrees

/-- The records that a function sees are the same when asking agrees. -/
theorem receiver? {ask ask' : RecordId → Eval Bool} (h : ∀ r, Agrees (ask r) (ask' r)) (f : Function) :
    Agrees (f.receiver? ask) (f.receiver? ask') := by
  unfold Function.receiver?
  split
  · exact refl _
  · exact refl _
  · exact bind (h _) fun _ => refl _

/-- A step that goes on whatever the answer is does what one does that gets stuck on one of the answers. -/
theorem insisting {x : Eval Bool} {k : Bool → Eval α} {l : Eval α} (hk : k true = l) (d : Defect) :
    Agrees (x >>= k) (x >>= fun answer => if answer then l else defect d) := by
  intro held m
  rw [runFrom_bind, runFrom_bind]
  rcases x.runFrom held m with ⟨e | ⟨⟩ | ⟨⟩, n⟩
  · exact .inl rfl
  · exact .inr ⟨d, rfl⟩
  · exact .inl (by simp [hk])

end Agrees

end Eval

namespace Manner

open Eval

/-- Where functions in records point back, reading them out makes no difference. -/
theorem keeping_same : Alike (fun x y => SameWhile Machine.PointsBack x y) usual keeping := by
  have H : Loading fun x y => SameWhile Machine.PointsBack x y := SameWhile.loading
  exact { H.usual with property := SameWhile.property }

/-- In the wary manner the same happens as in the usual one, unless it gets stuck. -/
theorem keeping_wary : Alike (fun x y => Agrees x y) keeping wary := by
  have H : Invoking fun x y => Agrees x y := Agrees.congruence.toInvoking
  refine { H.usual with
    receiver := fun f => ?_
    property := fun r name => .refl (keeping.property r name) }
  refine Agrees.receiver? (fun r => ?_) f
  rw [← bind_pure (lives r)]
  exact .insisting rfl _

/-- In the wary manner the same happens as in the strong one, unless it gets stuck. -/
theorem strong_wary : Alike (fun x y => Agrees x y) strong wary := by
  have H : Invoking fun x y => Agrees x y := Agrees.congruence.toInvoking
  refine { H.usual with
    receiver := fun f => ?_
    property := fun r name => .refl (strong.property r name) }
  exact Agrees.receiver? (fun _ => .insisting rfl _) f

end Manner

end DynScript
