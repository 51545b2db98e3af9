import DynScript.Proofs.Run.Invariants
import DynScript.Proofs.Session.Traversal

/-!
# The moments of an evaluation

What holds at every moment of an evaluation is told by watching it: a watched evaluation gets stuck wherever
the evaluation of a node begins or ends in a machine of which the property does not hold. If it does just what
evaluation does then the property always holds, also when evaluation never ends.
-/

namespace DynScript

namespace Eval

variable {α : Type} {p : Machine → Prop}

open Classical in
/-- A step that gets stuck unless `p` holds of the machine where it begins and of the one where it ends. -/
noncomputable def watching (p : Machine → Prop) (id : NodeId) (x : Eval α) : Eval α := do
  if ¬ p (← get) then defect (.missingNode id)
  finishing x fun result m => (if p m then result else .error (.stuck (.defect (.missingNode id))), m)

/-- The value of a node, when `p` is to hold at every moment. -/
noncomputable def watchedWithin (p : Machine → Prop) (load : Loader) : Nat → Evaluator
  | 0 => fun _ => throw (.stuck .outOfFuel)
  | fuel + 1 => fun id => watching p id (nodeStep load (watchedWithin p load fuel) id)

/-- Watching makes no difference where the property holds. -/
theorem runFrom_watching {x : Eval α} {held : List Value} {m : Machine} (id : NodeId) (hm : p m)
    (hn : p (x.runFrom held m).2) : (watching p id x).runFrom held m = x.runFrom held m := by
  rw [watching, runFrom_bind, runFrom_get]
  dsimp only
  rw [if_neg (not_not.2 hm), runFrom_finishing, if_pos hn]

/-- Nor does it where the property is an invariant. -/
theorem SameWhile.watching {x y : Eval α} (id : NodeId) (h : SameWhile p x y) :
    SameWhile p x (watching p id y) := by
  intro held m hm
  obtain ⟨hn, hsame⟩ := h held m hm
  have hend : p (y.runFrom held m).2 := by rwa [hsame]
  exact ⟨hn, (runFrom_watching id hm hend).trans hsame⟩

/-- A relation between evaluation and watched evaluation that watching a node keeps holds of all nodes. -/
theorem Congruence.watchedWithin {T : ∀ {α : Type}, Eval α → Eval α → Prop} (H : Congruence @T)
    (hn : ∀ unit id, T (nodeIn unit id) (nodeIn unit id))
    (ha : ∀ unit id, T (assignee unit id) (assignee unit id))
    (hw : ∀ id {x y : Eval Value}, T x y → T x (watching p id y)) (imports : Imports) (fuel : Nat)
    (id : NodeId) :
    T (DynScript.evalWithin imports.loader fuel id) (Eval.watchedWithin p imports.loader fuel id) := by
  induction fuel generalizing id with
  | zero => exact H.plain (.throw _)
  | succ fuel ih => exact hw id (H.nodeStep ih hn ha imports id)

end Eval

end DynScript
