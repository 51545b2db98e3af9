import DynScript.Proofs.Run.Moments
import DynScript.Proofs.Run.Sound
import DynScript.Proofs.Session.Traversal

/-!
# Strict evaluation

An evaluation that refuses some causes gets stuck wherever the evaluation of a node ends in a fault with such a
cause. Nothing goes on after that, not even the loading of a module that would otherwise report the fault. As long
as this does not happen it is evaluation. Strict evaluation refuses the causes that analysis rules out.
-/

namespace DynScript

namespace Eval

variable {α β : Type}

/-- A fault with a cause that is refused is a defect of the node that is evaluated. -/
def refusing (refused : Cause → Bool) (id : NodeId) (x : Eval α) : Eval α :=
  finishing x fun
    | .error (.fault fault), m =>
      if refused fault.cause then (.error (.stuck (.defect (.misplacedNode id))), m)
      else (.error (.fault fault), m)
    | result, m => (result, m)

/-- The value of a node, when no node may end in a fault with a cause that is refused. -/
def refusingWithin (refused : Cause → Bool) (load : Loader) : Nat → Evaluator
  | 0 => fun _ => throw (.stuck .outOfFuel)
  | fuel + 1 => fun id => refusing refused id (nodeStep load (refusingWithin refused load fuel) id)

/-- A fault that analysis rules out is a defect of the node that is evaluated. -/
def strictly (id : NodeId) (x : Eval α) : Eval α :=
  finishing x fun
    | .error (.fault fault), m =>
      if fault.cause.isRuledOut then (.error (.stuck (.defect (.misplacedNode id))), m)
      else (.error (.fault fault), m)
    | result, m => (result, m)

/-- The value of a node, when no node may end in a fault that analysis rules out. -/
def strictWithin (load : Loader) : Nat → Evaluator
  | 0 => fun _ => throw (.stuck .outOfFuel)
  | fuel + 1 => fun id => strictly id (nodeStep load (strictWithin load fuel) id)

/-- A step does what another one does, unless it meets a defect. -/
def Agrees (x y : Eval α) : Prop :=
  ∀ held (m : Machine), y.runFrom held m = x.runFrom held m ∨
    ∃ d, (y.runFrom held m).1 = .error (.stuck (.defect d))

namespace Agrees

theorem refl (x : Eval α) : Agrees x x := fun _ _ => .inl rfl

theorem bind {x y : Eval α} {k l : α → Eval β} (h : Agrees x y) (hk : ∀ a, Agrees (k a) (l a)) :
    Agrees (x >>= k) (y >>= l) := by
  intro held m
  rw [runFrom_bind, runFrom_bind]
  rcases h held m with hy | ⟨d, hd⟩
  · rw [hy]
    rcases x.runFrom held m with ⟨_ | a, n⟩
    · exact .inl rfl
    · exact hk a held n
  · right
    rcases hr : y.runFrom held m with ⟨r, n⟩
    rw [hr] at hd
    obtain rfl : r = _ := hd
    exact ⟨d, rfl⟩

theorem finishing {f : Except Interruption α → Machine → Except Interruption β × Machine} {x y : Eval α}
    (hf : ∀ s m, (f (.error (.stuck s)) m).1 = .error (.stuck s)) (h : Agrees x y) :
    Agrees (finishing x f) (finishing y f) := by
  intro held m
  simp only [runFrom_finishing]
  rcases h held m with hy | ⟨d, hd⟩
  · exact .inl (by rw [hy])
  · exact .inr ⟨d, hd ▸ hf _ _⟩

theorem mapFault {x y : Eval α} (f : Machine → Fault → Fault) (h : Agrees x y) :
    Agrees (mapFault f x) (mapFault f y) :=
  h.finishing fun _ _ => rfl

theorem between {x y : Eval α} (f g : Machine → Machine) (h : Agrees x y) :
    Agrees (modify f >>= fun _ => afterwards g x) (modify f >>= fun _ => afterwards g y) :=
  (refl _).bind fun _ => h.finishing fun _ _ => rfl

theorem inFrame {x y : Eval α} (push : Environment → Environment) (h : Agrees x y) :
    Agrees (inFrame push x) (inFrame push y) :=
  (refl _).bind fun _ => h.between _ _

theorem inUnit {x y : Eval α} (unit : UnitId) (h : Agrees x y) : Agrees (inUnit unit x) (inUnit unit y) :=
  (refl _).bind fun _ => h.between _ _

theorem inCall {x y : Eval α} (frame : CallFrame) (h : Agrees x y) :
    Agrees (inCall frame x) (inCall frame y) := by
  refine (refl _).bind fun m => ?_
  have hcall := (h.mapFault fun m fault => m.calls.attachBacktrace m.world.heap fault).between
    (fun m => { m with calls := m.calls.enter frame }) fun m => { m with calls := m.calls.pop }
  split
  · exact (refl _).bind fun _ => hcall
  · exact hcall

theorem inNewMachine {x y : Eval α} (unit : CompiledUnit) (maxDepth : Nat) (h : Agrees x y) :
    Agrees (inNewMachine unit maxDepth x) (inNewMachine unit maxDepth y) := by
  intro held m
  rcases h (m.kept held) (Machine.start (m.world.addUnit unit.program.arena).2
    (m.world.addUnit unit.program.arena).1 unit.directory maxDepth) with hy | hd
  · exact .inl (congrArg (fun r => (r.1, { m with world := r.2.world })) hy)
  · exact .inr hd

theorem loadOnce {x y : Eval RecordId} (path : Path) (h : Agrees x y) :
    Agrees (loadOnce path x) (loadOnce path y) := by
  refine (refl _).bind fun m => ?_
  split
  · exact refl _
  · exact refl _
  · refine (refl _).bind fun _ => bind ?_ fun _ => refl _
    exact h.finishing fun _ _ => rfl

/-- All of evaluation is put together so that steps agree when those that they are made of do. -/
theorem congruence : Congruence fun x y => Agrees x y where
  plain _ := refl _
  bind := bind
  ending hf h := h.finishing hf.stuck
  holding g _ _ h := fun held m => h (g held) m
  inScope h := h.inFrame _
  inRecord _ _ _ h := h.inFrame _
  withActive _ _ _ _ h := h.between _ _
  inUnit unit _ _ := inUnit unit
  inCall frame _ _ := inCall frame
  blockItems? _ _ := refl _
  functionParts _ := refl _
  memberParts _ _ := refl _
  templateParts _ := refl _
  inNewMachine unit maxDepth _ _ := inNewMachine unit maxDepth
  loadFile _ _ _ hx := bind (refl _) fun path => loadOnce path (hx path)

/-- In manners that agree the values of nodes are found alike. -/
theorem evaluator {M M' : Manner} (hM : Alike (fun x y => Agrees x y) M M') (imports : Imports) (fuel : Nat)
    (id : NodeId) : Agrees (M.evaluator imports.loader fuel id) (M'.evaluator imports.loader fuel id) :=
  congruence.toLoading.evaluator hM (fun _ _ => refl _) (fun _ _ => refl _) imports fuel id

/-- A manner that agrees with the usual one finds the values of evaluation. -/
theorem inManner {M : Manner} (hM : Alike (fun x y => Agrees x y) .usual M) (imports : Imports) (fuel : Nat)
    (id : NodeId) : Agrees (evalWithin imports.loader fuel id) (M.evaluator imports.loader fuel id) := by
  rw [← Manner.evaluator_usual]
  exact evaluator hM imports fuel id

theorem refusing {x y : Eval α} (refused : Cause → Bool) (id : NodeId) (h : Agrees x y) :
    Agrees x (refusing refused id y) := by
  intro held m
  unfold Eval.refusing
  rw [runFrom_finishing]
  rcases h held m with hy | ⟨d, hd⟩
  · rw [hy]
    rcases x.runFrom held m with ⟨⟨fault | stuck⟩ | a, n⟩
    · dsimp only
      split
      · exact .inr ⟨_, rfl⟩
      · exact .inl rfl
    · exact .inl rfl
    · exact .inl rfl
  · exact .inr ⟨d, by rw [hd]⟩

theorem watching {p : Machine → Prop} (id : NodeId) {x y : Eval α} (h : Agrees x y) :
    Agrees x (Eval.watching p id y) := by
  intro held m
  by_cases hm : p m
  · by_cases hn : p (y.runFrom held m).2
    · rw [runFrom_watching id hm hn]
      exact h held m
    · right
      rw [Eval.watching, runFrom_bind, runFrom_get]
      dsimp only
      rw [if_neg (not_not.2 hm), runFrom_finishing, if_neg hn]
      exact ⟨_, rfl⟩
  · right
    rw [Eval.watching, runFrom_bind, runFrom_get]
    dsimp only
    rw [if_pos hm]
    exact ⟨_, rfl⟩

/-- Evaluation that refuses some causes agrees with evaluation. -/
theorem refusingWithin (refused : Cause → Bool) (imports : Imports) (fuel : Nat) (id : NodeId) :
    Agrees (evalWithin imports.loader fuel id) (Eval.refusingWithin refused imports.loader fuel id) := by
  induction fuel generalizing id with
  | zero => exact refl _
  | succ fuel ih =>
    exact (congruence.nodeStep ih (fun _ _ => refl _) (fun _ _ => refl _) imports id).refusing refused id

/-- Strict evaluation agrees with evaluation. -/
theorem strictWithin (imports : Imports) (fuel : Nat) (id : NodeId) :
    Agrees (evalWithin imports.loader fuel id) (Eval.strictWithin imports.loader fuel id) := by
  have hstrict : Eval.strictWithin imports.loader fuel = Eval.refusingWithin Cause.isRuledOut imports.loader fuel := by
    induction fuel with
    | zero => rfl
    | succ fuel ih =>
      unfold Eval.strictWithin Eval.refusingWithin
      rw [ih]
      rfl
  rw [hstrict]
  exact refusingWithin _ imports fuel id

end Agrees

end Eval

end DynScript
