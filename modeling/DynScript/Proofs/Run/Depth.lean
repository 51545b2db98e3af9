import DynScript.Proofs.Run.Balance
import DynScript.Proofs.Run.Moments
import DynScript.Proofs.Session.Direct

/-!
# How deeply calls nest

A call of a function is refused when as many calls are in progress as there may be, so their number never
exceeds the bound. The making of a record by a class is not among these calls: it enters no frame, and nothing
bounds how deeply classes make records for each other.
-/

namespace DynScript

/-- There are no more calls in progress than there may be. -/
def CallStack.Bounded (calls : CallStack) : Prop := calls.depth ≤ calls.maxDepth

theorem CallStack.bounded_enter {calls : CallStack} (h : calls.refusal? = none) (frame : CallFrame) :
    (calls.enter frame).Bounded := by
  unfold refusal? at h
  split at h
  · cases h
  · simp only [Bounded, depth, enter, Array.size_push] at *
    omega

namespace Eval

variable {α β : Type}

/-- As long as the calls in progress are bounded, the second step does what the first one does, which leaves
these calls as they were. -/
def KeepsBound (x y : Eval α) : Prop :=
  ∀ held (m : Machine), m.calls.Bounded →
    (x.runFrom held m).2.calls = m.calls ∧ y.runFrom held m = x.runFrom held m

namespace KeepsBound

theorem keeping {x : Eval α} (h : ∀ held (m : Machine), (x.runFrom held m).2.calls = m.calls) : KeepsBound x x :=
  fun held m _ => ⟨h held m, rfl⟩

theorem ofPlain {x : Eval α} (h : x.Plain) : KeepsBound x x := keeping fun held m => (h.restored held m).calls

theorem restoring {x : Eval α} (h : Restoring x) : KeepsBound x x := keeping fun held m => (h held m).calls

theorem bind {x y : Eval α} {k l : α → Eval β} (h : KeepsBound x y) (hk : ∀ a, KeepsBound (k a) (l a)) :
    KeepsBound (x >>= k) (y >>= l) := by
  intro held m hm
  obtain ⟨hcalls, hsame⟩ := h held m hm
  rw [runFrom_bind, runFrom_bind, hsame]
  rcases hr : x.runFrom held m with ⟨e | a, n⟩ <;> rw [hr] at hcalls
  · exact ⟨hcalls, rfl⟩
  · obtain ⟨hcalls', hsame'⟩ := hk a held n (by rwa [hcalls])
    exact ⟨hcalls'.trans hcalls, hsame'⟩

/-- Looking at the end of a step, when the calls stay. -/
theorem finishing {f : Except Interruption α → Machine → Except Interruption β × Machine} {x y : Eval α}
    (hf : ∀ result (m : Machine), (f result m).2.calls = m.calls) (h : KeepsBound x y) :
    KeepsBound (finishing x f) (finishing y f) := by
  intro held m hm
  obtain ⟨hcalls, hsame⟩ := h held m hm
  simp only [runFrom_finishing, hf]
  exact ⟨hcalls, by rw [hsame]⟩

/-- A step between an opening and a closing change, neither of which changes the calls. -/
theorem between {x y : Eval α} (f g : Machine → Machine) (hf : ∀ m, (f m).calls = m.calls)
    (hg : ∀ m, (g m).calls = m.calls) (h : KeepsBound x y) :
    KeepsBound (modify f >>= fun _ => afterwards g x) (modify f >>= fun _ => afterwards g y) :=
  bind (keeping fun _ m => hf m) fun _ => h.finishing fun _ m => hg m

theorem inFrame {x y : Eval α} (push : Environment → Environment) (h : KeepsBound x y) :
    KeepsBound (inFrame push x) (inFrame push y) :=
  bind (keeping fun _ _ => rfl) fun _ => h.between _ _ (fun _ => rfl) fun _ => rfl

theorem inUnit {x y : Eval α} (unit : UnitId) (h : KeepsBound x y) :
    KeepsBound (inUnit unit x) (inUnit unit y) :=
  bind (keeping fun _ _ => rfl) fun _ => h.between _ _ (fun _ => rfl) fun _ => rfl

/-- A call is entered only if there may be one more. -/
theorem inCall {x y : Eval α} (frame : CallFrame) (h : KeepsBound x y) :
    KeepsBound (inCall frame x) (inCall frame y) := by
  have hmap : KeepsBound (mapFault (fun m fault => m.calls.attachBacktrace m.world.heap fault) x)
      (mapFault (fun m fault => m.calls.attachBacktrace m.world.heap fault) y) :=
    h.finishing fun result m => by split <;> rfl
  intro held m hm
  cases hr : m.calls.refusal? with
  | some cause =>
    rw [runFrom_inCall_refused hr, runFrom_inCall_refused hr]
    exact ⟨rfl, rfl⟩
  | none =>
    obtain ⟨hcalls, hsame⟩ := hmap held { m with calls := m.calls.enter frame } (CallStack.bounded_enter hr frame)
    rw [runFrom_inCall_entered hr, runFrom_inCall_entered hr]
    simp only [afterwards, runFrom_finishing, hsame, and_true]
    rw [hcalls]
    simp [CallStack.enter, CallStack.pop]

theorem inNewMachine {x y : Eval α} (unit : CompiledUnit) (maxDepth : Nat) (h : KeepsBound x y) :
    KeepsBound (inNewMachine unit maxDepth x) (inNewMachine unit maxDepth y) := by
  intro held m hm
  have hstart : (Machine.start (m.world.addUnit unit.program.arena).2
      (m.world.addUnit unit.program.arena).1 unit.directory maxDepth).calls.Bounded := Nat.zero_le _
  obtain ⟨-, hsame⟩ := h (m.kept held) _ hstart
  exact ⟨rfl, congrArg (fun r => (r.1, { m with world := r.2.world })) hsame⟩

theorem loadOnce {x y : Eval RecordId} (path : Path) (h : KeepsBound x y) :
    KeepsBound (loadOnce path x) (loadOnce path y) := by
  refine bind (keeping fun _ _ => rfl) fun m => ?_
  split
  · exact ofPlain (.pure _)
  · exact ofPlain (.fail _)
  · refine bind (keeping fun _ _ => rfl) fun _ => bind ?_ fun _ => bind (keeping fun _ _ => rfl) fun _ =>
      ofPlain (.pure _)
    exact h.finishing fun _ _ => rfl

/-- All of evaluation is put together so that the calls in progress stay bounded. -/
theorem congruence : Congruence fun x y => KeepsBound x y where
  plain := ofPlain
  bind := bind
  ending hf h := h.finishing fun result m => (hf.restored result m).calls
  holding g _ _ h := fun held m => h (g held) m
  inScope h := h.inFrame _
  inRecord _ _ _ h := h.inFrame _
  withActive _ _ _ _ h := h.between _ _ (fun _ => rfl) fun _ => rfl
  inUnit unit _ _ := inUnit unit
  inCall frame _ _ := inCall frame
  blockItems? unit id := restoring (Restoring.congruence.blockItems? unit id)
  functionParts f := restoring (Restoring.congruence.functionParts f)
  memberParts unit id := restoring (Restoring.congruence.memberParts unit id)
  templateParts t := restoring (Restoring.congruence.templateParts t)
  inNewMachine unit maxDepth _ _ := inNewMachine unit maxDepth
  loadFile file _ _ h := bind (ofPlain (.located file)) fun path => loadOnce path (h path)

theorem watching {x y : Eval α} (id : NodeId) (h : KeepsBound x y) :
    KeepsBound x (watching (·.calls.Bounded) id y) := by
  intro held m hm
  obtain ⟨hcalls, hsame⟩ := h held m hm
  refine ⟨hcalls, ?_⟩
  have hend : (y.runFrom held m).2.calls.Bounded := by rwa [hsame, hcalls]
  exact (runFrom_watching id hm hend).trans hsame

theorem watchedWithin (imports : Imports) (fuel : Nat) (id : NodeId) :
    KeepsBound (evalWithin imports.loader fuel id) (watchedWithin (·.calls.Bounded) imports.loader fuel id) :=
  congruence.watchedWithin (fun unit id => restoring (Restoring.nodeIn unit id))
    (fun unit id => restoring (Restoring.assignee unit id)) (fun id _ _ h => h.watching id) imports fuel id

end KeepsBound

end Eval

/-- In every run of a program, with any imports and any calls afterwards, the calls of functions in progress
never exceed the bound that their unit was started with. -/
theorem function_calls_are_bounded (imports : Imports) (program : Program) (role : Role) (world : World)
    (directory : Path) (maxDepth : Nat) (calls : List (Value × List Value)) (fuel : Nat) (held : List Value) :
    (Eval.play role program.body calls (Eval.watchedWithin (·.calls.Bounded) imports.loader fuel)).runFrom held
        (program.machine world directory maxDepth) =
      (Eval.play role program.body calls (evalWithin imports.loader fuel)).runFrom held
        (program.machine world directory maxDepth) := by
  have H : Eval.Congruence fun x y => Eval.KeepsBound x y := Eval.KeepsBound.congruence
  have heval := Eval.KeepsBound.watchedWithin imports fuel
  exact (H.play heval role program.body calls held _ (Nat.zero_le _)).2

end DynScript
