import DynScript.Proofs.Session.Loading

/-!
# Runs in a manner

An entry unit and a module may be run in any manner of evaluation. The runs of a session are those in the usual manner,
and in two manners that do the same the runs are alike.
-/

namespace DynScript

/-- Run a unit in a machine of its own, in some manner. -/
def Eval.runInManner (M : Manner) (settings : Settings) (roots : Option SearchRoots) (fuel : Nat)
    (unit : CompiledUnit) : Eval Bindings :=
  inNewMachine unit settings.maxDepth (runUnit (M.evaluator (.ofSession settings roots) fuel) unit.program.body)

/-- Run an entry unit and then its `main`, in a machine of its own and in some manner, while modules are loaded as
usual. -/
def Session.entryInManner (s : Session) (M : Manner) (fuel : Nat) (unit : CompiledUnit) : Eval Unit :=
  s.entryAs ⟨M, fun settings roots => M.evaluator (.ofSession settings roots) fuel⟩ unit

theorem Session.entryInManner_usual (s : Session) (fuel : Nat) (unit : CompiledUnit) :
    s.entryInManner .usual fuel unit = s.entry (evalWithin · fuel) unit := by
  simp only [entryInManner, entry, Conduct.evaluating, Manner.evaluator_usual]

namespace Eval.Loading

variable {T : ∀ {α : Type}, Eval α → Eval α → Prop} (H : Loading @T) {M M' : Manner} (hM : Alike @T M M')
  (hn : ∀ unit id, T (nodeIn unit id) (nodeIn unit id)) (ha : ∀ unit id, T (assignee unit id) (assignee unit id))
include H hM hn ha

theorem runInManner (settings : Settings) (roots : Option SearchRoots) (fuel : Nat) (unit : CompiledUnit) :
    T (runInManner M settings roots fuel unit) (runInManner M' settings roots fuel unit) :=
  H.inNewMachine unit settings.maxDepth (H.runUnit (H.evaluator hM hn ha (.session settings roots) fuel) _)

theorem entryInManner (s : Session) (fuel : Nat) (unit : CompiledUnit) :
    T (s.entryInManner M fuel unit) (s.entryInManner M' fuel unit) := by
  have heval := H.evaluator hM hn ha (.session s.settings (some (s.settings.rootsFor unit.directory))) fuel
  refine H.inNewMachine unit s.settings.maxDepth (H.bind (H.runUnit heval _) fun _ => ?_)
  exact H.bind (H.invokeMainInManner heval hM) fun _ => H.still (.pure _)

end Eval.Loading

namespace Eval.Agrees

variable {M M' : Manner} (hM : Alike (fun x y => Agrees x y) M M')
include hM

theorem runInManner (settings : Settings) (roots : Option SearchRoots) (fuel : Nat) (unit : CompiledUnit) :
    Agrees (runInManner M settings roots fuel unit) (runInManner M' settings roots fuel unit) :=
  congruence.toLoading.runInManner hM (fun _ _ => refl _) (fun _ _ => refl _) settings roots fuel unit

theorem entryInManner (s : Session) (fuel : Nat) (unit : CompiledUnit) :
    Agrees (s.entryInManner M fuel unit) (s.entryInManner M' fuel unit) :=
  congruence.toLoading.entryInManner hM (fun _ _ => refl _) (fun _ _ => refl _) s fuel unit

end Eval.Agrees

end DynScript
