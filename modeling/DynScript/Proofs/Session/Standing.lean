import DynScript.Proofs.Run.Standing
import DynScript.Proofs.Session.Direct

/-!
# Names are found in the frames

Whatever a unit runs and whoever calls its functions afterwards, each active record has a frame of its own whenever the
evaluation of a node begins or ends and whenever a name is looked up. So nobody notices when the search for a name ends
with the outermost frame and does not come to the active record.
-/

namespace DynScript

/-- Search the frames alone. Where the active records have not got their frames this gets stuck on a node, which may be
any one: evaluation that is stuck by itself is so on one node only. -/
noncomputable def Manner.ofFrames (alarm : NodeId) : Manner :=
  { usual with
    find := fun name => Eval.watching Machine.Covered alarm do
      let m ← get
      return m.env.seek m.world.heap name }

namespace Eval

/-- The value of a node, when names are searched for in the frames alone and the active records are to have their frames
at every moment. -/
noncomputable def seekingWithin (alarm : NodeId) (load : Loader) : Nat → Evaluator
  | 0 => fun _ => throw (.stuck .outOfFuel)
  | fuel + 1 => fun id =>
    watching Machine.Covered alarm ((Manner.ofFrames alarm).nodeStep load (seekingWithin alarm load fuel) id)

namespace Covering

theorem ofFrames (alarm : NodeId) : Alike (fun x y => Covering x y) .usual (.ofFrames alarm) := by
  have H : Loading fun x y => Covering x y := loading
  refine { H.usual with find := fun name => watching alarm ?_ }
  rintro _ ho held m rfl
  have hfound := Environment.lookup_of_covered ho m.world.heap name
  exact ⟨rfl, congrArg (fun found => ((.ok found, m) : Except Interruption (Option Value) × Machine)) hfound.symm⟩

theorem seekingWithin (alarm : NodeId) (imports : Imports) (fuel : Nat) (id : NodeId) :
    Covering (evalWithin imports.loader fuel id) (seekingWithin alarm imports.loader fuel id) := by
  have H : Loading fun x y => Covering x y := loading
  induction fuel generalizing id with
  | zero => exact looking (.throw _)
  | succ fuel ih =>
    refine watching alarm ?_
    show Covering (Eval.nodeStep imports.loader (evalWithin imports.loader fuel) id) _
    rw [← Manner.nodeStep_usual]
    exact H.toCalling.nodeStepInManner ih (ofFrames alarm) (H.loader ih imports) (fun unit id => looking (.nodeIn unit id))
      (fun unit id => looking (.assignee unit id)) id

end Covering

end Eval

/-- In every run of a program, with any imports and any calls afterwards, each active record has a frame of its own, in
the same order, whenever the evaluation of a node begins or ends and whenever a name is looked up; then the frames alone
tell the value of every name. So the run is the same when each lookup ends with the outermost frame and when, wherever
this is not so, it gets stuck on a node, whichever one is taken. -/
theorem active_records_stand_open (imports : Imports) (program : Program) (role : Role) (world : World)
    (directory : Path) (maxDepth : Nat) (calls : List (Value × List Value)) (fuel : Nat) (held : List Value)
    (alarm : NodeId) :
    ((Manner.ofFrames alarm).play role program.body calls (Eval.seekingWithin alarm imports.loader fuel)).runFrom held
        (program.machine world directory maxDepth) =
      (Eval.play role program.body calls (evalWithin imports.loader fuel)).runFrom held
        (program.machine world directory maxDepth) ∧
    ((Eval.play role program.body calls (evalWithin imports.loader fuel)).runFrom held
        (program.machine world directory maxDepth)).2.Covered := by
  have H : Eval.Loading fun x y => Eval.Covering x y := Eval.Covering.loading
  have hplay := H.playInManner (Eval.Covering.seekingWithin alarm imports fuel) (Eval.Covering.ofFrames alarm) role
    program.body calls
  rw [Manner.play_usual] at hplay
  have hstart : Openings.Covered ⟨[none], []⟩ := List.nil_sublist _
  obtain ⟨hend, hsame⟩ := hplay _ hstart held (program.machine world directory maxDepth) (Machine.openings_start ..)
  exact ⟨hsame, Machine.covered_of_openings (by rwa [hend])⟩

end DynScript
