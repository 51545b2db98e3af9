import DynScript.Proofs.Run.Moments
import DynScript.Proofs.Session.Invariants
import DynScript.Proofs.Session.Reports

/-!
# The units of a session

Only entry units and imports add to the units of a session, and what they add has been accepted. So whatever analysis
guarantees of units that have been accepted is true of all units whose nodes are ever evaluated.
-/

namespace DynScript

/-- All units have a property. -/
def World.EachUnit (A : Arena → Prop) (w : World) : Prop := ∀ (i : Nat) (a : Arena), w.units[i]? = some a → A a

namespace World.EachUnit

variable {A : Arena → Prop} {w w' : World}

theorem earlier (h : w'.EachUnit A) (hw : w.units.toList <+: w'.units.toList) : w.EachUnit A :=
  fun i a ha => h i a <| getElem?_of_prefix hw ha

theorem of_units (h : w.EachUnit A) (hw : w'.units = w.units) : w'.EachUnit A := fun i a ha => h i a (hw ▸ ha)

theorem addUnit (h : w.EachUnit A) {a : Arena} (ha : A a) : (w.addUnit a).2.EachUnit A := by
  intro i b hb
  change (w.units.push a)[i]? = some b at hb
  rw [Array.getElem?_push] at hb
  split at hb
  · obtain rfl := Option.some.inj hb
    exact ha
  · exact h i b hb

end World.EachUnit

/-- These are the nodes of a unit that has been accepted. -/
def Arena.Accepted (a : Arena) : Prop := ∃ program : Program, program.Accepted ∧ program.arena = a

/-- The units of a machine have been accepted. -/
def Machine.Vetted (m : Machine) : Prop := m.world.EachUnit Arena.Accepted

namespace Machine

theorem vetted_of_world {m n : Machine} (hw : n.world = m.world) (h : m.Vetted) : n.Vetted :=
  World.EachUnit.of_units h (congrArg World.units hw)

theorem invariant_vetted : Invariant Vetted where
  shared hw _ h := vetted_of_world hw h
  simple hx held m h := by
    have hblind := hx.blind held m m.world.units
    rw [withUnits_self] at hblind
    exact World.EachUnit.of_units h (congrArg (fun r => r.2.world.units) hblind)

end Machine

namespace Eval

variable {α : Type}

/-- What is compiled successfully has been accepted. -/
theorem accepted_of_compiled {path : Path} {role : Role} {held : List Value} {m n : Machine} {unit : CompiledUnit}
    (h : (compiled path role).runFrom held m = (.ok (.ok unit), n)) : unit.program.Accepted := by
  cases hc : compileFile m.world.host.disk path role with
  | error d =>
    rw [compiled, runFrom_bind, runFrom_get] at h
    dsimp only at h
    rw [hc] at h
    cases h
  | ok c =>
    rw [runFrom_compiled held hc] at h
    exact compileFile_accepted hc (Except.ok.inj (congrArg Prod.fst h))

namespace SameWhile

open Machine (Vetted invariant_vetted)

theorem calling_vetted : Calling fun x y => SameWhile Vetted x y := calling invariant_vetted

/-- A unit that has been accepted may be added. -/
theorem inNewMachine_vetted {unit : CompiledUnit} (hu : unit.program.Accepted) (maxDepth : Nat) {x y : Eval α}
    (hx : SameWhile Vetted x y) :
    SameWhile Vetted (Eval.inNewMachine unit maxDepth x) (Eval.inNewMachine unit maxDepth y) := by
  refine inNewMachine Machine.vetted_of_world unit maxDepth (fun m hm => ?_) hx
  exact World.EachUnit.of_units (World.EachUnit.addUnit hm ⟨unit.program, hu, rfl⟩) rfl

section

variable {eval eval' : Evaluator} (he : ∀ id, SameWhile Vetted (eval id) (eval' id))
include he

theorem moduleRecord_vetted (settings : Settings) (path : Path) (dotted : String) :
    SameWhile Vetted (moduleRecord settings eval path dotted) (moduleRecord settings eval' path dotted) := by
  have H : Calling fun x y => SameWhile Vetted x y := calling_vetted
  refine bindFrom (H.still (.compiled ..)) fun result held m n hresult => ?_
  cases result with
  | error e => exact H.still (.importFailure ..)
  | ok unit =>
    have hrun := H.runUnit he unit.program.body
    refine bind (ending invariant_vetted .attempt (inNewMachine_vetted (accepted_of_compiled hresult) _ hrun)) fun result => ?_
    cases result with
    | ok exports => exact H.still (.ofEntries _)
    | error fault =>
      dsimp only
      split
      · exact throw _
      · exact H.still (.importFailure ..)

theorem loader_vetted (imports : Imports) (request : ImportRequest) :
    SameWhile Vetted (imports.loader eval request) (imports.loader eval' request) := by
  have H : Calling fun x y => SameWhile Vetted x y := calling_vetted
  cases imports with
  | unserved => exact throw _
  | session settings roots =>
    show SameWhile Vetted (Loader.ofSession settings roots eval request) (Loader.ofSession settings roots eval' request)
    rw [ofSession_eq, ofSession_eq]
    refine bind (bind (H.still (.located _)) fun path => ?_) fun _ => H.still (.pure _)
    exact loadOnce (fun _ _ hm => hm) path (moduleRecord_vetted he settings path request.dotted)

end

/-- At every moment all units have been accepted. -/
theorem watchedWithin_vetted (imports : Imports) (fuel : Nat) (id : NodeId) :
    SameWhile Vetted (evalWithin imports.loader fuel id) (watchedWithin Vetted imports.loader fuel id) := by
  induction fuel generalizing id with
  | zero => exact throw _
  | succ fuel ih =>
    refine watching id (calling_vetted.nodeStep ih (loader_vetted ih imports) ?_ ?_ id)
    · exact fun unit id => looking (.nodeIn unit id)
    · exact fun unit id => looking (.assignee unit id)

theorem evalWithin_vetted (imports : Imports) (fuel : Nat) (id : NodeId) :
    SameWhile Vetted (evalWithin imports.loader fuel id) (evalWithin imports.loader fuel id) :=
  keeping fun held m hm => (watchedWithin_vetted imports fuel id held m hm).1

end SameWhile

end Eval

namespace Session

/-- The run of an entry unit that has been accepted. -/
theorem entry_vetted (s : Session) (evaluation evaluation' : Loader → Evaluator) {unit : CompiledUnit}
    (hu : unit.program.Accepted) (he : ∀ (imports : Imports) id,
      Eval.SameWhile Machine.Vetted (evaluation imports.loader id) (evaluation' imports.loader id)) :
    Eval.SameWhile Machine.Vetted (s.entry evaluation unit) (s.entry evaluation' unit) := by
  have H : Eval.Calling fun x y => Eval.SameWhile Machine.Vetted x y := Eval.SameWhile.calling_vetted
  have heval := he (.session s.settings (some (s.settings.rootsFor unit.directory)))
  have hrun := H.bind (H.runUnit heval unit.program.body) fun _ => H.bind (H.invokeMain heval) fun _ => H.still (.pure ())
  exact Eval.SameWhile.inNewMachine_vetted hu s.settings.maxDepth hrun

/-- All units of a session have been accepted. -/
theorem invariant_vetted (fuel : Nat) : Invariant (·.EachUnit Arena.Accepted) fuel where
  same _ hunits h := h.of_units hunits
  entry s _ hu held m hm := by
    have heval (imports : Imports) := Eval.SameWhile.evalWithin_vetted imports fuel
    exact (s.entry_vetted (evalWithin · fuel) (evalWithin · fuel) hu heval held m hm).1
  load settings roots request held m hm := by
    have heval := Eval.SameWhile.evalWithin_vetted (.session settings roots) fuel
    exact (Eval.SameWhile.loader_vetted heval (.session settings roots) request held m hm).1

end Session

end DynScript
