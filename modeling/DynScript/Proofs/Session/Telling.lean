import DynScript.Proofs.Run.Telling
import DynScript.Proofs.Session.Places
import DynScript.Proofs.Session.Units

/-!
# What faults tell

Whatever module is imported, it runs amid no calls, where evaluation and evaluation that tells are the same. So they do
the same when a program runs: a fault that leaves the run tells of the calls that were in progress where it arose.
-/

namespace DynScript

namespace Eval

variable {α : Type} {inProgress : List CallFrame} {eval : Evaluator} {eval' : Teller}

/-- Run a unit, and then its `main` if it is an entry unit, while no call is in progress. -/
def tellRun (role : Role) (eval : Teller) (bodyId : NodeId) : Eval (Bindings × Option Value) :=
  (Manner.telling eval []).runAs role (eval []) bodyId

/-! ## Modules -/

/-- No call is in progress where a unit begins to run. -/
theorem amid_start (world : World) (unit : UnitId) (directory : Path) (maxDepth : Nat) :
    (Machine.start world unit directory maxDepth).Amid [] :=
  ⟨rfl, Nat.zero_le _⟩

namespace Tells

theorem returned {x y : Eval Value} (h : Tells inProgress x y) : Tells inProgress (returned x) (returned y) := by
  intro held m hm
  obtain ⟨hcalls, hlimited, halike⟩ := h held m hm
  rw [Eval.returned, Eval.returned, runFrom_finishing, runFrom_finishing]
  generalize x.runFrom held m = r at hcalls hlimited halike
  generalize y.runFrom held m = r' at halike
  have hfault {f fault : Fault} (hf : f.Limited m.calls.maxDepth)
      (h : (Except.error (.fault f) : Except Interruption Bool) = .error (.fault fault)) :
      fault.Limited m.calls.maxDepth := by
    obtain rfl := Interruption.fault.inj (Except.error.inj h)
    exact hf
  cases halike with
  | same r =>
    rcases r with ⟨⟨⟨cause, position, backtrace⟩ | s⟩ | a, n⟩
    · cases cause
      case returning v => exact .ofOk hcalls
      all_goals exact ⟨hcalls, fun fault => hfault (hlimited _ rfl), .same _⟩
    · exact .ofStuck hcalls
    · exact .ofOk hcalls
  | @fault f f' n h =>
    have hcause : f.cause = f'.cause := by
      rw [← Fault.cause_told, h, Fault.cause_told]
    obtain ⟨cause, position, backtrace⟩ := f
    obtain ⟨cause', position', backtrace'⟩ := f'
    obtain rfl : cause = cause' := hcause
    cases cause
    case returning v => exact .ofOk hcalls
    all_goals exact ⟨hcalls, fun fault => hfault (hlimited _ rfl), .fault h⟩

theorem unitStatements {own own' : Evaluator} (he : ∀ id, Tells inProgress (own id) (own' id)) (items : List NodeId) :
    Tells inProgress (unitStatements own items) (Eval.unitStatements own' items) := by
  induction items with
  | nil => exact still (.pure _)
  | cons statement rest ih =>
    refine bind (returned (he statement)) fun ended => ?_
    split
    · exact still (.pure _)
    · exact ih

theorem runUnit (he : ∀ id, Tells inProgress (eval id) (eval' inProgress id)) (bodyId : NodeId) :
    Tells inProgress (runUnit eval bodyId) (Eval.runUnit (eval' inProgress) bodyId) := by
  refine composition.reading fun m => bind (composition.reading fun n => ?_) fun items => ?_
  · refine bind (looking (Restoring.congruence.blockItems? n.unit bodyId) (.blockItems? _ _)) fun found => ?_
    exact still (.pure _)
  · refine bind (unitStatements (within he m.unit) items) fun _ => ?_
    refine still (.change (.change (.change _ (fun _ => ?_) fun _ _ _ => rfl)))
    exact ⟨rfl, rfl, rfl, rfl, rfl, List.prefix_rfl⟩

end Tells

/-- A unit that runs in a machine of its own does so amid no calls. -/
theorem inNewMachine_of_tells {x y : Eval α} (h : Tells [] x y) (unit : CompiledUnit) (maxDepth : Nat) :
    inNewMachine unit maxDepth y = inNewMachine unit maxDepth x := by
  refine ext_runFrom fun held m => ?_
  have hsame := h.runFrom_eq (m.kept held) (amid_start (m.world.addUnit unit.program.arena).2
    (m.world.addUnit unit.program.arena).1 unit.directory maxDepth)
  exact congrArg (fun r => (r.1, { m with world := r.2.world })) hsame

/-- Imports are served alike. -/
theorem loader_of_tells (he : ∀ id, Tells [] (eval id) (eval' [] id)) (imports : Imports) (request : ImportRequest) :
    imports.loader (eval' []) request = imports.loader eval request := by
  cases imports with
  | unserved => rfl
  | session settings roots =>
    have hmodule (path : Path) (dotted : String) :
        moduleRecord settings (eval' []) path dotted = moduleRecord settings eval path dotted := by
      simp only [moduleRecord, inNewMachine_of_tells (Tells.runUnit he _)]
    show Loader.ofSession settings roots (eval' []) request = Loader.ofSession settings roots eval request
    simp only [ofSession_eq, hmodule]

/-! ## Programs -/

/-- Evaluation and evaluation that tells do the same, but for what faults have not told yet. -/
theorem tells_evalWithin (imports : Imports) (fuel : Nat) (inProgress : List CallFrame) (id : NodeId) :
    Tells inProgress (evalWithin imports.loader fuel id) (tellingWithin imports.loader fuel inProgress id) := by
  induction fuel generalizing inProgress id with
  | zero => exact .still (.stuck _)
  | succ fuel ih =>
    refine .nodeStep ih (fun frame inProgress => Stops.tellingWithin imports.loader fuel frame) (fun request => ?_) id
    rw [loader_of_tells (ih []) imports request]
    have hrestoring : Restoring (imports.loader (evalWithin imports.loader fuel) request) :=
      @Loading.loader _ Restoring.congruence.toLoading (evalWithin imports.loader fuel) (evalWithin imports.loader fuel)
        (fun id held m => (evaluation_restores imports fuel held m).1 id) imports request
    refine .restoring hrestoring fun held m fault hf => ?_
    exact (Stops.loader imports _ request held m fault hf).elim (fun h => .inr h.backtrace) fun h => .inl h.1

section

variable (imports : Imports) (fuel : Nat)

theorem tells_invokeMain :
    Tells [] (invokeMain (evalWithin imports.loader fuel))
      ((Manner.telling (tellingWithin imports.loader fuel) []).invokeMain (tellingWithin imports.loader fuel [])) := by
  rw [← Manner.invokeMain_usual]
  refine .bind (.still (.lookup? _)) fun value => ?_
  rcases value with _ | callee
  · exact .still (.pure _)
  cases callee
  case function f =>
    refine .bind (.looking (Restoring.congruence.functionParts f) (.functionParts f)) fun (params, _) => ?_
    dsimp only
    split
    · refine .bind ?_ fun _ => .still (.pure _)
      exact .callValue (tells_evalWithin imports fuel) (fun _ _ => Stops.tellingWithin _ _ _) _ [] none
    · exact .still (.pure _)
  all_goals exact .still (.pure _)

theorem tells_runAs (role : Role) (bodyId : NodeId) :
    Tells [] (runAs role (evalWithin imports.loader fuel) bodyId)
      (tellRun role (tellingWithin imports.loader fuel) bodyId) := by
  refine .bind (.runUnit (tells_evalWithin imports fuel []) bodyId) fun exports => ?_
  cases role with
  | entry => exact .bind (tells_invokeMain imports fuel) fun _ => .still (.pure _)
  | module => exact .still (.pure _)

end

/-! ## Places -/

/-- A call gives no fault another place. -/
theorem located_inCall {frame : CallFrame} {x : Eval Value} {held : List Value} {m : Machine}
    (hcalls : m.calls.refusal? = none) (hx : Located (x.runFrom held { m with calls := m.calls.enter frame }).1) :
    Located ((catchReturn (inCall frame x)).runFrom held m).1 := by
  intro fault hf
  rw [catchReturn, runFrom_finishing, runFrom_inCall_entered hcalls] at hf
  simp only [afterwards, mapFault, runFrom_finishing] at hf
  generalize x.runFrom held { m with calls := m.calls.enter frame } = r at hf hx
  rcases r with ⟨⟨f | s⟩ | a, n⟩
  · have hsame : (n.calls.attachBacktrace n.world.heap f).isSignal = f.isSignal ∧
        (n.calls.attachBacktrace n.world.heap f).position = f.position := by
      unfold CallStack.attachBacktrace
      split <;> exact ⟨rfl, rfl⟩
    obtain ⟨hsignal, hposition⟩ := hsame
    dsimp only at hf
    split at hf
    · cases hf
    · obtain rfl := Interruption.fault.inj (Except.error.inj hf)
      rw [hsignal, hposition]
      exact hx f rfl
  · cases hf
  · cases hf

section

variable (imports : Imports) (fuel : Nat)

/-- A fault that leaves a node of a unit that has been accepted has a place. -/
theorem located_of_vetted (id : NodeId) :
    StopsWhile Machine.Vetted (fun fault => fault.isSignal = true ∨ fault.position.isSome)
      (evalWithin imports.loader fuel id) := by
  intro held m hm
  refine ⟨(SameWhile.evalWithin_vetted imports fuel id held m hm).1, ?_⟩
  cases hunit : m.world.units[m.unit.index]? with
  | some a => exact located_evalWithin imports.loader fuel id held ⟨rfl, hunit⟩ (hm _ a hunit).positioned
  | none =>
    cases fuel with
    | zero => exact fun fault hf => by cases hf
    | succ fuel =>
      rw [evalWithin, runFrom_nodeStep, World.node?, hunit]
      exact fun fault hf => by cases hf

/-- The values that are held make no difference to what a function consists of. -/
theorem runFrom_functionParts (f : Function) (held held' : List Value) (m : Machine) :
    (functionParts f).runFrom held m = (functionParts f).runFrom held' m := by
  rw [functionParts, runFrom_nodeIn_bind, runFrom_nodeIn_bind]
  rcases m.world.node? f.unit f.node with _ | ⟨kind, position⟩
  · rfl
  · cases kind <;> rfl

/-- A fault that leaves the call of a function without parameters has a place, unless the call is refused. -/
theorem located_call {f : Function} {held : List Value} {m : Machine} {bodyId : NodeId}
    (hparts : (functionParts f).runFrom held m = (.ok ([], bodyId), m)) (hm : m.Vetted)
    (hcalls : m.calls.refusal? = none) :
    Located ((callValue (evalWithin imports.loader fuel) (.function f) [] none).runFrom held m).1 := by
  show Located ((callFunction (evalWithin imports.loader fuel) f [] none).runFrom (.function f :: held) m).1
  rw [callFunction, runFrom_bind, runFrom_functionParts f _ held, hparts]
  have hentered : Machine.Vetted { m with calls := m.calls.enter ⟨f.name, [], none⟩ } := Machine.vetted_of_world rfl hm
  exact located_inCall hcalls
    (StopsWhile.functionBody (located_of_vetted imports fuel) Machine.invariant_vetted f [] bodyId _ _ hentered).2

/-- A fault that leaves `main` has a place, unless the call is refused: `main` has no parameters. -/
theorem located_invokeMain (held : List Value) {m : Machine} (hm : m.Vetted) (hcalls : m.calls.refusal? = none) :
    Located ((invokeMain (evalWithin imports.loader fuel)).runFrom held m).1 := by
  intro fault hf
  rw [invokeMain, runFrom_bind, show (lookup? mainName).runFrom held m =
    (.ok (m.env.lookup m.world.heap mainName), m) from rfl] at hf
  dsimp only at hf
  split at hf
  · rename_i f _
    have hlooks := Looks.functionParts f held m
    have hfaultless := Faultless.functionParts f held m
    rw [runFrom_bind] at hf
    rcases hparts : (functionParts f).runFrom held m with ⟨e | ⟨params, bodyId⟩, n⟩ <;>
      rw [hparts] at hf hlooks hfaultless
    · obtain rfl := Except.error.inj hf
      exact (hfaultless fault rfl).elim
    · obtain rfl : n = m := hlooks
      dsimp only at hf
      split at hf
      · rename_i hempty
        obtain rfl := List.isEmpty_iff.1 hempty
        have hcall := located_call imports fuel hparts hm hcalls
        rw [runFrom_bind] at hf
        rcases hr : (callValue (evalWithin imports.loader fuel) (.function f) [] none).runFrom held n with ⟨e | v, n'⟩ <;>
          rw [hr] at hf hcall
        · obtain rfl := Except.error.inj hf
          exact hcall fault rfl
        · cases hf
      · cases hf
  · cases hf

/-- A fault that leaves the run of a program has a place. -/
theorem located_runAs (role : Role) (bodyId : NodeId) (held : List Value) {m : Machine} (hm : m.Vetted)
    (hcalls : m.calls.refusal? = none) :
    Located ((runAs role (evalWithin imports.loader fuel) bodyId).runFrom held m).1 := by
  have hrestoring : Restoring (Eval.runUnit (evalWithin imports.loader fuel) bodyId) :=
    @Invoking.runUnit _ Restoring.congruence.toInvoking (evalWithin imports.loader fuel) (evalWithin imports.loader fuel)
      (fun id held m => (evaluation_restores imports fuel held m).1 id) bodyId
  have hcalls' := (hrestoring held m).calls
  obtain ⟨hn, hunit⟩ := StopsWhile.runUnit (located_of_vetted imports fuel) Machine.invariant_vetted bodyId held m hm
  intro fault hf
  rw [runAs, runFrom_bind] at hf
  rcases hr : (Eval.runUnit (evalWithin imports.loader fuel) bodyId).runFrom held m with ⟨e | exports, n⟩ <;>
    rw [hr] at hf hn hunit hcalls'
  · obtain rfl := Except.error.inj hf
    exact hunit fault rfl
  · cases role with
    | module => cases hf
    | entry =>
      have hmain := located_invokeMain imports fuel held hn (by rw [hcalls', hcalls])
      dsimp only at hf
      rw [runFrom_bind] at hf
      rcases hr' : (invokeMain (evalWithin imports.loader fuel)).runFrom held n with ⟨e | v, n'⟩ <;>
        rw [hr'] at hf hmain
      · obtain rfl := Except.error.inj hf
        exact hmain fault rfl
      · cases hf

end

end Eval

/-- When a program that has been accepted runs with room for a call, a fault that is no signal and leaves the run or the
call of `main` has a place. The run is that of evaluation that tells: a fault tells of the calls in progress as soon as
it leaves the innermost node that was being evaluated, each with the name of the function, the parameters with the
records as they then are, and the place of the call, and that is what it still tells in the end. If there were none
then it tells of none. So it tells of one call at least, if of any, and of no more than there may be. -/
theorem faults_tell_of_the_calls_in_progress (imports : Imports) (fuel : Nat) (role : Role) {program : Program}
    (hprogram : program.Accepted) {world : World} (hworld : world.EachUnit Arena.Accepted) (directory : Path)
    {maxDepth : Nat} (hdepth : 1 ≤ maxDepth) (held : List Value) :
    let run := (Eval.runAs role (evalWithin imports.loader fuel) program.body).runFrom held
      (program.machine world directory maxDepth)
    run = (Eval.tellRun role (Eval.tellingWithin imports.loader fuel) program.body).runFrom held
        (program.machine world directory maxDepth) ∧
      ∀ fault, run.1 = .error (.fault fault) → fault.isSignal = false →
        fault.position.isSome ∧ ∀ b, fault.backtrace = some b → 1 ≤ b.size ∧ b.size ≤ maxDepth := by
  intro run
  have hamid : (program.machine world directory maxDepth).Amid [] := Eval.amid_start ..
  have htells := Eval.tells_runAs imports fuel role program.body
  have hvetted : (program.machine world directory maxDepth).Vetted :=
    World.EachUnit.of_units (World.EachUnit.addUnit hworld ⟨program, hprogram, rfl⟩) rfl
  have hcalls : (program.machine world directory maxDepth).calls.refusal? = none := if_neg (by
    show ¬ maxDepth ≤ 0
    omega)
  refine ⟨(htells.runFrom_eq held hamid).symm, fun fault hf hsignal => ⟨?_, ?_⟩⟩
  · have hlocated := Eval.located_runAs imports fuel role program.body held hvetted hcalls fault hf
    exact hlocated.resolve_left (by simp [hsignal])
  · have hlimited : fault.Limited maxDepth := (htells held _ hamid).limited fault hf
    exact hlimited.resolve_left (by simp [hsignal])

/-- A program in which a fault arises in a call that is made by `main`. -/
def calledNil : String := "let f = fun(x) { x() }; let main = fun() { f(nil) }"

/-- The calls in progress when `nil` is called. -/
def calledNilBacktrace : Backtrace :=
  ⟨[⟨"f", ["x = nil"], some ⟨⟨44, 45⟩, 1, 45⟩⟩, ⟨"main", [], none⟩]⟩

/-- The fault in which a step has ended, if it has ended in one. -/
def faultOf? {α : Type} : Except Interruption α → Option Fault
  | .error (.fault fault) => some fault
  | _ => none

theorem eq_of_faultOf? {α : Type} {result : Except Interruption α} {fault : Fault} (h : faultOf? result = some fault) :
    result = .error (.fault fault) := by
  unfold faultOf? at h
  split at h
  · exact congrArg (Except.error ∘ Interruption.fault) (Option.some.inj h)
  · cases h

/-- The program is accepted, and its fault tells of the calls. -/
theorem run_calledNil : ∃ c unit, compile ⟨"main.blu"⟩ calledNil .entry .empty = .ok c ∧ c.result = .ok unit ∧
    ∃ fault, ((Eval.runAs .entry (evalWithin Imports.unserved.loader 9) unit.program.body).runFrom []
        (unit.program.machine (.new .silent .empty) ⟨"."⟩ 2)).1 = .error (.fault fault) ∧
      fault.isSignal = false ∧ fault.backtrace = some calledNilBacktrace := by
  have hread : (compile ⟨"main.blu"⟩ calledNil .entry .empty).toOption.any fun c => c.result.toOption.any fun unit =>
      let run := (Eval.runAs .entry (evalWithin Imports.unserved.loader 9) unit.program.body).runFrom []
        (unit.program.machine (.new .silent .empty) ⟨"."⟩ 2)
      (faultOf? run.1).any fun fault =>
        decide (fault.isSignal = false ∧ fault.backtrace = some calledNilBacktrace) := by
    decide +kernel
  obtain ⟨c, hc, hresult⟩ := exists_of_any hread
  obtain ⟨unit, hu, hrun⟩ := exists_of_any hresult
  obtain ⟨fault, hfault, htells⟩ := (Option.any_eq_true ..).1 hrun
  exact ⟨c, unit, hc, hu, fault, eq_of_faultOf? hfault, of_decide_eq_true htells⟩

/-- The fault has a place, and it tells of as many calls as there may be. -/
theorem called_nil_tells_of_two_calls : ∃ c unit, compile ⟨"main.blu"⟩ calledNil .entry .empty = .ok c ∧
    c.result = .ok unit ∧ unit.program.Accepted ∧ World.EachUnit Arena.Accepted (.new .silent .empty) ∧ 1 ≤ 2 ∧
      let run := (Eval.runAs .entry (evalWithin Imports.unserved.loader 9) unit.program.body).runFrom []
        (unit.program.machine (.new .silent .empty) ⟨"."⟩ 2)
      run = (Eval.tellRun .entry (Eval.tellingWithin Imports.unserved.loader 9) unit.program.body).runFrom []
          (unit.program.machine (.new .silent .empty) ⟨"."⟩ 2) ∧
        ∃ fault, run.1 = .error (.fault fault) ∧ fault.isSignal = false ∧ fault.position.isSome ∧
          fault.backtrace = some calledNilBacktrace ∧ calledNilBacktrace.size = 2 := by
  obtain ⟨c, unit, hc, hu, fault, hfault, hsignal, hbacktrace⟩ := run_calledNil
  have haccepted : unit.program.Accepted := compile_accepted hc hu
  have hworld : World.EachUnit Arena.Accepted (.new .silent .empty) := fun i a ha => by cases ha
  obtain ⟨hrun, htells⟩ := faults_tell_of_the_calls_in_progress .unserved 9 .entry haccepted hworld ⟨"."⟩
    (by decide : 1 ≤ 2) []
  obtain ⟨hposition, -⟩ := htells fault hfault hsignal
  exact ⟨c, unit, hc, hu, haccepted, hworld, by decide, hrun, fault, hfault, hsignal, hposition, hbacktrace, rfl⟩

end DynScript
