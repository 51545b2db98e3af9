import DynScript.Proofs.Analysis.Returns
import DynScript.Proofs.Run.Returns

/-!
# No return leaves a statement of a unit

Analysis rejects a return that strays from a statement of the top level. What is left are returns in the members of
class literals inside of functions: they leave the call of the class, which may be made anywhere. As long as no such
class is called, every return ends the call of the function whose text lies closest around it.
-/

namespace DynScript

/-- No return strays from the statements of a unit that is accepted. -/
theorem not_strays_of_compile {path : Path} {source : String} {role : Role} {queue : Queue} {c : Compilation}
    {unit : CompiledUnit} (hc : compile path source role queue = .ok c) (hu : c.result = .ok unit) :
    ∃ items, unit.program.arena.kind? unit.program.body = some (.block items) ∧
      ∀ id ∈ items, ¬ unit.program.arena.Strays id := by
  obtain ⟨p, analysed, hanalyse, hfailed, hprogram⟩ := analysed_of_compile hc hu
  rw [← hprogram]
  exact p.not_strays hanalyse hfailed

namespace Eval

/-- Evaluate statements one after the other. -/
def throughStatements (eval : Evaluator) : List NodeId → Eval Unit
  | [] => pure ()
  | statement :: rest => do
    let _ ← eval statement
    throughStatements eval rest

/-- Run a unit as if no return could leave one of its statements, and take what it has exported. -/
def runThrough (eval : Evaluator) (bodyId : NodeId) : Eval Bindings := do
  let unit := (← get).unit
  throughStatements (within unit eval) (← topLevel bodyId)
  modifyGet fun m => (m.exports, { m with exports := .empty })

variable {unit : UnitId} {a : Arena}

/-- When no return leaves a statement, the statements are evaluated one after the other. -/
theorem runFrom_unitStatements {eval : Evaluator} {items : List NodeId}
    (he : ∀ id ∈ items, Leaving unit a (·.cause.Quiet) (eval id)) (held : List Value) {m : Machine}
    (hm : m.Evaluates unit a) :
    (unitStatements eval items).runFrom held m = (throughStatements eval items).runFrom held m := by
  induction items generalizing m with
  | nil => rfl
  | cons statement rest ih =>
    obtain ⟨hstatement, hrest⟩ := List.forall_mem_cons.1 he
    have hn := hstatement.stays held m hm
    have hquiet := hstatement.fault held m hm
    rw [unitStatements, throughStatements, runFrom_bind, runFrom_bind, returned, runFrom_finishing]
    rcases hr : (eval statement).runFrom held m with ⟨⟨⟨cause, position, backtrace⟩ | stuck⟩ | value, n⟩ <;>
      rw [hr] at hn hquiet
    · cases cause with
      | returning value => exact absurd rfl (hquiet _ rfl value)
      | _ => rfl
    · exact ih hrest hn

/-- The statements of the unit that is evaluated. -/
theorem runFrom_topLevel {body : NodeId} {items : List NodeId} (hk : a.kind? body = some (.block items))
    (held : List Value) {m : Machine} (hm : m.Evaluates unit a) :
    (topLevel body).runFrom held m = (.ok items, m) := by
  obtain ⟨position, hn⟩ := Arena.kind?_eq_some.1 hk
  have hnode : m.world.node? m.unit body = some ⟨.block items, position⟩ := by
    rw [World.node?, hm.current, hm.nodes, Option.bind_some, hn]
  have hsame : (requireUnit m.unit body).runFrom held m = (.ok (), m) := by
    rw [requireUnit, runFrom_bind, runFrom_get]
    dsimp only
    rw [if_neg (not_not.2 rfl)]
    rfl
  have hitems : (blockItems? m.unit body).runFrom held m = (.ok (some items), m) := by
    rw [blockItems?, nodeOf_bind, runFrom_bind, hsame]
    dsimp only
    rw [runFrom_nodeIn_bind, hnode]
    rfl
  rw [topLevel, runFrom_bind, runFrom_get]
  dsimp only
  rw [runFrom_bind, hitems]
  rfl

/-- So it is in the run of a unit. -/
theorem runFrom_runUnit {eval : Evaluator} {body : NodeId} {items : List NodeId}
    (hk : a.kind? body = some (.block items)) (he : ∀ id ∈ items, Leaving unit a (·.cause.Quiet) (eval id))
    (held : List Value) {m : Machine} (hm : m.Evaluates unit a) :
    (runUnit eval body).runFrom held m = (runThrough eval body).runFrom held m := by
  have hwithin (id : NodeId) (hid : id ∈ items) : Leaving unit a (·.cause.Quiet) (within m.unit eval id) :=
    .bind (.simple (fun _ h => h.cause) (.requireUnit ..)) fun _ => he id hid
  rw [runUnit, runThrough, runFrom_bind, runFrom_bind, runFrom_get]
  dsimp only
  rw [runFrom_bind, runFrom_bind, runFrom_topLevel hk held hm]
  dsimp only
  rw [runFrom_bind, runFrom_bind, runFrom_unitStatements hwithin held hm]

end Eval

/-- In the run of an accepted unit, as long as no class is called with a return straying from a member of its literal,
no return leaves a statement of the unit: the run is that in which nothing would be done about it. The evaluation of a
node ends in a return only if one strays from the node, and a call never does, so a return ends the call of the function
whose text lies closest around it. The calls of functions never end in a return, whatever else is called. -/
theorem returns_end_the_calls_around_them {path : Path} {source : String} {role : Role} {queue : Queue}
    {c : Compilation} {unit : CompiledUnit} (hc : compile path source role queue = .ok c) (hu : c.result = .ok unit)
    (imports : Imports) (fuel : Nat) :
    let sealed := Manner.sealed.evaluator imports.loader fuel
    (∀ held (m : Machine), m.Evaluates m.unit unit.program.arena →
        (Eval.runUnit sealed unit.program.body).runFrom held m =
          (Eval.runThrough sealed unit.program.body).runFrom held m) ∧
      Eval.Agrees (Eval.runUnit (evalWithin imports.loader fuel) unit.program.body)
        (Eval.runUnit sealed unit.program.body) ∧
      (∀ a id held (m : Machine) value position backtrace, m.Evaluates m.unit a →
        ((sealed id).runFrom held m).1 = .error (.fault ⟨.returning value, position, backtrace⟩) → a.Strays id) ∧
      (∀ callee args callSite held m fault,
        ((Manner.sealed.callValue sealed callee args callSite).runFrom held m).1 = .error (.fault fault) →
          fault.cause.Quiet) ∧
      ∀ f args callSite held m fault,
        ((Eval.callFunction (evalWithin imports.loader fuel) f args callSite).runFrom held m).1 =
            .error (.fault fault) → fault.cause.Quiet := by
  intro sealed
  have hleaving (unit : UnitId) (a : Arena) (id : NodeId) := Eval.Leaving.sealed imports fuel unit a id
  obtain ⟨items, hk, hitems⟩ := not_strays_of_compile hc hu
  refine ⟨fun held m hm => ?_, ?_, fun a id held m value position backtrace hm hf => ?_,
    fun callee args callSite => Eval.Stops.callSealed hleaving callee args callSite,
    fun f args callSite => Eval.Stops.callFunction .usual _ f args callSite⟩
  · refine Eval.runFrom_runUnit hk (fun id hid => ?_) held hm
    exact (hleaving m.unit _ id).imp fun _ h => h.resolve_right (hitems id hid)
  · exact Eval.Agrees.congruence.toCalling.runUnit (.inManner Manner.sealed_agrees imports fuel) unit.program.body
  · exact ((hleaving m.unit a id).fault held m hm _ hf).resolve_left fun hquiet => hquiet value rfl

/-- A function that returns from inside a conditional. -/
theorem returns_end_calls_in_countdown : ∃ c unit,
    compile ⟨"main.blu"⟩ "let rec down = fun(n) { if n == 0 then { return 0 }; down(n - 1) }; down(3);" .entry .empty =
        .ok c ∧
      c.result = .ok unit ∧
      ∀ held (m : Machine), m.Evaluates m.unit unit.program.arena →
        (Eval.runUnit (Manner.sealed.evaluator Loader.none 9) unit.program.body).runFrom held m =
          (Eval.runThrough (Manner.sealed.evaluator Loader.none 9) unit.program.body).runFrom held m := by
  have haccepted : (compile ⟨"main.blu"⟩
      "let rec down = fun(n) { if n == 0 then { return 0 }; down(n - 1) }; down(3);" .entry .empty).toOption.any
        (fun c => c.result.toOption.any fun _ => true) := by decide +kernel
  obtain ⟨c, hc, hresult⟩ := exists_of_any haccepted
  obtain ⟨unit, hu, -⟩ := exists_of_any hresult
  exact ⟨c, unit, hc, hu, (returns_end_the_calls_around_them hc hu .unserved 9).1⟩

end DynScript
