import DynScript.Proofs.Analysis.Assignments
import DynScript.Proofs.Run.Values
import DynScript.Proofs.Session.Units

/-!
# Variables that may not be assigned

In a unit that has been accepted no assignment to a name stands where the name may not be assigned, so evaluation
changes the variables of the name there at most through calls. A called function sees the variables of its callers and
may assign to them; in the manner `Manner.sparing` it is not called if it would.
-/

namespace DynScript

open Classical in
/-- The usual manner, except that nothing is called that changes a variable of the name in a frame that stands open. -/
noncomputable def Manner.sparing (name : String) : Manner :=
  { Manner.usual with
    around := fun _ _ x held => do
      let m ← getThe Machine
      if m.Spares name m.env.depth (x.runFrom held m).2 then x held
      else throw (.stuck (.defect (.missingNode ⟨0⟩))) }

namespace Manner

open Eval

variable (name : String)

/-- Around a call the sparing manner gets stuck, or the call changes no variable of the name that stands open. -/
theorem runFrom_around_sparing (callee : Value) (callSite : Option Position) (x : Eval Value) (held : List Value)
    (m : Machine) :
    m.Spares name m.env.depth (x.runFrom held m).2 ∧
        ((sparing name).around callee callSite x).runFrom held m = x.runFrom held m ∨
      ((sparing name).around callee callSite x).runFrom held m = (.error (.stuck (.defect (.missingNode ⟨0⟩))), m) := by
  classical
  by_cases h : m.Spares name m.env.depth (x.runFrom held m).2
  · refine .inl ⟨h, ?_⟩
    show StateT.run (ExceptT.run (ite _ (x held) _)) m = _
    rw [if_pos h]
    rfl
  · refine .inr ?_
    show StateT.run (ExceptT.run (ite _ (x held) _)) m = _
    rw [if_neg h]
    rfl

/-- In the sparing manner, too, what is opened is closed. -/
theorem sparing_restoring : Alike (fun x _ => Restoring x) (sparing name) (sparing name) := by
  have H : Invoking fun x _ => Restoring x := Restoring.congruence.toInvoking
  refine { H.usual with around := fun callee callSite x _ h held m => ?_ }
  rcases runFrom_around_sparing name callee callSite x held m with ⟨-, hrun⟩ | hrun <;> rw [hrun]
  exact h held m

/-- So do frames shield the variables behind them. -/
theorem sparing_shielding : Alike (fun x _ => Shielding x) (sparing name) (sparing name) := by
  have H : Loading fun x _ => Shielding x := Shielding.loading
  refine { H.usual with around := fun callee callSite x _ h held m => ?_ }
  rcases runFrom_around_sparing name callee callSite x held m with ⟨-, hrun⟩ | hrun <;> rw [hrun]
  exact h held m

/-- In the sparing manner the same happens as in the usual one, unless a call is refused. -/
theorem sparing_agrees : Alike (fun x y => Agrees x y) usual (sparing name) := by
  have H : Invoking fun x y => Agrees x y := Agrees.congruence.toInvoking
  refine { H.usual with around := fun callee callSite x y h held m => ?_ }
  rcases runFrom_around_sparing name callee callSite y held m with ⟨-, hrun⟩ | hrun <;> rw [hrun]
  · exact h held m
  · exact .inr ⟨_, rfl⟩

end Manner

/-- In no unit of a machine a name is assigned, and analysis has left nothing to change in them. -/
def Machine.AssignsNowhere (name : String) (m : Machine) : Prop :=
  m.world.EachUnit fun a => a.Settled ∧ ∀ id, ¬ a.AssignsAt name id

theorem Machine.AssignsNowhere.earlier {name : String} {m n : Machine}
    (h : m.world.units.toList <+: n.world.units.toList) (hn : n.AssignsNowhere name) : m.AssignsNowhere name :=
  World.EachUnit.earlier hn h

/-- Where all units have been accepted and none declares a name to be mutable, none assigns to it. -/
theorem Machine.Vetted.assignsNowhere {name : String} {m : Machine} (h : m.Vetted)
    (hnone : m.world.EachUnit fun a => a.size ≤ UInt32.size ∧ ¬ a.Mutates name) : m.AssignsNowhere name := by
  intro i a ha
  obtain ⟨program, haccepted, rfl⟩ := h i a ha
  obtain ⟨hsize, hmutates⟩ := hnone i _ ha
  exact ⟨haccepted.settled, fun id hassign => hmutates (haccepted.mutates hsize hassign)⟩

namespace Eval

variable {α : Type} {P C : Machine → Prop} {name : String} {d : Nat}

/-! ## Imports -/

/-- Modules run in machines of their own, so an import leaves the names alone. -/
theorem env_loader (imports : Imports) (eval : Evaluator) (request : ImportRequest) (held : List Value) (m : Machine) :
    ((imports.loader eval request).runFrom held m).2.env = m.env := by
  have hstill {α : Type} {x : Eval α} (hx : x.Still) : SameWhile (·.env = m.env) x x :=
    .keeping fun held n hn => (hx.env held n).trans hn
  suffices h : SameWhile (·.env = m.env) (imports.loader eval request) (imports.loader eval request) from
    (h held m rfl).1
  cases imports with
  | unserved => exact .throw _
  | session settings roots =>
    show SameWhile _ (Loader.ofSession settings roots eval request) (Loader.ofSession settings roots eval request)
    rw [ofSession_eq]
    refine .bind (.bind (hstill (.located _)) fun path => .loadOnce (fun _ _ hn => hn) path ?_) fun _ => hstill (.pure _)
    refine .bind (hstill (.compiled ..)) fun result => ?_
    cases result with
    | error e => exact hstill (.importFailure ..)
    | ok unit =>
      refine .bind (.finishing (fun result n hn => (Ending.attempt.env result n).trans hn) ?_) fun result => ?_
      · exact .keeping fun _ _ hn => hn
      · cases result with
        | ok exports => exact hstill (.ofEntries _)
        | error fault =>
          dsimp only
          split
          · exact .throw _
          · exact hstill (.importFailure ..)

theorem Sparing.loader (imports : Imports) {eval : Evaluator} (hr : ∀ id, Restoring (eval id))
    (hs : ∀ id, Shielding (eval id)) (request : ImportRequest) : Sparing P C name d (imports.loader eval request) := by
  have H : Loading fun x _ => Restoring x := Restoring.congruence.toLoading
  have K : Loading fun x _ => Shielding x := Shielding.loading
  exact .of_env (@Loading.loader _ H eval eval hr imports request) (@Loading.loader _ K eval eval hs imports request)
    (env_loader imports eval request)

/-! ## Evaluation in a unit -/

/-- When no assignment belongs to a node, its evaluation changes variables at most through calls. -/
theorem SparingNodes.inManner (imports : Imports) (name : String) (unit : UnitId) {a : Arena} (ha : a.Settled)
    (fuel : Nat) :
    SparingNodes (fun _ => True) name unit a ((Manner.sparing name).evaluator imports.loader fuel) := by
  have hS : Machine.Stage (Machine.Evaluates unit a) fun _ => True := Machine.stage_evaluates unit a fun _ _ => trivial
  have hr := Restoring.evaluator (Manner.sparing_restoring name) imports
  have hs := Shielding.evaluator (Manner.sparing_shielding name) imports
  induction fuel with
  | zero => exact ⟨hr 0, hs 0, fun _ _ => .throw _, fun _ _ _ => .throw _, fun _ _ _ _ _ _ _ _ h => nomatch h⟩
  | succ fuel ih =>
    refine nodeStep hS ih ha (hr (fuel + 1)) (hs (fuel + 1))
      { Composition.inside_usual (Sparing.composition hS (Nat.zero_le 1)) with } ?_
      (.loader imports (hr fuel) (hs fuel))
    have H : Calling fun x _ => Restoring x := Restoring.congruence.toCalling
    have K : Loading fun x _ => Shielding x := Shielding.loading
    intro function arguments callSite held m hm
    have hrestored := @Calling.callInManner _ H _ ((Manner.sparing name).evaluator imports.loader fuel) (hr fuel) _ _
      (Manner.sparing_restoring name) function arguments callSite held m
    have hshields := @Calling.callInManner _ K.toCalling _ ((Manner.sparing name).evaluator imports.loader fuel)
      (hs fuel) _ _ (Manner.sparing_shielding name) function arguments callSite held m
    refine ⟨hrestored, hshields, fun _ => ?_⟩
    rw [Manner.callValue]
    rcases Manner.runFrom_around_sparing name function callSite ((Manner.sparing name).enter
      ((Manner.sparing name).evaluator imports.loader fuel) function arguments callSite) held m with
      ⟨hspares, hrun⟩ | hrun <;> rw [hrun]
    · exact hspares
    · exact fun _ _ => rfl

/-! ## Evaluation in all units -/

/-- When a name is assigned in no unit, evaluation changes its variables at most in the innermost frame. -/
theorem SparingNodes.everywhere (imports : Imports) (name : String) (fuel : Nat) :
    (∀ id, Sparing (fun _ => True) (·.AssignsNowhere name) name 1 (Manner.usual.evaluator imports.loader fuel id)) ∧
      ∀ (unit : UnitId) (a : Arena), a.Settled → (∀ id, ¬ a.AssignsAt name id) →
        SparingNodes (·.AssignsNowhere name) name unit a (Manner.usual.evaluator imports.loader fuel) := by
  have hT : Machine.Stage (fun _ => True) (·.AssignsNowhere name) := ⟨fun _ _ _ => trivial, .earlier⟩
  have hr := Restoring.evaluator (M := .usual) (Invoking.usual Restoring.congruence.toInvoking) imports
  have hs := Shielding.evaluator (M := .usual) (Invoking.usual Shielding.loading.toInvoking) imports
  -- A call may lead into any unit, so the statement for one unit is proved together with that for all.
  induction fuel with
  | zero =>
    refine ⟨fun _ => .throw _, fun unit a _ _ => ?_⟩
    exact ⟨hr 0, hs 0, fun _ _ => .throw _, fun _ _ _ => .throw _, fun _ _ _ _ _ _ _ _ h => nomatch h⟩
  | succ fuel ih =>
    have H : Invoking fun x _ => Sparing (fun _ => True) (·.AssignsNowhere name) name 0 x :=
      Sparing.invoking hT (Nat.zero_le 1)
    have hnodes (unit : UnitId) (a : Arena) (ha : a.Settled) (hnone : ∀ id, ¬ a.AssignsAt name id) :
        SparingNodes (·.AssignsNowhere name) name unit a (Manner.usual.evaluator imports.loader (fuel + 1)) := by
      have hS : Machine.Stage (Machine.Evaluates unit a) (·.AssignsNowhere name) :=
        Machine.stage_evaluates unit a .earlier
      refine nodeStep hS (ih.2 unit a ha hnone) ha (hr (fuel + 1)) (hs (fuel + 1))
        (Composition.inside_usual (Sparing.composition hS (Nat.zero_le 1))) (fun function arguments callSite => ?_)
        (.loader imports (hr fuel) (hs fuel))
      exact .anywhere (@Invoking.callWith _ H .usual .usual (Invoking.usual H) _
        (Manner.usual.evaluator imports.loader fuel) (Sparing.bodies hT ih.1) function arguments callSite)
    refine ⟨fun id held m _ => ⟨hr (fuel + 1) id held m, hs (fuel + 1) id held m, fun hC => ?_⟩, hnodes⟩
    cases ha : m.world.units[m.unit.index]? with
    | none =>
      -- Without its unit there is no node to evaluate.
      have hstuck : ((Manner.usual.evaluator imports.loader (fuel + 1) id).runFrom held m).2 = m := by
        show ((Manner.usual.nodeStep imports.loader _ id).runFrom held m).2 = m
        rw [Manner.nodeStep_usual, runFrom_nodeStep, World.node?, ha]
        rfl
      rw [hstuck]
      exact fun _ _ => rfl
    | some a =>
      obtain ⟨hsettled, hnone⟩ := Machine.AssignsNowhere.earlier (hr (fuel + 1) id held m).units hC _ a ha
      have hreassigns : ¬ a.Reassigns name id := fun h => by
        obtain ⟨i, hi⟩ := h.exists_assignsAt
        exact hnone i hi
      exact ((hnodes m.unit a hsettled hnone).inner id hreassigns held m ⟨rfl, ha⟩).spares hC

/-- In a session in which all units have been accepted and a name is declared to be mutable in none, a variable of the
name changes only where a binding of the name is evaluated in its frame. -/
theorem spares_of_vetted (imports : Imports) (fuel : Nat) (id : NodeId) (held : List Value) {m : Machine}
    (hm : m.Vetted)
    (hnone : ((evalWithin imports.loader fuel id).runFrom held m).2.world.EachUnit fun a =>
      a.size ≤ UInt32.size ∧ ¬ a.Mutates name) :
    m.Spares name (m.env.depth - 1) ((evalWithin imports.loader fuel id).runFrom held m).2 ∧
      ∀ a, m.Evaluates m.unit a → ¬ a.Binds name id →
        m.Spares name m.env.depth ((evalWithin imports.loader fuel id).runFrom held m).2 := by
  have hassigns := ((SameWhile.evalWithin_vetted imports fuel id held m hm).1).assignsNowhere hnone
  rw [← Manner.evaluator_usual] at hassigns ⊢
  have hsparing := (SparingNodes.everywhere imports name fuel).1 id held m trivial
  refine ⟨hsparing.spares hassigns, fun a ha hbinds => ?_⟩
  obtain ⟨hsettled, hnowhere⟩ := hassigns.earlier hsparing.restored.units _ a ha.nodes
  have hreassigns : ¬ a.Reassigns name id := fun h => by
    obtain ⟨i, hi⟩ := h.exists_assignsAt
    exact hnowhere i hi
  have hnodes := (SparingNodes.everywhere imports name fuel).2 m.unit a hsettled hnowhere
  exact (hnodes.outer id hreassigns hbinds held m ha).spares hassigns

end Eval

/-! ## A program -/

/-- A program in which a called function assigns to a variable of the scope in which it is called. -/
def shadowing : String := "let mut x = true; let f = fun() { x <- nil }; { let x = false; f(); x }"

/-- Its nodes. -/
def shadowingNodes : List NodeKind :=
  [.literal (.bool true), .binding "x" .mutable false ⟨0⟩, .ident "x", .literal .nil, .assign ⟨2⟩ ⟨3⟩, .block [⟨4⟩],
    .function [] ⟨5⟩, .binding "f" .plain false ⟨6⟩, .literal (.bool false), .binding "x" .plain false ⟨8⟩,
    .ident "f", .call ⟨10⟩ [], .ident "x", .block [⟨9⟩, ⟨11⟩, ⟨12⟩], .block [⟨1⟩, ⟨7⟩, ⟨13⟩]]

/-- The program is accepted without findings, and it does not declare the function to be mutable. -/
theorem compile_shadowing : ∃ c unit, compile ⟨"main.blu"⟩ shadowing .entry .empty = .ok c ∧ c.result = .ok unit ∧
    c.queue.toList = [] ∧ unit.program.body = ⟨14⟩ ∧ unit.program.arena.size = 15 ∧
      (∀ i : Nat, i < 15 → unit.program.arena.kind? ⟨i⟩ = shadowingNodes[i]?) ∧ ¬ unit.program.arena.Mutates "f" := by
  have hread : (compile ⟨"main.blu"⟩ shadowing .entry .empty).toOption.any fun c => c.result.toOption.any fun unit =>
      decide (c.queue.toList = [] ∧ unit.program.body = ⟨14⟩ ∧ unit.program.arena.size = 15 ∧
        (∀ i : Nat, i < 15 → unit.program.arena.kind? ⟨i⟩ = shadowingNodes[i]?) ∧ ¬ unit.program.arena.Mutates "f") := by
    decide +kernel
  obtain ⟨c, hc, hresult⟩ := exists_of_any hread
  obtain ⟨unit, hu, hdecided⟩ := exists_of_any hresult
  exact ⟨c, unit, hc, hu, of_decide_eq_true hdecided⟩

/-- The variables of the top level when the function is called. -/
def shadowingOuter (unit : UnitId) : Bindings :=
  (Bindings.empty.set "x" (.bool true)).set "f" (.function ((Function.ofNode unit ⟨6⟩).named "f"))

/-- The variable of the block when the function is called. -/
def shadowingInner : Bindings := Bindings.empty.set "x" (.bool false)

namespace Eval

section

variable {a : Arena} (ha : ∀ i < 15, a.kind? ⟨i⟩ = shadowingNodes[i]?) {unit : UnitId} {m : Machine}
  (hm : m.Evaluates unit a) (hactive : m.env.active? = none) (hcalls : m.calls.refusal? = none) (load : Loader)
  (held : List Value)
include ha hm hactive hcalls

/-- The call changes the variable of the block. -/
theorem shadowing_call :
    (evalWithin load 7 ⟨11⟩).runFrom held
        { m with env := (m.env.withScope (shadowingOuter unit)).withScope shadowingInner } =
      (.ok .nil, { m with
        env := (m.env.withScope (shadowingOuter unit)).withScope (shadowingInner.set "x" .nil) }) := by
  have hat (env : Environment) (calls : CallStack) : Machine.Evaluates unit a { m with calls, env } :=
    ⟨hm.current, hm.nodes⟩
  have hcallee : (evalWithin load 6 ⟨10⟩).runFrom held
      { m with env := (m.env.withScope (shadowingOuter unit)).withScope shadowingInner } =
        (.ok (.function ((Function.ofNode unit ⟨6⟩).named "f")),
          { m with env := (m.env.withScope (shadowingOuter unit)).withScope shadowingInner }) :=
    ident_of_ok (hat _ _) (ha 10 (by decide))
      ((Environment.lookup_withScope_outer rfl).trans (Environment.lookup_withScope rfl))
  refine call_of_ok (b := .empty) (n := m) (hat _ _) (ha 11 (by decide)) hcallee rfl rfl (ha 6 (by decide))
    (ha 5 (by decide)) hcalls (fun frame => ?_) hm.current (by simp)
  refine statementsAfter_of_ok (hat _ _) (assign_of_ok (hat _ _) (ha 4 (by decide)) (ha 2 (by decide))
    (literal_of_ok (hat _ _) (ha 3 (by decide))) (hat _ _) ?_) rfl
  exact assign_of_outer (b := shadowingInner) (c := .empty) rfl rfl rfl hactive

/-- The value of the program is nil, although the variable that comes last was bound to false. -/
theorem shadowing_value : (evalWithin load 9 ⟨14⟩).runFrom held m = (.ok .nil, m) := by
  have hat (env : Environment) : Machine.Evaluates unit a { m with env } := ⟨hm.current, hm.nodes⟩
  have hblock (held : List Value) :
      (evalWithin load 8 ⟨13⟩).runFrom held { m with env := m.env.withScope (shadowingOuter unit) } =
        (.ok .nil, { m with env := m.env.withScope (shadowingOuter unit) }) := by
    refine block_of_ok (b := shadowingInner.set "x" .nil) (n := m) (hat _) (ha 13 (by decide)) ?_ rfl
    refine statementsAfter_of_ok (hat _) (binding_of_ok (hat _) (ha 9 (by decide)) nofun
      (literal_of_ok (hat _) (ha 8 (by decide))) rfl) ?_
    refine statementsAfter_of_ok (hat _) (shadowing_call ha hm hactive hcalls load _) ?_
    refine statementsAfter_of_ok (hat _) (ident_of_ok (hat _) (ha 12 (by decide)) ?_) rfl
    exact Environment.lookup_withScope rfl
  refine block_of_ok (b := shadowingOuter unit) (n := m) hm (ha 14 (by decide)) ?_ rfl
  refine statementsAfter_of_ok (hat _) (binding_of_ok (hat _) (ha 1 (by decide)) nofun
    (literal_of_ok (hat _) (ha 0 (by decide))) rfl) ?_
  refine statementsAfter_of_ok (hat _) (binding_of_ok (hat _) (ha 7 (by decide)) nofun
    (function_of_ok (hat _) (ha 6 (by decide))) rfl) ?_
  exact statementsAfter_of_ok (hat _) (hblock _) rfl

end

end Eval

/-- The machine in which a unit starts when nothing else has been loaded. -/
def CompiledUnit.machine (unit : CompiledUnit) : Machine :=
  let (id, world) := (World.new .silent .empty).addUnit unit.program.arena
  .start world id unit.directory CallStack.defaultMaxDepth

theorem CompiledUnit.evaluates_machine (unit : CompiledUnit) :
    Machine.Evaluates unit.machine.unit unit.program.arena unit.machine :=
  ⟨rfl, rfl⟩

/-- The machine in which the program calls the function, with the variables of the top level and of the block. -/
def CompiledUnit.shadowed (unit : CompiledUnit) : Machine :=
  { unit.machine with env := (unit.machine.env.withScope (shadowingOuter unit.machine.unit)).withScope shadowingInner }

/-! ## Runs -/

/-- A node that stands where a name may not be assigned changes no variable of the name in any frame that stands open
unless a call does, or an assignment inside a record that is opened below the node, where the names in force are not
known. Only a binding of the name replaces the variable of the innermost frame. To spare the variables a call is refused
in the sparing manner; apart from that it does what the usual one does. When all units have been accepted, which is so in
every session, and none declares the name to be mutable, then no call changes a variable of the name either. A name may
not be assigned where a binding without `mut`, a parameter of a function or a loop has introduced it. A node of a unit
has a number of 32 bits. -/
theorem assignments_spare_immutable_variables (imports : Imports) (fuel : Nat) (name : String) :
    (∀ (program : Program) (o : Outlook) id held (m : Machine), program.Accepted →
      program.arena.size ≤ UInt32.size → program.StandsIn Analysis.topOutlook o id → o.Protects name → ¬ program.arena.ReassignsInside name id →
      m.Evaluates m.unit program.arena →
        let n := (((Manner.sparing name).evaluator imports.loader fuel id).runFrom held m).2
        m.Spares name (m.env.depth - 1) n ∧ (¬ program.arena.Binds name id → m.Spares name m.env.depth n)) ∧
      (∀ id, Eval.Agrees (evalWithin imports.loader fuel id)
        ((Manner.sparing name).evaluator imports.loader fuel id)) ∧
      (∀ id held (m : Machine), m.Vetted →
        let n := ((evalWithin imports.loader fuel id).runFrom held m).2
        n.Vetted ∧ ((n.world.EachUnit fun a => a.size ≤ UInt32.size ∧ ¬ a.Mutates name) →
          m.Spares name (m.env.depth - 1) n ∧
            ∀ a, m.Evaluates m.unit a → ¬ a.Binds name id → m.Spares name m.env.depth n)) ∧
      (∀ settings printer host operations outcomes s,
        (Session.new settings printer host).performAll (evalWithin · fuel) operations = .ok (outcomes, s) →
          (Machine.idle s.world).Vetted) ∧
      ∀ (program : Program) scopes id (o : Outlook), program.Accepted → program.arena.size ≤ UInt32.size →
        program.StandsIn Analysis.topOutlook (some scopes) id → program.arena.Introduces name (some scopes) id o →
          o.Protects name := by
  refine ⟨fun program o id held m haccepted hsize hstands hprotects hinside hm => ?_, ?_, fun id held m hm => ?_,
    fun settings printer host operations outcomes s h => ?_,
    fun program scopes id o haccepted hsize hstands => haccepted.protects hsize hstands⟩
  · have hreassigns : ¬ program.arena.Reassigns name id :=
      fun h => hinside (haccepted.reassignsInside hsize hstands hprotects h)
    have hnodes := Eval.SparingNodes.inManner imports name m.unit haccepted.settled fuel
    exact ⟨(hnodes.inner id hreassigns held m hm).spares trivial,
      fun hbinds => (hnodes.outer id hreassigns hbinds held m hm).spares trivial⟩
  · exact Eval.Agrees.inManner (Manner.sparing_agrees name) imports fuel
  · exact ⟨(Eval.SameWhile.evalWithin_vetted imports fuel id held m hm).1, Eval.spares_of_vetted imports fuel id held hm⟩
  · exact (Session.invariant_vetted fuel).performAll (s := .new settings printer host) (fun _ _ h => nomatch h)
      operations outcomes s h

/-- In the call the variable is spared in the sparing manner, for it is refused there; the function is spared anyway. -/
theorem shadowing_spares : ∃ c unit o,
    compile ⟨"main.blu"⟩ shadowing .entry .empty = .ok c ∧ c.result = .ok unit ∧ unit.program.Accepted ∧
      unit.program.StandsIn Analysis.topOutlook o ⟨11⟩ ∧ o.Protects "x" ∧
      unit.program.arena.size ≤ UInt32.size ∧ ¬ unit.program.arena.ReassignsInside "x" ⟨11⟩ ∧
      unit.shadowed.Spares "x" unit.shadowed.env.depth
        (((Manner.sparing "x").evaluator Loader.none 9 ⟨11⟩).runFrom [] unit.shadowed).2 ∧
      unit.machine.Vetted ∧
      unit.machine.Spares "f" unit.machine.env.depth
        ((evalWithin Loader.none 9 unit.program.body).runFrom [] unit.machine).2 := by
  obtain ⟨c, unit, hc, hu, -, hbody, hsize, hnodes, hmutates⟩ := compile_shadowing
  have haccepted := compile_accepted hc hu
  have hspare := assignments_spare_immutable_variables .unserved 9
  obtain ⟨outer, houter⟩ := unit.program.arena.past_some [⟨[⟨Analysis.hostName, none, true, false⟩]⟩] ⟨1⟩
  obtain ⟨row, hrow⟩ := unit.program.arena.past_some outer ⟨7⟩
  obtain ⟨position, hblock⟩ := Arena.kind?_eq_some.1 (hnodes 13 (by decide))
  -- The block stands after the two bindings of the top level.
  have hbelow {o : Outlook} {id : NodeId} (h : unit.program.arena.InRow (some (.empty :: row)) [⟨9⟩, ⟨11⟩, ⟨12⟩] id o) :
      unit.program.StandsIn Analysis.topOutlook o id := by
    refine ⟨_, ⟨13⟩, some row, by rw [hbody]; exact hnodes 14 (by decide), ?_, .deeper hblock (.statement h) .here⟩
    refine .later ?_
    rw [show unit.program.arena.past Analysis.topOutlook ⟨1⟩ = some outer from houter]
    refine .later ?_
    rw [hrow]
    exact .first
  have hfits : unit.program.arena.size ≤ UInt32.size := hsize ▸ by decide
  have hbinding := hbelow .first
  have hcall := hbelow (.later .first)
  have hprotects := (hspare "x").2.2.2.2 unit.program _ ⟨9⟩ _ haccepted hfits hbinding (.binding (hnodes 9 (by decide)) nofun)
  have hinside : ¬ unit.program.arena.ReassignsInside "x" ⟨11⟩ := by
    refine Arena.not_reassignsInside fun node hnode target body hopen => ?_
    obtain ⟨i, hi, rfl⟩ := Array.mem_iff_getElem.1 hnode
    have hkind := hnodes i (hi.trans_eq hsize)
    rw [Arena.kind?, Arena.get?, Array.getElem?_eq_getElem hi, Option.map_some, hopen] at hkind
    have hmem := List.mem_of_getElem? hkind.symm
    simp [shadowingNodes] at hmem
  have hno_binding : ¬ unit.program.arena.Binds "x" ⟨11⟩ := by
    rintro ⟨mode, isFinal, value, hk⟩
    cases hk.symm.trans (hnodes 11 (by decide))
  have hfirst : unit.machine.world.units = #[unit.program.arena] := rfl
  have heach {A : Arena → Prop} (h : A unit.program.arena) : unit.machine.world.EachUnit A := by
    intro i a ha
    rw [hfirst] at ha
    obtain rfl := List.mem_singleton.1 (Array.mem_toList_iff.2 (Array.mem_of_getElem? ha))
    exact h
  have hvetted : unit.machine.Vetted := heach ⟨unit.program, haccepted, rfl⟩
  have hrun := Eval.shadowing_value hnodes unit.evaluates_machine rfl rfl Loader.none []
  have hspared := ((hspare "f").2.2.1 ⟨14⟩ [] unit.machine hvetted).2 ?_
  · refine ⟨c, unit, _, hc, hu, haccepted, hcall, hprotects, hfits, hinside, ?_, hvetted, ?_⟩
    · exact ((hspare "x").1 unit.program _ ⟨11⟩ [] unit.shadowed haccepted hfits hcall hprotects hinside ⟨rfl, rfl⟩).2
        hno_binding
    · rw [hbody]
      refine hspared.2 _ unit.evaluates_machine ?_
      rintro ⟨mode, isFinal, value, hk⟩
      cases hk.symm.trans (hnodes 14 (by decide))
  · exact (congrArg (fun r => r.2.world.EachUnit fun a => a.size ≤ UInt32.size ∧ ¬ a.Mutates "f") hrun).mpr
      (heach ⟨hfits, hmutates⟩)

/-- A called function may assign to a variable of its caller that is not mutable, and that no binding has replaced. -/
theorem called_function_assigns_to_variable_of_caller : ∃ c unit,
    compile ⟨"main.blu"⟩ "let mut x = true; let f = fun() { x <- nil }; { let x = false; f(); x }" .entry .empty =
        .ok c ∧ c.result = .ok unit ∧ c.queue.toList = [] ∧
      ((evalWithin Loader.none 9 unit.program.body).runFrom [] unit.machine).1 = .ok .nil := by
  obtain ⟨c, unit, hc, hu, hqueue, hbody, -, hnodes, -⟩ := compile_shadowing
  refine ⟨c, unit, hc, hu, hqueue, ?_⟩
  rw [hbody, Eval.shadowing_value hnodes unit.evaluates_machine rfl rfl Loader.none []]

end DynScript
