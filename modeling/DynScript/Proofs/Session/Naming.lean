import DynScript.Proofs.Run.Naming
import DynScript.Proofs.Session.Assignments

/-!
# The names that evaluation leaves

In a program as the parser makes it, bindings are statements or members, and an analysis leaves them so. Statements and
members stand in frames of their own, so only where a binding itself is evaluated does the innermost frame take a name.
-/

namespace DynScript

/-- The nodes of a program as the parser has made them, or as an analysis has left them. -/
inductive Parsed.Makes (p : Parsed) : Arena → Prop
  | parsed : p.Makes p.program.arena
  | analysed {role : Role} {queue : Queue} {analysed : Analysed} (h : DynScript.analyse p.program role queue = .ok analysed) :
    p.Makes analysed.program.arena

/-- Bindings are statements or members in such a program. -/
theorem Parsed.Makes.orderly {p : Parsed} {a : Arena} (h : p.Makes a) : a.Orderly := by
  cases h with
  | parsed => exact p.laid.operands
  | @analysed role queue analysed h =>
    obtain ⟨settled, found, -, hdesugars, -, hpass⟩ := analyse_settles p.laid role
    obtain rfl := Except.ok.inj ((hpass queue).1.symm.trans h)
    exact fun q node hn c hc => hdesugars.operands p.laid hn hc

namespace Eval

variable {P : Machine → Prop} {d : Nat}

namespace Tidy

/-- Modules run in machines of their own, so an import gives no name to a frame. -/
theorem loader (imports : Imports) {eval : Evaluator} (hr : ∀ id, Restoring (eval id)) (request : ImportRequest) :
    Tidy P d (imports.loader eval request) := by
  have H : Loading fun x _ => Restoring x := Restoring.congruence.toLoading
  exact of_env (@Loading.loader _ H eval eval hr imports request) (env_loader imports eval request)

/-- Whatever is evaluated, only the innermost frame takes names. -/
theorem everywhere (imports : Imports) (fuel : Nat) (id : NodeId) :
    Tidy (fun _ => True) 1 (Manner.usual.evaluator imports.loader fuel id) := by
  have H : Calling fun x _ => Tidy (fun _ => True) 1 x := calling
  refine @Calling.evaluatorInManner _ H _ _ (Invoking.usual H.toInvoking) imports.loader imports.loader ?_
    (fun unit id => looking (.nodeIn unit id)) (fun unit id => looking (.assignee unit id)) fuel id
  intro eval _ he request
  exact loader imports (fun id => (he id).restoring) request

/-- In a unit in which bindings are statements or members, no frame takes a name while a node is evaluated that is no
binding. -/
theorem outside (imports : Imports) {unit : UnitId} {a : Arena} (ha : a.Orderly) (fuel : Nat) (id : NodeId)
    (hb : ∀ name, ¬ a.Binds name id) :
    Tidy (Machine.Evaluates unit a) 0 (Manner.usual.evaluator imports.loader fuel id) := by
  induction fuel generalizing id with
  | zero => exact throw _
  | succ fuel ih =>
    have hany := everywhere imports fuel
    refine reading fun m hm => ?_
    rw [hm.current]
    refine nodeIn fun node hn => ending (.mapFault fun _ _ _ _ => rfl) ?_
    have hkind : node.kind.isBinding = false := by
      cases hk : node.kind with
      | binding name mode isFinal value =>
        exact absurd ⟨mode, isFinal, value, Arena.kind?_eq_some.2 ⟨node.position, by rw [hn, ← hk]⟩⟩ (hb name)
      | _ => rfl
    refine nodeKind ha (fun c => ?_) (fun c hc held n hn => ?_) hn hkind (callValue hany · · _)
      (loader imports fun id => (hany id).restoring)
    · exact bind (fun _ _ _ => trivial) (still (.requireUnit ..)) fun _ => hany c
    · rw [runFrom_within hn.current]
      exact ih c hc held n hn

end Tidy

end Eval

/-- In a program as the parser makes it, before or after an analysis, the evaluation of a node that is no binding gives no
frame that stands open a name and takes none away, however it ends. A binding that succeeds gives its name to the
innermost frame, where the name has the value then; one that does not succeed gives it no name unless it is recursive,
for then the name is defined before the value is evaluated. No record ever loses a property. -/
theorem only_bindings_name (p : Parsed) {a : Arena} (ha : p.Makes a) (imports : Imports) (fuel : Nat)
    (held : List Value) {m : Machine} (hm : m.Evaluates m.unit a) (id : NodeId) :
    let run := (evalWithin imports.loader fuel id).runFrom held m
    (∀ r name, m.world.heap.has r name → run.2.world.heap.has r name) ∧
    ((∀ name, ¬ a.Binds name id) → ∀ name i, run.2.env.HasVariable name i ↔ m.env.HasVariable name i) ∧
    ∀ name mode isFinal value, a.kind? id = some (.binding name mode isFinal value) →
      (∀ other i, run.2.env.HasVariable other i ↔ m.env.HasVariable other i ∨
        other = name ∧ m.env.innermost = .locals i ∧ ((∃ v, run.1 = .ok v) ∨ mode = .recursive ∧ 0 < fuel)) ∧
      ∀ v, run.1 = .ok v → m.env.Definable m.world.heap →
        run.2.env.slot? run.2.world.heap name m.env.innermost = some (m.env.innermost.keeps v) := by
  intro run
  have hshielding (fuel : Nat) (id : NodeId) : Eval.Shielding (evalWithin imports.loader fuel id) := by
    rw [← Manner.evaluator_usual]
    exact .evaluator (Eval.Invoking.usual Eval.Shielding.loading.toInvoking) imports fuel id
  have htidy (fuel : Nat) (id : NodeId) (hb : ∀ name, ¬ a.Binds name id) :
      Eval.Tidy (Machine.Evaluates m.unit a) 0 (evalWithin imports.loader fuel id) := by
    rw [← Manner.evaluator_usual]
    exact .outside imports ha.orderly fuel id hb
  have hshields : m.Shields run.2 := hshielding fuel id held m
  refine ⟨fun r name => hshields.heap.has r name, fun hb name i => ?_, fun name mode isFinal value hk => ?_⟩
  · exact (htidy fuel id hb held m hm).hasVariable_iff hshields.env name i
  · cases fuel with
    | zero =>
      have hstarved : run = (.error (.stuck .outOfFuel), m) := rfl
      rw [hstarved]
      exact ⟨fun other i => by simp, fun v hv => nomatch hv⟩
    | succ fuel =>
      obtain ⟨position, hn⟩ := Arena.kind?_eq_some.1 hk
      have hrun : run = (Eval.locating position
          (Eval.binding (Eval.within m.unit (evalWithin imports.loader fuel)) name mode value)).runFrom held m := by
        refine (Eval.runFrom_nodeStep ..).trans ?_
        rw [hm.node?, hn]
        rfl
      -- The value stands in the binding alone, so it is no binding itself.
      have hvalue := htidy fuel value (ha.orderly.not_binds hn (List.mem_singleton_self _))
      have hwithin : Eval.Tidy (Machine.Evaluates m.unit a) 0
          (Eval.within m.unit (evalWithin imports.loader fuel) value) := by
        intro held n hn
        rw [Eval.runFrom_within hn.current]
        exact hvalue held n hn
      have hshields : Eval.Shielding (Eval.within m.unit (evalWithin imports.loader fuel) value) :=
        .bind (.still (.requireUnit ..)) fun _ => hshielding fuel value
      obtain ⟨hmachine, hresult⟩ := Eval.runFrom_locating_iff position
        (Eval.binding (Eval.within m.unit (evalWithin imports.loader fuel)) name mode value) held m
      obtain ⟨hnames, hslot⟩ := Eval.runFrom_binding hshields hwithin hm name mode held
      rw [hrun, hmachine]
      simp only [hresult, Nat.zero_lt_succ, and_true]
      exact ⟨hnames, hslot⟩

/-- In a scope of its own the first binding of the program names a variable, and the block in it names nothing outside of
itself. -/
theorem shadowing_names : ∃ (p : Parsed) (unit : CompiledUnit) (m n : Machine), p.Makes unit.program.arena ∧
    m.Evaluates m.unit unit.program.arena ∧ (evalWithin Imports.unserved.loader 9 ⟨1⟩).runFrom [] m = (.ok (.bool true), n) ∧
    (∀ name i, n.env.HasVariable name i ↔ m.env.HasVariable name i ∨ name = "x" ∧ m.env.innermost = .locals i) ∧
    n.env.slot? n.world.heap "x" m.env.innermost = some (m.env.innermost.keeps (.bool true)) ∧
    ∀ name i, ((evalWithin Imports.unserved.loader 9 ⟨13⟩).runFrom [] m).2.env.HasVariable name i ↔ m.env.HasVariable name i := by
  obtain ⟨c, unit, hc, hu, -, -, -, hnodes, -⟩ := compile_shadowing
  obtain ⟨p, analysed, hanalyse, -, hprogram⟩ := analysed_of_compile hc hu
  have hmakes : p.Makes unit.program.arena := hprogram ▸ .analysed hanalyse
  obtain ⟨m, hm, henv⟩ : ∃ m : Machine, m.Evaluates m.unit unit.program.arena ∧
      m.env = unit.machine.env.withScope .empty :=
    ⟨{ unit.machine with env := unit.machine.env.withScope .empty }, ⟨rfl, unit.evaluates_machine.nodes⟩, rfl⟩
  have hbinding := hnodes 1 (by decide)
  obtain ⟨n, hrun⟩ : ∃ n, (evalWithin Imports.unserved.loader 9 ⟨1⟩).runFrom [] m = (.ok (.bool true), n) :=
    ⟨_, Eval.binding_of_ok hm hbinding nofun (Eval.literal_of_ok hm (hnodes 0 (by decide))) henv⟩
  have hdefinable : m.env.Definable m.world.heap := by
    intro r hr
    have hinnermost : (unit.machine.env.withScope .empty).innermost = .locals unit.machine.env.depth :=
      Environment.innermost_withScope
    rw [← henv, Environment.innermost, hr] at hinnermost
    cases hinnermost
  have hblock (name : String) : ¬ unit.program.arena.Binds name ⟨13⟩ := by
    rintro ⟨mode, isFinal, value, hk⟩
    cases hk.symm.trans (hnodes 13 (by decide))
  have hnaming := only_bindings_name p hmakes .unserved 9 [] hm
  obtain ⟨hnames, hslot⟩ := (hnaming ⟨1⟩).2.2 "x" .mutable false ⟨0⟩ hbinding
  rw [hrun] at hnames hslot
  refine ⟨p, unit, m, n, hmakes, hm, hrun, fun name i => (hnames name i).trans (by simp), ?_, ?_⟩
  · exact hslot _ rfl hdefinable
  · exact (hnaming ⟨13⟩).2.1 hblock

end DynScript
