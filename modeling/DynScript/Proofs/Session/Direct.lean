import DynScript.Proofs.Analysis.Direct
import DynScript.Proofs.Run.Direct

/-!
# A program with pipes and the direct program

Where analysis finds no pipe into anything but a call, a program with pipes and the direct program cannot be
told apart: the same is found in both, and with enough fuel both run in the same way.
-/

namespace DynScript

/-! ## Plays -/

/-- What is seen of a program. -/
structure Play where
  /-- The exports and what `main` comes to, or the fault that the program ends in. -/
  run : Except Fault (Bindings × Option Value)
  /-- What comes of later calls. -/
  calls : List (Except Fault Value)

namespace Eval

variable {α : Type}

/-- Run a unit, and then its `main` if it is an entry unit. -/
def runAs (role : Role) (eval : Evaluator) (bodyId : NodeId) : Eval (Bindings × Option Value) := do
  let exports ← runUnit eval bodyId
  match role with
  | .entry => return (exports, ← invokeMain eval)
  | .module => return (exports, none)

/-- Call values one after the other, whatever comes of it. -/
def callEach (eval : Evaluator) : List (Value × List Value) → Eval (List (Except Fault Value))
  | [] => pure []
  | (callee, args) :: rest => do
    let result ← attempt (callValue eval callee args none)
    return result :: (← callEach eval rest)

/-- Run a unit and call values afterwards. -/
def play (role : Role) (bodyId : NodeId) (calls : List (Value × List Value)) (eval : Evaluator) :
    Eval Play := do
  let run ← attempt (runAs role eval bodyId)
  return ⟨run, ← callEach eval calls⟩

end Eval

namespace Manner

variable (M : Manner)

/-- Run a unit, and then its `main` if it is an entry unit. -/
def runAs (role : Role) (eval : Evaluator) (bodyId : NodeId) : Eval (Bindings × Option Value) := do
  let exports ← Eval.runUnit eval bodyId
  match role with
  | .entry => return (exports, ← M.invokeMain eval)
  | .module => return (exports, none)

/-- Call values one after the other, whatever comes of it. -/
def callEach (eval : Evaluator) : List (Value × List Value) → Eval (List (Except Fault Value))
  | [] => pure []
  | (callee, args) :: rest => do
    let result ← Eval.attempt (M.callValue eval callee args none)
    return result :: (← callEach eval rest)

/-- Run a unit and call values afterwards. -/
def play (role : Role) (bodyId : NodeId) (calls : List (Value × List Value)) (eval : Evaluator) : Eval Play := do
  let run ← Eval.attempt (M.runAs role eval bodyId)
  return ⟨run, ← M.callEach eval calls⟩

theorem callEach_usual (eval : Evaluator) (calls : List (Value × List Value)) :
    usual.callEach eval calls = Eval.callEach eval calls := by
  induction calls with
  | nil => rfl
  | cons call rest ih =>
    rw [callEach, callValue_usual, ih]
    rfl

theorem play_usual (role : Role) (bodyId : NodeId) (calls : List (Value × List Value)) (eval : Evaluator) :
    usual.play role bodyId calls eval = Eval.play role bodyId calls eval := by
  rw [play, callEach_usual]
  rfl

end Manner

namespace Eval

variable {α : Type}

/-- With enough fuel for the evaluation of nodes a step does this. -/
def Finishes (imports : Imports) (x : Evaluator → Eval α) (held : List Value) (m : Machine)
    (result : Except Interruption α × Machine) : Prop :=
  result.1 ≠ .error (.stuck .outOfFuel) ∧
    ∃ fuel, (x (evalWithin imports.loader fuel)).runFrom held m = result

/-- In two manners a unit is run alike by related evaluations. -/
theorem Calling.runAsInManner {T : ∀ {α : Type}, Eval α → Eval α → Prop} (H : Calling @T) {eval eval' : Evaluator}
    (he : ∀ id, T (eval id) (eval' id)) {M M' : Manner} (hM : Alike @T M M') (role : Role) (bodyId : NodeId) :
    T (M.runAs role eval bodyId) (M'.runAs role eval' bodyId) := by
  refine H.bind (H.runUnit he bodyId) fun exports => ?_
  cases role with
  | entry => exact H.bind (H.invokeMainInManner he hM) fun _ => H.still (.pure _)
  | module => exact H.still (.pure _)

/-- A unit is run alike by related evaluations. -/
theorem Calling.runAs {T : ∀ {α : Type}, Eval α → Eval α → Prop} (H : Calling @T) {eval eval' : Evaluator}
    (he : ∀ id, T (eval id) (eval' id)) (role : Role) (bodyId : NodeId) :
    T (runAs role eval bodyId) (Eval.runAs role eval' bodyId) :=
  H.runAsInManner he H.usual role bodyId

namespace Loading

variable {T : ∀ {α : Type}, Eval α → Eval α → Prop} (H : Loading @T) {eval eval' : Evaluator}
  (he : ∀ id, T (eval id) (eval' id)) {M M' : Manner} (hM : Alike @T M M')
include H he hM

theorem callEachInManner (calls : List (Value × List Value)) : T (M.callEach eval calls) (M'.callEach eval' calls) := by
  induction calls with
  | nil => exact H.still (.pure _)
  | cons call rest ih =>
    refine H.bind (H.ending .attempt (H.callInManner he hM ..)) fun _ => ?_
    exact H.bind ih fun _ => H.still (.pure _)

theorem playInManner (role : Role) (bodyId : NodeId) (calls : List (Value × List Value)) :
    T (M.play role bodyId calls eval) (M'.play role bodyId calls eval') := by
  refine H.bind (H.ending .attempt (H.runAsInManner he hM ..)) fun _ => ?_
  exact H.bind (H.callEachInManner he hM _) fun _ => H.still (.pure _)

omit hM in
theorem play (role : Role) (bodyId : NodeId) (calls : List (Value × List Value)) :
    T (play role bodyId calls eval) (play role bodyId calls eval') := by
  rw [← Manner.play_usual, ← Manner.play_usual]
  exact H.playInManner he H.usual role bodyId calls

end Loading

/-- Steps that follow each other finish in the same way, apart from the units. -/
theorem Finishes.of_follows {R : Array Arena → Array Arena → Prop} {b : Array Arena × Array Arena}
    {imports : Imports} {x : Evaluator → Eval α} {f : Nat → Nat}
    (h : ∀ fuel, Follows R b (x (evalWithin imports.loader fuel)) (x (evalWithin imports.loader (f fuel))))
    {held : List Value} {m : Machine} {V : Array Arena} (hc : Coupled R b m.world.units V)
    {result : Except Interruption α} {n : Machine} (hx : Finishes imports x held m (result, n)) :
    ∃ units, Finishes imports x held (m.withUnits V) (result, n.withUnits units) := by
  obtain ⟨hne, fuel, hx⟩ := hx
  rcases h fuel held m V hc with hout | ⟨V', -, hy⟩
  · rw [hx] at hout
    exact absurd hout hne
  · rw [hx] at hy
    exact ⟨V', hne, f fuel, hy⟩

end Eval

/-- A machine for a program, before it runs. -/
def Program.machine (program : Program) (world : World) (directory : Path) (maxDepth : Nat) : Machine :=
  Machine.start (world.addUnit program.arena).2 (world.addUnit program.arena).1 directory maxDepth

/-- For every parsed program, unless analysis finds a pipe into something that is not a call: analysing the
direct program finds the same diagnostics in the same order, and the analysed program and the direct program
run in the same way. The exports, what `main` comes to, the fault with its place and backtrace, what comes of
calling values afterwards, and all that the machine holds in the end, what was printed included, are the same
but for the nodes. -/
theorem pipes_are_calls (p : Parsed) (role : Role) : ∃ settled found,
    (∀ queue, analyse p.program role queue = .ok ⟨settled, queue.pushAll found, found.errors⟩) ∧
      (found.Has .pipeIntoNonCall ∨
        (∀ queue, analyse p.program.direct role queue =
          .ok ⟨p.program.direct, queue.pushAll found, found.errors⟩) ∧
        ∀ imports world directory maxDepth calls held result (m : Machine),
          (∃ units, Eval.Finishes imports (Eval.play role settled.body calls) held
            (settled.machine world directory maxDepth) (result, m.withUnits units)) ↔
          ∃ units, Eval.Finishes imports (Eval.play role p.program.direct.body calls) held
            (p.program.direct.machine world directory maxDepth) (result, m.withUnits units)) := by
  obtain ⟨settled, found, hforest, hdesugars, hvetted, hpass⟩ := analyse_settles p.laid role
  refine ⟨⟨settled, p.program.body⟩, found, fun queue => (hpass queue).1, ?_⟩
  refine (em (found.Has .pipeIntoNonCall)).imp id fun hno => ?_
  have hall (q lhs rhs : NodeId) : settled.kind? q ≠ some (.pipe lhs rhs false) := by
    intro hq
    obtain ⟨position, hn⟩ := Arena.kind?_eq_some.1 hq
    exact hno (hvetted hno q (Arena.lt_size_of_get? hn) _ hn .pipeIntoNonCall (by simp [NodeKind.owed]))
  have hbody : (⟨settled, p.program.body⟩ : Program).body = p.program.body := rfl
  refine ⟨fun queue => analyse_direct p.laid hforest hbody hdesugars hall
    (hpass queue).2, fun imports world directory maxDepth calls held result m => ?_⟩
  have hsize : p.program.arena.direct.size = settled.size := by
    rw [Arena.size_direct, hdesugars.outline.size_eq]
  have hunits : Unpiping settled.size (world.units.push settled)
      (world.units.push p.program.arena.direct) := by
    refine (Unpiping.refl _ _).push (Arena.unpiped_direct p.laid hforest hdesugars hall) fun id => ?_
    rcases lt_or_ge id.index settled.size with hlt | hge
    · exact .inr hlt
    · exact .inl (by rw [Arena.get?_eq_none hge, Arena.get?_eq_none (hsize ▸ hge)])
  constructor
  · rintro ⟨units, hx⟩
    exact hx.of_follows (R := Unpiping settled.size) (b := (#[], #[])) (f := id)
      (fun fuel => (Eval.Follows.congruence (Unpiping.coupling _)).play
        (Eval.direct_follows imports fuel _) role p.program.body calls)
      (V := world.units.push p.program.arena.direct) ⟨hunits, by simp, by simp⟩
  · rintro ⟨units, hx⟩
    exact hx.of_follows (R := fun U V => Unpiping settled.size V U) (b := (#[], #[]))
      (fun fuel => (Eval.Follows.congruence (Unpiping.coupling_flip _)).play
        (Eval.piped_follows imports fuel _) role p.program.body calls)
      (V := world.units.push settled) ⟨hunits, by simp, by simp⟩

end DynScript
