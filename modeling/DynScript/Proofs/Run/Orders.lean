import DynScript.Proofs.Run.Manners
import DynScript.Proofs.Run.Steps
import DynScript.Proofs.Value.Orders

/-!
# Evaluation in any order

Evaluation goes through the properties of a record when it copies them into another record, when it clones the record
and when it writes its text, for a line that is printed or for a backtrace; and it goes through the exports of a module
when it makes a record of them. `Orders` tell in which order this is done, from all that is known where it is done.
`Orders.Runs` are the runs in which each evaluation of a node has orders of its own, and they end like the usual one.
-/

namespace DynScript

/-- The ways in which bindings are gone through in one step, by the values that are held and the machine. -/
abbrev Orders : Type := List Value → Machine → Enumeration

namespace Orders

variable (o : Orders) {α : Type}

/-! ## Enumerations -/

/-- Go through bindings, at a place of the step. -/
def enumerate (place : List Nat) (b : Bindings) : Eval (List (String × Value)) :=
  return (o (← read) (← get)).entries place b

/-- Copy the properties of a record into another one. -/
def merge (place : List Nat) (r from_ : RecordId) : Eval Unit := do
  let entries ← o.enumerate place ((← Eval.heap).properties from_)
  Eval.modifyHeap fun h => h.setAll r entries

/-- Make a copy of a record. -/
def shallowClone (r : RecordId) : Eval RecordId := do
  let entries ← o.enumerate [] ((← Eval.heap).properties r)
  Eval.onHeap fun h => h.shallowCloneBy r entries

/-- Make a record of the exports of a unit. -/
def exported (exports : Bindings) : Eval RecordId := do
  let entries ← o.enumerate [] exports
  Eval.onHeap fun h => h.ofEntries entries

/-- The text of a value, at a place of the step. -/
def text (place : List Nat) (v : Value) : Eval String :=
  return (← Eval.heap).textBy (o (← read) (← get)) place v

/-- Make a step as a call. -/
def inCall (frame : CallFrame) (x : Eval α) : Eval α := do
  if let some cause := (← get).calls.refusal? then Eval.fail cause
  modify fun m => { m with calls := m.calls.enter frame }
  let held ← read
  Eval.afterwards (fun m => { m with calls := m.calls.pop })
    (Eval.mapFault (fun m fault => m.calls.attachBacktraceBy m.world.heap (o held m) fault) x)

theorem merge_eq (place : List Nat) (r from_ : RecordId) :
    o.merge place r from_ = Eval.modifyHeap fun h => h.setAll r (h.properties from_).entries := by
  refine Eval.ext_runFrom fun held m => ?_
  have hset := m.world.heap.setAll_of_perm r ((o held m).perm place (m.world.heap.properties from_))
  exact congrArg (fun heap => ((.ok (), { m with world := { m.world with heap } }) :
    Except Interruption Unit × Machine)) hset

theorem shallowClone_eq (r : RecordId) : o.shallowClone r = Eval.onHeap fun h => h.shallowClone r := by
  refine Eval.ext_runFrom fun held m => ?_
  have hclone := m.world.heap.shallowCloneBy_of_perm r ((o held m).perm [] (m.world.heap.properties r))
  exact congrArg (fun made => ((.ok made.1, { m with world := { m.world with heap := made.2 } }) :
    Except Interruption RecordId × Machine)) hclone

theorem exported_eq (exports : Bindings) : o.exported exports = Eval.onHeap fun h => h.ofEntries exports.entries := by
  refine Eval.ext_runFrom fun held m => ?_
  have hmade := m.world.heap.ofEntries_of_perm ((o held m).perm [] exports)
  exact congrArg (fun made => ((.ok made.1, { m with world := { m.world with heap := made.2 } }) :
    Except Interruption RecordId × Machine)) hmade

theorem text_eq (place : List Nat) (v : Value) : o.text place v = (return (← Eval.heap).text v) :=
  Eval.ext_runFrom fun held m => congrArg (fun text => ((.ok text, m) : Except Interruption String × Machine))
    (m.world.heap.textBy_eq (o held m) place v)

theorem inCall_eq (frame : CallFrame) (x : Eval α) : o.inCall frame x = Eval.inCall frame x := by
  simp only [inCall, Eval.inCall, CallStack.attachBacktraceBy_eq]
  rfl

/-- The usual manner, except that bindings are gone through in these orders. -/
def manner : Manner :=
  { Manner.usual with
    merge := o.merge
    copy := o.shallowClone
    text := o.text
    inCall := o.inCall
    exported := o.exported }

/-- In whatever orders it is, the manner is the usual one. -/
theorem manner_eq : o.manner = .usual := by
  have hmerge : o.merge = Manner.usual.merge := funext fun place => funext fun r => funext (o.merge_eq place r)
  have hcopy : o.shallowClone = Manner.usual.copy := funext o.shallowClone_eq
  have htext : o.text = Manner.usual.text := funext fun place => funext (o.text_eq place)
  have hcall : o.inCall = Manner.usual.inCall := funext fun frame => funext (o.inCall_eq frame)
  have hexported : o.exported = Manner.usual.exported := funext o.exported_eq
  rw [manner, hmerge, hcopy, htext, hcall, hexported]

/-! ## Runs -/

/-- The runs of nodes, when steps nest no deeper than a bound: each step goes through bindings in orders of its own, and
the steps below it are runs in other orders, which are chosen anew each time. -/
inductive Runs (settings : Settings) (roots : Option SearchRoots) :
    Nat → NodeId → List Value → Machine → Except Interruption Value × Machine → Prop where
  /-- The bound is reached. -/
  | outOfFuel (id : NodeId) (held : List Value) (m : Machine) :
      Runs settings roots 0 id held m (.error (.stuck .outOfFuel), m)
  /-- A step. -/
  | step {fuel : Nat} (o : Orders) (eval : Evaluator)
      (below : ∀ id held m, Runs settings roots fuel id held m ((eval id).runFrom held m))
      (id : NodeId) (held : List Value) (m : Machine) :
      Runs settings roots (fuel + 1) id held m ((o.manner.nodeStep (o.manner.loader settings roots) eval id).runFrom held m)

variable {settings : Settings} {roots : Option SearchRoots} {fuel : Nat}

/-- A run in any orders ends like the usual one. -/
theorem Runs.eq {id : NodeId} {held : List Value} {m : Machine} {result : Except Interruption Value × Machine}
    (h : Runs settings roots fuel id held m result) :
    result = (evalWithin (.ofSession settings roots) fuel id).runFrom held m := by
  induction h with
  | outOfFuel => rfl
  | step o eval below id held m ih =>
    have heval : eval = evalWithin (.ofSession settings roots) _ := funext fun id => Eval.ext_runFrom (ih id)
    rw [manner_eq, Manner.nodeStep_usual, Manner.loader_usual, heval]
    rfl

/-- The order in which bindings are kept. -/
def usual : Orders := fun _ _ => ⟨fun _ b => b.entries, fun _ _ => .refl _⟩

/-- What the usual run ends with is what some run ends with. -/
theorem Runs.usual (settings : Settings) (roots : Option SearchRoots) (fuel : Nat) (id : NodeId) (held : List Value)
    (m : Machine) :
    Runs settings roots fuel id held m ((evalWithin (.ofSession settings roots) fuel id).runFrom held m) := by
  induction fuel generalizing id held m with
  | zero => exact .outOfFuel id held m
  | succ fuel ih =>
    have hstep := Runs.step Orders.usual (evalWithin (.ofSession settings roots) fuel) ih id held m
    rw [manner_eq, Manner.nodeStep_usual, Manner.loader_usual] at hstep
    exact hstep

end Orders

end DynScript
