import DynScript.Proofs.Run.Orders
import DynScript.Proofs.Session.Steps

/-!
# Sessions in any order

`Session.performAllIn` carries out operations, each of them with a `Choice` of the orders in which evaluation goes
through properties and exports. The evaluation of a node may choose anew for every node, for all that is held and for
every machine. There are no other choices: an enumeration leaves a record, a line or a fault behind, and none of them
is ever taken back, so no two enumerations of a run whose lines are kept meet the same machine.

How often a record is referred to is a number, which is the same however its properties are gone through.
-/

namespace DynScript

/-- The orders in which bindings are gone through during an operation. -/
structure Orders.Choice (fuel : Nat) where
  /-- The orders of what the operation does itself. -/
  own : Orders
  /-- The evaluation of nodes. -/
  eval : Settings → Option SearchRoots → Evaluator
  /-- Each evaluation of a node has orders of its own. -/
  runs : ∀ settings roots id held m,
    Orders.Runs settings roots fuel id held m ((eval settings roots id).runFrom held m)

theorem Orders.Choice.eval_eq {fuel : Nat} (c : Orders.Choice fuel) (settings : Settings)
    (roots : Option SearchRoots) : c.eval settings roots = evalWithin (.ofSession settings roots) fuel :=
  funext fun id => Eval.ext_runFrom fun held m => (c.runs settings roots id held m).eq

/-- An operation in these orders. -/
def Orders.Choice.conduct {fuel : Nat} (c : Orders.Choice fuel) : Session.Conduct := ⟨c.own.manner, c.eval⟩

theorem Orders.Choice.conduct_eq {fuel : Nat} (c : Orders.Choice fuel) :
    c.conduct = .evaluating (evalWithin · fuel) := by
  have heval : c.eval = fun settings roots => evalWithin (.ofSession settings roots) fuel :=
    funext fun settings => funext (c.eval_eq settings)
  rw [conduct, c.own.manner_eq, heval]
  rfl

namespace Session

/-- Carry out operations one after the other, each in orders of its own. -/
def performAllIn {fuel : Nat} (s : Session) (steps : List (Operation × Orders.Choice fuel)) :
    Except Stuck (List Outcome × Session) :=
  s.performAllAs (steps.map fun step => (step.1, step.2.conduct))

/-- One operation after the other comes to the same. -/
theorem performAllIn_eq {fuel : Nat} (steps : List (Operation × Orders.Choice fuel)) (s : Session) :
    s.performAllIn steps = s.performAll (evalWithin · fuel) (steps.map Prod.fst) := by
  rw [← performAllAs_evaluating, performAllIn, List.map_map]
  refine congrArg s.performAllAs (List.map_congr_left fun step _ => ?_)
  rw [step.2.conduct_eq]
  rfl

end Session

/-- Whatever happens in a session, it comes to the same in all orders in which the properties of records and the
exports of units are gone through, chosen anew in each evaluation of a node: the same outcomes with the same values,
faults and backtraces, and the same world with all that has been printed, all records and all modules.

A node that is evaluated with whatever held on whatever machine ends in one way only, with one value or one fault and
one machine, and a value has the same text in all orders in which the properties of the records inside it are gone
through. -/
theorem enumeration_order_is_unobservable (settings : Settings) (printer : Printer) (host : Host) (fuel : Nat)
    (steps : List (Session.Operation × Orders.Choice fuel)) :
    (Session.new settings printer host).performAllIn steps =
        (Session.new settings printer host).performAll (evalWithin · fuel) (steps.map Prod.fst) ∧
      (∀ roots id held m result, Orders.Runs settings roots fuel id held m result ↔
        result = (evalWithin (.ofSession settings roots) fuel id).runFrom held m) ∧
      ∀ (heap : Heap) (e : Enumeration) place v, heap.textBy e place v = heap.text v := by
  refine ⟨Session.performAllIn_eq steps _, fun roots id held m result => ⟨Orders.Runs.eq, ?_⟩, Heap.textBy_eq⟩
  rintro rfl
  exact Orders.Runs.usual settings roots fuel id held m

end DynScript
