import DynScript.Proofs.Run.Composing
import DynScript.Proofs.Run.Values
import DynScript.Proofs.Session.Receivers

/-!
# Records and their copies

Whatever is done to records, by the host or by a program, functions in records point back. A copy of a record, made by a
`clone` expression or by calling a record that is no class, has what the record has, and what happens to one of them
afterwards does not show in the other.
-/

namespace DynScript

/-- What the host can do to the records of a heap. -/
inductive RecordOperation where
  /-- A record without properties is made. -/
  | newRecord
  /-- A class is made. -/
  | newClass (template : Template)
  /-- A record is made that has a parent. -/
  | newInstance (parent : RecordId)
  /-- A record with given properties is made. -/
  | ofEntries (entries : List (String × Value))
  /-- A property is given a value. -/
  | set (r : RecordId) (name : String) (value : Value)
  /-- A record is copied. -/
  | shallowClone (r : RecordId)

namespace Heap

/-- The records after an operation. -/
def after (h : Heap) : RecordOperation → Heap
  | .newRecord => h.newRecord.2
  | .newClass template => (h.newClass template).2
  | .newInstance parent => (h.newInstance parent).2
  | .ofEntries entries => (h.ofEntries entries).2
  | .set r name value => h.set r name value
  | .shallowClone r => (h.shallowClone r).2

theorem PointsBack.after {h : Heap} (hh : h.PointsBack) (operation : RecordOperation) : (h.after operation).PointsBack := by
  cases operation with
  | newRecord => exact hh.newRecord
  | newClass template => exact hh.newClass template
  | newInstance parent => exact hh.newInstance parent
  | ofEntries entries => exact hh.ofEntries entries
  | set r name value => exact hh.set r name value
  | shallowClone r => exact hh.shallowClone r

end Heap

/-- What can happen to a machine: an operation on its records, the evaluation of a node, a call, or the start of another
unit in its world. -/
inductive Machine.Moves : Machine → Machine → Prop
  | record (m : Machine) (operation : RecordOperation) : Moves m (m.withHeap (m.world.heap.after operation))
  | node (m : Machine) (imports : Imports) (fuel : Nat) (id : NodeId) (held : List Value) :
    Moves m ((evalWithin imports.loader fuel id).runFrom held m).2
  | call (m : Machine) (imports : Imports) (fuel : Nat) (callee : Value) (args : List Value)
    (callSite : Option Position) (held : List Value) :
    Moves m ((Eval.callValue (evalWithin imports.loader fuel) callee args callSite).runFrom held m).2
  | unit (m : Machine) (unit : UnitId) (directory : Path) (maxDepth : Nat) :
    Moves m (.start m.world unit directory maxDepth)

namespace Machine

variable {m n : Machine}

/-- Functions in records go on to point back. -/
theorem Moves.pointsBack (h : m.Moves n) (hm : m.PointsBack) : n.PointsBack := by
  cases h with
  | record operation => exact Heap.PointsBack.after hm operation
  | node imports fuel id held => exact (Eval.SameWhile.keepingNodes imports fuel id held m hm).1
  | call imports fuel callee args callSite held =>
    have H : Eval.Calling fun x y => Eval.SameWhile PointsBack x y := Eval.SameWhile.loading.toCalling
    have hcall := @Eval.Calling.callInManner _ H _ _ (Eval.SameWhile.keepingNodes imports fuel) _ _ Manner.keeping_same
      callee args callSite
    rw [← Manner.callValue_usual]
    exact (hcall held m hm).1
  | unit unit directory maxDepth => exact pointsBack_start hm unit directory maxDepth

theorem pointsBack_of_moves (h : Relation.ReflTransGen Moves m n) (hm : m.PointsBack) : n.PointsBack := by
  induction h with
  | refl => exact hm
  | tail _ hmove ih => exact hmove.pointsBack ih

end Machine

namespace Eval

variable {m n : Machine} {held : List Value} {r : RecordId} {a : Arena} {id : NodeId}

/-- A record that is no class is copied when it is called. -/
theorem runFrom_callRecord {eval : Evaluator} (ht : m.world.heap.template? r = none) (callSite : Option Position)
    (held : List Value) :
    (callRecord eval r [] callSite).runFrom held m =
      (.ok (.record (m.world.heap.shallowClone r).1), m.withHeap (m.world.heap.shallowClone r).2) := by
  rw [callRecord, runFrom_bind, runFrom_heap]
  dsimp only
  rw [ht]
  rfl

/-- A `clone` expression. -/
theorem clone_of_ok {load : Loader} {eval : Evaluator} {operand : NodeId} (hm : m.Evaluates m.unit a)
    (hk : a.kind? id = some (.clone operand)) (hv : (eval operand).runFrom held m = (.ok (.record r), n)) :
    (nodeStep load eval id).runFrom held m =
      (.ok (.record (n.world.heap.shallowClone r).1), n.withHeap (n.world.heap.shallowClone r).2) := by
  refine nodeStep_of_ok hm hk fun position => ?_
  have hoperand : (within m.unit eval operand).runFrom held m = (.ok (.record r), n) := (runFrom_within rfl).trans hv
  show (within m.unit eval operand >>= clone).runFrom held m = _
  rw [bind_of_ok hoperand]
  rfl

/-- A call without arguments of a record that is no class. -/
theorem copy_of_ok {load : Loader} {eval : Evaluator} {callee : NodeId} (hm : m.Evaluates m.unit a)
    (hk : a.kind? id = some (.call callee [])) (hv : (eval callee).runFrom held m = (.ok (.record r), n))
    (ht : n.world.heap.template? r = none) :
    (nodeStep load eval id).runFrom held m =
      (.ok (.record (n.world.heap.shallowClone r).1), n.withHeap (n.world.heap.shallowClone r).2) := by
  refine nodeStep_of_ok hm hk fun position => ?_
  have hcallee : (within m.unit eval callee).runFrom held m = (.ok (.record r), n) := (runFrom_within rfl).trans hv
  show (call (within m.unit eval) eval callee [] position).runFrom held m = _
  rw [call, bind_of_ok hcallee]
  exact runFrom_callRecord ht position _

end Eval

/-- In every state that operations on records and evaluations lead to, a function that is a property of a record points
back at this record, and so it is in every session. Where a record is cloned, and where one that is no class is called,
the value is a new record with the same names, template and parent and with the same values, except that functions point
at it. From then on setting properties of the record or of its copy changes nothing that the other one has. -/
theorem functions_point_back_and_copies_stand_apart :
    (∀ m n : Machine, m.world.heap = .empty → Relation.ReflTransGen Machine.Moves m n → n.PointsBack) ∧
    (∀ settings printer host fuel operations outcomes s,
      (Session.new settings printer host).performAll (evalWithin · fuel) operations = .ok (outcomes, s) →
        s.world.heap.PointsBack) ∧
    ∀ (h : Heap) (r : RecordId), r.index < h.size →
      h.IsCopy r (h.shallowClone r).1 (h.shallowClone r).2 ∧
      (∀ (m n : Machine) (a : Arena) held id operand load fuel, n.world.heap = h → m.Evaluates m.unit a →
        (evalWithin load fuel operand).runFrom held m = (.ok (.record r), n) →
        a.kind? id = some (.clone operand) ∨ a.kind? id = some (.call operand []) ∧ h.template? r = none →
          (evalWithin load (fuel + 1) id).runFrom held m =
            (.ok (.record (h.shallowClone r).1), n.withHeap (h.shallowClone r).2)) ∧
      (∀ (m : Machine) held eval callSite, m.world.heap = h → h.template? r = none →
        (Eval.callValue eval (.record r) [] callSite).runFrom held m =
          (.ok (.record (h.shallowClone r).1), m.withHeap (h.shallowClone r).2)) ∧
      ∀ (later : Heap) entries name,
        (later.setAll r entries).property? (h.shallowClone r).1 name = later.property? (h.shallowClone r).1 name ∧
        (later.setAll (h.shallowClone r).1 entries).property? r name = later.property? r name := by
  refine ⟨fun m n hempty hmoves => ?_, fun settings printer host fuel operations outcomes s h => ?_, fun h r hr => ?_⟩
  · refine Machine.pointsBack_of_moves hmoves ?_
    unfold Machine.PointsBack
    rw [hempty]
    exact Heap.pointsBack_empty
  · exact (Session.invariant_pointsBack fuel).performAll (s := .new settings printer host) Heap.pointsBack_empty
      operations outcomes s h
  · have hcopy := Heap.isCopy_shallowClone hr
    have hne := hcopy.ne hr
    refine ⟨hcopy, ?_, ?_, fun later entries name => ?_⟩
    · rintro m n a held id operand load fuel rfl hm hv (hk | ⟨hk, ht⟩)
      · exact Eval.clone_of_ok hm hk hv
      · exact Eval.copy_of_ok hm hk hv ht
    · rintro m held eval callSite rfl ht
      exact Eval.runFrom_callRecord ht callSite _
    · exact ⟨Heap.property?_setAll_of_ne hne entries name, Heap.property?_setAll_of_ne hne.symm entries name⟩

/-- A record with a function is copied by a call and in a `clone` expression: the function in the copy points at the copy,
and when it is replaced there the record keeps its own. -/
theorem copied_function_points_at_copy :
    let f := Function.ofNode ⟨0⟩ ⟨0⟩
    let start := Machine.idle ((World.new .silent .empty).addUnit ⟨#[⟨.ident "r", none⟩, ⟨.clone ⟨0⟩, none⟩]⟩).2
    let h := Heap.empty.after (.ofEntries [("f", .function f)])
    let m := { start.withHeap h with env := start.env.withScope (Bindings.empty.set "r" (.record ⟨0⟩)) }
    let copied := (h.shallowClone ⟨0⟩).2
    (start.withHeap h).PointsBack ∧ (Session.new .standard .silent .empty).world.heap.PointsBack ∧
      (Eval.callValue (evalWithin Loader.none 9) (.record ⟨0⟩) [] none).runFrom [] m =
        (.ok (.record ⟨1⟩), m.withHeap copied) ∧
      (evalWithin Loader.none 9 ⟨1⟩).runFrom [] m = (.ok (.record ⟨1⟩), m.withHeap copied) ∧
      copied.property? ⟨1⟩ "f" = some (.function (f.boundTo ⟨1⟩)) ∧
      (copied.setAll ⟨1⟩ [("f", .nil)]).property? ⟨0⟩ "f" = some (.function (f.boundTo ⟨0⟩)) := by
  intro f start h m copied
  have hm : m.Evaluates m.unit ⟨#[⟨.ident "r", none⟩, ⟨.clone ⟨0⟩, none⟩]⟩ := ⟨rfl, rfl⟩
  obtain ⟨hmoves, hsessions, hcopies⟩ := functions_point_back_and_copies_stand_apart
  obtain ⟨hcopy, hnode, hcall, hapart⟩ := hcopies h ⟨0⟩ (by decide)
  have hfound : h.property? ⟨0⟩ "f" = some (.function (f.boundTo ⟨0⟩)) := rfl
  refine ⟨hmoves start _ rfl (.single (.record start _)), hsessions .standard .silent .empty 9 [] [] _ rfl,
    hcall m [] _ none rfl rfl, ?_, ?_, ?_⟩
  · refine hnode m m _ [] ⟨1⟩ ⟨0⟩ Loader.none 8 rfl hm ?_ (.inl rfl)
    exact Eval.ident_of_ok hm rfl (Environment.lookup_withScope rfl)
  · refine (hcopy.property "f").trans ?_
    rw [hfound]
    rfl
  · refine (hapart copied [("f", .nil)] "f").2.trans ?_
    exact (hcopy.others.property? (hcopy.ne (by decide)).symm "f").trans hfound

end DynScript
