import DynScript.Proofs.Run.Manners
import DynScript.Proofs.Run.Simple
import DynScript.Proofs.Value.Within

/-!
# Still steps

A simple step is still when it leaves all names where they stand, and takes no record and no property away. Apart from
the giving of values to names, most of what evaluation does between the nodes is still.
-/

namespace DynScript

namespace Eval

variable {α β : Type}

/-- A simple step that leaves the environment as it is, and in which records grow at most. -/
structure Still (x : Eval α) : Prop extends Simple x where
  /-- The names stand where they stood. -/
  env : ∀ held (m : Machine), (x.runFrom held m).2.env = m.env
  /-- Records may have grown. -/
  heap : ∀ held (m : Machine), m.world.heap.GrowsTo (x.runFrom held m).2.world.heap

namespace Still

theorem pure (a : α) : Still (Pure.pure a : Eval α) := ⟨.pure a, fun _ _ => rfl, fun _ _ => .refl _⟩

theorem fail {cause : Cause} (h : cause.Quiet) : Still (Eval.fail cause : Eval α) :=
  ⟨.fail h, fun _ _ => rfl, fun _ _ => .refl _⟩

theorem stuck (s : Stuck) : Still (MonadExcept.throw (Interruption.stuck s) : Eval α) :=
  ⟨.stuck s, fun _ _ => rfl, fun _ _ => .refl _⟩

theorem defect (d : Defect) : Still (Eval.defect d : Eval α) := stuck (.defect d)

theorem bind {x : Eval α} {f : α → Eval β} (hx : Still x) (hf : ∀ a, Still (f a)) : Still (x >>= f) where
  toSimple := hx.toSimple.bind fun a => (hf a).toSimple
  env held m := by
    have hm := hx.env held m
    rw [runFrom_bind]
    rcases hr : x.runFrom held m with ⟨e | a, n⟩ <;> rw [hr] at hm
    · exact hm
    · exact ((hf a).env held n).trans hm
  heap held m := by
    have hm := hx.heap held m
    rw [runFrom_bind]
    rcases hr : x.runFrom held m with ⟨e | a, n⟩ <;> rw [hr] at hm
    · exact hm
    · exact hm.trans ((hf a).heap held n)

theorem holding {x : Eval α} (hx : Still x) (g : List Value → List Value) : Still (withReader g x : Eval α) :=
  ⟨hx.toSimple.holding g, fun held => hx.env (g held), fun held => hx.heap (g held)⟩

/-- A simple change of something else. -/
theorem change {f : Machine → α × Machine} (hf : Simple (modifyGet f : Eval α))
    (he : ∀ m : Machine, (f m).2.env = m.env := by exact fun _ => rfl)
    (hh : ∀ m : Machine, m.world.heap.GrowsTo (f m).2.world.heap := by exact fun _ => .refl _) :
    Still (modifyGet f : Eval α) :=
  ⟨hf, fun _ => he, fun _ => hh⟩

theorem glance : Still Eval.glance := change .glance

/-- Looking at a machine and going on is still, unless the units or the bound on the calls are looked at. -/
theorem reading {k : Machine → Eval α} (hk : ∀ m, Still (k m))
    (hb : ∀ m units maxDepth, k ((m.withUnits units).withMaxDepth maxDepth) = k m := by exact fun _ _ _ => rfl) :
    Still (get >>= k) := by
  rw [get_bind hb]
  exact bind glance hk

theorem requireUnit (unit : UnitId) (id : NodeId) : Still (Eval.requireUnit unit id) := by
  refine reading fun m => ?_
  split
  · exact defect _
  · exact pure _

theorem ofExcept {P : α → Prop} {e : Except Cause α} (h : Gives Cause.Quiet P e) : Still (Eval.ofExcept e) := by
  cases e with
  | ok a => exact pure a
  | error cause => exact fail h

/-! ### Records -/

theorem heapOf : Still Eval.heap := reading fun m => pure m.world.heap

theorem modifyHeap {f : Heap → Heap} (hf : ∀ h : Heap, h.PointsBack → (f h).PointsBack)
    (hg : ∀ h : Heap, h.GrowsTo (f h)) : Still (Eval.modifyHeap f) :=
  ⟨.modifyHeap hf, fun _ _ => rfl, fun _ m => hg m.world.heap⟩

theorem onHeap {f : Heap → α × Heap} (hf : ∀ h : Heap, h.PointsBack → (f h).2.PointsBack)
    (hg : ∀ h : Heap, h.GrowsTo (f h).2) : Still (Eval.onHeap f) :=
  ⟨.onHeap hf, fun _ _ => rfl, fun _ m => hg m.world.heap⟩

theorem newList (items : Array Value) : Still (Eval.newList items) :=
  onHeap (fun _ hh => hh.of_records rfl) fun _ => .of_records rfl

theorem setProperty (r : RecordId) (name : String) (value : Value) : Still (Eval.setProperty r name value) :=
  modifyHeap (fun _ hh => hh.set r name value) fun h => .set h r name value

theorem setAll (r : RecordId) (entries : List (String × Value)) : Still (Eval.modifyHeap fun h => h.setAll r entries) :=
  modifyHeap (fun _ hh => hh.setAll r entries) fun h => .setAll h r entries

/-- Copying the properties of a record. -/
theorem merge (r q : RecordId) : Still (Eval.modifyHeap fun h => h.setAll r (h.properties q).entries) :=
  modifyHeap (fun _ hh => hh.setAll _ _) fun h => .setAll h _ _

theorem newRecord : Still (Eval.onHeap Heap.newRecord) := onHeap (fun _ hh => hh.newRecord) fun h => .alloc h _

theorem newClass (t : Template) : Still (Eval.onHeap fun h => h.newClass t) :=
  onHeap (fun _ hh => hh.newClass t) fun h => .alloc h _

theorem newInstance (cls : RecordId) : Still (Eval.onHeap fun h => h.newInstance cls) :=
  onHeap (fun _ hh => hh.newInstance cls) fun h => .alloc h _

theorem ofEntries (entries : List (String × Value)) : Still (Eval.onHeap fun h => h.ofEntries entries) :=
  onHeap (fun _ hh => hh.ofEntries entries) fun h => .ofEntries h entries

theorem shallowClone (r : RecordId) : Still (Eval.onHeap fun h => h.shallowClone r) :=
  onHeap (fun _ hh => hh.shallowClone r) fun h => .shallowClone h r

/-- An operation on values that gives one of them, and a heap with the same records. -/
theorem operation {op : Heap → Except Cause (Value × Heap)}
    (hop : ∀ h : Heap, Gives Cause.Quiet (h.Makes fun _ => True) (op h)) :
    Still (Eval.heap >>= fun h => Eval.ofExcept (op h) >>= fun result =>
      Eval.modifyHeap (fun _ => result.2) >>= fun _ => Pure.pure result.1) where
  toSimple := .operation hop
  env held m := by
    rw [Simple.runFrom_operation]
    cases op m.world.heap <;> rfl
  heap held m := by
    have hm := hop m.world.heap
    rw [Simple.runFrom_operation]
    cases he : op m.world.heap with
    | ok result =>
      rw [he] at hm
      exact .of_records hm.2
    | error cause => exact .refl _

theorem lives (r : RecordId) : Still (Eval.lives r) where
  toSimple := .lives r
  env held m := by
    show (m.lives held r).2.env = m.env
    rw [m.snd_lives]
  heap held m := .of_records (m.records_lives held r)

theorem holdReceiver (owner : RecordId) (f : Function) : Still (Eval.holdReceiver owner f) := by
  refine holding ?_ _
  unfold Function.holding
  split
  · refine bind ?_ fun b => pure _
    dsimp only
    split
    · exact pure _
    · exact lives _
  · exact pure _

theorem receiverOf (f : Function) : Still (Eval.receiverOf f) := by
  unfold Eval.receiverOf Function.receiver?
  split
  · exact pure _
  · exact pure _
  · exact bind (lives _) fun b => pure _

/-! ### Names and values -/

theorem lookup? (name : String) : Still (Eval.lookup? name) := reading fun _ => pure _

/-- To read a property of a record is still. -/
theorem property (r : RecordId) (name : String) : Still (Manner.usual.property r name) := by
  refine bind heapOf fun heap => ?_
  split
  · exact bind (holdReceiver ..) fun _ => pure _
  · exact pure _
  · exact fail nofun

theorem truth (operator : String) (value : Value) : Still (Eval.truth operator value) := by
  unfold Eval.truth
  split
  · exact pure _
  · exact fail nofun

theorem callNative (n : Native) (args : List Value) : Still (Eval.callNative n args) where
  toSimple := .callNative n args
  env held m := (ofExcept (accepts_quiet.callNative m.world n args)).env held _
  heap held m := by
    have hheap := (ofExcept (accepts_quiet.callNative m.world n args)).heap held
      { m with world := (m.world.callNative n args).2 }
    rwa [show Machine.world { m with world := (m.world.callNative n args).2 } = _ from rfl, World.heap_callNative] at hheap

/-- Printing a line. -/
theorem println (line : String) :
    Still (modify fun m : Machine => { m with world := m.world.println line } : Eval PUnit) :=
  change (.println line)

end Still

end Eval

end DynScript
