import DynScript.Proofs.Run.Operations
import DynScript.Proofs.Run.Steps
import DynScript.Proofs.Value.Backlinks

/-!
# Simple steps

A plain step is simple when its faults have just arisen, so that they have no place yet, tell of no calls and are no
return, and when it leaves a heap in which functions point back at their records as such a heap. Most of what
evaluation does between the nodes is simple: operators, records and lists, names, functions of the host.
-/

namespace DynScript

/-- A cause that is no return. -/
def Cause.Quiet (cause : Cause) : Prop := ∀ value, cause ≠ .returning value

/-- A call that is refused for the number of its arguments does not return. -/
theorem Cause.quiet_arityMismatch (callee : String) (expected actual : Nat) :
    (Cause.arityMismatch callee expected actual).Quiet := nofun

/-- Nor does a call of something that cannot be called. -/
theorem Cause.quiet_notCallable (kind : String) : (Cause.notCallable kind).Quiet := nofun

/-- The ordinary causes are no returns. -/
theorem accepts_quiet : Accepts (fun _ => True) Cause.Quiet where
  plain _ := trivial
  list := ⟨fun _ _ _ => trivial, fun _ => trivial⟩
  ordinary {cause} h value heq := by
    rw [heq] at h
    cases h

/-- A fault that has just arisen: it has no place, tells of no calls, and is no return. -/
structure Fault.Fresh (fault : Fault) : Prop where
  /-- The place. -/
  position : fault.position = none
  /-- The calls. -/
  backtrace : fault.backtrace = none
  /-- The cause. -/
  cause : fault.cause.Quiet

namespace Eval

variable {α β : Type}

namespace Plain

theorem writeFile_withUnits (w : World) (path content : String) (units : Array Arena) :
    (w.withUnits units).writeFile path content =
      ((w.writeFile path content).1, (w.writeFile path content).2.withUnits units) := by
  unfold World.writeFile
  rw [show (w.withUnits units).host = w.host from rfl]
  cases w.host.disk.write ⟨path⟩ content <;> rfl

/-- The functions of the host do not look at the nodes of the units. -/
theorem callNative_withUnits (w : World) (n : Native) (args : List Value) (units : Array Arena) :
    (w.withUnits units).callNative n args =
      ((w.callNative n args).1, (w.callNative n args).2.withUnits units) := by
  unfold World.callNative
  split
  case h_2 =>
    split
    · exact writeFile_withUnits ..
    all_goals rfl
  case h_7 => split <;> rfl
  all_goals rfl

theorem keeps_writeFile (w : World) (path content : String) : w.Keeps (w.writeFile path content).2 := by
  unfold World.writeFile
  split
  · rename_i disk hdisk
    exact ⟨rfl, Disk.extends_write hdisk, .refl _⟩
  · rfl

/-- What the functions of the host do has nothing to do with the modules, and they take no file away. -/
theorem keeps_callNative (w : World) (n : Native) (args : List Value) : w.Keeps (w.callNative n args).2 := by
  unfold World.callNative
  split
  case h_2 =>
    split
    · exact keeps_writeFile ..
    all_goals rfl
  case h_7 =>
    split
    · exact ⟨rfl, .refl _, .refl _⟩
    · rfl
  all_goals exact ⟨rfl, .refl _, .refl _⟩

theorem callNative (n : Native) (args : List Value) : Plain (Eval.callNative n args) := by
  refine .bind (.change _ (fun m => ⟨rfl, rfl, rfl, rfl, rfl, ?_⟩) (fun m units maxDepth => ?_)
    fun m => keeps_callNative ..) .ofExcept
  · show m.world.units.toList <+: (m.world.callNative n args).2.units.toList
    rw [World.units_callNative]
  · show (((m.world.withUnits units).callNative n args).1,
      ({ m with world := ((m.world.withUnits units).callNative n args).2 } : Machine).withMaxDepth maxDepth) = _
    rw [callNative_withUnits]
    rfl

end Plain

/-- A plain step whose faults have just arisen, and after which functions in records still point back. -/
structure Simple (x : Eval α) : Prop extends Plain x where
  /-- Faults have just arisen. -/
  fresh : ∀ held (m : Machine) fault, (x.runFrom held m).1 = .error (.fault fault) → fault.Fresh
  /-- Functions in records point back. -/
  pointsBack : ∀ held (m : Machine), m.world.heap.PointsBack → (x.runFrom held m).2.world.heap.PointsBack

namespace Simple

theorem pure (a : α) : Simple (Pure.pure a : Eval α) where
  toPlain := .pure a
  fresh _ _ _ h := nomatch h
  pointsBack _ _ h := h

theorem fail {cause : Cause} (h : cause.Quiet) : Simple (Eval.fail cause : Eval α) where
  toPlain := .fail cause
  fresh _ _ fault hf := by
    obtain rfl : Fault.ofCause cause = fault := by
      cases hf
      rfl
    exact ⟨rfl, rfl, h⟩
  pointsBack _ _ h := h

/-- Being stuck is no fault. -/
theorem stuck (s : Stuck) : Simple (MonadExcept.throw (Interruption.stuck s) : Eval α) where
  toPlain := .throw _
  fresh _ _ _ h := nomatch h
  pointsBack _ _ h := h

theorem defect (d : Defect) : Simple (Eval.defect d : Eval α) := stuck (.defect d)

theorem bind {x : Eval α} {f : α → Eval β} (hx : Simple x) (hf : ∀ a, Simple (f a)) : Simple (x >>= f) where
  toPlain := hx.toPlain.bind fun a => (hf a).toPlain
  fresh held m fault h := by
    rw [runFrom_bind] at h
    rcases hr : x.runFrom held m with ⟨e | a, n⟩ <;> rw [hr] at h
    · obtain rfl : e = .fault fault := Except.error.inj h
      exact hx.fresh held m fault (by rw [hr])
    · exact (hf a).fresh held n fault h
  pointsBack held m h := by
    have hn := hx.pointsBack held m h
    rw [runFrom_bind]
    rcases hr : x.runFrom held m with ⟨e | a, n⟩ <;> rw [hr] at hn
    · exact hn
    · exact (hf a).pointsBack held n hn

theorem holding {x : Eval α} (hx : Simple x) (g : List Value → List Value) :
    Simple (withReader g x : Eval α) where
  toPlain := hx.toPlain.holding g
  fresh held m := hx.fresh (g held) m
  pointsBack held m := hx.pointsBack (g held) m

/-- A plain change that keeps functions in records pointing back. -/
theorem change {f : Machine → α × Machine} (hf : Plain (modifyGet f : Eval α))
    (h : ∀ m : Machine, m.world.heap.PointsBack → (f m).2.world.heap.PointsBack := by exact fun _ h => h) :
    Simple (modifyGet f : Eval α) where
  toPlain := hf
  fresh _ _ _ hfault := nomatch hfault
  pointsBack _ m := h m

theorem glance : Simple Eval.glance := change .glance

/-- Looking at a machine and going on is simple, unless the units or the bound on the calls are looked at. -/
theorem reading {k : Machine → Eval α} (hk : ∀ m, Simple (k m))
    (hb : ∀ m units maxDepth, k ((m.withUnits units).withMaxDepth maxDepth) = k m := by exact fun _ _ _ => rfl) :
    Simple (get >>= k) := by
  rw [get_bind hb]
  exact bind glance hk

/-- A step that is made only under a condition, and what comes after it. -/
theorem guarded (c : Prop) [Decidable c] {stop : Eval PUnit} {k : PUnit → Eval α} (hs : Simple stop)
    (hk : ∀ u, Simple (k u)) : Simple (if c then stop >>= k else k ()) := by
  split
  · exact hs.bind hk
  · exact hk ()

theorem requireUnit (unit : UnitId) (id : NodeId) : Simple (Eval.requireUnit unit id) := by
  refine reading fun m => ?_
  split
  · exact defect _
  · exact pure _

/-! ### Records -/

theorem modifyHeap {f : Heap → Heap} (hf : ∀ h : Heap, h.PointsBack → (f h).PointsBack) :
    Simple (Eval.modifyHeap f) :=
  change (.modifyHeap f) fun m => hf m.world.heap

theorem onHeap {f : Heap → α × Heap} (hf : ∀ h : Heap, h.PointsBack → (f h).2.PointsBack) :
    Simple (Eval.onHeap f) :=
  change (.onHeap f) fun m => hf m.world.heap

/-- An operation on values ends in its value, after which the records are those that it leaves, or in a fault that has
its cause. -/
theorem runFrom_operation (op : Heap → Except Cause (Value × Heap)) (held : List Value) (m : Machine) :
    (Eval.heap >>= fun h => Eval.ofExcept (op h) >>= fun result =>
        Eval.modifyHeap (fun _ => result.2) >>= fun _ => Pure.pure result.1).runFrom held m =
      match op m.world.heap with
      | .ok result => (.ok result.1, { m with world := { m.world with heap := result.2 } })
      | .error cause => (.error (.fault (.ofCause cause)), m) := by
  rw [runFrom_bind, runFrom_heap]
  dsimp only
  cases op m.world.heap <;> rfl

/-- An operation on values that gives one of them, and a heap with the same records. -/
theorem operation {op : Heap → Except Cause (Value × Heap)}
    (hop : ∀ h : Heap, Gives Cause.Quiet (h.Makes fun _ => True) (op h)) :
    Simple (Eval.heap >>= fun h => Eval.ofExcept (op h) >>= fun result =>
      Eval.modifyHeap (fun _ => result.2) >>= fun _ => Pure.pure result.1) where
  toPlain := .bind .heap fun _ => .bind (.ofExcept _) fun _ => .bind (.modifyHeap _) fun _ => .pure _
  fresh held m fault h := by
    have hm := hop m.world.heap
    rw [runFrom_operation] at h
    cases he : op m.world.heap with
    | ok result =>
      rw [he] at h
      cases h
    | error cause =>
      rw [he] at h hm
      exact (fail (α := Value) hm).fresh held m fault h
  pointsBack held m h := by
    have hm := hop m.world.heap
    rw [runFrom_operation]
    cases he : op m.world.heap with
    | ok result =>
      rw [he] at hm
      exact h.of_records hm.2
    | error cause => exact h

theorem lives (r : RecordId) : Simple (Eval.lives r) where
  toPlain := .lives r
  fresh _ _ _ h := nomatch h
  pointsBack held m h := h.of_records (m.records_lives held r)

theorem receiverOf (f : Function) : Simple (Eval.receiverOf f) := by
  unfold Eval.receiverOf Function.receiver?
  split
  · exact pure _
  · exact pure _
  · exact bind (lives _) fun b => pure _

/-! ### Names -/

theorem lookup? (name : String) : Simple (Eval.lookup? name) := reading fun _ => pure _

theorem target? (name : String) : Simple (Eval.target? name) := reading fun _ => pure _

theorem put (holder : Holder) (name : String) (value : Value) : Simple (Eval.put holder name value) := by
  refine change (.put holder name value) fun m h => ?_
  cases holder with
  | locals index => exact h
  | record r => exact h.set r name value

theorem define (name : String) (value : Value) : Simple (Eval.define name value) := reading fun _ => put ..

theorem defineAll (bound : List (String × Value)) : Simple (Eval.defineAll bound) := by
  induction bound with
  | nil => exact pure _
  | cons entry rest ih => exact bind (define ..) fun _ => ih

theorem assign (name : String) (value : Value) : Simple (Eval.assign name value) := by
  refine bind (target? name) fun holder => ?_
  split
  · exact put ..
  · exact fail nofun

/-! ### Values -/

theorem ofExcept {P : α → Prop} {e : Except Cause α} (h : Gives Cause.Quiet P e) : Simple (Eval.ofExcept e) := by
  cases e with
  | ok a => exact pure a
  | error cause => exact fail h

theorem callNative (n : Native) (args : List Value) : Simple (Eval.callNative n args) where
  toPlain := .callNative n args
  fresh held m := (ofExcept (accepts_quiet.callNative m.world n args)).fresh held _
  pointsBack held m h :=
    (ofExcept (accepts_quiet.callNative m.world n args)).pointsBack held _ (m.world.heap_callNative n args ▸ h)

/-- Printing a line. -/
theorem println (line : String) :
    Simple (modify fun m : Machine => { m with world := m.world.println line } : Eval PUnit) :=
  change (.change _ (fun _ => ⟨rfl, rfl, rfl, rfl, rfl, List.prefix_rfl⟩) (fun _ _ _ => rfl) fun _ => .println _ line)

end Simple

end Eval

end DynScript
