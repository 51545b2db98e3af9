import DynScript.Proofs.Files.Writing
import DynScript.Session.Modules

/-!
# Steps and what they leave alone

`Eval.runFrom` runs a step from held values and a machine; its equations take a step apart. Most steps are
*plain*: they neither look at the nodes of the units nor change what stands open. A relation between steps
that holds of plain steps and is kept by the few ways in which steps are put together is an
`Eval.Congruence`; it then holds of the whole evaluation, see `DynScript.Proofs.Run.Traversal`.
-/

namespace DynScript

namespace Machine

variable (m : Machine) (held : List Value) (r : RecordId)

/-- Whether a record lives may take a sweep, which changes the heap alone. -/
theorem snd_lives :
    (m.lives held r).2 = { m with world := { m.world with heap := (m.lives held r).2.world.heap } } := by
  unfold lives
  split_ifs <;> rfl

/-- A sweep notes which records have died, but it erases none. -/
theorem records_lives : (m.lives held r).2.world.heap.records = m.world.heap.records := by
  unfold lives
  split_ifs <;> rfl

end Machine

/-! ## Running a step -/

namespace Eval

variable {α β : Type}

/-- Nothing is said of a value. -/
abbrev Whatever (_ : α) : Prop := True

/-- How a step ends when it starts from a machine while some values are held. -/
def runFrom (x : Eval α) (held : List Value) (m : Machine) : Except Interruption α × Machine :=
  (x held).run.run m

/-- What a step does is all that there is to know about it. -/
theorem ext_runFrom {x y : Eval α} (h : ∀ held m, x.runFrom held m = y.runFrom held m) : x = y :=
  funext fun held => funext fun m => h held m

@[simp] theorem runFrom_pure (a : α) (held : List Value) (m : Machine) :
    (pure a : Eval α).runFrom held m = (.ok a, m) := rfl

/-- A sequence goes on only after a value. -/
theorem runFrom_bind (x : Eval α) (f : α → Eval β) (held : List Value) (m : Machine) :
    (x >>= f).runFrom held m =
      match x.runFrom held m with
      | (.ok a, n) => (f a).runFrom held n
      | (.error e, n) => (.error e, n) := by
  show (_ : Id _) = _
  simp only [runFrom, bind, ReaderT.bind, ExceptT.bind, ExceptT.mk, StateT.bind, ExceptT.run, StateT.run]
  rcases x held m with ⟨_ | _, n⟩ <;> rfl

@[simp] theorem runFrom_get (held : List Value) (m : Machine) :
    (get : Eval Machine).runFrom held m = (.ok m, m) := rfl

@[simp] theorem runFrom_modify (f : Machine → Machine) (held : List Value) (m : Machine) :
    (modify f : Eval PUnit).runFrom held m = (.ok (), f m) := rfl

@[simp] theorem runFrom_modifyGet (f : Machine → α × Machine) (held : List Value) (m : Machine) :
    (modifyGet f : Eval α).runFrom held m = (.ok (f m).1, (f m).2) := rfl

@[simp] theorem runFrom_heap (held : List Value) (m : Machine) : heap.runFrom held m = (.ok m.world.heap, m) := rfl

@[simp] theorem runFrom_finishing (x : Eval α)
    (f : Except Interruption α → Machine → Except Interruption β × Machine) (held : List Value)
    (m : Machine) :
    (finishing x f).runFrom held m = f (x.runFrom held m).1 (x.runFrom held m).2 := rfl

end Eval

/-! ## Machines -/

/-- Lines have been printed at most. -/
def Printer.GrowsTo (p q : Printer) : Prop := ∃ lines : List String, q = lines.foldl (fun p line => p.println line) p

namespace Printer.GrowsTo

@[refl] theorem refl (p : Printer) : p.GrowsTo p := ⟨[], rfl⟩

theorem trans {p q r : Printer} (h : p.GrowsTo q) (k : q.GrowsTo r) : p.GrowsTo r := by
  obtain ⟨lines, rfl⟩ := h
  obtain ⟨more, rfl⟩ := k
  exact ⟨lines ++ more, (List.foldl_append ..).symm⟩

theorem println (p : Printer) (line : String) : p.GrowsTo (p.println line) := ⟨[line], rfl⟩

/-- What was printed before is still there. -/
theorem output {p q : Printer} (h : p.GrowsTo q) : ∃ more, q.output = p.output ++ more := by
  obtain ⟨lines, rfl⟩ := h
  induction lines generalizing p with
  | nil => exact ⟨"", (String.append_empty ..).symm⟩
  | cons line lines ih =>
    obtain ⟨more, hmore⟩ := ih (p := p.println line)
    rw [List.foldl_cons, hmore]
    cases p with
    | silent => exact ⟨more, rfl⟩
    | buffer text => exact ⟨line ++ "\n" ++ more, by simp only [Printer.println, Printer.output, String.append_assoc]⟩

end Printer.GrowsTo

/-- The same world with other units. -/
def World.withUnits (w : World) (units : Array Arena) : World := { w with units := units }

/-- The same modules are loaded in the second world; files have been written and lines have been printed at most. -/
structure World.Keeps (w w' : World) : Prop where
  /-- The modules are the same, those that are being loaded included. -/
  cache : w'.cache = w.cache
  /-- The files are still there. -/
  disk : w.host.disk.Extends w'.host.disk
  /-- What was printed is still there. -/
  printer : w.printer.GrowsTo w'.printer

namespace World.Keeps

@[refl] theorem refl (w : World) : w.Keeps w := ⟨rfl, .refl _, .refl _⟩

theorem trans {w w' w'' : World} (h : w.Keeps w') (k : w'.Keeps w'') : w.Keeps w'' :=
  ⟨k.cache.trans h.cache, h.disk.trans k.disk, h.printer.trans k.printer⟩

theorem println (w : World) (line : String) : w.Keeps (w.println line) := ⟨rfl, .refl _, .println _ line⟩

end World.Keeps

/-- A unit that was there is still there. -/
theorem getElem?_of_prefix {U U' : Array Arena} (h : U.toList <+: U'.toList) {i : Nat} {a : Arena}
    (ha : U[i]? = some a) : U'[i]? = some a := by
  obtain ⟨more, hmore⟩ := h
  rw [← Array.getElem?_toList] at ha ⊢
  rw [← hmore, List.getElem?_append_left (List.getElem?_eq_some_iff.1 ha).1, ha]

namespace Machine

/-- The same machine with other units. -/
def withUnits (m : Machine) (units : Array Arena) : Machine :=
  { m with world := m.world.withUnits units }

@[simp] theorem withUnits_self (m : Machine) : m.withUnits m.world.units = m := rfl

/-- The same machine with another bound on the calls. -/
def withMaxDepth (m : Machine) (maxDepth : Nat) : Machine := { m with calls := { m.calls with maxDepth } }

@[simp] theorem withMaxDepth_self (m : Machine) : m.withMaxDepth m.calls.maxDepth = m := rfl

/-- Nothing that stands open in the first machine was left or changed in the second one, and nothing else
stands open there. Units may have been added. -/
structure Restored (m n : Machine) : Prop where
  /-- There are as many frames. -/
  depth : n.env.depth = m.env.depth
  /-- The same records are active. -/
  active : n.env.active = m.env.active
  /-- The same calls are in progress. -/
  calls : n.calls = m.calls
  /-- The same unit is being evaluated. -/
  unit : n.unit = m.unit
  /-- Relative imports start from the same directory. -/
  directory : n.directory = m.directory
  /-- The units are still there, with the same nodes. -/
  units : m.world.units.toList <+: n.world.units.toList

namespace Restored

/-- So are its nodes. -/
theorem arena? {m n : Machine} (h : m.Restored n) {i : Nat} {a : Arena} (ha : m.world.units[i]? = some a) :
    n.world.units[i]? = some a :=
  getElem?_of_prefix h.units ha

@[refl] theorem refl (m : Machine) : m.Restored m := ⟨rfl, rfl, rfl, rfl, rfl, List.prefix_rfl⟩

theorem trans {l m n : Machine} (h : l.Restored m) (k : m.Restored n) : l.Restored n :=
  ⟨k.depth.trans h.depth, k.active.trans h.active, k.calls.trans h.calls, k.unit.trans h.unit,
    k.directory.trans h.directory, h.units.trans k.units⟩

end Restored

end Machine

/-! ## Looking at nodes -/

namespace Eval

variable {α : Type}

/-- Looking at a node and going on. -/
theorem runFrom_nodeIn_bind (unit : UnitId) (id : NodeId) (k : Node → Eval α) (held : List Value)
    (m : Machine) :
    (nodeIn unit id >>= k).runFrom held m = match m.world.node? unit id with
      | some n => (k n).runFrom held m
      | none => (.error (.stuck (.defect (.missingNode id))), m) := by
  rw [runFrom_bind, nodeIn, runFrom_bind, runFrom_get]
  dsimp only
  cases m.world.node? unit id <;> rfl

theorem nodeOf_bind (unit : UnitId) (id : NodeId) (k : Node → Eval α) :
    nodeOf unit id >>= k = requireUnit unit id >>= fun _ => nodeIn unit id >>= k :=
  ext_runFrom fun held m => by
    simp only [nodeOf, runFrom_bind]
    rcases (requireUnit unit id).runFrom held m with ⟨_ | _, _⟩ <;> rfl

/-- A step towards the value of a node. -/
theorem runFrom_nodeStep (load : Loader) (eval : Evaluator) (id : NodeId) (held : List Value) (m : Machine) :
    (nodeStep load eval id).runFrom held m = match m.world.node? m.unit id with
      | some n =>
        (locating n.position (nodeKind (within m.unit eval) eval (load eval) m.unit id n)).runFrom held m
      | none => (.error (.stuck (.defect (.missingNode id))), m) := by
  rw [nodeStep, runFrom_bind, runFrom_get]
  exact runFrom_nodeIn_bind ..

/-- Looking for what holds a name that is assigned. -/
theorem runFrom_target? (name : String) (held : List Value) (m : Machine) :
    (target? name).runFrom held m = (.ok (m.env.target? m.world.heap name), m) := rfl

end Eval

/-! ## Calls -/

namespace Eval

variable {α : Type} {m : Machine}

/-- No call is entered when there may be no more. -/
theorem runFrom_inCall_refused {cause : Cause} (hrefusal : m.calls.refusal? = some cause) (frame : CallFrame)
    (x : Eval α) (held : List Value) : (inCall frame x).runFrom held m = (.error (.fault (.ofCause cause)), m) := by
  rw [inCall, runFrom_bind, runFrom_get]
  dsimp only
  rw [hrefusal]
  rfl

/-- When there may be one more, a call is entered, and it is left after the step. -/
theorem runFrom_inCall_entered (hcalls : m.calls.refusal? = none) (frame : CallFrame) (x : Eval α)
    (held : List Value) : (inCall frame x).runFrom held m =
      (afterwards (fun m => { m with calls := m.calls.pop })
        (mapFault (fun m fault => m.calls.attachBacktrace m.world.heap fault) x)).runFrom held
          { m with calls := m.calls.enter frame } := by
  rw [inCall, runFrom_bind, runFrom_get]
  dsimp only
  rw [hcalls]
  rfl

end Eval

/-! ## Plain steps -/

namespace Eval

variable {α β : Type}

/-- A machine as a step sees it to which the units and the bound on the calls make no difference. -/
def glance : Eval Machine := modifyGet fun m => ((m.withUnits #[]).withMaxDepth 0, m)

/-- Looking at a machine is a glance, when nothing that is seen of the units and of the bound on the calls makes a
difference. -/
theorem get_bind {k : Machine → Eval α} (hb : ∀ m units maxDepth, k ((m.withUnits units).withMaxDepth maxDepth) = k m) :
    (get >>= k) = glance >>= k :=
  ext_runFrom fun held m => by simp [runFrom_bind, glance, hb]

/-- A step that neither looks at the nodes of the units nor at how many calls there may be, that changes nothing of what
stands open, and that has nothing to do with the modules that have been loaded. -/
structure Plain (x : Eval α) : Prop where
  /-- What stands open stays. -/
  restored : ∀ held (m : Machine), m.Restored (x.runFrom held m).2
  /-- The modules stay, and the files. -/
  keeps : ∀ held (m : Machine), m.world.Keeps (x.runFrom held m).2.world
  /-- Other units and another bound on the calls make no difference. -/
  unseen : ∀ held (m : Machine) units maxDepth,
    x.runFrom held ((m.withUnits units).withMaxDepth maxDepth) =
      ((x.runFrom held m).1, ((x.runFrom held m).2.withUnits units).withMaxDepth maxDepth)

namespace Plain

/-- Other units make no difference. -/
theorem blind {x : Eval α} (hx : Plain x) (held : List Value) (m : Machine) (units : Array Arena) :
    x.runFrom held (m.withUnits units) = ((x.runFrom held m).1, (x.runFrom held m).2.withUnits units) := by
  refine (hx.unseen held m units m.calls.maxDepth).trans ?_
  rw [← (hx.restored held m).calls]
  rfl

/-- Another bound on the calls makes no difference. -/
theorem unbounded {x : Eval α} (hx : Plain x) (held : List Value) (m : Machine) (maxDepth : Nat) :
    x.runFrom held (m.withMaxDepth maxDepth) = ((x.runFrom held m).1, (x.runFrom held m).2.withMaxDepth maxDepth) := by
  refine (hx.unseen held m m.world.units maxDepth).trans ?_
  have hunits := congrArg (fun r => r.2.world.units) (hx.blind held m m.world.units)
  rw [show m.world.units = (x.runFrom held m).2.world.units from hunits.symm]
  rfl

theorem pure (a : α) : Plain (Pure.pure a : Eval α) :=
  ⟨fun _ m => .refl m, fun _ m => .refl m.world, fun _ _ _ _ => rfl⟩

theorem throw (e : Interruption) : Plain (MonadExcept.throw e : Eval α) :=
  ⟨fun _ m => .refl m, fun _ m => .refl m.world, fun _ _ _ _ => rfl⟩

theorem bind {x : Eval α} {f : α → Eval β} (hx : Plain x) (hf : ∀ a, Plain (f a)) :
    Plain (x >>= f) where
  restored held m := by
    have h := hx.restored held m
    rw [runFrom_bind]
    rcases hr : x.runFrom held m with ⟨_ | a, n⟩ <;> rw [hr] at h
    · exact h
    · exact h.trans ((hf a).restored held n)
  keeps held m := by
    have h := hx.keeps held m
    rw [runFrom_bind]
    rcases hr : x.runFrom held m with ⟨_ | a, n⟩ <;> rw [hr] at h
    · exact h
    · exact h.trans ((hf a).keeps held n)
  unseen held m units maxDepth := by
    have h := hx.unseen held m units maxDepth
    rw [runFrom_bind, runFrom_bind, h]
    rcases x.runFrom held m with ⟨_ | a, n⟩
    · rfl
    · exact (hf a).unseen held n units maxDepth

theorem holding {x : Eval α} (hx : Plain x) (g : List Value → List Value) :
    Plain (withReader g x : Eval α) :=
  ⟨fun held m => hx.restored (g held) m, fun held m => hx.keeps (g held) m,
    fun held m units maxDepth => hx.unseen (g held) m units maxDepth⟩

/-- A change that leaves alone what stands open and has nothing to do with the units, the bound on the calls and the
modules is plain. -/
theorem change (f : Machine → α × Machine) (hr : ∀ m : Machine, m.Restored (f m).2)
    (hb : ∀ m units maxDepth, f ((m.withUnits units).withMaxDepth maxDepth) =
      ((f m).1, ((f m).2.withUnits units).withMaxDepth maxDepth))
    (hk : ∀ m : Machine, m.world.Keeps (f m).2.world := by exact fun _ => ⟨rfl, .refl _, .refl _⟩) :
    Plain (modifyGet f : Eval α) where
  restored _ m := hr m
  keeps _ m := hk m
  unseen _ m units maxDepth := by simp only [runFrom_modifyGet, hb]

theorem glance : Plain Eval.glance := .change _ (fun m => .refl m) fun _ _ _ => rfl

/-- Looking at a machine and going on is plain, unless the units or the bound on the calls are looked at. -/
theorem reading {k : Machine → Eval α} (hk : ∀ m, Plain (k m))
    (hb : ∀ m units maxDepth, k ((m.withUnits units).withMaxDepth maxDepth) = k m := by exact fun _ _ _ => rfl) :
    Plain (get >>= k) := by
  rw [get_bind hb]
  exact .bind glance hk

/-! ### Interruptions -/

theorem fail (cause : Cause) : Plain (Eval.fail cause : Eval α) := .throw _

theorem defect (d : Defect) : Plain (Eval.defect d : Eval α) := .throw _

theorem ofExcept (e : Except Cause α) : Plain (Eval.ofExcept e) := by
  cases e with
  | ok a => exact .pure a
  | error cause => exact .fail cause

theorem requireUnit (unit : UnitId) (id : NodeId) : Plain (Eval.requireUnit unit id) := by
  refine .reading fun m => ?_
  split
  · exact .defect _
  · exact .pure _

/-! ### Records -/

theorem heap : Plain Eval.heap := .reading fun m => .pure m.world.heap

theorem modifyHeap (f : Heap → Heap) : Plain (Eval.modifyHeap f) :=
  .change _ (fun _ => ⟨rfl, rfl, rfl, rfl, rfl, List.prefix_rfl⟩) fun _ _ _ => rfl

theorem onHeap (f : Heap → α × Heap) : Plain (Eval.onHeap f) :=
  .change _ (fun _ => ⟨rfl, rfl, rfl, rfl, rfl, List.prefix_rfl⟩) fun _ _ _ => rfl

/-- Which records live has nothing to do with the units and with the bound on the calls. -/
theorem lives_unseen (m : Machine) (held : List Value) (r : RecordId) (units : Array Arena) (maxDepth : Nat) :
    ((m.withUnits units).withMaxDepth maxDepth).lives held r =
      ((m.lives held r).1, ((m.lives held r).2.withUnits units).withMaxDepth maxDepth) := by
  unfold Machine.lives
  by_cases hp : (!m.world.heap.present.contains r) = true
  · rw [if_pos hp, if_pos (by exact hp)]
  · rw [if_neg hp, if_neg (by exact hp)]
    by_cases hs : m.shows held r = true
    · rw [if_pos hs, if_pos (by exact hs)]
    · rw [if_neg hs, if_neg (by exact hs)]
      by_cases hk : (m.kept held).any (·.keepsRecord r) = true
      · rw [if_pos hk, if_pos (by exact hk)]
      · rw [if_neg hk, if_neg (by exact hk)]
        rfl

theorem lives (r : RecordId) : Plain (Eval.lives r) where
  restored held m := by
    show m.Restored (m.lives held r).2
    rw [m.snd_lives]
    exact ⟨rfl, rfl, rfl, rfl, rfl, List.prefix_rfl⟩
  keeps held m := by
    show m.world.Keeps (m.lives held r).2.world
    rw [m.snd_lives]
    exact ⟨rfl, .refl _, .refl _⟩
  unseen held m units maxDepth :=
    congrArg (fun e : Bool × Machine => (Except.ok e.1, e.2)) (lives_unseen m held r units maxDepth)

/-! ### Names -/

/-- Giving a name a value opens and closes no frame. -/
theorem depth_put (env : Environment) (heap : Heap) (name : String) (value : Value) (holder : Holder) :
    (env.put heap name value holder).1.depth = env.depth := by
  cases holder <;> simp [Environment.put, Environment.depth]

/-- Giving a name a value leaves the active records. -/
theorem active_put (env : Environment) (heap : Heap) (name : String) (value : Value) (holder : Holder) :
    (env.put heap name value holder).1.active = env.active := by
  cases holder <;> rfl

theorem put (holder : Holder) (name : String) (value : Value) : Plain (Eval.put holder name value) :=
  .change _ (fun _ => ⟨depth_put .., active_put .., rfl, rfl, rfl, List.prefix_rfl⟩) fun _ _ _ => rfl

end Plain

end Eval

end DynScript
