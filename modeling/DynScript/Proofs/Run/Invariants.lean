import DynScript.Proofs.Run.Traversal

/-!
# Steps that do the same while an invariant holds

An invariant of machines that has to do only with what the units share and with the directory of the unit that runs
holds on when scopes, records and calls are opened and closed. If simple steps keep it then the evaluation of nodes
does, and `Eval.SameWhile` relates evaluations that do the same as long as it holds.
-/

namespace DynScript

/-- A property of machines that has to do only with what the units share and with the directory of the unit that
runs, and that simple steps keep. -/
structure Machine.Invariant (I : Machine → Prop) : Prop where
  /-- Scopes, records and calls make no difference. -/
  shared : ∀ {m n : Machine}, n.world = m.world → n.directory = m.directory → I m → I n
  /-- Simple steps keep it. -/
  simple : ∀ {α : Type} {x : Eval α}, x.Simple → ∀ held m, I m → I (x.runFrom held m).2

namespace Eval

variable {α β : Type}

/-- A step that leaves the machine alone. -/
def Looks (x : Eval α) : Prop := ∀ held (m : Machine), (x.runFrom held m).2 = m

namespace Looks

theorem pure (a : α) : Looks (Pure.pure a : Eval α) := fun _ _ => rfl

theorem throw (e : Interruption) : Looks (MonadExcept.throw e : Eval α) := fun _ _ => rfl

theorem bind {x : Eval α} {k : α → Eval β} (hx : Looks x) (hk : ∀ a, Looks (k a)) : Looks (x >>= k) := by
  intro held m
  have hm := hx held m
  rw [runFrom_bind]
  rcases hr : x.runFrom held m with ⟨e | a, n⟩ <;> rw [hr] at hm
  · exact hm
  · exact (hk a held n).trans hm

theorem get : Looks (MonadState.get : Eval Machine) := fun _ _ => rfl

theorem requireUnit (unit : UnitId) (id : NodeId) : Looks (Eval.requireUnit unit id) := by
  refine bind get fun m => ?_
  split
  · exact throw _
  · exact pure _

theorem nodeIn (unit : UnitId) (id : NodeId) : Looks (Eval.nodeIn unit id) := by
  refine bind get fun m => ?_
  split
  · exact pure _
  · exact throw _

theorem nodeOf (unit : UnitId) (id : NodeId) : Looks (Eval.nodeOf unit id) :=
  bind (requireUnit _ _) fun _ => nodeIn _ _

theorem blockItems? (unit : UnitId) (id : NodeId) : Looks (Eval.blockItems? unit id) :=
  bind (nodeOf _ _) fun node => by split <;> exact pure _

theorem functionParts (f : Function) : Looks (Eval.functionParts f) :=
  bind (nodeIn _ _) fun node => by split <;> first | exact pure _ | exact throw _

theorem memberParts (unit : UnitId) (id : NodeId) : Looks (Eval.memberParts unit id) :=
  bind (nodeOf _ _) fun node => by split <;> first | exact pure _ | exact throw _

theorem templateParts (t : Template) : Looks (Eval.templateParts t) :=
  bind (nodeIn _ _) fun node => by split <;> first | exact pure _ | exact throw _

theorem assignee (unit : UnitId) (id : NodeId) : Looks (Eval.assignee unit id) :=
  bind (nodeOf _ _) fun node => by split <;> first | exact pure _ | exact throw _

end Looks

/-- As long as the invariant holds, the second step does what the first one does, after which it still holds. -/
def SameWhile (I : Machine → Prop) (x y : Eval α) : Prop :=
  ∀ held (m : Machine), I m → I (x.runFrom held m).2 ∧ y.runFrom held m = x.runFrom held m

namespace SameWhile

variable {I : Machine → Prop}

theorem keeping {x : Eval α} (h : ∀ held (m : Machine), I m → I (x.runFrom held m).2) : SameWhile I x x :=
  fun held m hm => ⟨h held m hm, rfl⟩

theorem looking {x : Eval α} (h : Looks x) : SameWhile I x x := keeping fun held m hm => by rwa [h held m]

theorem throw (e : Interruption) : SameWhile I (MonadExcept.throw e : Eval α) (MonadExcept.throw e) :=
  looking (.throw e)

theorem modifying {f : Machine → Machine} (hf : ∀ m, I m → I (f m)) :
    SameWhile I (modify f : Eval PUnit) (modify f) :=
  keeping fun _ m => hf m

/-- A sequence, when what goes on is known only of the values of the first step. -/
theorem bindFrom {x y : Eval α} {k l : α → Eval β} (h : SameWhile I x y)
    (hk : ∀ a held (m n : Machine), x.runFrom held m = (.ok a, n) → SameWhile I (k a) (l a)) :
    SameWhile I (x >>= k) (y >>= l) := by
  intro held m hm
  obtain ⟨hn, hsame⟩ := h held m hm
  rw [runFrom_bind, runFrom_bind, hsame]
  rcases hr : x.runFrom held m with ⟨e | a, n⟩ <;> rw [hr] at hn
  · exact ⟨hn, rfl⟩
  · exact hk a held m n hr held n hn

theorem bind {x y : Eval α} {k l : α → Eval β} (h : SameWhile I x y) (hk : ∀ a, SameWhile I (k a) (l a)) :
    SameWhile I (x >>= k) (y >>= l) :=
  bindFrom h fun a _ _ _ _ => hk a

/-- Looking at the end of a step, when the invariant stays. -/
theorem finishing {f : Except Interruption α → Machine → Except Interruption β × Machine} {x y : Eval α}
    (hf : ∀ result (m : Machine), I m → I (f result m).2) (h : SameWhile I x y) :
    SameWhile I (finishing x f) (finishing y f) := by
  intro held m hm
  obtain ⟨hn, hsame⟩ := h held m hm
  simp only [runFrom_finishing, hsame]
  exact ⟨hf _ _ hn, trivial⟩

/-- A step between an opening and a closing change, and what holds between the two. -/
theorem between {J : Machine → Prop} {x y : Eval α} {f g : Machine → Machine} (hf : ∀ m, I m → J (f m))
    (hg : ∀ m, J m → I (g m)) (h : SameWhile J x y) :
    SameWhile I (modify f >>= fun _ => afterwards g x) (modify f >>= fun _ => afterwards g y) := by
  intro held m hm
  obtain ⟨hn, hsame⟩ := h held (f m) (hf m hm)
  exact ⟨hg _ hn, congrArg (fun r => (r.1, g r.2)) hsame⟩

/-- A step with the nodes of another unit, when it makes no difference which unit runs. -/
theorem inUnit (hu : ∀ (m : Machine) unit, I m → I { m with unit }) {x y : Eval α} (unit : UnitId)
    (h : SameWhile I x y) : SameWhile I (inUnit unit x) (inUnit unit y) :=
  bind (looking .get) fun _ => h.between (fun m => hu m _) fun m => hu m _

/-- A call, when the calls in progress make no difference. -/
theorem inCall (hc : ∀ (m : Machine) calls, I m → I { m with calls }) {x y : Eval α} (frame : CallFrame)
    (h : SameWhile I x y) : SameWhile I (inCall frame x) (inCall frame y) := by
  have hmap : SameWhile I (mapFault (fun m fault => m.calls.attachBacktrace m.world.heap fault) x)
      (mapFault (fun m fault => m.calls.attachBacktrace m.world.heap fault) y) :=
    h.finishing fun result m hm => by split <;> exact hm
  have hcall := between (I := I) (f := fun m => { m with calls := m.calls.enter frame })
    (g := fun m => { m with calls := m.calls.pop }) (fun m => hc m _) (fun m => hc m _) hmap
  refine bind (looking .get) fun m => ?_
  split
  · exact bind (throw _) fun _ => hcall
  · exact hcall

/-- In a machine of its own for a unit the invariant holds if it does so where the machine starts. -/
theorem inNewMachine (hw : ∀ {m n : Machine}, n.world = m.world → I m → I n) (unit : CompiledUnit) (maxDepth : Nat)
    (hs : ∀ m : Machine, I m → I (.start (m.world.addUnit unit.program.arena).2
      (m.world.addUnit unit.program.arena).1 unit.directory maxDepth)) {x y : Eval α} (h : SameWhile I x y) :
    SameWhile I (inNewMachine unit maxDepth x) (inNewMachine unit maxDepth y) := by
  intro held m hm
  obtain ⟨hn, hsame⟩ := h (m.kept held) _ (hs m hm)
  have hend {n : Machine} (hn : I n) : I { m with world := n.world } := hw (m := n) rfl hn
  exact ⟨hend hn, congrArg (fun r => (r.1, { m with world := r.2.world })) hsame⟩

/-- A module is loaded once alike where the modules that have been loaded make no difference. -/
theorem loadOnce (hc : ∀ (m : Machine) cache, I m → I { m with world := { m.world with cache } }) (path : Path)
    {x y : Eval RecordId} (h : SameWhile I x y) : SameWhile I (loadOnce path x) (loadOnce path y) := by
  refine bind (looking .get) fun m => ?_
  split
  · exact looking (.pure _)
  · exact throw _
  · refine bind (modifying fun m => hc m _) fun _ => bind (h.finishing fun _ m => hc m _) fun record => ?_
    exact bind (modifying fun m => hc m _) fun _ => looking (.pure _)

section

variable (hI : Machine.Invariant I)
include hI

theorem simple {x : Eval α} (hx : x.Simple) : SameWhile I x x := keeping (hI.simple hx)

theorem inFrame {x y : Eval α} (push : Environment → Environment) (h : SameWhile I x y) :
    SameWhile I (inFrame push x) (inFrame push y) :=
  bind (looking .get) fun _ => h.between (fun _ => hI.shared rfl rfl) fun _ => hI.shared rfl rfl

theorem ending {f : Except Interruption α → Machine → Except Interruption β × Machine} (hf : Ending f) {x y : Eval α}
    (h : SameWhile I x y) : SameWhile I (Eval.finishing x f) (Eval.finishing y f) :=
  h.finishing fun result m => hI.shared (hf.world result m) (hf.restored result m).directory

/-- All that a machine does is put together so that steps do the same as long as the invariant holds. -/
theorem calling : Calling fun x y => SameWhile I x y where
  still hx := simple hI hx.toSimple
  define name value := simple hI (.define name value)
  assign name value := simple hI (.assign name value)
  bind := bind
  holding g _ _ h := fun held m => h (g held) m
  inScope h := inFrame hI _ h
  inRecord _ _ _ h := inFrame hI _ h
  raise _ := throw _
  passing hf := ending hI hf.toEnding
  withActive _ _ _ _ h := h.between (fun _ => hI.shared rfl rfl) fun _ => hI.shared rfl rfl
  inUnit unit _ _ := inUnit (I := I) (fun _ _ => hI.shared rfl rfl) unit
  inCall frame _ _ := inCall (I := I) (fun _ _ => hI.shared rfl rfl) frame
  blockItems? unit id := looking (.blockItems? unit id)
  functionParts f := looking (.functionParts f)
  memberParts unit id := looking (.memberParts unit id)
  templateParts t := looking (.templateParts t)

end

end SameWhile

end Eval

end DynScript
