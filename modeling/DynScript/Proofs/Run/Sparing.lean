import DynScript.Proofs.Run.Leaving
import DynScript.Proofs.Run.Shielding

/-!
# Steps that spare variables

`Eval.Sparing` says of a step that the variables of a name have the same values in the end, but perhaps in the
innermost frames. It is put together in the few ways in which evaluation is: what happens in a scope of its own may
change the variables of that scope.
-/

namespace DynScript

namespace Machine

/-- The variables of a name have the same values in the first frames of two machines. -/
def Spares (name : String) (k : Nat) (m n : Machine) : Prop :=
  ∀ i < k, n.env.variableAt? name i = m.env.variableAt? name i

theorem Spares.mono {name : String} {k k' : Nat} {m n : Machine} (h : m.Spares name k n) (hk : k' ≤ k) :
    m.Spares name k' n := fun i hi => h i (by omega)

/-- Behind a name in the innermost frame the variables of the name are out of reach. -/
theorem Shields.spares {name : String} {m n : Machine} (h : m.Shields n)
    (hb : m.env.BindsInnermost m.world.heap name) : m.Spares name (m.env.depth - 1) n := by
  obtain ⟨frame, hframe, hname⟩ := hb
  exact fun i hi => h.outer hframe hname hi

/-- `P` is known of the machines in which steps begin and `C` of those in which they end. Only the unit that is being
evaluated and the units that there are matter. -/
structure Stage (P C : Machine → Prop) : Prop where
  /-- Units may be added. -/
  later : ∀ {m n : Machine}, n.unit = m.unit → m.world.units.toList <+: n.world.units.toList → P m → P n
  /-- What is known of the units is known of those that were there before. -/
  earlier : ∀ {m n : Machine}, m.world.units.toList <+: n.world.units.toList → C n → C m

theorem stage_evaluates {C : Machine → Prop} (unit : UnitId) (a : Arena)
    (hC : ∀ {m n : Machine}, m.world.units.toList <+: n.world.units.toList → C n → C m) :
    Stage (Evaluates unit a) C where
  later hunit hunits hm := ⟨hunit.trans hm.current, getElem?_of_prefix hunits hm.nodes⟩
  earlier := hC

/-- What stands open in the first machine stands open in the second one. If `C` holds there then the variables of a
name are as they were, except for those in the innermost `d` frames. -/
structure Sparing (C : Machine → Prop) (name : String) (d : Nat) (m n : Machine) : Prop where
  /-- What stands open. -/
  restored : m.Restored n
  /-- Frames that have a name shield the variables behind them. -/
  shields : m.Shields n
  /-- The variables. -/
  spares : C n → m.Spares name (m.env.depth - d) n

namespace Sparing

variable {P C : Machine → Prop} {name : String} {d : Nat} {l m n : Machine}

theorem refl (m : Machine) : m.Sparing C name d m := ⟨.refl m, .refl m, fun _ _ _ => rfl⟩

theorem trans (hS : Stage P C) (h : l.Sparing C name d m) (k : m.Sparing C name d n) : l.Sparing C name d n := by
  refine ⟨h.restored.trans k.restored, h.shields.trans k.shields, fun hC i hi => ?_⟩
  have hi' : i < m.env.depth - d := by
    rw [h.restored.depth]
    exact hi
  exact (k.spares hC i hi').trans (h.spares (hS.earlier k.restored.units hC) i hi)

theorem weaken {d' : Nat} (h : m.Sparing C name d n) (hd : d ≤ d') : m.Sparing C name d' n :=
  ⟨h.restored, h.shields, fun hC => (h.spares hC).mono (by omega)⟩

/-- If the names stay then so do the variables. -/
theorem of_env (hr : m.Restored n) (hs : m.Shields n) (he : n.env.frames = m.env.frames) : m.Sparing C name d n :=
  ⟨hr, hs, fun _ _ _ => Environment.variableAt?_congr (by rw [he])⟩

/-- Changes before and after that have nothing to do with the frames and the world make no difference. -/
theorem between (hS : Stage P C) {m' n' : Machine} (h : m'.Sparing C name d n') (hr : m.Restored n)
    (hm : m'.env.frames = m.env.frames ∧ m'.world = m.world) (hn : n.env.frames = n'.env.frames ∧ n.world = n'.world) :
    m.Sparing C name d n := by
  have hopen : m.Shields m' := .still hm.1 (by rw [hm.2])
  have hclose : n'.Shields n := .still hn.1 (by rw [hn.2])
  refine ⟨hr, (hopen.trans h.shields).trans hclose, fun hC i hi => ?_⟩
  have hdepth : m'.env.depth = m.env.depth := congrArg Array.size hm.1
  have hend : C n' := by
    apply hS.earlier _ hC
    rw [hn.2]
  have hbefore : m'.env.variableAt? name i = m.env.variableAt? name i := Environment.variableAt?_congr (by rw [hm.1])
  have hafter : n.env.variableAt? name i = n'.env.variableAt? name i := Environment.variableAt?_congr (by rw [hn.1])
  exact hafter.trans ((h.spares hend i (by omega)).trans hbefore)

/-- In a frame of its own, which is cut off again, variables may be changed. -/
theorem inFrame {env : Environment} {frame : Frame} (hpush : env.frames = m.env.frames.push frame)
    (hactive : env.active = m.env.active) (h : Sparing C name 1 { m with env } n)
    (hC : C { n with env := n.env.truncate m.env.depth } → C n) :
    m.Sparing C name d { n with env := n.env.truncate m.env.depth } := by
  have hdepth : env.depth = m.env.depth + 1 := by
    unfold Environment.depth
    rw [hpush, Array.size_push]
  refine ⟨.inFrame hdepth hactive h.restored, .inFrame hpush h.shields, fun hend i hi => ?_⟩
  have hi' : i < m.env.depth := by omega
  have hinner : n.env.variableAt? name i = env.variableAt? name i := by
    apply h.spares (hC hend) i
    show i < env.depth - 1
    omega
  have hbelow : env.frames[i]? = m.env.frames[i]? := by
    rw [hpush]
    exact Environment.getElem?_push hi'
  exact (Environment.variableAt?_truncate hi').trans (hinner.trans (Environment.variableAt?_congr hbelow))

end Sparing

end Machine

namespace Eval

variable {α β : Type} {P C : Machine → Prop} {name other : String} {d : Nat}

/-- A step that spares the variables of a name when it begins where `P` holds. -/
def Sparing (P C : Machine → Prop) (name : String) (d : Nat) (x : Eval α) : Prop :=
  ∀ held (m : Machine), P m → m.Sparing C name d (x.runFrom held m).2

namespace Sparing

theorem weaken {d' : Nat} {x : Eval α} (hx : Sparing P C name d x) (hd : d ≤ d') : Sparing P C name d' x :=
  fun held m hm => (hx held m hm).weaken hd

theorem anywhere {x : Eval α} (hx : Sparing (fun _ => True) C name d x) : Sparing P C name d x :=
  fun held m _ => hx held m trivial

/-- A step that leaves the names alone. -/
theorem of_env {x : Eval α} (hr : Restoring x) (hs : Shielding x)
    (he : ∀ held (m : Machine), (x.runFrom held m).2.env = m.env) :
    Sparing P C name d x :=
  fun held m _ => .of_env (hr held m) (hs held m) (by rw [he])

theorem still {x : Eval α} (hx : x.Still) : Sparing P C name d x := of_env (.ofPlain hx.toPlain) (.still hx) hx.env

theorem throw (e : Interruption) : Sparing P C name d (MonadExcept.throw e : Eval α) := fun _ m _ => .refl m

theorem looking {x : Eval α} (hx : Looks x) : Sparing P C name d x := fun held m _ => by
  rw [hx held m]
  exact .refl m

/-- Looking at a machine and going on. -/
theorem reading {k : Machine → Eval α} (hk : ∀ m, P m → Sparing P C name d (k m)) : Sparing P C name d (get >>= k) :=
  fun held m hm => hk m hm held m hm

theorem holding (g : List Value → List Value) {x : Eval α} (hx : Sparing P C name d x) :
    Sparing P C name d (withReader g x) :=
  fun held => hx (g held)

section

variable (hS : Machine.Stage P C)
include hS

theorem finishing {x : Eval α} {f : Except Interruption α → Machine → Except Interruption β × Machine}
    (hr : ∀ result (m : Machine), m.Restored (f result m).2)
    (hf : ∀ result (m : Machine), (f result m).2.env = m.env ∧ (f result m).2.world = m.world)
    (hx : Sparing P C name d x) : Sparing P C name d (finishing x f) := by
  intro held m hm
  have hend (result : Except Interruption α) (n : Machine) : n.Sparing C name d (f result n).2 := by
    obtain ⟨henv, hworld⟩ := hf result n
    exact .of_env (hr result n) (.still (by rw [henv]) (by rw [hworld])) (by rw [henv])
  exact (hx held m hm).trans hS (hend _ _)

theorem ending {f : Except Interruption α → Machine → Except Interruption β × Machine} (hf : Ending f) {x : Eval α}
    (hx : Sparing P C name d x) : Sparing P C name d (Eval.finishing x f) :=
  hx.finishing hS hf.restored fun result m => ⟨hf.env result m, hf.world result m⟩

/-- A sequence, when what goes on is known only of the machine in which it goes on. -/
theorem bindFrom {x : Eval α} {k : α → Eval β} {held : List Value} {m : Machine}
    (hx : m.Sparing C name d (x.runFrom held m).2)
    (hk : ∀ v n, x.runFrom held m = (.ok v, n) → m.Sparing C name d n → n.Sparing C name d ((k v).runFrom held n).2) :
    m.Sparing C name d ((x >>= k).runFrom held m).2 := by
  rw [runFrom_bind]
  rcases hr : x.runFrom held m with ⟨e | v, n⟩ <;> rw [hr] at hx
  · exact hx
  · exact hx.trans hS (hk v n hr hx)

theorem bind {x : Eval α} {k : α → Eval β} (hx : Sparing P C name d x) (hk : ∀ v, Sparing P C name d (k v)) :
    Sparing P C name d (x >>= k) := fun held m hm =>
  bindFrom hS (hx held m hm) fun v n _ hn => hk v held n (hS.later hn.restored.unit hn.restored.units hm)

/-- A step in a frame of its own, from the machine in which it begins. -/
theorem inFrameFrom (push : Environment → Environment) {x : Eval α} {held : List Value} {m : Machine}
    (hpush : ∃ frame, (push m.env).frames = m.env.frames.push frame) (hactive : (push m.env).active = m.env.active)
    (hx : Machine.Sparing C name 1 { m with env := push m.env } (x.runFrom held { m with env := push m.env }).2) :
    m.Sparing C name d ((Eval.inFrame push x).runFrom held m).2 := by
  obtain ⟨frame, hframe⟩ := hpush
  exact .inFrame hframe hactive hx (hS.earlier List.prefix_rfl)

theorem inFrame (push : Environment → Environment) (hpush : ∀ env, ∃ frame, (push env).frames = env.frames.push frame)
    (hactive : ∀ env, (push env).active = env.active) {x : Eval α} (hx : Sparing P C name 1 x) :
    Sparing P C name d (inFrame push x) := by
  intro held m hm
  have hm' : P { m with env := push m.env } := hS.later (m := m) rfl List.prefix_rfl hm
  exact inFrameFrom hS push (hpush m.env) (hactive m.env) (hx held _ hm')

theorem inScope {x : Eval α} (hx : Sparing P C name 1 x) : Sparing P C name d (inScope x) :=
  inFrame hS Environment.pushScope (fun _ => ⟨_, rfl⟩) (fun _ => rfl) hx

theorem inRecord (r : RecordId) {x : Eval α} (hx : Sparing P C name 1 x) : Sparing P C name d (inRecord r x) :=
  inFrame hS (·.pushRecord r) (fun _ => ⟨_, rfl⟩) (fun _ => rfl) hx

theorem composition (hd : d ≤ 1) : Composition fun x _ => Sparing P C name d x where
  still := still
  bind := bind hS
  holding g _ _ := holding g
  inScope h := inScope hS (h.weaken hd)
  inRecord r _ _ h := inRecord hS r (h.weaken hd)

end

/-- Looking at a node of the unit and going on. -/
theorem nodeIn {unit : UnitId} {a : Arena} {id : NodeId} {k : Node → Eval α}
    (hk : ∀ node, a.get? id = some node → Sparing (Machine.Evaluates unit a) C name d (k node)) :
    Sparing (Machine.Evaluates unit a) C name d (Eval.nodeIn unit id >>= k) := by
  intro held m hm
  rw [runFrom_nodeIn_bind, hm.node?]
  cases hn : a.get? id with
  | none => exact .refl m
  | some node => exact hk node hn held m hm

/-! ### Names -/

/-- What is defined is a variable of the innermost frame. -/
theorem define (other : String) (v : Value) : Sparing P C name 1 (define other v) := by
  intro held m _
  refine ⟨Restoring.ofPlain (Simple.define other v).toPlain held m, Shielding.define other v held m, fun _ i hi => ?_⟩
  show (m.env.put m.world.heap other v m.env.innermost).1.variableAt? name i = _
  cases hholder : m.env.innermost with
  | record r => rfl
  | locals index =>
    have hlast := Environment.eq_of_innermost hholder
    exact Environment.variableAt?_put (by omega)

theorem define_of_ne (hne : name ≠ other) (v : Value) : Sparing P C name d (Eval.define other v) := fun held m _ =>
  ⟨Restoring.ofPlain (Simple.define other v).toPlain held m, Shielding.define other v held m,
    fun _ _ _ => Environment.variableAt?_put_of_ne hne⟩

theorem assign_of_ne (hne : name ≠ other) (v : Value) : Sparing P C name d (assign other v) := by
  intro held m _
  refine ⟨Restoring.ofPlain (Simple.assign other v).toPlain held m, Shielding.assign other v held m, fun _ i _ => ?_⟩
  rw [Eval.assign, runFrom_bind, runFrom_target?]
  dsimp only
  cases m.env.target? m.world.heap other with
  | some holder => exact Environment.variableAt?_put_of_ne hne
  | none => rfl

/-! ### Calls -/

theorem restoring {x : Eval α} (hx : Sparing (fun _ => True) C name d x) : Restoring x :=
  fun held m => (hx held m trivial).restored

theorem inCall (hS : Machine.Stage (fun _ => True) C) (frame : CallFrame) {x : Eval α}
    (hx : Sparing (fun _ => True) C name d x) : Sparing (fun _ => True) C name d (inCall frame x) := by
  have hmap : Sparing (fun _ => True) C name d
      (mapFault (fun m fault => m.calls.attachBacktrace m.world.heap fault) x) :=
    hx.finishing hS (fun result m => by split <;> rfl) fun result m => by split <;> exact ⟨rfl, rfl⟩
  have hcall : Sparing (fun _ => True) C name d (modify (fun m => { m with calls := m.calls.enter frame }) >>= fun _ =>
      afterwards (fun m => { m with calls := m.calls.pop })
        (mapFault (fun m fault => m.calls.attachBacktrace m.world.heap fault) x)) := by
    intro held m _
    have hn := hmap held { m with calls := m.calls.enter frame } trivial
    exact hn.between hS (Restoring.entering frame hmap.restoring held m) ⟨rfl, rfl⟩ ⟨rfl, rfl⟩
  refine reading fun m _ => ?_
  split
  · exact bind hS (throw _) fun _ => hcall
  · exact hcall

/-- Calls spare variables where the bodies of functions and classes do. -/
theorem invoking (hS : Machine.Stage (fun _ => True) C) (hd : d ≤ 1) :
    Invoking fun x _ => Sparing (fun _ => True) C name d x where
  toComposition := composition hS hd
  raise _ := throw _
  passing hf := ending hS hf.toEnding
  withActive r _ _ _ h := fun held m _ => by
    have hn := h held { m with env := m.env.enter r } trivial
    exact hn.between hS (Restoring.withActive r h.restoring held m) ⟨rfl, rfl⟩ ⟨rfl, rfl⟩
  inUnit unit _ _ h := fun held m _ => by
    have hn := h held { m with unit } trivial
    exact hn.between hS (Restoring.inUnit unit h.restoring held m) ⟨rfl, rfl⟩ ⟨rfl, rfl⟩
  inCall frame _ _ := inCall hS frame
  blockItems? unit id := looking (.blockItems? unit id)
  functionParts f := looking (.functionParts f)
  memberParts unit id := looking (.memberParts unit id)
  templateParts t := looking (.templateParts t)

/-- Bodies are evaluated in a frame of their own, so they spare all variables of the frames around it. -/
theorem bodies (hS : Machine.Stage (fun _ => True) C) {eval : Evaluator}
    (he : ∀ id, Sparing (fun _ => True) C name 1 (eval id)) :
    Bodies (fun x _ => Sparing (fun _ => True) C name 0 x) .usual .usual eval eval := by
  have H : Invoking fun x _ => Sparing (fun _ => True) C name 1 x := invoking hS le_rfl
  have hdefine (bound : List (String × Value)) : Sparing (fun _ => True) C name 1 (defineAll bound) := by
    induction bound with
    | nil => exact still (.pure _)
    | cons entry rest ih => exact bind hS (define entry.1 entry.2) fun _ => ih
  have hwithin (unit : UnitId) := @Invoking.within _ H eval eval he unit
  constructor
  · intro _ unit bound id
    exact inScope hS (bind hS (hdefine bound) fun _ =>
      @Invoking.body _ H (within unit eval) (within unit eval) (hwithin unit) unit id)
  · intro unit r ids
    exact inRecord hS r (@Invoking.members _ H (within unit eval) (within unit eval) (hwithin unit) unit r ids)

end Sparing

end Eval

end DynScript
