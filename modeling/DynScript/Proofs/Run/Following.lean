import DynScript.Proofs.Session.Traversal
import DynScript.Proofs.Tree.Outline

/-!
# Following an evaluation

One evaluation follows another one over other units when it does the same wherever the other one does not run
out of fuel. Which units may stand for each other is left to a `Coupling`; their nodes have to be alike.
-/

namespace DynScript

theorem Node.Alike.symm {n n' : Node} (h : n.Alike n') : n'.Alike n := h.imp Eq.symm And.symm

namespace Arena

/-- The nodes of two arenas are alike, and what is assigned to is the same. -/
structure Resembles (a b : Arena) : Prop where
  /-- The nodes are alike. -/
  nodes : ∀ id, Option.Rel Node.Alike (a.get? id) (b.get? id)
  /-- What is assigned to is the same. -/
  targets : ∀ id target value position, a.get? id = some ⟨.assign target value, position⟩ →
    a.get? target = b.get? target

namespace Resembles

variable {a b : Arena}

theorem refl (a : Arena) : a.Resembles a where
  nodes id := by
    cases a.get? id with
    | none => exact .none
    | some node => exact .some (.inl rfl)
  targets _ _ _ _ _ := rfl

theorem symm (h : a.Resembles b) : b.Resembles a where
  nodes id := by
    have hn := h.nodes id
    revert hn
    generalize a.get? id = node
    generalize b.get? id = node'
    rintro (hm | _)
    · exact .some hm.symm
    · exact .none
  targets id target value position hn := by
    have hm := h.nodes id
    rw [hn] at hm
    generalize hid : a.get? id = node at hm
    cases hm with
    | some hm =>
      rcases hm with rfl | ⟨_, hj⟩
      · exact (h.targets id target value position hid).symm
      · simp [NodeKind.isJoint] at hj

end Resembles

end Arena

/-- Which units may stand for each other. -/
structure Coupling (R : Array Arena → Array Arena → Prop) : Prop where
  /-- There are as many. -/
  size : ∀ {U V : Array Arena}, R U V → V.size = U.size
  /-- The same unit may be added to both. -/
  push : ∀ {U V : Array Arena} (a : Arena), R U V → R (U.push a) (V.push a)
  /-- Units in the same place resemble each other. -/
  resembles : ∀ {U V : Array Arena} {i : Nat} {a b : Arena}, R U V → U[i]? = some a → V[i]? = some b →
    a.Resembles b

namespace Coupling

variable {R : Array Arena → Array Arena → Prop} (K : Coupling R)
include K

/-- Nodes in the same place are alike. -/
theorem node? {m : Machine} {V : Array Arena} (h : R m.world.units V) (unit : UnitId) (id : NodeId) :
    Option.Rel Node.Alike (m.world.node? unit id) ((m.withUnits V).world.node? unit id) := by
  show Option.Rel _ ((m.world.units[unit.index]?).bind _) ((V[unit.index]?).bind _)
  by_cases hlt : unit.index < m.world.units.size
  · have hlt' : unit.index < V.size := K.size h ▸ hlt
    rw [Array.getElem?_eq_getElem hlt, Array.getElem?_eq_getElem hlt']
    exact (K.resembles h (Array.getElem?_eq_getElem hlt) (Array.getElem?_eq_getElem hlt')).nodes id
  · rw [Array.getElem?_eq_none (by omega), Array.getElem?_eq_none (by have := K.size h; omega)]
    exact .none

end Coupling

/-- The units now, when they were `base` before. -/
structure Coupled (R : Array Arena → Array Arena → Prop) (base : Array Arena × Array Arena)
    (U V : Array Arena) : Prop where
  /-- They stand for each other. -/
  related : R U V
  /-- The former ones are there. -/
  left : base.1.toList <+: U.toList
  /-- So are those that stand for them. -/
  right : base.2.toList <+: V.toList

namespace Coupled

variable {R : Array Arena → Array Arena → Prop} {base : Array Arena × Array Arena} {U V U' V' : Array Arena}

theorem now (h : R U V) : Coupled R (U, V) U V := ⟨h, List.prefix_rfl, List.prefix_rfl⟩

theorem trans (h : Coupled R base U V) (k : Coupled R (U, V) U' V') : Coupled R base U' V' :=
  ⟨k.related, h.left.trans k.left, h.right.trans k.right⟩

end Coupled

namespace Eval

variable {α β : Type} {R : Array Arena → Array Arena → Prop} {base : Array Arena × Array Arena}

/-- From a machine and the units that stand for its units, the first step runs out of fuel, or the second one
does the same. -/
def FollowsAt (R : Array Arena → Array Arena → Prop) (x y : Eval α) (held : List Value) (m : Machine)
    (V : Array Arena) : Prop :=
  (x.runFrom held m).1 = .error (.stuck .outOfFuel) ∨
    ∃ V', Coupled R (m.world.units, V) (x.runFrom held m).2.world.units V' ∧
      y.runFrom held (m.withUnits V) = ((x.runFrom held m).1, (x.runFrom held m).2.withUnits V')

/-- Where the first step does not run out of fuel, the second one does the same over the units that stand for
its units, if those of `base` are among them. -/
def Follows (R : Array Arena → Array Arena → Prop) (base : Array Arena × Array Arena) (x y : Eval α) : Prop :=
  ∀ held (m : Machine) V, Coupled R base m.world.units V → FollowsAt R x y held m V

namespace Plain

/-- A plain step adds no units. -/
theorem units {x : Eval α} (hx : x.Plain) (held : List Value) (m : Machine) :
    (x.runFrom held m).2.world.units = m.world.units := by
  have h := hx.blind held m m.world.units
  rw [Machine.withUnits_self] at h
  exact congrArg (fun r => r.2.world.units) h

end Plain

namespace Follows

theorem ofPlain {x : Eval α} (hx : x.Plain) : Follows R base x x := by
  intro held m V h
  refine .inr ⟨V, ?_, hx.blind held m V⟩
  rw [hx.units]
  exact .now h.related

theorem bind {x y : Eval α} {k l : α → Eval β} (hx : Follows R base x y)
    (hk : ∀ a, Follows R base (k a) (l a)) : Follows R base (x >>= k) (y >>= l) := by
  intro held m V h
  unfold FollowsAt
  rw [runFrom_bind, runFrom_bind]
  rcases hx held m V h with hout | ⟨V', hc, hy⟩
  · left
    rcases hr : x.runFrom held m with ⟨r, n⟩
    rw [hr] at hout
    obtain rfl : r = _ := hout
    rfl
  · rw [hy]
    rcases hr : x.runFrom held m with ⟨_ | a, n⟩ <;> rw [hr] at hc
    · exact .inr ⟨V', hc, rfl⟩
    · rcases hk a held n V' (h.trans hc) with hout | ⟨V'', hc', hl⟩
      · exact .inl hout
      · exact .inr ⟨V'', hc.trans hc', hl⟩

/-- Looking at the end of a step is followed when it has nothing to do with the units and stays stuck. -/
theorem finishing {f : Except Interruption α → Machine → Except Interruption β × Machine} {x y : Eval α}
    (hx : Follows R base x y)
    (hb : ∀ result (m : Machine) units,
      f result (m.withUnits units) = ((f result m).1, (f result m).2.withUnits units))
    (hs : ∀ m, (f (.error (.stuck .outOfFuel)) m).1 = .error (.stuck .outOfFuel)) :
    Follows R base (finishing x f) (finishing y f) := by
  intro held m V h
  unfold FollowsAt
  simp only [runFrom_finishing]
  rcases hx held m V h with hout | ⟨V', hc, hy⟩
  · exact .inl (hout ▸ hs _)
  · refine .inr ⟨V', ?_, ?_⟩
    · have hu := congrArg (fun r => r.2.world.units) (hb (x.runFrom held m).1 (x.runFrom held m).2
        (x.runFrom held m).2.world.units)
      rw [show (f (x.runFrom held m).1 (x.runFrom held m).2).2.world.units =
        (x.runFrom held m).2.world.units from hu]
      exact hc
    · rw [hy]
      exact hb _ _ _

theorem afterwards {f : Machine → Machine} {x y : Eval α} (hx : Follows R base x y)
    (hb : ∀ (m : Machine) units, f (m.withUnits units) = (f m).withUnits units := by
      exact fun _ _ => rfl) :
    Follows R base (afterwards f x) (afterwards f y) :=
  hx.finishing (fun result m units => by rw [hb]) fun _ => rfl

/-- A change that has nothing to do with the units, and what comes after it. -/
theorem modify {f : Machine → Machine} {x y : Eval α} (hx : Follows R base x y)
    (hb : ∀ (m : Machine) units, f (m.withUnits units) = (f m).withUnits units := by
      exact fun _ _ => rfl) :
    Follows R base (modify f >>= fun _ => x) (modify f >>= fun _ => y) := by
  intro held m V h
  have hu : (f m).world.units = m.world.units :=
    congrArg (fun n => n.world.units) (hb m m.world.units)
  have hy := hx held (f m) V (hu.symm ▸ h)
  unfold FollowsAt at hy ⊢
  simp only [runFrom_bind, runFrom_modify, hb]
  rwa [hu] at hy

theorem inUnit {x y : Eval α} (unit : UnitId) (hx : Follows R base x y) :
    Follows R base (inUnit unit x) (inUnit unit y) := by
  intro held m V h
  exact (hx.afterwards (f := fun n => { n with unit := m.unit })).modify
    (f := fun n => { n with unit := unit }) (fun _ _ => rfl) held m V h

theorem reading {k l : Machine → Eval α} (hk : ∀ m, Follows R base (k m) (l m))
    (hl : ∀ m units, l (m.withUnits units) = l m := by exact fun _ _ => rfl) :
    Follows R base (get >>= k) (get >>= l) := by
  intro held m V h
  have hm := hk m held m V h
  unfold FollowsAt at hm ⊢
  simp only [runFrom_bind, runFrom_get, hl]
  exact hm

theorem mapFault {f : Machine → Fault → Fault} {x y : Eval α} (hx : Follows R base x y)
    (hf : ∀ (m : Machine) units, f (m.withUnits units) = f m := by exact fun _ _ => rfl) :
    Follows R base (mapFault f x) (mapFault f y) :=
  hx.finishing (fun result m units => by rcases result with ⟨_ | _⟩ | _ <;> simp only [hf]) fun _ => rfl

theorem inFrame {x y : Eval α} (push : Environment → Environment) (hx : Follows R base x y) :
    Follows R base (inFrame push x) (inFrame push y) :=
  reading fun _ => hx.afterwards.modify

theorem inCall {x y : Eval α} (frame : CallFrame) (hx : Follows R base x y) :
    Follows R base (inCall frame x) (inCall frame y) := by
  have hmap := hx.mapFault (f := fun m fault => m.calls.attachBacktrace m.world.heap fault)
  have henter := (hmap.afterwards (f := fun m => { m with calls := m.calls.pop })).modify
    (f := fun m => { m with calls := m.calls.enter frame })
  refine reading fun m => ?_
  split
  · exact (ofPlain (.fail _)).bind fun _ => henter
  · exact henter

theorem modifyWorld {f : World → World} {x y : Eval α} (hx : Follows R base x y)
    (hf : ∀ w units, f (w.withUnits units) = (f w).withUnits units := by exact fun _ _ => rfl) :
    Follows R base (modifyWorld f >>= fun _ => x) (modifyWorld f >>= fun _ => y) :=
  hx.modify fun m units => congrArg (fun w => { m with world := w }) (hf m.world units)

theorem loadOnce {x y : Eval RecordId} (path : Path) (hx : Follows R base x y) :
    Follows R base (loadOnce path x) (loadOnce path y) := by
  refine reading fun m => ?_
  split
  · exact ofPlain (.pure _)
  · exact ofPlain (.fail _)
  · refine modifyWorld (bind hx.afterwards fun record => ?_)
    exact modifyWorld (ofPlain (.pure _))

/-! ### Nodes -/

section

variable (K : Coupling R)
include K

omit K in
/-- Looking at a node and going on, when the nodes that may be seen make no difference. -/
theorem lookingAt {k l : Node → Eval α} {unit : UnitId} {id : NodeId} {P : Node → Node → Prop}
    (hrel : ∀ (m : Machine) V, Coupled R base m.world.units V →
      Option.Rel P (m.world.node? unit id) ((m.withUnits V).world.node? unit id))
    (h : ∀ n n', P n n' → Follows R base (k n) (l n')) :
    Follows R base (nodeIn unit id >>= k) (nodeIn unit id >>= l) := by
  intro held m V hc
  unfold FollowsAt
  rw [runFrom_nodeIn_bind, runFrom_nodeIn_bind]
  have hn := hrel m V hc
  revert hn
  generalize m.world.node? unit id = node
  generalize (m.withUnits V).world.node? unit id = node'
  rintro (hm | _)
  · exact h _ _ hm held m V hc
  · exact .inr ⟨V, .now hc.related, rfl⟩

/-- Looking at a node and going on, when alike nodes make no difference. -/
theorem nodeIn {k l : Node → Eval α} (unit : UnitId) (id : NodeId)
    (h : ∀ n n', Node.Alike n n' → Follows R base (k n) (l n')) :
    Follows R base (nodeIn unit id >>= k) (nodeIn unit id >>= l) :=
  lookingAt (fun _ _ hc => K.node? hc.related unit id) h

theorem nodeOf {k l : Node → Eval α} (unit : UnitId) (id : NodeId)
    (h : ∀ n n', Node.Alike n n' → Follows R base (k n) (l n')) :
    Follows R base (nodeOf unit id >>= k) (nodeOf unit id >>= l) := by
  rw [nodeOf_bind, nodeOf_bind]
  exact (ofPlain (.requireUnit ..)).bind fun _ => nodeIn K unit id h

theorem inNewMachine {x y : Eval α} (unit : CompiledUnit) (maxDepth : Nat) (hx : Follows R base x y) :
    Follows R base (inNewMachine unit maxDepth x) (inNewMachine unit maxDepth y) := by
  intro held m V h
  have hrelated := K.push unit.program.arena h.related
  have hpush (U : Array Arena) : U.toList <+: (U.push unit.program.arena).toList := by simp
  have hinner := hx (m.kept held) (Machine.start (m.world.addUnit unit.program.arena).2
    (m.world.addUnit unit.program.arena).1 unit.directory maxDepth) (V.push unit.program.arena)
    ⟨hrelated, h.left.trans (hpush _), h.right.trans (hpush _)⟩
  have hstart : (Machine.start (m.world.addUnit unit.program.arena).2
      (m.world.addUnit unit.program.arena).1 unit.directory maxDepth).withUnits (V.push unit.program.arena) =
      Machine.start ((m.world.withUnits V).addUnit unit.program.arena).2
        ((m.world.withUnits V).addUnit unit.program.arena).1 unit.directory maxDepth := by
    have hsize : V.size = m.world.units.size := K.size h.related
    simp only [World.addUnit, World.withUnits, hsize]
    rfl
  rcases hinner with hout | ⟨V', hcoupled, hy⟩
  · exact .inl hout
  · refine .inr ⟨V', ⟨hcoupled.related, (hpush _).trans hcoupled.left, (hpush _).trans hcoupled.right⟩, ?_⟩
    rw [hstart] at hy
    exact congrArg (fun r => (r.1, { m.withUnits V with world := r.2.world })) hy

omit K in
/-- What plainly comes after a node is followed if all calls and pipes come to the same. -/
theorem afterNode {k : Node → Eval α} (stop : Eval α) (hp : ∀ n, (k n).Plain)
    (hj : ∀ n, n.kind.isJoint = true → k n = stop) (n n' : Node) (h : n.Alike n') :
    Follows R base (k n) (k n') := by
  rcases h with rfl | ⟨h, h'⟩
  · exact ofPlain (hp n)
  · rw [hj n h, ← hj n' h']
    exact ofPlain (hp n')

/-- All of evaluation is put together so that it follows itself. -/
theorem congruence : Congruence fun x y => Follows R base x y where
  plain := ofPlain
  bind := bind
  ending hf hx := hx.finishing hf.blind (hf.stuck _)
  holding g _ _ hx := fun held m => hx (g held) m
  inScope hx := hx.inFrame _
  inRecord _ _ _ hx := hx.inFrame _
  withActive _ _ _ _ hx := hx.afterwards.modify
  inUnit unit _ _ hx := hx.inUnit unit
  inCall frame _ _ hx := hx.inCall frame
  blockItems? unit id := nodeOf K unit id <| afterNode (Pure.pure none)
    (fun n => by split <;> exact .pure _)
    fun ⟨kind, _⟩ h => by cases kind <;> simp [NodeKind.isJoint] at h <;> rfl
  functionParts f := nodeIn K f.unit f.node <| afterNode (Eval.defect (.misplacedNode f.node))
    (fun n => by split <;> first | exact .pure _ | exact .defect _)
    fun ⟨kind, _⟩ h => by cases kind <;> simp [NodeKind.isJoint] at h <;> rfl
  memberParts unit id := nodeOf K unit id <| afterNode (Eval.defect (.misplacedNode id))
    (fun n => by split <;> first | exact .pure _ | exact .defect _)
    fun ⟨kind, _⟩ h => by cases kind <;> simp [NodeKind.isJoint] at h <;> rfl
  templateParts t := nodeIn K t.unit t.node <| afterNode (Eval.defect (.misplacedNode t.node))
    (fun n => by split <;> first | exact .pure _ | exact .defect _)
    fun ⟨kind, _⟩ h => by cases kind <;> simp [NodeKind.isJoint] at h <;> rfl
  inNewMachine unit maxDepth _ _ := inNewMachine K unit maxDepth
  loadFile file _ _ hx := bind (ofPlain (.located file)) fun path => loadOnce path (hx path)

/-- What is assigned to is the same wherever the assignment was. -/
theorem assignee {unit : UnitId} {id target value : NodeId} {position : Option Position}
    (hn : (base.1[unit.index]?).bind (·.get? id) = some ⟨.assign target value, position⟩) :
    Follows R base (assignee unit target) (assignee unit target) := by
  unfold Eval.assignee
  rw [nodeOf_bind]
  refine (ofPlain (.requireUnit ..)).bind fun _ => lookingAt (P := Eq) ?_ fun n n' h => ?_
  · intro m V hc
    obtain ⟨a, ha, hn⟩ := Option.bind_eq_some_iff.1 hn
    have hm := getElem?_of_prefix hc.left ha
    have hlt : unit.index < V.size := K.size hc.related ▸ (Array.getElem?_eq_some_iff.1 hm).1
    have hv := Array.getElem?_eq_getElem hlt
    have htarget := (K.resembles hc.related hm hv).targets id target value position hn
    show Option.Rel _ ((m.world.units[unit.index]?).bind _) ((V[unit.index]?).bind _)
    rw [hm, hv]
    show Option.Rel _ (a.get? target) (V[unit.index].get? target)
    rw [htarget]
    cases V[unit.index].get? target <;> constructor
    rfl
  · rw [← h]
    exact ofPlain (by split <;> first | exact .pure _ | exact .fail _)

/-- A step towards the value of a node is followed where the nodes are the same. -/
theorem nodeStep {eval eval' : Evaluator} (he : ∀ base id, Follows R base (eval id) (eval' id))
    (imports : Imports) {id : NodeId} {held : List Value} {m : Machine} {V : Array Arena}
    (h : R m.world.units V) (hn : m.world.node? m.unit id = (m.withUnits V).world.node? m.unit id) :
    FollowsAt R (nodeStep imports.loader eval id) (nodeStep imports.loader eval' id) held m V := by
  unfold FollowsAt
  rw [runFrom_nodeStep, runFrom_nodeStep, show (m.withUnits V).unit = m.unit from rfl, ← hn]
  cases hnode : m.world.node? m.unit id with
  | none => exact .inr ⟨V, .now h, rfl⟩
  | some n =>
    -- From here on the units are at least those of now, so the node is still what it is when it is assigned to.
    have H : Congruence fun x y => Follows R (m.world.units, V) x y := congruence K
    have hown := H.within (he _) m.unit
    have hload := H.loader (he _) imports
    refine H.locating n.position ?_ held m V (.now h)
    refine H.nodeKind hown (he _) hload m.unit id n fun target value hk => ?_
    obtain ⟨kind, position⟩ := n
    obtain rfl : kind = .assign target value := hk
    exact assignee K hnode

end

end Follows

/-! ## More fuel -/

/-- The same units stand for each other. -/
theorem coupling_eq : Coupling Eq where
  size h := h ▸ rfl
  push _ h := h ▸ rfl
  resembles h ha hb := by
    subst h
    obtain rfl := Option.some.inj (ha.symm.trans hb)
    exact .refl _

/-- More fuel makes a difference only where it has run out. -/
theorem follows_more_fuel (imports : Imports) (fuel more : Nat) (base : Array Arena × Array Arena)
    (id : NodeId) :
    Follows Eq base (evalWithin imports.loader fuel id) (evalWithin imports.loader (fuel + more) id) := by
  induction fuel generalizing base id with
  | zero => exact fun held m V h => .inl rfl
  | succ fuel ih =>
    intro held m V h
    rw [Nat.succ_add]
    refine Follows.nodeStep coupling_eq (fun base id => ih base id) imports h.related ?_
    rw [← h.related]
    rfl

/-- A step that follows another one over the same units does the same, unless that one runs out of fuel. -/
theorem Follows.runFrom_eq {x y : Eval α} (h : Follows Eq (#[], #[]) x y) {held : List Value} {m : Machine}
    (hx : (x.runFrom held m).1 ≠ .error (.stuck .outOfFuel)) : y.runFrom held m = x.runFrom held m := by
  rcases h held m m.world.units ⟨rfl, by simp, by simp⟩ with hout | ⟨V, hc, hy⟩
  · exact absurd hout hx
  · exact hy.trans (by rw [← hc.related, Machine.withUnits_self])

/-- More fuel makes no difference where it has not run out. -/
theorem evalWithin_more_fuel (imports : Imports) {fuel fuel' : Nat} (hle : fuel ≤ fuel') {id : NodeId}
    {held : List Value} {m : Machine}
    (h : ((evalWithin imports.loader fuel id).runFrom held m).1 ≠ .error (.stuck .outOfFuel)) :
    (evalWithin imports.loader fuel' id).runFrom held m =
      (evalWithin imports.loader fuel id).runFrom held m := by
  obtain ⟨more, rfl⟩ := Nat.exists_eq_add_of_le hle
  exact (follows_more_fuel imports fuel more _ id).runFrom_eq h

end Eval

end DynScript
