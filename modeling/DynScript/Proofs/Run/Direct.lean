import DynScript.Proofs.Run.Following
import DynScript.Proofs.Tree.Direct

/-!
# Evaluating pipes as calls

A pipe that has been desugared evaluates to what its right operand evaluates to. Over the units of a direct
program the call that is written for it is evaluated at once, with a step less. Otherwise the two evaluations
are the same, and each of them follows the other one when it has some more fuel.
-/

namespace DynScript

theorem Arena.Unpiped.resembles {a b : Arena} (h : a.Unpiped b) : a.Resembles b where
  nodes id := by
    rcases h.nodes id with hsame | ⟨lhs, rhs, position, hp, -, -, callee, args, position', hc⟩
    · rw [hsame]
      exact (Arena.Resembles.refl b).nodes id
    · rw [hp, hc]
      exact .some (.inr ⟨rfl, rfl⟩)
  targets := h.targets

/-- The units of the second row are those of the first one, apart from pipes that have been desugared, and none
of these stands at `bound` or after it. -/
structure Unpiping (bound : Nat) (U V : Array Arena) : Prop where
  /-- There are as many. -/
  size : V.size = U.size
  /-- The nodes are the same, apart from pipes. -/
  unpiped : ∀ {i : Nat} {a b : Arena}, U[i]? = some a → V[i]? = some b → a.Unpiped b
  /-- Where the pipes stand. -/
  bounded : ∀ {i : Nat} {a b : Arena}, U[i]? = some a → V[i]? = some b →
    ∀ id, a.get? id = b.get? id ∨ id.index < bound

namespace Unpiping

variable {bound : Nat} {U V : Array Arena}

theorem push (h : Unpiping bound U V) {a b : Arena} (hab : a.Unpiped b)
    (hb : ∀ id, a.get? id = b.get? id ∨ id.index < bound) : Unpiping bound (U.push a) (V.push b) where
  size := by simp [h.size]
  unpiped {i a' b'} ha' hb' := by
    rw [Array.getElem?_push] at ha' hb'
    rw [h.size] at hb'
    split_ifs at ha' hb'
    · obtain rfl := Option.some.inj ha'
      obtain rfl := Option.some.inj hb'
      exact hab
    · exact h.unpiped ha' hb'
  bounded {i a' b'} ha' hb' := by
    rw [Array.getElem?_push] at ha' hb'
    rw [h.size] at hb'
    split_ifs at ha' hb'
    · obtain rfl := Option.some.inj ha'
      obtain rfl := Option.some.inj hb'
      exact hb
    · exact h.bounded ha' hb'

theorem refl (bound : Nat) (U : Array Arena) : Unpiping bound U U where
  size := rfl
  unpiped ha hb := by
    obtain rfl := Option.some.inj (ha.symm.trans hb)
    exact .refl _
  bounded ha hb id := by
    obtain rfl := Option.some.inj (ha.symm.trans hb)
    exact .inl rfl

theorem coupling (bound : Nat) : Coupling (Unpiping bound) where
  size h := h.size
  push a h := h.push (.refl a) fun _ => .inl rfl
  resembles h ha hb := (h.unpiped ha hb).resembles

/-- The direct units may come first, too. -/
theorem coupling_flip (bound : Nat) : Coupling fun U V => Unpiping bound V U where
  size h := h.size.symm
  push a h := h.push (.refl a) fun _ => .inl rfl
  resembles h ha hb := (h.unpiped hb ha).resembles.symm

/-- A node is the same, or it is a pipe for which the call of its right operand is written. -/
theorem node? {w v : World} (h : Unpiping bound w.units v.units) (unit : UnitId) (id : NodeId) :
    w.node? unit id = v.node? unit id ∨
      ∃ lhs rhs position, w.node? unit id = some ⟨.pipe lhs rhs true, position⟩ ∧
        rhs.index < id.index ∧ id.index < bound ∧ ∃ callee args position',
          v.node? unit id = some ⟨.call callee args, some position'⟩ ∧
          v.node? unit rhs = some ⟨.call callee args, some position'⟩ := by
  unfold World.node?
  by_cases hlt : unit.index < w.units.size
  · have ha := Array.getElem?_eq_getElem hlt
    have hb := Array.getElem?_eq_getElem (h.size.symm ▸ hlt : unit.index < v.units.size)
    rw [ha, hb]
    simp only [Option.bind_some]
    rcases (h.unpiped ha hb).nodes id with
      hsame | ⟨lhs, rhs, position, hp, hr, hc, callee, args, position', hcall⟩
    · exact .inl hsame
    · rcases h.bounded ha hb id with hsame | hbound
      · exact .inl hsame
      · exact .inr ⟨lhs, rhs, position, hp, hr, hbound, callee, args, position', hcall, hc ▸ hcall⟩
  · left
    rw [Array.getElem?_eq_none (by omega), Array.getElem?_eq_none (by have := h.size; omega)]

end Unpiping

namespace Eval

variable {α : Type} {bound : Nat}

/-! ## Steps that know their place -/

/-- A step ends in no fault whose place is missing. -/
def Located (r : Except Interruption α) : Prop :=
  ∀ fault, r = .error (.fault fault) → fault.isSignal = true ∨ fault.position.isSome

/-- A fault that leaves a place gets it. -/
theorem located_locating (position : Position) (x : Eval α) (held : List Value) (m : Machine) :
    Located ((locating (some position) x).runFrom held m).1 := by
  intro fault h
  unfold locating mapFault at h
  rw [runFrom_finishing] at h
  rcases hx : x.runFrom held m with ⟨⟨inner | stuck⟩ | a, n⟩ <;> rw [hx] at h <;> dsimp only at h
  · obtain rfl := Interruption.fault.inj (Except.error.inj h)
    by_cases hs : inner.isSignal = true
    · exact .inl (by rw [if_pos hs, hs])
    · rw [if_neg hs]
      right
      cases hp : inner.position <;> simp [Fault.locatedAt, hp]
  · cases h
  · cases h

/-- Where no place is missing, none is added. -/
theorem runFrom_locating {position : Option Position} {x : Eval α} {held : List Value} {m : Machine}
    (h : Located (x.runFrom held m).1) : (locating position x).runFrom held m = x.runFrom held m := by
  unfold locating mapFault
  rw [runFrom_finishing]
  rcases hx : x.runFrom held m with ⟨⟨fault | stuck⟩ | a, n⟩
  · rw [hx] at h
    dsimp only
    split
    · rfl
    · rename_i hs
      obtain ⟨p, hp⟩ := Option.isSome_iff_exists.1 ((h fault rfl).resolve_left hs)
      simp [Fault.locatedAt, hp]
      rw [← hp]
  · rfl
  · rfl

/-- A pipe that has been desugared is evaluated by its right operand. -/
theorem runFrom_nodeStep_pipe {load : Loader} {eval : Evaluator} {id lhs rhs : NodeId}
    {position : Option Position} {m : Machine}
    (h : m.world.node? m.unit id = some ⟨.pipe lhs rhs true, position⟩) (held : List Value) :
    (nodeStep load eval id).runFrom held m = (locating position (eval rhs)).runFrom held m := by
  rw [runFrom_nodeStep, h]
  show (locating position (within m.unit eval rhs)).runFrom held m = _
  unfold locating mapFault
  rw [runFrom_finishing, runFrom_finishing]
  have hwithin : (within m.unit eval rhs).runFrom held m = (eval rhs).runFrom held m := by
    rw [within, runFrom_bind]
    simp [requireUnit, runFrom_bind]
  rw [hwithin]

/-- A call is evaluated alike wherever it stands. -/
theorem runFrom_nodeStep_call {load : Loader} {eval : Evaluator} {id id' callee : NodeId} {args : List NodeId}
    {position : Option Position} {m : Machine}
    (h : m.world.node? m.unit id = some ⟨.call callee args, position⟩)
    (h' : m.world.node? m.unit id' = some ⟨.call callee args, position⟩) (held : List Value) :
    (nodeStep load eval id).runFrom held m = (nodeStep load eval id').runFrom held m := by
  rw [runFrom_nodeStep, runFrom_nodeStep, h, h']
  rfl

/-- A call is evaluated to something whose place is known. -/
theorem located_nodeStep_call {load : Loader} {eval : Evaluator} {id callee : NodeId} {args : List NodeId}
    {position : Position} {m : Machine}
    (h : m.world.node? m.unit id = some ⟨.call callee args, some position⟩) (held : List Value) :
    Located ((nodeStep load eval id).runFrom held m).1 := by
  rw [runFrom_nodeStep, h]
  exact located_locating position _ held m

/-! ## Each follows the other -/

theorem Follows.more_fuel {R : Array Arena → Array Arena → Prop} {imports : Imports} {x : Eval Value}
    {fuel fuel' : Nat} {id : NodeId} {held : List Value} {m : Machine} {V : Array Arena}
    (h : FollowsAt R x (evalWithin imports.loader fuel id) held m V) (hle : fuel ≤ fuel') :
    FollowsAt R x (evalWithin imports.loader fuel' id) held m V := by
  by_cases hout : (x.runFrom held m).1 = .error (.stuck .outOfFuel)
  · exact .inl hout
  · obtain ⟨V', hc, hy⟩ := h.resolve_left hout
    refine .inr ⟨V', hc, ?_⟩
    rw [evalWithin_more_fuel imports hle (by rwa [hy]), hy]

/-- Over the direct units a node is evaluated to the same, with the same fuel. -/
theorem direct_follows (imports : Imports) (fuel : Nat) (base : Array Arena × Array Arena) (id : NodeId) :
    Follows (Unpiping bound) base (evalWithin imports.loader fuel id)
      (evalWithin imports.loader fuel id) := by
  induction fuel generalizing base id with
  | zero => exact fun held m V h => .inl rfl
  | succ fuel ih =>
    intro held m V h
    rcases h.related.node? (v := (m.withUnits V).world) m.unit id with
      hsame | ⟨lhs, rhs, position, hp, -, -, callee, args, position', hc, hc'⟩
    · exact Follows.nodeStep (Unpiping.coupling bound) ih imports h.related hsame
    · -- The pipe takes a step to its right operand, the call is there already.
      have hpipe : (evalWithin imports.loader (fuel + 1) id).runFrom held m =
          (locating position (evalWithin imports.loader fuel rhs)).runFrom held m :=
        runFrom_nodeStep_pipe hp held
      have hcall : (evalWithin imports.loader (fuel + 1) id).runFrom held (m.withUnits V) =
          (evalWithin imports.loader (fuel + 1) rhs).runFrom held (m.withUnits V) :=
        runFrom_nodeStep_call hc hc' held
      unfold FollowsAt
      rw [hpipe, hcall]
      have hlocated : Located ((evalWithin imports.loader (fuel + 1) rhs).runFrom held (m.withUnits V)).1 :=
        located_nodeStep_call (m := m.withUnits V) hc' held
      rcases Follows.more_fuel (ih base rhs held m V h) fuel.le_succ with hout | ⟨V', hcoupled, hy⟩
      · left
        unfold locating mapFault
        rw [runFrom_finishing, hout]
      · rw [hy] at hlocated
        rw [runFrom_locating hlocated]
        exact .inr ⟨V', hcoupled, hy⟩

/-- Over the units with pipes a node is evaluated to what it is over the direct ones, when the fuel makes up
for the pipes: there are less than `bound` in a row. -/
theorem piped_follows (imports : Imports) (fuel : Nat) (base : Array Arena × Array Arena) (id : NodeId) :
    Follows (fun U V => Unpiping bound V U) base (evalWithin imports.loader fuel id)
      (evalWithin imports.loader (fuel * (bound + 1)) id) := by
  induction fuel generalizing base id with
  | zero => exact fun held m V h => .inl rfl
  | succ fuel ih =>
    intro held m V h
    -- In a row of pipes the numbers fall, so a step is granted to each of them before the fuel is used.
    have hrow (levels : Nat) (id : NodeId) (hid : min id.index bound ≤ levels) :
        FollowsAt (fun U V => Unpiping bound V U) (evalWithin imports.loader (fuel + 1) id)
          (evalWithin imports.loader (fuel * (bound + 1) + levels + 1) id) held m V := by
      induction hi : id.index using Nat.strong_induction_on generalizing id levels with
      | _ i ihrow =>
        rcases Unpiping.node? (w := (m.withUnits V).world) (v := m.world) h.related m.unit id with
          hsame | ⟨lhs, rhs, position, hp, hlt, hbound, callee, args, position', hc, hc'⟩
        · exact Follows.nodeStep (Unpiping.coupling_flip bound)
            (fun base id held m V h => Follows.more_fuel (ih base id held m V h) (Nat.le_add_right ..))
            imports h.related hsame.symm
        · obtain ⟨l, rfl⟩ : ∃ l, levels = l + 1 := ⟨levels - 1, by omega⟩
          have hcall : (evalWithin imports.loader (fuel + 1) id).runFrom held m =
              (evalWithin imports.loader (fuel + 1) rhs).runFrom held m :=
            runFrom_nodeStep_call hc hc' held
          have hpipe : (evalWithin imports.loader (fuel * (bound + 1) + (l + 1) + 1) id).runFrom held
                (m.withUnits V) =
              (locating position (evalWithin imports.loader (fuel * (bound + 1) + (l + 1)) rhs)).runFrom held
                (m.withUnits V) :=
            runFrom_nodeStep_pipe (m := m.withUnits V) hp held
          have hlocated : Located ((evalWithin imports.loader (fuel + 1) rhs).runFrom held m).1 :=
            located_nodeStep_call hc' held
          unfold FollowsAt
          rw [hpipe, hcall]
          rcases ihrow rhs.index (hi ▸ hlt) l rhs (by omega) rfl with hout | ⟨V', hcoupled, hy⟩
          · exact .inl hout
          · refine .inr ⟨V', hcoupled, ?_⟩
            rw [← hy]
            refine runFrom_locating ?_
            show Located ((evalWithin imports.loader (fuel * (bound + 1) + l + 1) rhs).runFrom held
              (m.withUnits V)).1
            rw [hy]
            exact hlocated
    rw [Nat.succ_mul]
    exact hrow bound id (min_le_right _ _)

end Eval

end DynScript
