import DynScript.Proofs.Tree.Direct

/-!
# Nodes on the way to being settled

An analysis goes one way with the nodes: calls get more arguments and pipes are marked. `Arena.Onward` orders the
arenas by this, so a walk that ends with the nodes with which it began has changed nothing on its way. A call stands
below the pipe that leads into it, whatever has been moved, so the pipe is met first.
-/

namespace DynScript

/-- What an analysis may make of a node: a call gets more arguments, and a pipe is marked. -/
inductive NodeKind.Onward : NodeKind → NodeKind → Prop
  | same (kind : NodeKind) : Onward kind kind
  | fed (callee : NodeId) (args more : List NodeId) : Onward (.call callee args) (.call callee (args ++ more))
  | marked (lhs rhs : NodeId) (mark : Bool) : Onward (.pipe lhs rhs mark) (.pipe lhs rhs true)

namespace NodeKind.Onward

variable {k k' k'' : NodeKind}

theorem trans (h : k.Onward k') (h' : k'.Onward k'') : k.Onward k'' := by
  cases h with
  | same => exact h'
  | fed callee args more =>
    cases h' with
    | same => exact .fed callee args more
    | fed _ _ more' =>
      rw [List.append_assoc]
      exact .fed callee args (more ++ more')
  | marked lhs rhs mark =>
    cases h' with
    | same => exact .marked lhs rhs mark
    | marked => exact .marked lhs rhs mark

theorem antisymm (h : k.Onward k') (h' : k'.Onward k) : k' = k := by
  cases h with
  | same => rfl
  | fed callee args more =>
    generalize hk : NodeKind.call callee args = k at h'
    generalize hk' : NodeKind.call callee (args ++ more) = k' at h'
    cases h' with
    | same => rfl
    | fed _ args' more' =>
      obtain ⟨-, rfl⟩ := NodeKind.call.inj hk'
      obtain ⟨-, hargs⟩ := NodeKind.call.inj hk
      have hmore : more' = [] := by
        have hlen := congrArg List.length hargs
        simp only [List.length_append] at hlen
        exact List.length_eq_zero_iff.1 (by omega)
      rw [hmore, List.append_nil]
    | marked => cases hk
  | marked lhs rhs mark =>
    generalize hk : NodeKind.pipe lhs rhs mark = k at h'
    cases h' with
    | same => rfl
    | marked => rfl

end NodeKind.Onward

namespace Arena

variable {a b c : Arena}

/-- The second arena is the first one, with calls that may have got more arguments and pipes that may be marked. -/
def Onward (a b : Arena) : Prop :=
  ∀ id node, a.get? id = some node → ∃ kind, b.get? id = some ⟨kind, node.position⟩ ∧ node.kind.Onward kind

namespace Onward

theorem refl (a : Arena) : a.Onward a := fun _ node hn => ⟨node.kind, hn, .same _⟩

theorem trans (h : a.Onward b) (k : b.Onward c) : a.Onward c := by
  intro id node hn
  obtain ⟨kind, hn', hk⟩ := h id node hn
  obtain ⟨kind', hn'', hk'⟩ := k id _ hn'
  exact ⟨kind', hn'', hk.trans hk'⟩

/-- Two arenas of which each comes after the other are the same. -/
theorem antisymm (h : a.Onward b) (k : b.Onward a) : b = a := by
  have hget (id : NodeId) : b.get? id = a.get? id := by
    cases hn : a.get? id with
    | none =>
      cases hn' : b.get? id with
      | none => rfl
      | some node =>
        obtain ⟨kind, hn'', -⟩ := k id node hn'
        rw [hn] at hn''
        cases hn''
    | some node =>
      obtain ⟨kind, hn', hk⟩ := h id node hn
      obtain ⟨kind', hn'', hk'⟩ := k id _ hn'
      obtain rfl : node.kind = kind' := congrArg Node.kind (Option.some.inj (hn.symm.trans hn''))
      rw [hn', hk.antisymm hk']
  obtain ⟨nodes⟩ := a
  obtain ⟨nodes'⟩ := b
  exact congrArg Arena.mk (Array.ext_getElem? fun i => hget ⟨i⟩)

/-- Changing one node. -/
theorem setKind {id : NodeId} {kind kind' : NodeKind} (hk : a.kind? id = some kind) (h : kind.Onward kind') :
    a.Onward (a.setKind id kind') := by
  intro i node hn
  rw [get?_setKind]
  split
  · rename_i hi
    subst hi
    obtain ⟨position, hn'⟩ := kind?_eq_some.1 hk
    obtain rfl := Option.some.inj (hn.symm.trans hn')
    exact ⟨kind', by rw [hn]; rfl, h⟩
  · exact ⟨node.kind, hn, .same _⟩

theorem appendArgument (a : Arena) (call arg : NodeId) : a.Onward (Analysis.appendArgument a call arg) := by
  unfold Analysis.appendArgument
  split
  · rename_i callee args hk
    exact .setKind hk (.fed callee args [arg])
  · exact .refl a

theorem markDesugared (a : Arena) (id : NodeId) : a.Onward (Analysis.markDesugared a id) := by
  unfold Analysis.markDesugared
  split
  · rename_i lhs rhs mark hk
    exact .setKind hk (.marked lhs rhs mark)
  · exact .refl a

end Onward

/-- A pipe that has been marked is marked. -/
theorem kind?_markDesugared {p lhs rhs : NodeId} {mark : Bool} (hk : a.kind? p = some (.pipe lhs rhs mark)) :
    (Analysis.markDesugared a p).kind? p = some (.pipe lhs rhs true) := by
  obtain ⟨position, hn⟩ := kind?_eq_some.1 hk
  unfold Analysis.markDesugared
  rw [hk]
  exact kind?_eq_some.2 ⟨position, by rw [get?_setKind, if_pos rfl, hn]; rfl⟩

/-- A pipe is not the call that it leads into, so it is still there when the call has got its argument. -/
theorem kind?_appendArgument (call arg : NodeId) {p lhs rhs : NodeId} {mark : Bool}
    (hk : a.kind? p = some (.pipe lhs rhs mark)) :
    (Analysis.appendArgument a call arg).kind? p = some (.pipe lhs rhs mark) := by
  unfold Analysis.appendArgument
  split
  · rename_i callee args hcall
    have hne : p ≠ call := by
      rintro rfl
      rw [hk] at hcall
      cases hcall
    rwa [kind?, get?_setKind, if_neg hne]
  · exact hk

/-! ## Pipes above their calls -/

/-- No pipe above a node has yet to hand its left operand to a call. -/
def Clear (a : Arena) (id : NodeId) : Prop :=
  ∀ p lhs rhs call, a.kind? p = some (.pipe lhs rhs false) → Analysis.pipeCall? a rhs = some call → a.Below p id →
    p = id

/-- So it is for the children of a node that has nothing to hand over either. -/
theorem Clear.child {id i : NodeId} {node : Node} (h : a.Clear id) (ha : a.IsForest) (hn : a.get? id = some node)
    (hnode : ∀ lhs rhs call, node.kind = .pipe lhs rhs false → Analysis.pipeCall? a rhs ≠ some call)
    (hi : i ∈ node.kind.children) : a.Clear i := by
  intro p lhs rhs call hp hcall hbelow
  rcases Relation.ReflTransGen.cases_tail hbelow with rfl | ⟨q, hpq, hqi⟩
  · rfl
  · obtain rfl := ha.unique hqi ⟨node, hn, hi⟩
    obtain rfl := h p lhs rhs call hp hcall hpq
    obtain ⟨position, hp⟩ := kind?_eq_some.1 hp
    obtain rfl := Option.some.inj (hn.symm.trans hp)
    exact absurd hcall (hnode lhs rhs call rfl)

variable {roots : List Root} (ha : a.Laid roots) (hab : a.Desugars b)
include ha hab

/-- A call stands below the pipe that leads into it, also when pipes have been desugared. -/
theorem below_of_pipeCall? {p lhs rhs call : NodeId} (hp : a.kind? p = some (.pipe lhs rhs false))
    (hcall : Analysis.pipeCall? a rhs = some call) : b.Below p call ∧ p ≠ call := by
  induction hi : p.index using Nat.strong_induction_on generalizing p lhs rhs call with
  | _ i ih =>
    obtain ⟨mark, hp'⟩ := hab.outline.pipe hp
    have hrhs : b.Parent p rhs := by
      obtain ⟨position, hn⟩ := kind?_eq_some.1 hp'
      exact ⟨_, hn, by cases mark <;> simp [NodeKind.children]⟩
    have hdown : rhs.index < p.index := ha.toIsForest.down (ha.parent_pipe hp).2.1
    have hne : p ≠ call := by
      rintro rfl
      obtain ⟨⟨callee, args, hk⟩, -⟩ := pipeCall?_eq_some.1 hcall
      rw [hp] at hk
      cases hk
    refine ⟨?_, hne⟩
    obtain ⟨⟨callee, args, hk⟩, rfl | ⟨tail, m, hr⟩⟩ := pipeCall?_eq_some.1 hcall
    · exact .single hrhs
    · -- The call is the left operand of the next pipe, or it has been moved into the call that takes that.
      obtain ⟨position, hn⟩ := kind?_eq_some.1 hr
      obtain rfl := ha.pipe_fresh hn
      obtain ⟨mark', hr'⟩ := hab.outline.pipe hr
      refine .head hrhs ?_
      cases mark' with
      | false =>
        obtain ⟨position, hn'⟩ := kind?_eq_some.1 hr'
        exact .single ⟨_, hn', by simp [NodeKind.children]⟩
      | true =>
        obtain ⟨next, hnext⟩ := hab.leads rhs call tail ⟨hr, hr'⟩
        obtain ⟨hbelow, -⟩ := ih rhs.index (hi ▸ hdown) hr hnext rfl
        obtain ⟨⟨callee', args', hk'⟩, -⟩ := pipeCall?_eq_some.1 hnext
        obtain ⟨more, hmoved, hmore⟩ := hab.moved next callee' args' hk'
        obtain ⟨position, hn'⟩ := kind?_eq_some.1 hmoved
        have hmem : call ∈ more := (hmore call).2 ⟨rhs, tail, ⟨hr, hr'⟩, hnext⟩
        exact hbelow.tail ⟨_, hn', by simp [NodeKind.children, hmem]⟩

/-- A call that is met after the pipe that leads into it has what is piped into it as its last argument. -/
theorem Clear.call {id callee : NodeId} {args : List NodeId} (h : b.Clear id) (hb : b.IsForest)
    (hk : a.kind? id = some (.call callee args)) :
    b.kind? id = some (.call callee (args ++ (a.pipedInto? id).toList)) := by
  refine call_fed ha hb hab hk fun p lhs rhs hp hcall => ?_
  obtain ⟨mark, hp'⟩ := hab.outline.symm.pipe hp
  obtain ⟨position, hn⟩ := kind?_eq_some.1 hp'
  obtain rfl := ha.pipe_fresh hn
  obtain ⟨hbelow, hne⟩ := below_of_pipeCall? ha hab hp' hcall
  exact hne (h p lhs rhs id hp ((hab.outline.pipeCall? rhs).trans hcall) hbelow)

end Arena

end DynScript
