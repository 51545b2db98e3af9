import DynScript.Tree.Arena

/-!
# Stray returns

A return belongs to the function literal whose text is closest around it. A return strays from a node when it stands
there or below, and none of the literals that put the evaluation of their nodes off lies around it on the way down.
-/

namespace DynScript

/-- Whether the nodes below a node are evaluated only when its value is called. -/
def NodeKind.isDeferred : NodeKind → Bool
  | .function _ _ | .object (some _) _ _ => true
  | _ => false

namespace Arena

/-- A return stands at or below a node, and neither a function nor a class lies around it there. -/
inductive Strays (a : Arena) : NodeId → Prop
  | here {id : NodeId} {value : Option NodeId} (hk : a.kind? id = some (.returns value)) : Strays a id
  | deeper {id c : NodeId} {kind : NodeKind} (hk : a.kind? id = some kind) (hd : kind.isDeferred = false)
    (hc : c ∈ kind.children) (h : Strays a c) : Strays a id

variable {a : Arena} {id : NodeId} {kind : NodeKind}

/-- Nothing strays from a node that is no return when nothing does from the nodes below it that are evaluated with
it. -/
theorem not_strays (hk : a.kind? id = some kind) (hr : ∀ value, kind ≠ .returns value)
    (hc : kind.isDeferred = false → ∀ c ∈ kind.children, ¬ a.Strays c) : ¬ a.Strays id := by
  rintro (hk' | ⟨hk', hd, hmem, hbelow⟩)
  · exact hr _ (Option.some.inj (hk.symm.trans hk'))
  · obtain rfl := Option.some.inj (hk.symm.trans hk')
    exact hc hd _ hmem hbelow

/-- A member of an object literal, the value of which holds a return that strays. -/
def StrayMember (a : Arena) (member : NodeId) : Prop :=
  ∃ name mode isFinal value, a.kind? member = some (.binding name mode isFinal value) ∧ a.Strays value

/-- A class literal with a member the value of which holds a return that strays. -/
def StrayClass (a : Arena) (id : NodeId) : Prop :=
  ∃ params composed members, a.kind? id = some (.object params composed members) ∧ ∃ m ∈ members, a.StrayMember m

end Arena

end DynScript
