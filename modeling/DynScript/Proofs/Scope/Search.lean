import DynScript.Proofs.Scope.Changes

/-!
# Searching a tree of environments

What making an environment and changing scopes do to every environment of a tree, and which environment a search by
name finds from the root: the first one of that name in depth-first order.
-/

namespace DynScript

namespace EnvTree

variable {t : EnvTree} {e p x : EnvId} {name : String} {node : EnvNode}

/-- What is made: a new environment with one empty scope, which its parent may list after its other children. -/
structure Makes (t t' : EnvTree) (p : EnvId) (name : String) : Prop where
  /-- There is one environment more. -/
  size : t'.size = t.size + 1
  /-- The new environment. -/
  made : t'.get? (.ofIndex t.size) = some ⟨name, some p, [], [.empty]⟩
  /-- The environment in which it is made. -/
  parent : ∀ node, t.get? p = some node → ∃ more, t'.get? p = some { node with children := node.children ++ more } ∧
    (more = [.ofIndex t.size] ∨ more = [] ∧ ∃ c ∈ node.children, t.name? c = some name)
  /-- All others stay what they are. -/
  others : ∀ x : EnvId, x.index < t.size → x ≠ p → t'.get? x = t.get? x

theorem makes_pushEnvironment (hp : p.index < t.size) (ht : t.size < UInt32.size) (name : String) :
    t.Makes (t.pushEnvironment p name).2 p name := by
  have hindex : (EnvId.ofIndex t.size).index = t.size := EnvId.index_ofIndex ht
  have hne : EnvId.ofIndex t.size ≠ p := by
    rintro rfl
    omega
  have hgrown (x : EnvId) (hx : x.index < t.size) :
      (⟨t.nodes.push ⟨name, some p, [], [.empty]⟩⟩ : EnvTree).get? x = t.get? x := by
    rw [get?_grown, if_neg hx.ne]
  unfold pushEnvironment
  by_cases hany : (t.children p).any fun child => t.name? child = some name
  · rw [if_pos hany]
    refine ⟨by simp [size], by rw [get?_grown, if_pos hindex], fun node hnode => ⟨[], ?_, .inr ⟨rfl, ?_⟩⟩, ?_⟩
    · rw [hgrown p hp, hnode, List.append_nil]
    · obtain ⟨c, hc, hname⟩ := List.any_eq_true.1 hany
      have hchildren : t.children p = node.children := by simp [children, hnode]
      exact ⟨c, hchildren ▸ hc, of_decide_eq_true hname⟩
    · exact fun x hx _ => hgrown x hx
  · rw [if_neg hany]
    refine ⟨by simp [size, modify], ?_, fun node hnode => ⟨[.ofIndex t.size], ?_, .inl rfl⟩, ?_⟩
    · rw [get?_modify, if_neg hne, get?_grown, if_pos hindex]
    · rw [get?_modify, if_pos rfl, hgrown p hp, hnode]
      rfl
    · intro x hx hxp
      rw [get?_modify, if_neg hxp, hgrown x hx]

/-! ## Search -/

/-- A search finds nothing among environments that have other names and list only each other. -/
theorem findBelow?_eq_none {r : EnvId → Prop} (hname : ∀ x, r x → t.name? x ≠ some name)
    (hchildren : ∀ x, r x → ∀ c ∈ t.children x, r c) (hx : r x) (levels : Nat) :
    t.findBelow? name levels x = none := by
  induction levels generalizing x with
  | zero => rfl
  | succ levels ih =>
    rw [findBelow?, if_neg (hname x hx), List.findSome?_eq_none_iff]
    intro c hc
    exact ih (hchildren x hx c hc)

/-- The environments between the root and another one have other names and list only each other. -/
structure Before (t : EnvTree) (e : EnvId) (name : String) : Prop where
  /-- They have other names. -/
  names : ∀ x : EnvId, x ≠ root → x.index < e.index → t.name? x ≠ some name
  /-- They list only each other. -/
  children : ∀ x : EnvId, x ≠ root → x.index < e.index → ∀ c ∈ t.children x, c ≠ root ∧ c.index < e.index

/-- A child of the root is found by its name when only such environments stand before it. -/
theorem findEnv?_root {older later : List EnvId} (hroot : t.name? root ≠ some name)
    (hlist : t.children root = older ++ e :: later) (hname : t.name? e = some name) (hne : e ≠ root)
    (hbefore : t.Before e name) (holder : ∀ c ∈ older, c ≠ root ∧ c.index < e.index) :
    t.findEnv? root name = some e := by
  have he : e.index < t.size := by
    obtain ⟨node, hnode, -⟩ := Option.map_eq_some_iff.1 hname
    exact lt_size_of_get? hnode
  have hpos : 0 < e.index := Nat.pos_of_ne_zero fun hi => hne (EnvId.ext_index hi)
  obtain ⟨l, hl⟩ : ∃ l, t.size = l + 2 := ⟨t.size - 2, by omega⟩
  have hfound : t.findBelow? name (l + 1) e = some e := by rw [findBelow?, if_pos hname]
  have hnothing : older.findSome? (t.findBelow? name (l + 1)) = none := by
    rw [List.findSome?_eq_none_iff]
    intro c hc
    exact findBelow?_eq_none (r := fun x => x ≠ root ∧ x.index < e.index) (fun x hx => hbefore.names x hx.1 hx.2)
      (fun x hx => hbefore.children x hx.1 hx.2) (holder c hc) _
  rw [findEnv?, hl, findFrom?, hl, findBelow?, if_neg hroot, hlist, List.findSome?_append, hnothing,
    Option.none_or, List.findSome?_cons, hfound]
  rfl

end EnvTree

end DynScript
