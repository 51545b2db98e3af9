import Mathlib.Tactic
import DynScript.Analysis.Visit

/-!
# Changes of a tree of environments

What making an environment and changing scopes do to every environment of a tree.
-/

namespace DynScript

namespace EnvId

theorem ext_index {e e' : EnvId} (h : e.index = e'.index) : e = e' := congrArg EnvId.mk (UInt32.toNat_inj.1 h)

/-- As long as there are numbers, every place has its own. -/
theorem index_ofIndex {i : Nat} (h : i < UInt32.size) : (ofIndex i).index = i := UInt32.toNat_ofNatClamp_of_lt h

end EnvId

namespace EnvTree

variable {t : EnvTree} {e x : EnvId} {name : String} {node : EnvNode}

theorem lt_size_of_get? (h : t.get? e = some node) : e.index < t.size := (Array.getElem?_eq_some_iff.1 h).1

theorem exists_get? (h : e.index < t.size) : ∃ node, t.get? e = some node := ⟨_, Array.getElem?_eq_getElem h⟩

theorem get?_eq_none (h : t.size ≤ e.index) : t.get? e = none := Array.getElem?_eq_none h

/-! ## Scopes -/

theorem get?_modify (t : EnvTree) (e : EnvId) (f : EnvNode → EnvNode) (x : EnvId) :
    (t.modify e f).get? x = if x = e then (t.get? x).map f else t.get? x := by
  by_cases h : x = e
  · subst h
    simp [modify, get?, Array.getElem?_modify]
  · have hne : e.index ≠ x.index := fun heq => h (EnvId.ext_index heq.symm)
    simp [modify, get?, Array.getElem?_modify, h, hne]

@[simp] theorem size_modifyScopes (t : EnvTree) (e : EnvId) (f : List Scope → List Scope) :
    (t.modifyScopes e f).size = t.size := by
  simp [modifyScopes, modify, size]

@[simp] theorem parent?_modifyScopes (t : EnvTree) (e : EnvId) (f : List Scope → List Scope) (x : EnvId) :
    (t.modifyScopes e f).parent? x = t.parent? x := by
  unfold parent? modifyScopes
  rw [get?_modify]
  split
  · cases t.get? x <;> rfl
  · rfl

theorem scopes_modifyScopes_of_ne (f : List Scope → List Scope) (hx : x ≠ e) :
    (t.modifyScopes e f).scopes x = t.scopes x := by
  unfold scopes modifyScopes
  rw [get?_modify, if_neg hx]

theorem scopes_modifyScopes_self (f : List Scope → List Scope) (he : e.index < t.size) :
    (t.modifyScopes e f).scopes e = f (t.scopes e) := by
  have hnode : t.get? e = some t.nodes[e.index] := Array.getElem?_eq_getElem he
  unfold scopes modifyScopes
  rw [get?_modify, if_pos rfl, hnode]
  rfl

theorem get?_modifyScopes (f : List Scope → List Scope) (x : EnvId) :
    (t.modifyScopes e f).get? x =
      if x = e then (t.get? x).map fun node => { node with scopes := f node.scopes } else t.get? x :=
  get?_modify t e _ x

@[simp] theorem children_modifyScopes (f : List Scope → List Scope) (x : EnvId) :
    (t.modifyScopes e f).children x = t.children x := by
  unfold children
  rw [get?_modifyScopes]
  split
  · cases t.get? x <;> rfl
  · rfl

@[simp] theorem name?_modifyScopes (f : List Scope → List Scope) (x : EnvId) :
    (t.modifyScopes e f).name? x = t.name? x := by
  unfold name?
  rw [get?_modifyScopes]
  split
  · cases t.get? x <;> rfl
  · rfl

/-- A declaration makes no environment. -/
theorem size_define {d : Declaration} {t' : EnvTree} (h : t.define e d = .ok t') : t'.size = t.size := by
  unfold define at h
  split at h
  · cases h
  · obtain rfl := Except.ok.inj h
    exact t.size_modifyScopes e _

/-! ## New environments -/

/-- A tree in which an environment has been made, before its parent lists it. -/
theorem get?_grown (x : EnvId) : (⟨t.nodes.push node⟩ : EnvTree).get? x =
    if x.index = t.size then some node else t.get? x := by
  rw [get?, Array.getElem?_push]
  rfl

/-- An environment that was there when another one was made. -/
theorem get?_pushEnvironment (t : EnvTree) (parent : EnvId) (name : String) (hx : x.index < t.size) :
    (t.pushEnvironment parent name).2.scopes x = t.scopes x ∧
      (t.pushEnvironment parent name).2.parent? x = t.parent? x := by
  have hgrown : (⟨t.nodes.push ⟨name, some parent, [], [.empty]⟩⟩ : EnvTree).get? x = t.get? x := by
    show (t.nodes.push _)[x.index]? = t.nodes[x.index]?
    have hne : x.index ≠ t.nodes.size := Nat.ne_of_lt hx
    rw [Array.getElem?_push, if_neg hne]
  unfold pushEnvironment
  split
  · simp only [scopes, parent?, hgrown, and_self]
  · simp only [scopes, parent?, get?_modify, hgrown]
    split <;> cases t.get? x <;> exact ⟨rfl, rfl⟩

@[simp] theorem pushEnvironment_fst (t : EnvTree) (parent : EnvId) (name : String) :
    (t.pushEnvironment parent name).1 = .ofIndex t.size := by
  unfold pushEnvironment
  split <;> rfl

/-- There is one environment more. -/
theorem size_pushEnvironment (t : EnvTree) (parent : EnvId) (name : String) :
    (t.pushEnvironment parent name).2.size = t.size + 1 := by
  unfold pushEnvironment
  split <;> simp [size, modify]

/-- The environment that is made, if there is a number for it, has one scope, which is empty, and stands in its parent.
-/
theorem get?_pushEnvironment_self (t : EnvTree) {parent : EnvId} (name : String) (hp : parent.index < t.size)
    (ht : t.size < UInt32.size) :
    (t.pushEnvironment parent name).1.index = t.size ∧
      (t.pushEnvironment parent name).2.scopes (t.pushEnvironment parent name).1 = [.empty] ∧
      (t.pushEnvironment parent name).2.parent? (t.pushEnvironment parent name).1 = some parent := by
  have hindex : (EnvId.ofIndex t.size).index = t.size := EnvId.index_ofIndex ht
  have hgrown : (⟨t.nodes.push ⟨name, some parent, [], [.empty]⟩⟩ : EnvTree).get? (.ofIndex t.size) =
      some ⟨name, some parent, [], [.empty]⟩ := by
    rw [get?, hindex]
    simp [size]
  have hne : EnvId.ofIndex t.size ≠ parent := by
    rintro rfl
    omega
  unfold pushEnvironment
  split
  · refine ⟨hindex, ?_, ?_⟩
    · simp only [scopes, hgrown, Option.map_some, Option.getD_some]
    · simp only [parent?, hgrown, Option.bind_some]
  · refine ⟨hindex, ?_, ?_⟩
    · simp only [scopes, get?_modify, if_neg hne, hgrown, Option.map_some, Option.getD_some]
    · simp only [parent?, get?_modify, if_neg hne, hgrown, Option.bind_some]

end EnvTree

end DynScript
