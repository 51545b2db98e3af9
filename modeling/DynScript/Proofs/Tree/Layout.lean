import Mathlib.Logic.Relation
import Mathlib.Tactic
import DynScript.Tree.Arena

/-!
# The shape of an arena

The nodes of an arena form a forest: a child has a smaller number than its parent, and only one parent has it,
once. What is below two different children of a node has therefore nothing in common.
-/

namespace DynScript

namespace Arena

open Relation

variable {a b : Arena}

/-! ## Nodes after a change -/

@[simp] theorem get?_empty (id : NodeId) : empty.get? id = none := by simp [empty, get?]

@[simp] theorem size_alloc (a : Arena) (node : Node) : (a.alloc node).2.size = a.size + 1 := by
  simp [alloc, size]

/-- Adding a node leaves those that were there. -/
theorem get?_alloc (a : Arena) (node : Node) (id : NodeId) :
    (a.alloc node).2.get? id = if id = ⟨a.size⟩ then some node else a.get? id := by
  obtain ⟨i⟩ := id
  simp [alloc, get?, size, Array.getElem?_push]

theorem lt_size_of_get? {id : NodeId} {node : Node} (h : a.get? id = some node) : id.index < a.size :=
  (Array.getElem?_eq_some_iff.1 h).1

theorem get?_eq_none {id : NodeId} (h : a.size ≤ id.index) : a.get? id = none := Array.getElem?_eq_none h

theorem exists_get? {id : NodeId} (h : id.index < a.size) : ∃ node, a.get? id = some node :=
  ⟨_, Array.getElem?_eq_getElem h⟩

/-- Only the node that is changed is another one afterwards. -/
theorem get?_setKind (a : Arena) (id : NodeId) (kind : NodeKind) (i : NodeId) :
    (a.setKind id kind).get? i =
      if i = id then (a.get? i).map fun node => ⟨kind, node.position⟩ else a.get? i := by
  obtain ⟨i⟩ := i
  obtain ⟨j⟩ := id
  by_cases h : i = j
  · subst h
    simp [setKind, get?, Array.getElem?_modify]
  · simp [setKind, get?, Array.getElem?_modify, h, Ne.symm h]

theorem kind?_eq_some {id : NodeId} {kind : NodeKind} :
    a.kind? id = some kind ↔ ∃ position, a.get? id = some ⟨kind, position⟩ := by
  simp only [kind?, Option.map_eq_some_iff]
  constructor
  · rintro ⟨⟨k, position⟩, h, rfl⟩
    exact ⟨position, h⟩
  · rintro ⟨position, h⟩
    exact ⟨_, h, rfl⟩

/-! ## Parents -/

/-- The first node is the parent of the second one. -/
def Parent (a : Arena) (p c : NodeId) : Prop := ∃ node, a.get? p = some node ∧ c ∈ node.kind.children

/-- The second node is the first one or stands below it. -/
def Below (a : Arena) : NodeId → NodeId → Prop := ReflTransGen a.Parent

/-- Every node has one parent at most, which lists it once and has a greater number. -/
structure IsForest (a : Arena) : Prop where
  /-- A child has a smaller number. -/
  down : ∀ {p c : NodeId}, a.Parent p c → c.index < p.index
  /-- There is one parent at most. -/
  unique : ∀ {p q c : NodeId}, a.Parent p c → a.Parent q c → p = q
  /-- The children of a node differ. -/
  nodup : ∀ {p : NodeId} {node : Node}, a.get? p = some node → node.kind.children.Nodup

namespace IsForest

variable (h : a.IsForest)
include h

theorem index_le {x y : NodeId} (hxy : a.Below x y) : y.index ≤ x.index := by
  induction hxy with
  | refl => exact le_rfl
  | tail _ hp ih => exact (h.down hp).le.trans ih

theorem lt_size {p c : NodeId} (hp : a.Parent p c) : c.index < a.size := by
  obtain ⟨node, hn, _⟩ := id hp
  exact (h.down hp).trans (lt_size_of_get? hn)

/-- Of two nodes above the same node one is above the other. -/
theorem below_total {x y z : NodeId} (hx : a.Below x z) (hy : a.Below y z) :
    a.Below x y ∨ a.Below y x := by
  have hu : Relator.RightUnique (Function.swap a.Parent) := fun _ _ _ hp hq => h.unique hp hq
  have hx' := reflTransGen_swap.2 hx
  have hy' := reflTransGen_swap.2 hy
  rcases ReflTransGen.total_of_right_unique hu hx' hy' with hxy | hyx
  · exact .inr (reflTransGen_swap.1 hxy)
  · exact .inl (reflTransGen_swap.1 hyx)

/-- What is below a child is not below another child of the same node. -/
theorem apart_of_parent {p c d : NodeId} (hc : a.Parent p c) (hd : a.Parent p d) (hcd : c ≠ d) :
    ¬ a.Below c d := by
  intro hb
  rcases ReflTransGen.cases_tail hb with rfl | ⟨q, hq, hqd⟩
  · exact hcd rfl
  · obtain rfl := h.unique hqd hd
    exact absurd (h.index_le hq) (not_le.2 (h.down hc))

end IsForest

/-- No node is below two of the given ones. -/
def Apart (a : Arena) (ids : List NodeId) : Prop :=
  ids.Pairwise fun c d => ∀ x, a.Below c x → ¬ a.Below d x

/-- A node is below one of the given ones. -/
def BelowAny (a : Arena) (ids : List NodeId) (x : NodeId) : Prop := ∃ c ∈ ids, a.Below c x

theorem Apart.of_append {ids ids' : List NodeId} (h : a.Apart (ids ++ ids')) :
    a.Apart ids ∧ a.Apart ids' ∧ ∀ x, a.BelowAny ids x → ¬ a.BelowAny ids' x := by
  obtain ⟨h₁, h₂, h₃⟩ := List.pairwise_append.1 h
  exact ⟨h₁, h₂, fun x ⟨c, hc, hcx⟩ ⟨d, hd, hdx⟩ => h₃ c hc d hd x hcx hdx⟩

/-- The children of a node have nothing in common. -/
theorem IsForest.apart_children (h : a.IsForest) {p : NodeId} {node : Node} (hn : a.get? p = some node) :
    a.Apart node.kind.children := by
  refine (h.nodup hn).imp_of_mem fun {c d} hc hd hcd x hx hy => ?_
  have hpc : a.Parent p c := ⟨node, hn, hc⟩
  have hpd : a.Parent p d := ⟨node, hn, hd⟩
  rcases h.below_total hx hy with hb | hb
  · exact h.apart_of_parent hpc hpd hcd hb
  · exact h.apart_of_parent hpd hpc hcd.symm hb

/-! ## Regions -/

/-- Nodes of which the children belong to them, too. -/
def Closed (a : Arena) (r : NodeId → Prop) : Prop := ∀ p c, r p → a.Parent p c → r c

theorem Closed.below {r : NodeId → Prop} (h : a.Closed r) {x y : NodeId} (hx : r x) (hxy : a.Below x y) :
    r y := by
  induction hxy with
  | refl => exact hx
  | tail _ hp ih => exact h _ _ ih hp

theorem closed_belowAny (a : Arena) (ids : List NodeId) : a.Closed (a.BelowAny ids) :=
  fun _ _ ⟨c, hc, hb⟩ hp => ⟨c, hc, hb.tail hp⟩

/-- Two arenas have the same nodes in a region. -/
def AgreeOn (r : NodeId → Prop) (a b : Arena) : Prop := ∀ x, r x → a.get? x = b.get? x

namespace AgreeOn

variable {r : NodeId → Prop}

theorem refl (r : NodeId → Prop) (a : Arena) : AgreeOn r a a := fun _ _ => rfl

theorem symm (h : AgreeOn r a b) : AgreeOn r b a := fun x hx => (h x hx).symm

theorem mono {q : NodeId → Prop} (h : AgreeOn r a b) (hq : ∀ x, q x → r x) : AgreeOn q a b :=
  fun x hx => h x (hq x hx)

theorem parent (h : AgreeOn r a b) {p c : NodeId} (hp : r p) : a.Parent p c ↔ b.Parent p c := by
  unfold Parent
  rw [h p hp]

theorem closed (h : AgreeOn r a b) (ha : a.Closed r) : b.Closed r :=
  fun p c hp hc => ha p c hp ((h.parent hp).2 hc)

/-- In a region that is closed the same nodes are below a node. -/
theorem below (h : AgreeOn r a b) (ha : a.Closed r) {x y : NodeId} (hx : r x) (hxy : a.Below x y) :
    b.Below x y := by
  induction hxy with
  | refl => exact .refl
  | tail hb hp ih => exact ih.tail ((h.parent (ha.below hx hb)).1 hp)

theorem below_iff (h : AgreeOn r a b) (ha : a.Closed r) {x y : NodeId} (hx : r x) :
    a.Below x y ↔ b.Below x y :=
  ⟨h.below ha hx, h.symm.below (h.closed ha) hx⟩

/-- Where the nodes are the same, the same nodes are below the given ones. -/
theorem belowAny {ids : List NodeId} (h : AgreeOn (a.BelowAny ids) a b) :
    b.BelowAny ids = a.BelowAny ids := by
  have hc := a.closed_belowAny ids
  funext x
  refine propext ⟨fun ⟨c, hm, hb⟩ => ⟨c, hm, ?_⟩, fun ⟨c, hm, hb⟩ => ⟨c, hm, ?_⟩⟩
  · exact (h.below_iff hc ⟨c, hm, .refl⟩).2 hb
  · exact (h.below_iff hc ⟨c, hm, .refl⟩).1 hb

theorem apart {ids : List NodeId} (h : AgreeOn (a.BelowAny ids) a b) (ha : a.Apart ids) : b.Apart ids := by
  have hc := a.closed_belowAny ids
  refine ha.imp_of_mem fun {c d} hcm hdm hcd x hcx hdx => hcd x ?_ ?_
  · exact (h.below_iff hc ⟨c, hcm, .refl⟩).2 hcx
  · exact (h.below_iff hc ⟨d, hdm, .refl⟩).2 hdx

end AgreeOn

theorem belowAny_append {ids ids' : List NodeId} {x : NodeId} :
    a.BelowAny (ids ++ ids') x ↔ a.BelowAny ids x ∨ a.BelowAny ids' x := by
  simp [BelowAny, or_and_right, exists_or]

@[simp] theorem belowAny_nil {x : NodeId} : ¬ a.BelowAny [] x := by simp [BelowAny]

@[simp] theorem belowAny_singleton {id x : NodeId} : a.BelowAny [id] x ↔ a.Below id x := by simp [BelowAny]

/-- What is below a node is the node or below one of its children. -/
theorem below_iff_children {id x : NodeId} {node : Node} (hn : a.get? id = some node) :
    a.Below id x ↔ x = id ∨ a.BelowAny node.kind.children x := by
  constructor
  · intro hx
    rcases ReflTransGen.cases_head hx with rfl | ⟨c, ⟨node', hn', hc⟩, hb⟩
    · exact .inl rfl
    · obtain rfl := Option.some.inj (hn.symm.trans hn')
      exact .inr ⟨c, hc, hb⟩
  · rintro (rfl | ⟨c, hc, hb⟩)
    · exact .refl
    · exact .head ⟨node, hn, hc⟩ hb

/-- No node is below its own children. -/
theorem IsForest.not_below_children (h : a.IsForest) {id : NodeId} {node : Node}
    (hn : a.get? id = some node) : ¬ a.BelowAny node.kind.children id := by
  rintro ⟨c, hc, hb⟩
  have hlt : c.index < id.index := h.down ⟨node, hn, hc⟩
  have hle : id.index ≤ c.index := h.index_le hb
  omega

end Arena

end DynScript
