import DynScript.Grammar.Program
import DynScript.Proofs.Tree.Layout

/-!
# How a program is laid out

A production makes the nodes of its children one after the other and then its own node. While it does, the
nodes that have no parent yet stand as `Root`s behind each other, like on a stack: making a node takes its
children from the end of the stack and puts the new node there. `Arena.Laid` says what holds of all nodes
made so far, and `Parser.Builds` what a production takes and puts.
-/

namespace DynScript

namespace NodeKind

/-- Whether a node is a binding. -/
def isBinding : NodeKind → Bool
  | binding _ _ _ _ => true
  | _ => false

/-- Whether a node is a block. -/
def isBlock : NodeKind → Bool
  | block _ => true
  | _ => false

/-- Whether a node may stand anywhere, which a binding may not. -/
def isOperand (kind : NodeKind) : Bool := !kind.isBinding

/-- The nodes right below a node that are neither statements nor members. -/
def operands : NodeKind → List NodeId
  | block _ | object _ _ _ => []
  | kind => kind.children

theorem isOperand_of_isBlock {kind : NodeKind} (h : kind.isBlock) : kind.isOperand := by
  cases kind <;> first | rfl | cases h

theorem mem_children_of_operands {kind : NodeKind} {c : NodeId} (h : c ∈ kind.operands) : c ∈ kind.children := by
  cases kind <;> first | exact h | cases h

end NodeKind

/-- A node without a parent, and what is known of it. -/
structure Root where
  /-- The number of the node. -/
  id : NodeId
  /-- A property of what the node is. -/
  test : NodeKind → Bool

namespace Root

/-- A root of which nothing is known. -/
def any (id : NodeId) : Root := ⟨id, fun _ => true⟩

@[simp] theorem id_any (id : NodeId) : (any id).id = id := rfl

/-- A root that may stand anywhere. -/
def operand (id : NodeId) : Root := ⟨id, NodeKind.isOperand⟩

@[simp] theorem id_operand (id : NodeId) : (operand id).id = id := rfl

/-- Whether enough is known of a root that it may stand anywhere. -/
def IsOperand (r : Root) : Prop := ∀ kind, r.test kind → kind.isOperand

@[simp] theorem isOperand_operand (id : NodeId) : (operand id).IsOperand := fun _ h => h

@[simp] theorem isOperand_block (id : NodeId) : IsOperand ⟨id, NodeKind.isBlock⟩ :=
  fun _ => NodeKind.isOperand_of_isBlock

end Root

/-- What a production puts: a statement, or a node that may stand anywhere. -/
def Nonterminal.root : Nonterminal → NodeId → Root
  | statement => .any
  | _ => .operand

@[simp] theorem Nonterminal.root_statement (id : NodeId) : statement.root id = .any id := rfl

@[simp] theorem Nonterminal.id_root (nonterminal : Nonterminal) (id : NodeId) : (nonterminal.root id).id = id := by
  cases nonterminal <;> rfl

@[simp] theorem Nonterminal.isOperand_root {nonterminal : Nonterminal} (h : nonterminal ≠ statement) (id : NodeId) :
    (nonterminal.root id).IsOperand := by
  cases nonterminal with
  | statement => exact absurd rfl h
  | _ => exact Root.isOperand_operand id

namespace Arena

/-- The first node comes before the second one and everything below that one. -/
def Before (a : Arena) (x y : NodeId) : Prop := ∀ z, a.Below y z → x.index < z.index

theorem Before.lt {a : Arena} {x y : NodeId} (h : a.Before x y) : x.index < y.index := h y .refl

/-- What a node needs of the nodes below it, or of itself. -/
def Proper (a : Arena) (node : Node) : Prop :=
  match node.kind with
  | .call _ _ => node.position.isSome
  | .pipe _ _ desugared => desugared = false
  | .assign target _ => ∃ kind, a.kind? target = some kind ∧ Grammar.isAssignable kind
  | .object _ _ members => ∀ m ∈ members, ∃ kind, a.kind? m = some kind ∧ kind.isBinding
  | _ => True

/-- The nodes made so far, when the given ones have no parent yet. -/
structure Laid (a : Arena) (roots : List Root) : Prop extends IsForest a where
  /-- The roots are what they are known to be. -/
  known : ∀ r ∈ roots, ∃ kind, a.kind? r.id = some kind ∧ r.test kind
  /-- They stand in order. -/
  inOrder : (roots.map Root.id).Pairwise a.Before
  /-- No root has a parent. -/
  parentless : ∀ r ∈ roots, ∀ p, ¬ a.Parent p r.id
  /-- All other nodes have one. -/
  covered : ∀ id : NodeId, id.index < a.size → id ∈ roots.map Root.id ∨ ∃ p, a.Parent p id
  /-- The children of a node stand in order. -/
  sorted : ∀ p node, a.get? p = some node → node.kind.children.Pairwise a.Before
  /-- Every node has what it needs. -/
  proper : ∀ p node, a.get? p = some node → a.Proper node
  /-- Bindings are statements or members. -/
  operands : ∀ p node, a.get? p = some node → ∀ c ∈ node.kind.operands,
    ∃ kind, a.kind? c = some kind ∧ kind.isOperand

/-- An arena without nodes. -/
theorem laid_empty : empty.Laid [] where
  down := by rintro p c ⟨node, hn, _⟩; simp at hn
  unique := by rintro p q c ⟨node, hn, _⟩; simp at hn
  nodup hn := by simp at hn
  known := by simp
  inOrder := by simp
  parentless := by simp
  covered id h := by simp [size, empty] at h
  sorted p node hn := by simp at hn
  proper p node hn := by simp at hn
  operands p node hn := by simp at hn

section alloc

variable {a : Arena} {node : Node}

/-- The node with a number that is not new. -/
theorem get?_alloc_of_lt {id : NodeId} (h : id.index < a.size) : (a.alloc node).2.get? id = a.get? id := by
  rw [get?_alloc, if_neg]
  rintro rfl
  exact lt_irrefl _ h

/-- A node that was there is still what it was. -/
theorem get?_alloc_of_some {id : NodeId} {n : Node} (h : a.get? id = some n) :
    (a.alloc node).2.get? id = some n := by
  rw [get?_alloc_of_lt (lt_size_of_get? h), h]

theorem kind?_alloc_of_some {id : NodeId} {kind : NodeKind} (h : a.kind? id = some kind) :
    (a.alloc node).2.kind? id = some kind := by
  obtain ⟨position, h⟩ := kind?_eq_some.1 h
  exact kind?_eq_some.2 ⟨position, get?_alloc_of_some h⟩

/-- The new node is a parent of its children only. -/
theorem parent_alloc {p c : NodeId} :
    (a.alloc node).2.Parent p c ↔ a.Parent p c ∨ p = ⟨a.size⟩ ∧ c ∈ node.kind.children := by
  unfold Parent
  by_cases hp : p = ⟨a.size⟩
  · subst hp
    have hno : a.get? ⟨a.size⟩ = none := Array.getElem?_eq_none le_rfl
    simp [get?_alloc, hno]
  · simp [get?_alloc, hp]

/-- What holds of the new node and of those that were there holds of all nodes. -/
theorem forall_get?_alloc {P : Node → Prop} (hnew : P node) (hold : ∀ p n, a.get? p = some n → P n) :
    ∀ p n, (a.alloc node).2.get? p = some n → P n := by
  intro p n hn
  rw [get?_alloc] at hn
  split at hn
  · obtain rfl := Option.some.inj hn
    exact hnew
  · exact hold p n hn

/-- A new node may take nodes as its children that have no parent. -/
theorem IsForest.alloc (hf : a.IsForest) (hlt : ∀ c ∈ node.kind.children, c.index < a.size)
    (hfree : ∀ c ∈ node.kind.children, ∀ p, ¬ a.Parent p c) (hnodup : node.kind.children.Nodup) :
    (a.alloc node).2.IsForest where
  down {p c} hpc := by
    rcases parent_alloc.1 hpc with hpc | ⟨rfl, hcn⟩
    · exact hf.down hpc
    · exact hlt c hcn
  unique {p q c} hpc hqc := by
    rcases parent_alloc.1 hpc with hpc | ⟨rfl, hcn⟩ <;> rcases parent_alloc.1 hqc with hqc | ⟨rfl, hcn'⟩
    · exact hf.unique hpc hqc
    · exact absurd hpc (hfree c hcn' p)
    · exact absurd hqc (hfree c hcn q)
    · rfl
  nodup hn := forall_get?_alloc (P := fun n => n.kind.children.Nodup) hnodup (fun _ _ => hf.nodup) _ _ hn

/-- The new node is below none of the others. -/
theorem IsForest.below_alloc (hf : a.IsForest) {x y : NodeId} (hx : x.index < a.size)
    (h : (a.alloc node).2.Below x y) : a.Below x y := by
  induction h with
  | refl => exact .refl
  | tail _ hp ih =>
    rcases parent_alloc.1 hp with hp | ⟨rfl, _⟩
    · exact ih.tail hp
    · exact absurd (hf.index_le ih) (not_le.2 hx)

theorem Before.alloc (hf : a.IsForest) {x y : NodeId} (h : a.Before x y) (hy : y.index < a.size) :
    (a.alloc node).2.Before x y :=
  fun z hz => h z (hf.below_alloc hy hz)

theorem Proper.alloc {n : Node} (h : a.Proper n) : (a.alloc node).2.Proper n := by
  unfold Proper at h ⊢
  split at h
  · exact h
  · exact h
  · obtain ⟨kind, hk, ht⟩ := h
    exact ⟨kind, kind?_alloc_of_some hk, ht⟩
  · intro m hm
    obtain ⟨kind, hk, ht⟩ := h m hm
    exact ⟨kind, kind?_alloc_of_some hk, ht⟩
  · trivial

namespace Laid

variable {roots : List Root}

theorem root_lt {r : Root} (h : a.Laid roots) (hr : r ∈ roots) : r.id.index < a.size := by
  obtain ⟨kind, hk, _⟩ := h.known r hr
  obtain ⟨position, hn⟩ := kind?_eq_some.1 hk
  exact lt_size_of_get? hn

/-- The members of an object are bindings. -/
theorem isBinding_of_mem {id : NodeId} {params : Option (List Param)} {composed : List Label}
    {members : List NodeId} {position : Option Position} (h : a.Laid roots)
    (hn : a.get? id = some ⟨.object params composed members, position⟩) :
    ∀ m ∈ members, ∃ kind, a.kind? m = some kind ∧ kind.isBinding :=
  h.proper _ _ hn

/-- A pipe has not been desugared. -/
theorem pipe_fresh {id lhs rhs : NodeId} {mark : Bool} {position : Option Position} (h : a.Laid roots)
    (hn : a.get? id = some ⟨.pipe lhs rhs mark, position⟩) : mark = false :=
  h.proper _ _ hn

/-- The left operand of a pipe was made before its right one and everything below that one. -/
theorem before_of_pipe {id lhs rhs : NodeId} {mark : Bool} {position : Option Position} (h : a.Laid roots)
    (hn : a.get? id = some ⟨.pipe lhs rhs mark, position⟩) : a.Before lhs rhs := by
  have hs := h.sorted _ _ hn
  rw [h.pipe_fresh hn] at hs
  simpa [NodeKind.children] using hs

/-- A root that is a block. -/
theorem exists_block {id : NodeId} (h : a.Laid [⟨id, NodeKind.isBlock⟩]) :
    ∃ items position, a.get? id = some ⟨.block items, position⟩ := by
  obtain ⟨kind, hk, htest⟩ := h.known _ (List.mem_singleton_self _)
  obtain ⟨position, hn⟩ := kind?_eq_some.1 hk
  cases kind with
  | block items => exact ⟨items, position, hn⟩
  | _ => simp [NodeKind.isBlock] at htest

/-- Making a node takes its children from the roots and puts it there. -/
theorem alloc {pre : List Root} {test : NodeKind → Bool} (h : a.Laid (roots ++ pre))
    (hc : pre.map Root.id = node.kind.children) (ht : test node.kind) (hp : a.Proper node)
    (ho : ∀ c ∈ node.kind.operands, ∃ kind, a.kind? c = some kind ∧ kind.isOperand) :
    (a.alloc node).2.Laid (roots ++ [⟨⟨a.size⟩, test⟩]) := by
  have hroot {c : NodeId} (hcn : c ∈ node.kind.children) : ∃ r ∈ roots ++ pre, r.id = c := by
    obtain ⟨r, hr, rfl⟩ := List.mem_map.1 (hc ▸ hcn)
    exact ⟨r, List.mem_append_right _ hr, rfl⟩
  have hlt (c : NodeId) (hcn : c ∈ node.kind.children) : c.index < a.size := by
    obtain ⟨r, hr, rfl⟩ := hroot hcn
    exact h.root_lt hr
  have hfree (c : NodeId) (hcn : c ∈ node.kind.children) (p : NodeId) : ¬ a.Parent p c := by
    obtain ⟨r, hr, rfl⟩ := hroot hcn
    exact h.parentless r hr p
  have horder := h.inOrder
  rw [List.map_append, hc, List.pairwise_append] at horder
  obtain ⟨hroots, hchildren, hbefore⟩ := horder
  have hnodup : node.kind.children.Nodup := hchildren.imp fun {x y} hb (hxy : x = y) => lt_irrefl _ (hxy ▸ hb.lt)
  refine ⟨h.toIsForest.alloc hlt hfree hnodup, ?known, ?inOrder, ?parentless, ?covered, ?sorted, ?proper, ?operands⟩
  case known =>
    intro r hr
    rcases List.mem_append.1 hr with hr | hr
    · obtain ⟨kind, hk, htest⟩ := h.known r (List.mem_append_left _ hr)
      exact ⟨kind, kind?_alloc_of_some hk, htest⟩
    · obtain rfl := List.mem_singleton.1 hr
      exact ⟨node.kind, kind?_eq_some.2 ⟨node.position, by simp [get?_alloc]⟩, ht⟩
  case inOrder =>
    rw [List.map_append, List.pairwise_append]
    refine ⟨hroots.imp_of_mem fun {x y} _ hy hb => ?_, by simp, ?_⟩
    · obtain ⟨r, hr, rfl⟩ := List.mem_map.1 hy
      exact hb.alloc h.toIsForest (h.root_lt (List.mem_append_left _ hr))
    · intro x hx y hy
      obtain ⟨r, hr, rfl⟩ := List.mem_map.1 hx
      obtain rfl : y = ⟨a.size⟩ := by simpa using hy
      intro z hz
      have hnode : (a.alloc node).2.get? ⟨a.size⟩ = some node := by simp [get?_alloc]
      rcases (below_iff_children hnode).1 hz with rfl | ⟨c, hc, hcz⟩
      · exact h.root_lt (List.mem_append_left _ hr)
      · exact hbefore _ (List.mem_map_of_mem hr) c hc z (h.toIsForest.below_alloc (hlt c hc) hcz)
  case parentless =>
    intro r hr p hp
    rcases List.mem_append.1 hr with hr | hr
    · rcases parent_alloc.1 hp with hp | ⟨rfl, hrn⟩
      · exact h.parentless r (List.mem_append_left _ hr) p hp
      · exact lt_irrefl _ (hbefore _ (List.mem_map_of_mem hr) _ hrn).lt
    · obtain rfl := List.mem_singleton.1 hr
      rcases parent_alloc.1 hp with hp | ⟨rfl, hrn⟩
      · exact lt_irrefl _ (h.toIsForest.lt_size hp)
      · exact lt_irrefl _ (hlt _ hrn)
  case covered =>
    intro id hid
    rw [size_alloc] at hid
    rcases Nat.lt_succ_iff_lt_or_eq.1 hid with hid | hid
    · rcases h.covered id hid with hr | ⟨p, hp⟩
      · rw [List.map_append, List.mem_append, hc] at hr
        rcases hr with hr | hr
        · exact .inl (by simp only [List.map_append, List.mem_append]; exact .inl hr)
        · exact .inr ⟨_, parent_alloc.2 (.inr ⟨rfl, hr⟩)⟩
      · exact .inr ⟨p, parent_alloc.2 (.inl hp)⟩
    · obtain ⟨i⟩ := id
      obtain rfl : i = a.size := hid
      exact .inl (by simp)
  case sorted =>
    refine forall_get?_alloc (hchildren.imp_of_mem fun {x y} _ hy hb => hb.alloc h.toIsForest (hlt y hy)) ?_
    exact fun p n hn => (h.sorted p n hn).imp_of_mem fun {x y} _ hy hb =>
      hb.alloc h.toIsForest (h.toIsForest.lt_size ⟨n, hn, hy⟩)
  case proper => exact forall_get?_alloc hp.alloc fun p n hn => (h.proper p n hn).alloc
  case operands =>
    intro p n hn c hcn
    obtain ⟨kind, hk, hkind⟩ := forall_get?_alloc ho h.operands p n hn c hcn
    exact ⟨kind, kind?_alloc_of_some hk, hkind⟩

/-- What the last root is may be found out later. -/
theorem learn {test : NodeKind → Bool} {kind : NodeKind} {r : Root}
    (h : a.Laid (roots ++ [r])) (hk : a.kind? r.id = some kind) (ht : test kind) :
    a.Laid (roots ++ [⟨r.id, test⟩]) where
  toIsForest := h.toIsForest
  known q hq := by
    rcases List.mem_append.1 hq with hq | hq
    · exact h.known q (List.mem_append_left _ hq)
    · obtain rfl := List.mem_singleton.1 hq
      exact ⟨kind, hk, ht⟩
  inOrder := by simpa using h.inOrder
  parentless q hq := by
    rcases List.mem_append.1 hq with hq | hq
    · exact h.parentless q (List.mem_append_left _ hq)
    · obtain rfl := List.mem_singleton.1 hq
      exact h.parentless r (by simp)
  covered := by simpa using h.covered
  sorted := h.sorted
  proper := h.proper
  operands := h.operands

end Laid

end alloc

end Arena

/-! ## Parsers -/

namespace Parser

variable {α β : Type}

/-- A parser takes the last roots and puts others in their place, which depend on what it reads. -/
def Builds (taken : List Root) (p : Parser α) (put : α → List Root) : Prop :=
  ∀ s roots a s', s.arena.Laid (roots ++ taken) → p s = .ok (a, s') → s'.arena.Laid (roots ++ put a)

/-- A parser that makes no nodes. -/
def Quiet (p : Parser α) : Prop := ∀ s a s', p s = .ok (a, s') → s'.arena = s.arena

namespace Quiet

theorem pure (a : α) : Quiet (Pure.pure a : Parser α) := by
  intro s b s' h
  cases h
  rfl

theorem get : Quiet (MonadState.get : Parser ParseState) := by
  intro s b s' h
  cases h
  rfl

theorem bind {p : Parser α} {f : α → Parser β} (hp : Quiet p) (hf : ∀ a, Quiet (f a)) :
    Quiet (p >>= f) := by
  intro s b s' h
  simp only [Bind.bind, StateT.bind, Except.bind] at h
  split at h
  · cases h
  · rename_i r hr
    exact (hf _ _ _ _ h).trans (hp _ _ _ hr)

theorem throw (e : ParseError) : Quiet (MonadExcept.throw e : Parser α) := by
  intro s b s' h
  cases h

theorem cursor : Quiet Parser.cursor := get.bind fun _ => .pure _

theorem kind : Quiet Parser.kind := cursor.bind fun _ => .pure _

theorem position : Quiet Parser.position := cursor.bind fun _ => .pure _

theorem fail (cause : ParseError.Cause) : Quiet (Parser.fail cause : Parser α) :=
  position.bind fun _ => .throw _

theorem failExpecting (expected : TokenKind) : Quiet (Parser.failExpecting expected : Parser α) :=
  kind.bind fun _ => .fail _

theorem advance : Quiet Parser.advance := by
  refine cursor.bind fun _ => bind ?_ fun _ => .pure _
  intro s b s' h
  cases h
  rfl

theorem check (expected : TokenKind) : Quiet (Parser.check expected) := kind.bind fun _ => .pure _

theorem eat (expected : TokenKind) : Quiet (Parser.eat expected) := by
  refine (check expected).bind fun found => ?_
  split
  · exact advance.bind fun _ => .pure _
  · exact .pure _

theorem expect (expected : TokenKind) : Quiet (Parser.expect expected) := by
  refine (check expected).bind fun found => ?_
  split
  · exact advance
  · exact .failExpecting _

theorem expectSymbol (s : Symbol) : Quiet (Parser.expectSymbol s) := (expect _).bind fun _ => .pure _

theorem expectKeyword (k : Keyword) : Quiet (Parser.expectKeyword k) := (expect _).bind fun _ => .pure _

theorem expectLabel : Quiet Parser.expectLabel := by
  refine kind.bind fun kind => ?_
  split
  · exact advance.bind fun _ => .pure _
  · exact Quiet.kind.bind fun _ => .fail _

end Quiet

namespace Builds

variable {taken : List Root}

theorem ofQuiet {p : Parser α} (hp : Quiet p) : Builds taken p fun _ => taken := by
  intro s roots a s' hs h
  rw [hp s a s' h]
  exact hs

theorem pure {put : α → List Root} {a : α} (h : put a = taken) : Builds taken (Pure.pure a) put := by
  intro s roots b s' hs hb
  cases hb
  rwa [h]

theorem fail (cause : ParseError.Cause) (put : α → List Root) : Builds taken (Parser.fail cause) put := by
  intro s roots b s' hs hb
  cases hb

theorem failExpecting (expected : TokenKind) (put : α → List Root) :
    Builds taken (Parser.failExpecting expected) put := by
  intro s roots b s' hs hb
  cases hb

theorem bind {p : Parser α} {f : α → Parser β} {q : α → List Root} {put : β → List Root}
    (hp : Builds taken p q) (hf : ∀ a, Builds (q a) (f a) put) : Builds taken (p >>= f) put := by
  intro s roots b s' hs h
  simp only [Bind.bind, StateT.bind, Except.bind] at h
  split at h
  · cases h
  · rename_i r hr
    exact hf _ _ _ _ _ (hp _ _ _ _ hs hr) h

/-- Roots that a parser does not know of stay. -/
theorem frame {p : Parser α} {put : α → List Root} (hp : Builds taken p put) (before : List Root) :
    Builds (before ++ taken) p fun a => before ++ put a := by
  intro s roots a s' hs h
  rw [← List.append_assoc] at hs ⊢
  exact hp _ _ _ _ hs h

/-- A parser that makes no nodes, and what comes after it. -/
theorem quietly {p : Parser α} {f : α → Parser β} {put : β → List Root} (hp : Quiet p)
    (hf : ∀ a, Builds taken (f a) put) : Builds taken (p >>= f) put :=
  (ofQuiet hp).bind hf

/-- A parser that only puts roots, and what comes after it. -/
theorem after {p : Parser α} {f : α → Parser β} {added : α → List Root} {put : β → List Root}
    (hp : Builds [] p added) (hf : ∀ a, Builds (taken ++ added a) (f a) put) :
    Builds taken (p >>= f) put := by
  have h := hp.frame taken
  rw [List.append_nil] at h
  exact h.bind hf

/-- A parser that puts no roots, and what comes after it. -/
theorem passing {p : Parser α} {f : α → Parser β} {put : β → List Root} (hp : Builds [] p fun _ => [])
    (hf : ∀ a, Builds taken (f a) put) : Builds taken (p >>= f) put :=
  hp.after fun a => by simpa using hf a

/-- Making a node takes its children. -/
theorem allocWith {kind : NodeKind} {position : Option Position} {t : NodeKind → Bool}
    (hc : taken.map Root.id = kind.children) (ht : t kind)
    (hp : ∀ a : Arena, (∀ r ∈ taken, ∃ k, a.kind? r.id = some k ∧ r.test k) → a.Proper ⟨kind, position⟩)
    (ho : kind.operands = [] ∨ ∀ r ∈ taken, r.IsOperand) :
    Builds taken (Parser.alloc kind position) fun id => [⟨id, t⟩] := by
  intro s roots a s' hs h
  cases h
  refine hs.alloc hc ht (hp _ fun r hr => hs.known r (List.mem_append_right _ hr)) fun c hcn => ?_
  rcases ho with hnone | ho
  · rw [hnone] at hcn
    cases hcn
  · obtain ⟨r, hr, rfl⟩ := List.mem_map.1 (hc ▸ NodeKind.mem_children_of_operands hcn)
    obtain ⟨k, hk, htest⟩ := hs.known r (List.mem_append_right _ hr)
    exact ⟨k, hk, ho r hr k htest⟩

/-- A node of which the children may stand anywhere. -/
theorem alloc {kind : NodeKind} {position : Option Position} {t : NodeKind → Bool}
    (hc : taken.map Root.id = kind.children) (ht : t kind) (ho : ∀ r ∈ taken, r.IsOperand)
    (hp : ∀ a : Arena, a.Proper ⟨kind, position⟩) :
    Builds taken (Parser.alloc kind position) fun id => [⟨id, t⟩] :=
  allocWith hc ht (fun a _ => hp a) (.inr ho)

/-- Less may be known of a root. -/
theorem forget {p : Parser NodeId} {test test' : NodeKind → Bool} (hp : Builds taken p fun id => [⟨id, test⟩])
    (ht : ∀ kind, test kind → test' kind) : Builds taken p fun id => [⟨id, test'⟩] := by
  intro s roots a s' hs h
  have hl := hp s roots a s' hs h
  obtain ⟨kind, hk, htest⟩ := hl.known ⟨a, test⟩ (by simp)
  exact hl.learn hk (ht kind htest)

/-- What may stand anywhere is a statement, too. -/
theorem statement {p : Parser NodeId} {test : NodeKind → Bool} (hp : Builds taken p fun id => [⟨id, test⟩]) :
    Builds taken p fun id => [.any id] :=
  hp.forget fun _ _ => rfl

/-- A block may stand anywhere. -/
theorem operand {p : Parser NodeId} (hp : Builds taken p fun id => [⟨id, NodeKind.isBlock⟩]) :
    Builds taken p fun id => [.operand id] :=
  hp.forget fun _ => NodeKind.isOperand_of_isBlock

end Builds

end Parser

/-! ## Repetitions -/

/-- The roots that a round of a repetition leaves. -/
def Progress.roots {α β : Type} (q : α → List Root) (put : β → List Root) :
    Progress α β → List Root
  | more a => q a
  | done b => put b

namespace Grammar

open DynScript.Parser (Builds)

variable {α β : Type} {g : Grammar}

theorem builds_rounds {round : α → Parser (Progress α β)} {q : α → List Root} {put : β → List Root}
    (h : ∀ a, Builds (q a) (round a) (Progress.roots q put)) (n : Nat) (a : α) :
    Builds (q a) (rounds round n a) put := by
  induction n generalizing a with
  | zero => exact .fail _ _
  | succ n ih =>
    refine (h a).bind fun progress => ?_
    cases progress with
    | more a' => exact ih a'
    | done b => exact .pure rfl

theorem builds_repeating {round : α → Parser (Progress α β)} {q : α → List Root}
    {put : β → List Root} (h : ∀ a, Builds (q a) (round a) (Progress.roots q put)) (a : α) :
    Builds (q a) (g.repeating a round) put :=
  builds_rounds h _ a

theorem builds_commaSeparated {item : Parser α} {put : α → List Root} (h : Builds [] item put) :
    Builds [] (g.commaSeparated item) fun items => items.flatMap put := by
  refine builds_repeating (q := fun items : Array α => items.toList.flatMap put) (fun items => ?_) #[]
  refine h.after fun x => .quietly (.eat _) fun more => ?_
  split <;> exact .pure (by simp [Progress.roots])

theorem builds_closedBy {item : Parser α} {put : α → List Root} (close : Symbol) (h : Builds [] item put) :
    Builds [] (g.closedBy close item) fun items => items.flatMap put := by
  refine .bind (q := fun items => items.toList.flatMap put) ?_ fun items =>
    .quietly (.expectSymbol _) fun _ => .pure rfl
  refine builds_repeating (q := fun items : Array α => items.toList.flatMap put) (fun items => ?_) #[]
  refine .quietly (.check _) fun closed => ?_
  split
  · exact .pure rfl
  · refine h.after fun x => .quietly (.eat _) fun more => ?_
    split <;> exact .pure (by simp [Progress.roots])

theorem builds_commaSeparated_nothing {item : Parser α} (h : Builds [] item fun _ => []) :
    Builds [] (g.commaSeparated item) fun _ => [] := by
  have hc := builds_commaSeparated (g := g) h
  rwa [show (fun items : List α => items.flatMap fun _ => ([] : List Root)) = fun _ => [] by
    funext items; simp] at hc

theorem builds_closedBy_nothing {item : Parser α} (close : Symbol) (h : Builds [] item fun _ => []) :
    Builds [] (g.closedBy close item) fun _ => [] := by
  have hc := builds_closedBy (g := g) close h
  rwa [show (fun items : List α => items.flatMap fun _ => ([] : List Root)) = fun _ => [] by
    funext items; simp] at hc

end Grammar

end DynScript
