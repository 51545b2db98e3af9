import DynScript.Proofs.Grammar.Layout
import DynScript.Proofs.Tree.Outline

/-!
# What stands inside

A node stands inside when a block, a function, a loop, a branch or an object lies around it, apart from the block
of the whole program. Pipes change nothing about this: a left operand is moved only into a call right below its
pipe. Nor do they make an operand a statement.
-/

namespace DynScript

/-- The nodes right below a node around which it lies. -/
def NodeKind.enclosed : NodeKind → List NodeId
  | block items => items
  | function _ body | loop _ _ body => [body]
  | conditional _ thenBranch elseBranch => thenBranch :: elseBranch.toList
  | object _ _ members => members
  | _ => []

theorem NodeKind.mem_children_of_enclosed {kind : NodeKind} {c : NodeId} (h : c ∈ kind.enclosed) :
    c ∈ kind.children := by
  cases kind with
  | function params body | object params composed members | block items => exact h
  | loop start stop body => exact List.mem_cons_of_mem _ (List.mem_cons_of_mem _ h)
  | conditional condition thenBranch elseBranch => exact List.mem_cons_of_mem _ h
  | _ => cases h

/-- The children of calls and pipes are operands. -/
theorem NodeKind.operands_of_isJoint {kind : NodeKind} (h : kind.isJoint) : kind.operands = kind.children := by
  cases kind <;> first | rfl | cases h

theorem NodeKind.isOperand_of_isJoint {kind : NodeKind} (h : kind.isJoint) : kind.isOperand := by
  cases kind <;> first | rfl | cases h

/-- Whether a node is a function literal. -/
def NodeKind.isFunction : NodeKind → Bool
  | function _ _ => true
  | _ => false

namespace Program

/-- A node stands inside a block, a function, a loop, a branch or an object. -/
inductive Inside (program : Program) : NodeId → Prop where
  /-- Something lies around the node. -/
  | enclosed {p c : NodeId} {kind : NodeKind} (hk : program.arena.kind? p = some kind) (hp : p ≠ program.body)
      (hc : c ∈ kind.enclosed) : Inside program c
  /-- Something lies around the node above. -/
  | deeper {p c : NodeId} (h : Inside program p) (hc : program.arena.Parent p c) : Inside program c

/-- Every function literal stands at the top level. -/
def FunctionsAtTop (program : Program) : Prop :=
  ∀ id params body, program.arena.kind? id = some (.function params body) → ¬ program.Inside id

/-- No function is among these nodes, but all nodes are that stand inside, as can be seen node by node. -/
structure Encloses (program : Program) (ids : List NodeId) : Prop where
  /-- What a node lies around is among them. -/
  enclosed : ∀ i < program.arena.size, (⟨i⟩ : NodeId) ≠ program.body →
    ∀ c ∈ ((program.arena.kind? ⟨i⟩).map NodeKind.enclosed).getD [], c ∈ ids
  /-- So is what stands below them. -/
  children : ∀ p ∈ ids, ∀ c ∈ ((program.arena.kind? p).map NodeKind.children).getD [], c ∈ ids
  /-- They are no functions. -/
  functions : ∀ p ∈ ids, ((program.arena.kind? p).map NodeKind.isFunction).getD false = false

instance (program : Program) (ids : List NodeId) : Decidable (program.Encloses ids) :=
  decidable_of_iff (_ ∧ _ ∧ _) ⟨fun h => ⟨h.1, h.2.1, h.2.2⟩, fun h => ⟨h.enclosed, h.children, h.functions⟩⟩

theorem Encloses.functionsAtTop {program : Program} {ids : List NodeId} (he : program.Encloses ids) :
    program.FunctionsAtTop := by
  have hmem {id : NodeId} (h : program.Inside id) : id ∈ ids := by
    induction h with
    | @enclosed p c kind hk hp hc =>
      obtain ⟨position, hn⟩ := Arena.kind?_eq_some.1 hk
      exact he.enclosed p.index (Arena.lt_size_of_get? hn) hp c (by simpa [hk] using hc)
    | @deeper p c _ hc ih =>
      obtain ⟨node, hn, hc⟩ := hc
      exact he.children p ih c (by simpa [Arena.kind?, hn] using hc)
  intro id params body hk hinside
  have hnone := he.functions id (hmem hinside)
  rw [hk] at hnone
  cases hnone

end Program

namespace Arena

variable {a settled : Arena} {roots : List Root}

/-- What stands inside below a pipe does so with the pipe. -/
theorem Laid.inside_pipe (ha : a.Laid roots) {body p c lhs rhs : NodeId} {mark : Bool}
    (hp : a.kind? p = some (.pipe lhs rhs mark)) (hc : a.Parent p c) (h : Program.Inside ⟨a, body⟩ c) :
    Program.Inside ⟨a, body⟩ p := by
  cases h with
  | @enclosed q _ kind hk hq hmem =>
    obtain ⟨position, hn⟩ := kind?_eq_some.1 hk
    obtain rfl := ha.unique hc ⟨_, hn, NodeKind.mem_children_of_enclosed hmem⟩
    obtain rfl := Option.some.inj (hp.symm.trans hk)
    cases hmem
  | deeper h hq =>
    obtain rfl := ha.unique hc hq
    exact h

namespace Desugars

variable (hd : a.Desugars settled) (ha : a.Laid roots)
include hd ha

/-- What stands right below a node did so before, or it was the left operand of a pipe into that node. -/
theorem child_before {p c : NodeId} {node node' : Node} (hn : a.get? p = some node)
    (hn' : settled.get? p = some node') (hc : c ∈ node'.kind.children) : c ∈ node.kind.children ∨
      ∃ q rhs, a.kind? q = some (.pipe c rhs false) ∧ Analysis.pipeCall? a rhs = some p := by
  have ho : node'.outline = node.outline := by
    obtain ⟨node'', hn'', ho⟩ := hd.outline.get? hn
    rwa [Option.some.inj (hn''.symm.trans hn')] at ho
  obtain ⟨kind, position⟩ := node
  cases kind with
  | call callee args =>
    obtain ⟨more, hcall, hmore⟩ := hd.moved p callee args (kind?_eq_some.2 ⟨_, hn⟩)
    have hkind : node'.kind = .call callee (args ++ more) := by simpa [Arena.kind?, hn'] using hcall
    rw [hkind] at hc
    rcases List.mem_cons.1 hc with rfl | hc
    · exact .inl List.mem_cons_self
    · rcases List.mem_append.1 hc with hc | hc
      · exact .inl (List.mem_cons_of_mem _ hc)
      · obtain ⟨q, rhs, hmarks, hcall⟩ := (hmore c).1 hc
        exact .inr ⟨q, rhs, hmarks.1, hcall⟩
  | pipe lhs rhs mark =>
    obtain ⟨mark', rfl⟩ := Node.pipe_of_outline ho rfl
    obtain rfl := ha.pipe_fresh hn
    left
    cases mark' <;> simp_all [NodeKind.children]
  | _ =>
    obtain rfl := Node.eq_of_outline ho rfl
    exact .inl hc

/-- No node comes to stand inside. -/
theorem inside_before {body id : NodeId} (h : Program.Inside ⟨settled, body⟩ id) :
    Program.Inside ⟨a, body⟩ id := by
  induction h with
  | @enclosed p c kind hk hp hmem =>
    obtain ⟨position, hn⟩ := kind?_eq_some.1 hk
    have hbefore : a.get? p = some ⟨kind, position⟩ := by
      refine hd.outline.symm.get?_of_not_joint hn ?_
      cases kind <;> first | rfl | cases hmem
    exact .enclosed (kind?_eq_some.2 ⟨position, hbefore⟩) hp hmem
  | @deeper p c _ hc ih =>
    obtain ⟨node', hn', hmem⟩ := hc
    obtain ⟨node, hn, -⟩ := hd.outline.symm.get? hn'
    rcases hd.child_before ha hn hn' hmem with hmem | ⟨q, rhs, hq, hcall⟩
    · exact .deeper ih ⟨node, hn, hmem⟩
    · have hlhs : a.Parent q c := by
        obtain ⟨position, hn⟩ := kind?_eq_some.1 hq
        exact ⟨_, hn, by simp [NodeKind.children]⟩
      have hrhs : a.Parent q rhs := by
        obtain ⟨position, hn⟩ := kind?_eq_some.1 hq
        exact ⟨_, hn, by simp [NodeKind.children]⟩
      refine .deeper ?_ hlhs
      -- The call is the right operand of the pipe, or the left operand of the pipe that stands there.
      obtain ⟨-, rfl | ⟨tail, mark, hinner⟩⟩ := pipeCall?_eq_some.1 hcall
      · exact ha.inside_pipe hq hrhs ih
      · obtain ⟨position, hn⟩ := kind?_eq_some.1 hinner
        obtain rfl := ha.pipe_fresh hn
        exact ha.inside_pipe hq hrhs (ha.inside_pipe hinner ⟨_, hn, by simp [NodeKind.children]⟩ ih)

/-- Functions go on standing at the top level. -/
theorem functionsAtTop {body : NodeId} (h : Program.FunctionsAtTop ⟨a, body⟩) :
    Program.FunctionsAtTop ⟨settled, body⟩ := by
  intro id params body' hk hinside
  obtain ⟨position, hn⟩ := kind?_eq_some.1 hk
  have hbefore := hd.outline.symm.get?_of_not_joint hn rfl
  exact h id params body' (kind?_eq_some.2 ⟨position, hbefore⟩) (hd.inside_before ha hinside)

/-- Bindings go on being statements or members. -/
theorem operands {p : NodeId} {node' : Node} (hn' : settled.get? p = some node') {c : NodeId}
    (hc : c ∈ node'.kind.operands) : ∃ kind, settled.kind? c = some kind ∧ kind.isOperand := by
  have hbefore : ∃ kind, a.kind? c = some kind ∧ kind.isOperand := by
    obtain ⟨node, hn, ho⟩ := hd.outline.symm.get? hn'
    rcases Node.alike_of_outline ho with rfl | ⟨-, hj⟩
    · exact ha.operands p _ hn c hc
    · rcases hd.child_before ha hn hn' (NodeKind.mem_children_of_operands hc) with hmem | ⟨q, rhs, hq, -⟩
      · exact ha.operands p node hn c (NodeKind.operands_of_isJoint hj ▸ hmem)
      · obtain ⟨position, hq⟩ := kind?_eq_some.1 hq
        exact ha.operands q _ hq c (by simp [NodeKind.operands, NodeKind.children])
  obtain ⟨kind, hk, hoperand⟩ := hbefore
  obtain ⟨position, hn⟩ := kind?_eq_some.1 hk
  obtain ⟨node, hnode, ho⟩ := hd.outline.get? hn
  refine ⟨node.kind, kind?_eq_some.2 ⟨node.position, hnode⟩, ?_⟩
  rcases Node.alike_of_outline ho with rfl | ⟨-, hj⟩
  · exact hoperand
  · exact NodeKind.isOperand_of_isJoint hj

omit ha in
/-- What is known of nodes that are neither calls nor pipes goes on to hold. -/
theorem forall_nodes {T : NodeKind → Prop} (ht : ∀ kind : NodeKind, kind.isJoint → T kind)
    (h : ∀ node ∈ a.nodes, T node.kind) : ∀ node ∈ settled.nodes, T node.kind := by
  intro node hnode
  obtain ⟨i, hi⟩ := Array.mem_iff_getElem?.1 hnode
  cases hj : node.kind.isJoint with
  | true => exact ht _ hj
  | false =>
    have hbefore : a.get? ⟨i⟩ = some node :=
      hd.outline.symm.get?_of_not_joint (show settled.get? ⟨i⟩ = some node from hi) hj
    exact h node (Array.mem_of_getElem? hbefore)

end Desugars

end Arena

end DynScript
