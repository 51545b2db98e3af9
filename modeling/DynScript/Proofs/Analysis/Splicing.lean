import DynScript.Proofs.Analysis.Replay
import DynScript.Proofs.Tree.Direct

/-!
# Analysis rewrites nothing but pipes

However often a program is analysed, its nodes stay what they were, at the same tokens, apart from pipes that are marked
and calls that take the left operands of these. Each marked pipe gives its left operand to one call, and a call takes
one operand at most: the call that a pipe leads into is the right operand, or the left operand of the pipe that is, so
it has only one pipe as its parent or as the parent of that.
-/

namespace DynScript

/-- The nodes that a node names. A pipe names its left operand even when a call has taken it. -/
def NodeKind.named : NodeKind → List NodeId
  | pipe lhs rhs _ => [lhs, rhs]
  | kind => kind.children

namespace Arena

/-- Between two arenas a call has taken an operand, which is its last argument. -/
def Takes (a b : Arena) (call operand : NodeId) : Prop :=
  ∃ callee args, a.kind? call = some (.call callee args) ∧ b.kind? call = some (.call callee (args ++ [operand]))

/-- The second arena is the first one after operands have been spliced into calls. -/
structure Spliced (a b : Arena) : Prop where
  /-- No nodes are made. -/
  size : b.size = a.size
  /-- A node is the same, or a pipe that is marked, or a call with one more argument; it stands at the same token. -/
  nodes : ∀ id node, a.get? id = some node → b.get? id = some node ∨
    (∃ lhs rhs, node.kind = .pipe lhs rhs false ∧ b.get? id = some ⟨.pipe lhs rhs true, node.position⟩) ∨
    ∃ callee args operand, node.kind = .call callee args ∧
      b.get? id = some ⟨.call callee (args ++ [operand]), node.position⟩
  /-- A pipe that is marked has given its left operand to one call. -/
  given : ∀ p lhs rhs, Marks a b p lhs rhs → ∃! call, Takes a b call lhs
  /-- What a call has taken is the left operand of one pipe that is marked. -/
  taken : ∀ call operand, Takes a b call operand → ∃! p, ∃ rhs, Marks a b p operand rhs
  /-- No operand is taken by two calls. -/
  once : ∀ call call' operand, Takes a b call operand → Takes a b call' operand → call = call'
  /-- No call takes two operands. -/
  single : ∀ call operand operand', Takes a b call operand → Takes a b call operand' → operand = operand'
  /-- The nodes that a node names have smaller numbers. -/
  down : ∀ id node, b.get? id = some node → ∀ c ∈ node.kind.named, c.index < id.index

variable {a b : Arena} {roots : List Root}

/-- What a call has taken is the left operand of a pipe that leads into it. -/
theorem Takes.marks (hab : a.Desugars b) {call operand : NodeId} (h : Takes a b call operand) :
    ∃ p rhs, Marks a b p operand rhs ∧ Analysis.pipeCall? a rhs = some call := by
  obtain ⟨callee, args, ha, hb⟩ := h
  obtain ⟨more, hmore, hmem⟩ := hab.moved call callee args ha
  rw [hb] at hmore
  obtain rfl : [operand] = more := by simpa using hmore
  exact (hmem operand).1 (List.mem_singleton_self operand)

section laid

variable (ha : a.Laid roots)
include ha

theorem Laid.eq_of_marks {p q lhs rhs rhs' : NodeId} (hp : Marks a b p lhs rhs) (hq : Marks a b q lhs rhs') :
    p = q ∧ rhs = rhs' := by
  obtain rfl := ha.toIsForest.unique (ha.parent_pipe hp.1).1 (ha.parent_pipe hq.1).1
  have hkind := hp.1.symm.trans hq.1
  exact ⟨rfl, by simpa using hkind⟩

variable (hb : b.IsForest) (hab : a.Desugars b)
include hb hab

/-- A call is the same, or it has taken an operand. -/
theorem Laid.kept_or_takes {call callee : NodeId} {args : List NodeId} (hc : a.kind? call = some (.call callee args)) :
    b.kind? call = some (.call callee args) ∨ ∃ operand, b.kind? call = some (.call callee (args ++ [operand])) := by
  obtain ⟨more, hk, hmem⟩ := hab.moved call callee args hc
  cases more with
  | nil => exact .inl (by simpa using hk)
  | cons operand rest =>
    -- A second operand would come from the same pipe, so it would be the same one.
    have hnone : rest = [] := by
      refine List.eq_nil_iff_forall_not_mem.2 fun other hother => ?_
      obtain ⟨p, rhs, hp, hcall⟩ := (hmem operand).1 List.mem_cons_self
      obtain ⟨q, rhs', hq, hcall'⟩ := (hmem other).1 (List.mem_cons_of_mem _ hother)
      obtain rfl := ha.eq_of_pipeCall? hp.1 hq.1 hcall hcall'
      have hkind := hp.1.symm.trans hq.1
      obtain ⟨rfl, -⟩ : operand = other ∧ _ := by simpa using hkind
      obtain ⟨position, hn⟩ := kind?_eq_some.1 hk
      have hd : (callee :: (args ++ operand :: rest)).Nodup := hb.nodup hn
      exact (List.nodup_cons.1 (List.nodup_append.1 (List.nodup_cons.1 hd).2).2.1).1 hother
    subst hnone
    exact .inr ⟨operand, hk⟩

/-- Every marked pipe gives its left operand to a call. -/
theorem Laid.exists_takes {p lhs rhs : NodeId} (hp : Marks a b p lhs rhs) : ∃ call, Takes a b call lhs := by
  obtain ⟨call, hcall⟩ := hab.leads p lhs rhs hp
  obtain ⟨⟨callee, args, hc⟩, -⟩ := pipeCall?_eq_some.1 hcall
  obtain ⟨more, hmore, hmem⟩ := hab.moved call callee args hc
  have hlhs : lhs ∈ more := (hmem lhs).2 ⟨p, rhs, hp, hcall⟩
  refine ⟨call, callee, args, hc, ?_⟩
  rcases ha.kept_or_takes hb hab hc with hk | ⟨operand, hk⟩ <;> rw [hmore] at hk
  · obtain rfl : more = [] := by simpa using hk
    cases hlhs
  · obtain rfl : more = [operand] := by simpa using hk
    obtain rfl := List.mem_singleton.1 hlhs
    exact hmore

omit hb in
theorem Laid.eq_of_takes {call call' operand : NodeId} (h : Takes a b call operand) (h' : Takes a b call' operand) :
    call = call' := by
  obtain ⟨p, rhs, hp, hcall⟩ := h.marks hab
  obtain ⟨q, rhs', hq, hcall'⟩ := h'.marks hab
  obtain ⟨-, rfl⟩ := ha.eq_of_marks hp hq
  exact Option.some.inj (hcall.symm.trans hcall')

/-- What a node is after pipes have been desugared. -/
theorem Laid.get?_desugared {id : NodeId} {node : Node} (hn : a.get? id = some node) : b.get? id = some node ∨
    (∃ lhs rhs, node.kind = .pipe lhs rhs false ∧ b.get? id = some ⟨.pipe lhs rhs true, node.position⟩) ∨
    ∃ callee args operand, node.kind = .call callee args ∧
      b.get? id = some ⟨.call callee (args ++ [operand]), node.position⟩ := by
  obtain ⟨kind, position⟩ := node
  obtain ⟨node', hn', ho⟩ := hab.outline.get? hn
  cases kind with
  | pipe lhs rhs mark =>
    obtain rfl := ha.pipe_fresh hn
    obtain ⟨mark, rfl⟩ := Node.pipe_of_outline ho rfl
    cases mark with
    | false => exact .inl hn'
    | true => exact .inr (.inl ⟨lhs, rhs, rfl, hn'⟩)
  | call callee args =>
    obtain ⟨args', rfl⟩ := Node.call_of_outline ho rfl
    have hk : b.kind? id = some (.call callee args') := kind?_eq_some.2 ⟨position, hn'⟩
    rcases ha.kept_or_takes hb hab (kind?_eq_some.2 ⟨position, hn⟩) with hkept | ⟨operand, htaken⟩
    · obtain rfl : args' = args := by simpa using hk.symm.trans hkept
      exact .inl hn'
    · obtain rfl : args' = args ++ [operand] := by simpa using hk.symm.trans htaken
      exact .inr (.inr ⟨callee, args, operand, rfl, hn'⟩)
  | _ => exact .inl (hab.outline.get?_of_not_joint hn rfl)

/-- The left operand of a pipe still has a smaller number than the pipe. -/
theorem Laid.index_lt_of_named {id : NodeId} {node : Node} (hn : b.get? id = some node) {c : NodeId}
    (hc : c ∈ node.kind.named) : c.index < id.index := by
  obtain ⟨kind, position⟩ := node
  cases kind with
  | pipe lhs rhs mark =>
    obtain ⟨mark', hk⟩ := hab.outline.symm.pipe (kind?_eq_some.2 ⟨position, hn⟩)
    obtain ⟨hlhs, hrhs, -⟩ := ha.parent_pipe hk
    obtain rfl | rfl : c = lhs ∨ c = rhs := by simpa [NodeKind.named] using hc
    · exact ha.toIsForest.down hlhs
    · exact ha.toIsForest.down hrhs
  | _ => exact hb.down ⟨_, hn, hc⟩

theorem Laid.spliced : a.Spliced b where
  size := hab.outline.size_eq
  nodes _ _ := ha.get?_desugared hb hab
  given _ _ _ hp := by
    obtain ⟨call, hcall⟩ := ha.exists_takes hb hab hp
    exact ⟨call, hcall, fun _ h => ha.eq_of_takes hab h hcall⟩
  taken _ _ h := by
    obtain ⟨p, rhs, hp, -⟩ := h.marks hab
    exact ⟨p, ⟨rhs, hp⟩, fun _ ⟨_, hq⟩ => (ha.eq_of_marks hq hp).1⟩
  once _ _ _ := ha.eq_of_takes hab
  single := by
    rintro call operand operand' ⟨callee, args, hc, hk⟩ ⟨callee', args', hc', hk'⟩
    obtain ⟨rfl, rfl⟩ : callee = callee' ∧ args = args' := by simpa using hc.symm.trans hc'
    simpa using hk.symm.trans hk'
  down _ _ hn _ := ha.index_lt_of_named hb hab hn

end laid

end Arena

/-- However often a parsed program is analysed, no pass meets a defect, and the nodes are those that were parsed, after
the left operands of some pipes have been spliced into calls. -/
theorem analysis_rewrites_only_pipes (p : Parsed) (role : Role) (queues : Nat → Queue) (n : Nat) :
    ∃ pass, analysePasses p.program role queues n = .ok pass ∧ pass.program.body = p.program.body ∧
      p.program.arena.Spliced pass.program.arena := by
  obtain ⟨settled, found, hforest, hdesugars, -, hpass⟩ := analysePasses_settle p.laid role
  exact ⟨_, hpass queues n, rfl, p.laid.spliced hforest hdesugars⟩

end DynScript
