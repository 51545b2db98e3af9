import DynScript.Proofs.Grammar.Productions
import DynScript.Proofs.Tree.Outline

/-!
# Programs without pipes

A pipe stands for a plain call: `lhs |> f(args)` for `f(args, lhs)`, and `a |> f(xs) |> g(ys)`, which
groups to the right, for `g(ys, f(xs, a))`. `Program.direct` writes every pipe as the call that it stands
for. Once all pipes of a program have been desugared, its nodes are those of the direct program, apart from
the pipes.
-/

namespace DynScript

namespace Arena

/-- What is piped into the value of a node goes into this call: the node itself, or the left operand of the
pipe that it is. -/
def takesOver (a : Arena) (rhs call : NodeId) : Bool :=
  rhs = call || match a.kind? rhs with
    | some (.pipe lhs _ _) => lhs = call
    | _ => false

/-- The left operand that is piped into a call, if one is. -/
def pipedInto? (a : Arena) (call : NodeId) : Option NodeId :=
  (List.range a.size).findSome? fun i =>
    match a.kind? ⟨i⟩ with
    | some (.pipe lhs rhs _) => if a.takesOver rhs call then some lhs else none
    | _ => none

/-- What a node stands for: the call at the end of a chain of pipes, or the node itself. No chain is longer
than `levels`. -/
def standsForWithin (a : Arena) : Nat → NodeId → NodeId
  | 0, id => id
  | levels + 1, id =>
    match a.kind? id with
    | some (.pipe _ rhs _) => a.standsForWithin levels rhs
    | _ => id

/-- What a node stands for. -/
def standsFor (a : Arena) (id : NodeId) : NodeId := a.standsForWithin (id.index + 1) id

/-- A call with what is piped into it as its last argument; any other node as it is. -/
def withPiped (a : Arena) (id : NodeId) (node : Node) : Node :=
  match node.kind with
  | .call callee args => ⟨.call callee (args ++ (a.pipedInto? id).toList), node.position⟩
  | _ => node

/-- The node that is written for a node when no pipes are used. -/
def directNode (a : Arena) (id : NodeId) (node : Node) : Node :=
  a.withPiped (a.standsFor id) ((a.get? (a.standsFor id)).getD node)

/-- The nodes without pipes. -/
def direct (a : Arena) : Arena := ⟨a.nodes.mapIdx fun i node => a.directNode ⟨i⟩ node⟩

/-- The nodes of `a |> f() |> g()`, of which the last one is the whole, and those of `g(f(a))`. -/
example :
    let kinds : Array NodeKind := #[.ident "a", .ident "f", .call ⟨1⟩ [], .ident "g", .call ⟨3⟩ [],
      .pipe ⟨2⟩ ⟨4⟩ false, .pipe ⟨0⟩ ⟨5⟩ false]
    (direct ⟨kinds.map (⟨·, none⟩)⟩).nodes.map (·.kind) = #[.ident "a", .ident "f", .call ⟨1⟩ [⟨0⟩],
      .ident "g", .call ⟨3⟩ [⟨2⟩], .call ⟨3⟩ [⟨2⟩], .call ⟨3⟩ [⟨2⟩]] := by decide +kernel

end Arena

/-- The program in which every pipe is written as the call that it stands for. -/
def Program.direct (program : Program) : Program := ⟨program.arena.direct, program.body⟩

namespace Arena

variable {a b : Arena} {roots : List Root}

@[simp] theorem size_direct (a : Arena) : a.direct.size = a.size := by simp [direct, size]

theorem get?_direct {id : NodeId} {node : Node} (hn : a.get? id = some node) :
    a.direct.get? id = some (a.directNode id node) := by
  obtain ⟨i⟩ := id
  unfold get? at hn
  simp [direct, get?, hn]

/-- A node that is no pipe stands for itself. -/
theorem standsFor_self {id : NodeId} {node : Node} (hn : a.get? id = some node)
    (hp : ∀ lhs rhs mark, node.kind ≠ .pipe lhs rhs mark) : a.standsFor id = id := by
  unfold standsFor standsForWithin
  split
  · rename_i lhs rhs mark hk
    obtain ⟨position, hk⟩ := kind?_eq_some.1 hk
    exact absurd (congrArg Node.kind (Option.some.inj (hn.symm.trans hk))) (hp _ _ _)
  · rfl

/-- A pipe stands for what its right operand stands for. -/
theorem standsFor_pipe (ha : a.IsForest) {id lhs rhs : NodeId} {mark : Bool}
    (hk : a.kind? id = some (.pipe lhs rhs mark)) : a.standsFor id = a.standsFor rhs := by
  have hrhs {id lhs rhs : NodeId} {mark : Bool} (hk : a.kind? id = some (.pipe lhs rhs mark)) :
      rhs.index < id.index := by
    obtain ⟨position, hn⟩ := kind?_eq_some.1 hk
    exact ha.down ⟨_, hn, by cases mark <;> simp [NodeKind.children]⟩
  have hlevels (levels : Nat) (id : NodeId) (h : id.index < levels) :
      a.standsForWithin (levels + 1) id = a.standsForWithin levels id := by
    induction levels generalizing id with
    | zero => exact absurd h (Nat.not_lt_zero _)
    | succ levels ih =>
      rw [standsForWithin, standsForWithin]
      split
      · rename_i lhs rhs mark hk
        exact ih rhs (by have := hrhs hk; omega)
      · rfl
  have hany (levels extra : Nat) (id : NodeId) (h : id.index < levels) :
      a.standsForWithin (levels + extra) id = a.standsForWithin levels id := by
    induction extra with
    | zero => rfl
    | succ extra ih =>
      show a.standsForWithin (levels + extra + 1) id = _
      rw [hlevels (levels + extra) id (by omega)]
      exact ih
  have hlt := hrhs hk
  obtain ⟨extra, he⟩ := Nat.exists_eq_add_of_le (Nat.succ_le_of_lt hlt)
  unfold standsFor
  rw [standsForWithin, hk]
  simp only
  rw [he]
  exact hany _ _ _ (Nat.lt_succ_self _)

/-- What a node stands for is there, too. -/
theorem exists_standsFor (ha : a.IsForest) {id : NodeId} {node : Node} (hn : a.get? id = some node) :
    ∃ node, a.get? (a.standsFor id) = some node := by
  induction hi : id.index using Nat.strong_induction_on generalizing id node with
  | _ i ih =>
    by_cases hp : ∃ lhs rhs mark, node.kind = .pipe lhs rhs mark
    · obtain ⟨lhs, rhs, mark, hk⟩ := hp
      have hrhs : a.Parent id rhs := ⟨node, hn, by cases mark <;> simp [hk, NodeKind.children]⟩
      obtain ⟨node', hn'⟩ := exists_get? (ha.lt_size hrhs)
      rw [standsFor_pipe ha (kind?_eq_some.2 ⟨node.position, by rw [hn, ← hk]⟩)]
      exact ih rhs.index (hi ▸ ha.down hrhs) hn' rfl
    · rw [standsFor_self hn fun lhs rhs mark hk => hp ⟨lhs, rhs, mark, hk⟩]
      exact ⟨node, hn⟩

/-! ## What is piped into a call -/

section laid

variable (ha : a.Laid roots)
include ha

theorem Laid.parent_pipe {p lhs rhs : NodeId} {mark : Bool} (hp : a.kind? p = some (.pipe lhs rhs mark)) :
    a.Parent p lhs ∧ a.Parent p rhs ∧ lhs ≠ rhs := by
  obtain ⟨position, hn⟩ := kind?_eq_some.1 hp
  obtain rfl := ha.pipe_fresh hn
  refine ⟨⟨_, hn, by simp [NodeKind.children]⟩, ⟨_, hn, by simp [NodeKind.children]⟩, fun h => ?_⟩
  exact absurd (ha.before_of_pipe hn).lt (by simp [h])

/-- The left operand of a pipe is not the right operand of another one. -/
theorem Laid.not_both_operands {p q lhs rhs tail : NodeId} {mark mark' : Bool}
    (hp : a.kind? p = some (.pipe lhs rhs mark)) (hq : a.kind? q = some (.pipe rhs tail mark')) : False := by
  obtain ⟨_, hrhs, hne⟩ := ha.parent_pipe hp
  obtain ⟨hlhs, _, _⟩ := ha.parent_pipe hq
  obtain rfl := ha.toIsForest.unique hrhs hlhs
  rw [hp] at hq
  obtain ⟨rfl, _⟩ : lhs = rhs ∧ _ := by simpa using hq
  exact hne rfl

/-- Two pipes into one call are the same. -/
theorem Laid.eq_of_pipeCall? {p q call lhs rhs lhs' rhs' : NodeId} {mark mark' : Bool}
    (hp : a.kind? p = some (.pipe lhs rhs mark)) (hq : a.kind? q = some (.pipe lhs' rhs' mark'))
    (hpc : Analysis.pipeCall? a rhs = some call) (hqc : Analysis.pipeCall? a rhs' = some call) : p = q := by
  obtain ⟨_, hpr, _⟩ := ha.parent_pipe hp
  obtain ⟨_, hqr, _⟩ := ha.parent_pipe hq
  obtain ⟨_, rfl | ⟨tail, m, hr⟩⟩ := pipeCall?_eq_some.1 hpc <;>
    obtain ⟨_, hc | ⟨tail', m', hr'⟩⟩ := pipeCall?_eq_some.1 hqc
  · exact ha.toIsForest.unique hpr (hc ▸ hqr)
  · exact (ha.not_both_operands hp hr').elim
  · subst hc
    exact (ha.not_both_operands hq hr).elim
  · obtain rfl := ha.toIsForest.unique (ha.parent_pipe hr).1 (ha.parent_pipe hr').1
    exact ha.toIsForest.unique hpr hqr

end laid

theorem takesOver_iff {call rhs callee : NodeId} {args : List NodeId}
    (hc : a.kind? call = some (.call callee args)) :
    a.takesOver rhs call = true ↔ Analysis.pipeCall? a rhs = some call := by
  rw [pipeCall?_eq_some]
  unfold takesOver
  simp only [Bool.or_eq_true, decide_eq_true_eq, hc, Option.some.injEq, NodeKind.call.injEq, exists_and_left,
    exists_eq', and_true, true_and]
  refine or_congr eq_comm ⟨fun h => ?_, fun ⟨tail, mark, hr⟩ => by simp [hr]⟩
  split at h
  · rename_i lhs tail mark hr
    obtain rfl : lhs = call := by simpa using h
    exact ⟨tail, mark, hr⟩
  · cases h

/-- What is piped into a call is the left operand of the pipe that leads into it. -/
theorem mem_pipedInto? (ha : a.Laid roots) {call callee x : NodeId} {args : List NodeId}
    (hc : a.kind? call = some (.call callee args)) :
    x ∈ a.pipedInto? call ↔
      ∃ p rhs, a.kind? p = some (.pipe x rhs false) ∧ Analysis.pipeCall? a rhs = some call := by
  have hfind {i : Nat} {x : NodeId} : (match a.kind? ⟨i⟩ with
      | some (.pipe lhs rhs _) => if a.takesOver rhs call then some lhs else none
      | _ => none) = some x ↔
        ∃ rhs, a.kind? ⟨i⟩ = some (.pipe x rhs false) ∧ Analysis.pipeCall? a rhs = some call := by
    simp only [takesOver_iff hc]
    split
    · rename_i lhs rhs mark hk
      obtain ⟨position, hn⟩ := kind?_eq_some.1 hk
      obtain rfl := ha.pipe_fresh hn
      simp only [hk, Option.ite_none_right_eq_some, Option.some.injEq, NodeKind.pipe.injEq, and_true]
      constructor
      · rintro ⟨hcall, rfl⟩
        exact ⟨rhs, ⟨rfl, rfl⟩, hcall⟩
      · rintro ⟨_, ⟨rfl, rfl⟩, hcall⟩
        exact ⟨hcall, rfl⟩
    · rename_i hk
      exact iff_of_false (by simp) fun ⟨rhs, hp, _⟩ => hk _ _ _ hp
  constructor
  · intro hx
    obtain ⟨i, _, hi⟩ := List.exists_of_findSome?_eq_some (Option.mem_def.1 hx)
    obtain ⟨rhs, hp, hcall⟩ := hfind.1 hi
    exact ⟨⟨i⟩, rhs, hp, hcall⟩
  · rintro ⟨⟨i⟩, rhs, hp, hcall⟩
    have hi : i ∈ List.range a.size := by
      obtain ⟨position, hn⟩ := kind?_eq_some.1 hp
      exact List.mem_range.2 (lt_size_of_get? hn)
    have hsome := hfind.2 ⟨rhs, hp, hcall⟩
    cases hy : a.pipedInto? call with
    | none => exact absurd (List.findSome?_eq_none_iff.1 hy i hi) (by rw [hsome]; simp)
    | some y =>
      obtain ⟨j, _, hj⟩ := List.exists_of_findSome?_eq_some hy
      obtain ⟨rhs', hp', hcall'⟩ := hfind.1 hj
      obtain ⟨rfl⟩ : (⟨i⟩ : NodeId) = ⟨j⟩ := ha.eq_of_pipeCall? hp hp' hcall hcall'
      exact (Option.some.inj (hsome.symm.trans hj)).symm ▸ rfl

/-! ## The nodes when all pipes have been desugared -/

/-- The nodes of the first arena are those of the second one, apart from pipes that have been desugared: the
second arena has for them what it has for their right operands, which is a call. -/
structure Unpiped (a b : Arena) : Prop where
  /-- A node is the same, or a pipe for which a call is written. -/
  nodes : ∀ id, a.get? id = b.get? id ∨
    ∃ lhs rhs position, a.get? id = some ⟨.pipe lhs rhs true, position⟩ ∧ rhs.index < id.index ∧
      b.get? id = b.get? rhs ∧
      ∃ callee args position', b.get? id = some ⟨.call callee args, some position'⟩
  /-- What is assigned to is the same. -/
  targets : ∀ id target value position, a.get? id = some ⟨.assign target value, position⟩ →
    a.get? target = b.get? target

theorem Unpiped.refl (a : Arena) : a.Unpiped a := ⟨fun _ => .inl rfl, fun _ _ _ _ _ => rfl⟩

/-- When every pipe into a call has been desugared, the call has what is piped into it as its last argument. -/
theorem call_fed (ha : a.Laid roots) (hb : b.IsForest) (hab : a.Desugars b) {c callee : NodeId} {args : List NodeId}
    (hc : a.kind? c = some (.call callee args))
    (hfed : ∀ p lhs rhs, b.kind? p = some (.pipe lhs rhs false) → Analysis.pipeCall? a rhs ≠ some c) :
    b.kind? c = some (.call callee (args ++ (a.pipedInto? c).toList)) := by
  obtain ⟨more, hk, hmore⟩ := hab.moved c callee args hc
  have hmem (x : NodeId) : x ∈ more ↔ x ∈ a.pipedInto? c := by
    rw [hmore, mem_pipedInto? ha hc]
    refine exists_congr fun p => exists_congr fun rhs => ⟨fun ⟨hp, hcall⟩ => ⟨hp.1, hcall⟩, fun ⟨hp, hcall⟩ => ?_⟩
    obtain ⟨mark, hq⟩ := hab.outline.pipe hp
    cases mark with
    | false => exact absurd hcall (hfed _ _ _ hq)
    | true => exact ⟨⟨hp, hq⟩, hcall⟩
  have hnodup : more.Nodup := by
    obtain ⟨position, hn⟩ := kind?_eq_some.1 hk
    have hd : (callee :: (args ++ more)).Nodup := hb.nodup hn
    exact (List.nodup_append.1 (List.nodup_cons.1 hd).2).2.1
  have heq : more = (a.pipedInto? c).toList := by
    cases hx : a.pipedInto? c with
    | none => exact List.eq_nil_iff_forall_not_mem.2 fun x hm => by simpa [hx] using (hmem x).1 hm
    | some x =>
      have hperm : more.Perm [x] :=
        (List.perm_ext_iff_of_nodup hnodup (List.nodup_singleton x)).2 fun y => by
          rw [hmem, hx, Option.mem_some_iff, List.mem_singleton, eq_comm]
      exact List.perm_singleton.1 hperm
  rw [hk, heq]

section desugared

variable (ha : a.Laid roots) (hb : b.IsForest) (hab : a.Desugars b)
  (hall : ∀ p lhs rhs, b.kind? p ≠ some (.pipe lhs rhs false))
include ha hb hab hall

/-- A call has what is piped into it as its last argument. -/
theorem call_desugared {c callee : NodeId} {args : List NodeId} (hc : a.kind? c = some (.call callee args)) :
    b.kind? c = some (.call callee (args ++ (a.pipedInto? c).toList)) :=
  call_fed ha hb hab hc fun p lhs rhs hp => absurd hp (hall p lhs rhs)

/-- A node that is no pipe is the same in the direct program. -/
theorem get?_direct_of_not_pipe {id : NodeId} {node : Node} (hn : a.get? id = some node)
    (hp : ∀ lhs rhs mark, node.kind ≠ .pipe lhs rhs mark) : b.get? id = a.direct.get? id := by
  rw [get?_direct hn, directNode, standsFor_self hn hp, hn, Option.getD_some]
  obtain ⟨kind, position⟩ := node
  by_cases hcall : ∃ callee args, kind = .call callee args
  · obtain ⟨callee, args, rfl⟩ := hcall
    obtain ⟨position', hk⟩ := kind?_eq_some.1 (call_desugared ha hb hab hall (kind?_eq_some.2 ⟨_, hn⟩))
    obtain ⟨node', hn', ho⟩ := hab.outline.get? hn
    obtain rfl := Option.some.inj (hk.symm.trans hn')
    obtain rfl : position' = position := Node.position_outline ho
    exact hk
  · have hj : kind.isJoint = false := by
      cases kind with
      | call callee args => exact absurd ⟨_, _, rfl⟩ hcall
      | pipe lhs rhs mark => exact absurd rfl (hp lhs rhs mark)
      | _ => rfl
    rw [hab.outline.get?_of_not_joint hn hj]
    cases kind <;> first | rfl | exact absurd ⟨_, _, rfl⟩ hcall

omit hb hab hall in
/-- A pipe is what its right operand is in the direct program. -/
theorem get?_direct_of_pipe {id lhs rhs : NodeId} {mark : Bool}
    (hk : a.kind? id = some (.pipe lhs rhs mark)) : a.direct.get? id = a.direct.get? rhs := by
  obtain ⟨position, hn⟩ := kind?_eq_some.1 hk
  obtain ⟨node, hr⟩ := exists_get? (ha.toIsForest.lt_size (ha.parent_pipe hk).2.1)
  obtain ⟨node', ht⟩ := exists_standsFor ha.toIsForest hr
  rw [get?_direct hn, get?_direct hr, directNode, directNode, standsFor_pipe ha.toIsForest hk, ht]
  rfl

omit hb in
/-- Where all pipes have been desugared, they stand for calls. -/
theorem exists_direct_call {id lhs rhs : NodeId} {mark : Bool} (hk : a.kind? id = some (.pipe lhs rhs mark)) :
    ∃ callee args position, a.direct.get? id = some ⟨.call callee args, some position⟩ := by
  induction hi : id.index using Nat.strong_induction_on generalizing id lhs rhs mark with
  | _ i ih =>
    obtain ⟨position, hn⟩ := kind?_eq_some.1 hk
    obtain rfl := ha.pipe_fresh hn
    obtain ⟨mark, hm⟩ := hab.outline.pipe hk
    have hmark : mark = true := by
      by_contra hne
      rw [Bool.not_eq_true] at hne
      exact hall id lhs rhs (hne ▸ hm)
    obtain ⟨c, hc⟩ := hab.leads id lhs rhs ⟨hk, hmark ▸ hm⟩
    rw [get?_direct_of_pipe ha hk]
    obtain ⟨⟨callee, args, hcall⟩, rfl | ⟨tail, mark', hr⟩⟩ := pipeCall?_eq_some.1 hc
    · obtain ⟨position, hn⟩ := kind?_eq_some.1 hcall
      obtain ⟨q, rfl⟩ := Option.isSome_iff_exists.1 (ha.proper _ _ hn)
      rw [get?_direct hn, directNode, standsFor_self hn (by simp), hn]
      exact ⟨_, _, q, rfl⟩
    · exact ih rhs.index (hi ▸ ha.toIsForest.down (ha.parent_pipe hk).2.1) hr rfl

/-- Once all pipes have been desugared the nodes are those of the direct program, apart from the pipes. -/
theorem nodes_direct (id : NodeId) : b.get? id = a.direct.get? id ∨
    ∃ lhs rhs position, b.get? id = some ⟨.pipe lhs rhs true, position⟩ ∧ rhs.index < id.index ∧
      a.direct.get? id = a.direct.get? rhs ∧
      ∃ callee args position', a.direct.get? id = some ⟨.call callee args, some position'⟩ := by
  cases hn : a.get? id with
  | none =>
    have hle : a.size ≤ id.index := by
      by_contra hlt
      obtain ⟨node, hn'⟩ := exists_get? (show id.index < a.size by omega)
      simp [hn] at hn'
    left
    rw [get?_eq_none (hab.outline.size_eq ▸ hle), get?_eq_none (by rwa [size_direct])]
  | some node =>
    by_cases hp : ∃ lhs rhs mark, node.kind = .pipe lhs rhs mark
    · obtain ⟨lhs, rhs, mark, hk⟩ := hp
      have hkind : a.kind? id = some (.pipe lhs rhs mark) :=
        kind?_eq_some.2 ⟨node.position, by rw [hn, ← hk]⟩
      obtain ⟨mark', hm⟩ := hab.outline.pipe hkind
      obtain ⟨position, hm⟩ := kind?_eq_some.1 hm
      have hmark : mark' = true := by
        by_contra hne
        rw [Bool.not_eq_true] at hne
        exact hall id lhs rhs (kind?_eq_some.2 ⟨position, hne ▸ hm⟩)
      exact .inr ⟨lhs, rhs, position, hmark ▸ hm, ha.toIsForest.down (ha.parent_pipe hkind).2.1,
        get?_direct_of_pipe ha hkind, exists_direct_call ha hab hall hkind⟩
    · exact .inl (get?_direct_of_not_pipe ha hb hab hall hn fun lhs rhs mark hk => hp ⟨lhs, rhs, mark, hk⟩)

theorem unpiped_direct : b.Unpiped a.direct where
  nodes := nodes_direct ha hb hab hall
  targets id target value position hn := by
    obtain ⟨node, hn', ho⟩ := hab.outline.symm.get? hn
    obtain rfl := Node.eq_of_outline ho rfl
    obtain ⟨kind, hk, htest⟩ := ha.proper _ _ hn'
    obtain ⟨position', ht⟩ := kind?_eq_some.1 hk
    exact get?_direct_of_not_pipe ha hb hab hall ht fun lhs rhs mark hpipe => by
      simp [show kind = .pipe lhs rhs mark from hpipe, Grammar.isAssignable] at htest

/-- There are no pipes in the direct program. -/
theorem kind?_direct_ne_pipe (id lhs rhs : NodeId) (mark : Bool) :
    a.direct.kind? id ≠ some (.pipe lhs rhs mark) := by
  intro h
  obtain ⟨position, hd⟩ := kind?_eq_some.1 h
  rcases nodes_direct ha hb hab hall id with hsame | ⟨_, _, _, _, _, _, callee, args, position', hcall⟩
  · have hk : b.kind? id = some (.pipe lhs rhs mark) := kind?_eq_some.2 ⟨position, hsame.trans hd⟩
    obtain ⟨mark', ha'⟩ := hab.outline.symm.pipe hk
    obtain ⟨callee, args, position', hcall⟩ := exists_direct_call ha hab hall ha'
    simp [hcall] at hd
  · simp [hcall] at hd

end desugared

end Arena

end DynScript
