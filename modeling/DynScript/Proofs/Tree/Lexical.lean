import DynScript.Proofs.Tree.Inside
import DynScript.Scope.Declaration

/-!
# Lexical scopes

An `Outlook` is the scopes that lie around a place of a program. Which ones these are can be read off the nodes
alone, except inside a record that stands open: `Arena.Places` says in which outlook every child of a node stands
when the node itself stands in a given one, and `Arena.Stands` follows this down to any node.
-/

namespace DynScript

namespace Scope

/-- The declaration of a name that is in force in some scopes, the innermost first. -/
def inForce? (scopes : List Scope) (name : String) : Option Declaration := scopes.findSome? (·.find? name)

/-- Declare a name in the innermost of some scopes, unless it is final there. -/
def declareIn (d : Declaration) : List Scope → List Scope
  | [] => [empty.push d]
  | scope :: outer =>
    if ((scope.find? d.name).filter Declaration.isFinal).isSome then scope :: outer else scope.push d :: outer

variable {scope : Scope} {scopes : List Scope} {d : Declaration} {name : String}

@[simp] theorem inForce?_cons :
    inForce? (scope :: scopes) name = (scope.find? name).or (inForce? scopes name) := by
  simp only [inForce?, List.findSome?_cons]
  cases scope.find? name <;> rfl

@[simp] theorem find?_empty : empty.find? name = none := rfl

theorem find?_push_self (h : d.name = name) : (scope.push d).find? name = some d := by
  simp [find?, push, h]

theorem find?_push_of_ne (h : d.name ≠ name) : (scope.push d).find? name = scope.find? name := by
  simp [find?, push, h]

/-- Whether a name is final in the innermost of some scopes. -/
def fixes (scopes : List Scope) (name : String) : Bool :=
  match scopes with
  | [] => false
  | scope :: _ => ((scope.find? name).filter Declaration.isFinal).isSome

/-- A name that is final is not declared again. -/
theorem declareIn_of_fixes (h : fixes scopes d.name) : declareIn d scopes = scopes := by
  cases scopes with
  | nil => cases h
  | cons scope outer => exact if_pos h

/-- After a final declaration a name is final, too. -/
theorem fixes_declareIn (hd : d.isFinal) (h : fixes scopes d.name = false) (name : String) :
    fixes (declareIn d scopes) name = (decide (name = d.name) || fixes scopes name) := by
  have hpush (scope : Scope) : (((scope.push d).find? name).filter Declaration.isFinal).isSome =
      (decide (name = d.name) || ((scope.find? name).filter Declaration.isFinal).isSome) := by
    by_cases hname : name = d.name
    · subst hname
      simp [find?_push_self, hd]
    · simp [find?_push_of_ne (Ne.symm hname), hname]
  cases scopes with
  | nil => exact hpush empty
  | cons scope outer =>
    have hdeclared : declareIn d (scope :: outer) = scope.push d :: outer := if_neg (by simpa [fixes] using h)
    rw [hdeclared]
    exact hpush scope

/-- Only the innermost scope gets a declaration. -/
theorem exists_declareIn (d : Declaration) (scope : Scope) (outer : List Scope) :
    ∃ scope', declareIn d (scope :: outer) = scope' :: outer := by
  rw [declareIn]
  split
  · exact ⟨scope, rfl⟩
  · exact ⟨scope.push d, rfl⟩

/-- What a name means does not change when another one is declared. -/
theorem inForce?_declareIn_of_ne (h : d.name ≠ name) : inForce? (declareIn d scopes) name = inForce? scopes name := by
  cases scopes with
  | nil => simp [declareIn, find?_push_of_ne h]
  | cons scope outer =>
    rw [declareIn]
    split
    · rfl
    · rw [inForce?_cons, inForce?_cons, find?_push_of_ne h]

end Scope

/-- The scopes in force at a place, the innermost first; nothing is known inside a record that stands open. -/
abbrev Outlook : Type := Option (List Scope)

namespace Outlook

/-- The outlook in a new scope. -/
def opened (o : Outlook) : Outlook := o.map (Scope.empty :: ·)

/-- The outlook after a declaration. -/
def declare (o : Outlook) (d : Declaration) : Outlook := o.map (Scope.declareIn d)

/-- The outlook after several declarations. -/
def declareAll (o : Outlook) (ds : List Declaration) : Outlook := ds.foldl declare o

/-- A name is final in the innermost scope. -/
def Fixes (o : Outlook) (name : String) : Prop :=
  ∀ scopes ∈ o, ∃ scope outer, scopes = scope :: outer ∧ ((scope.find? name).filter Declaration.isFinal).isSome

variable {o : Outlook} {d : Declaration} {name : String}

/-- A name that is final is not declared again. -/
theorem Fixes.declare_eq (h : o.Fixes d.name) : o.declare d = o := by
  cases o with
  | none => rfl
  | some scopes =>
    obtain ⟨scope, outer, rfl, hfinal⟩ := h scopes rfl
    simp only [declare, Option.map_some, Scope.declareIn, if_pos hfinal]

/-- After a final declaration a name is final. -/
theorem fixes_declare (hd : d.isFinal) : (o.declare d).Fixes d.name := by
  intro scopes hscopes
  obtain ⟨before, -, rfl⟩ := Option.mem_map.1 hscopes
  cases before with
  | nil => exact ⟨_, [], rfl, by simp [Scope.find?_push_self, hd]⟩
  | cons scope outer =>
    rw [Scope.declareIn]
    split
    · rename_i hfinal
      exact ⟨scope, outer, rfl, hfinal⟩
    · exact ⟨_, outer, rfl, by simp [Scope.find?_push_self, hd]⟩

/-- It stays so. -/
theorem Fixes.declare (h : o.Fixes name) (d : Declaration) : (o.declare d).Fixes name := by
  by_cases hname : d.name = name
  · subst hname
    rwa [h.declare_eq]
  · intro scopes hscopes
    obtain ⟨before, hbefore, rfl⟩ := Option.mem_map.1 hscopes
    obtain ⟨scope, outer, rfl, hfinal⟩ := h before hbefore
    rw [Scope.declareIn]
    split
    · exact ⟨scope, outer, rfl, hfinal⟩
    · exact ⟨_, outer, rfl, by rwa [Scope.find?_push_of_ne hname]⟩

end Outlook

namespace Param

/-- What a parameter of a function declares. -/
def ofFunction (p : Param) : Declaration := ⟨p.name, p.position, true, false⟩

/-- What a parameter of a class declares. -/
def ofClass (p : Param) : Declaration := ⟨p.name, p.position, true, p.isMutable⟩

end Param

namespace Node

/-- What a binding declares. -/
def declaration? (node : Node) : Option Declaration :=
  match node.kind with
  | .binding name mode isFinal _ => some ⟨name, node.position, isFinal, mode = .mutable⟩
  | _ => none

/-- The names that a node declares to be mutable. -/
def mutables (node : Node) : List String :=
  match node.kind with
  | .binding name .mutable _ _ => [name]
  | .object params _ _ => ((params.getD []).filter Param.isMutable).map fun p => p.name
  | _ => []

end Node

/-- Whether the children of a node all stand where the node stands. -/
def NodeKind.isFlat : NodeKind → Bool
  | block _ | binding _ _ _ _ | function _ _ | loop _ _ _ | assign _ _ | object _ _ _ | envOpen _ _ => false
  | _ => true

/-- Whether a node is an object literal. -/
def NodeKind.isObject : NodeKind → Bool
  | object _ _ _ => true
  | _ => false

namespace Arena

variable {a : Arena} {o o' : Outlook} {id c : NodeId} {ids : List NodeId} {node : Node}

/-- An analysis has nothing to change: pipes have been desugared, and bindings are statements or members. -/
structure Settled (a : Arena) : Prop where
  /-- Bindings are statements or members. -/
  operands : ∀ {p : NodeId} {node : Node}, a.get? p = some node → ∀ c ∈ node.kind.operands,
    ∃ kind, a.kind? c = some kind ∧ kind.isOperand
  /-- Pipes have been desugared. -/
  pipes : ∀ {p lhs rhs : NodeId} {mark : Bool}, a.kind? p = some (.pipe lhs rhs mark) → mark = true

/-- A name is declared to be mutable somewhere. -/
def Mutates (a : Arena) (name : String) : Prop := ∃ node ∈ a.nodes, name ∈ node.mutables

instance (a : Arena) (name : String) : Decidable (a.Mutates name) :=
  inferInstanceAs (Decidable (∃ node ∈ a.nodes, _))

/-- The outlook after a statement. -/
def past (a : Arena) (o : Outlook) (id : NodeId) : Outlook :=
  match (a.get? id).bind Node.declaration? with
  | some d => o.declare d
  | none => o

/-- The scopes after a statement. -/
def adds (a : Arena) (id : NodeId) (scopes : List Scope) : List Scope :=
  match (a.get? id).bind Node.declaration? with
  | some d => Scope.declareIn d scopes
  | none => scopes

/-- Only bindings add to the scopes. -/
theorem adds_isOperand (h : ∃ kind, a.kind? id = some kind ∧ kind.isOperand) (scopes : List Scope) :
    a.adds id scopes = scopes := by
  obtain ⟨kind, hk, hoperand⟩ := h
  obtain ⟨position, hn⟩ := kind?_eq_some.1 hk
  unfold adds
  rw [hn]
  cases kind <;> first | rfl | cases hoperand

theorem adds_binding {name : String} {mode : BindingMode} {isFinal : Bool} {value : NodeId}
    {position : Option Position} (hn : a.get? id = some ⟨.binding name mode isFinal value, position⟩)
    (scopes : List Scope) :
    a.adds id scopes = Scope.declareIn ⟨name, position, isFinal, mode = .mutable⟩ scopes := by
  simp [adds, hn, Node.declaration?]

/-- Only bindings change the outlook. -/
theorem past_isOperand (h : ∃ kind, a.kind? id = some kind ∧ kind.isOperand) : a.past o id = o := by
  obtain ⟨kind, hk, hoperand⟩ := h
  obtain ⟨position, hn⟩ := kind?_eq_some.1 hk
  unfold past
  rw [hn]
  cases kind <;> first | rfl | cases hoperand

theorem past_some (a : Arena) (scopes : List Scope) (id : NodeId) :
    ∃ scopes', a.past (some scopes) id = some scopes' := by
  unfold past
  split <;> exact ⟨_, rfl⟩

theorem past_binding {name : String} {mode : BindingMode} {isFinal : Bool} {value : NodeId}
    {position : Option Position} (hn : a.get? id = some ⟨.binding name mode isFinal value, position⟩) :
    a.past o id = o.declare ⟨name, position, isFinal, mode = .mutable⟩ := by
  simp [past, hn, Node.declaration?]

/-- What is declared after a statement was declared before it, or the statement is a binding of that name. -/
theorem inForce?_past {scopes : List Scope} {name : String} (hs : scopes ∈ a.past o id)
    (hd : (Scope.inForce? scopes name).isSome) : (∃ outer ∈ o, (Scope.inForce? outer name).isSome) ∨
      ∃ mode isFinal value, a.kind? id = some (.binding name mode isFinal value) := by
  unfold past at hs
  split at hs
  · rename_i d hdeclared
    obtain ⟨⟨kind, position⟩, hn, hd'⟩ := Option.bind_eq_some_iff.1 hdeclared
    obtain ⟨outer, houter, rfl⟩ := Option.mem_map.1 hs
    by_cases hname : d.name = name
    · subst hname
      right
      cases kind with
      | binding name mode isFinal value =>
        obtain rfl := Option.some.inj hd'
        exact ⟨mode, isFinal, value, kind?_eq_some.2 ⟨position, hn⟩⟩
      | _ => cases hd'
    · rw [Scope.inForce?_declareIn_of_ne hname] at hd
      exact .inl ⟨outer, houter, hd⟩
  · exact .inl ⟨scopes, hs, hd⟩

/-- So it is after several statements. -/
theorem inForce?_foldl_past {scopes : List Scope} {name : String} (hs : scopes ∈ ids.foldl a.past o)
    (hd : (Scope.inForce? scopes name).isSome) : (∃ outer ∈ o, (Scope.inForce? outer name).isSome) ∨
      ∃ i ∈ ids, ∃ mode isFinal value, a.kind? i = some (.binding name mode isFinal value) := by
  induction ids generalizing o with
  | nil => exact .inl ⟨scopes, hs, hd⟩
  | cons id rest ih =>
    rcases ih hs with ⟨inner, hinner, hd'⟩ | ⟨i, hi, hbinding⟩
    · exact (inForce?_past hinner hd').imp_right fun hbinding => ⟨id, List.mem_cons_self, hbinding⟩
    · exact .inr ⟨i, List.mem_cons_of_mem _ hi, hbinding⟩

/-- Where a node stands among statements, each of which is in the scope of those before it. -/
inductive InRow (a : Arena) : Outlook → List NodeId → NodeId → Outlook → Prop
  | first {o : Outlook} {id : NodeId} {rest : List NodeId} : InRow a o (id :: rest) id o
  | later {o o' : Outlook} {id c : NodeId} {rest : List NodeId} (h : InRow a (a.past o id) rest c o') :
    InRow a o (id :: rest) c o'

theorem exists_inRow (h : c ∈ ids) (o : Outlook) : ∃ o', a.InRow o ids c o' := by
  induction ids generalizing o with
  | nil => cases h
  | cons id rest ih =>
    rcases List.mem_cons.1 h with rfl | h
    · exact ⟨o, .first⟩
    · obtain ⟨o', hrow⟩ := ih h (a.past o id)
      exact ⟨o', .later hrow⟩

theorem inRow_append (before after : List NodeId) :
    a.InRow o (before ++ c :: after) c (before.foldl a.past o) := by
  induction before generalizing o with
  | nil => exact .first
  | cons id rest ih => exact .later ih

/-- Where the children of a node stand that stands in an outlook. The name that is assigned is no place of its own. -/
inductive Places (a : Arena) : Node → Outlook → NodeId → Outlook → Prop
  | statement {items : List NodeId} {position : Option Position} {o o' : Outlook} {c : NodeId}
    (h : a.InRow o.opened items c o') : Places a ⟨.block items, position⟩ o c o'
  | value {name : String} {mode : BindingMode} {isFinal : Bool} {value : NodeId} {position : Option Position}
    {o : Outlook} : Places a ⟨.binding name mode isFinal value, position⟩ o value
      (if mode = .recursive then o.declare ⟨name, position, isFinal, false⟩ else o)
  | body {params : List Param} {body : NodeId} {position : Option Position} {o : Outlook} :
    Places a ⟨.function params body, position⟩ o body (o.opened.declareAll (params.map Param.ofFunction))
  | bound {start stop body c : NodeId} {position : Option Position} {o : Outlook} (h : c ∈ [start, stop]) :
    Places a ⟨.loop start stop body, position⟩ o c o
  | round {start stop body : NodeId} {position : Option Position} {o : Outlook} :
    Places a ⟨.loop start stop body, position⟩ o body (o.opened.declare ⟨Analysis.loopName, none, true, false⟩)
  | assigned {target value : NodeId} {position : Option Position} {o : Outlook} :
    Places a ⟨.assign target value, position⟩ o value o
  | target {target value : NodeId} {position : Option Position} {o : Outlook}
    (h : ∀ name, a.kind? target ≠ some (.ident name)) : Places a ⟨.assign target value, position⟩ o target o
  | member {params : Option (List Param)} {composed : List Label} {members : List NodeId}
    {position : Option Position} {o o' : Outlook} {c : NodeId}
    (h : a.InRow (o.opened.declareAll ((params.getD []).map Param.ofClass)) members c o') :
    Places a ⟨.object params composed members, position⟩ o c o'
  | record {target body : NodeId} {position : Option Position} {o : Outlook} :
    Places a ⟨.envOpen target body, position⟩ o target o.opened
  | inside {target body : NodeId} {position : Option Position} {o : Outlook} :
    Places a ⟨.envOpen target body, position⟩ o body none
  | operand {node : Node} {o : Outlook} {c : NodeId} (hflat : node.kind.isFlat) (h : c ∈ node.kind.children) :
    Places a node o c o

/-- Every child of a node stands somewhere, apart from a name that is assigned. -/
theorem exists_places (hc : c ∈ node.kind.children) (o : Outlook) :
    (∃ value name, node.kind = .assign c value ∧ a.kind? c = some (.ident name)) ∨ ∃ o', a.Places node o c o' := by
  obtain ⟨kind, position⟩ := node
  cases kind with
  | block items =>
    obtain ⟨o', hrow⟩ := exists_inRow hc o.opened
    exact .inr ⟨o', .statement hrow⟩
  | object params composed members =>
    obtain ⟨o', hrow⟩ := exists_inRow hc (o.opened.declareAll ((params.getD []).map Param.ofClass))
    exact .inr ⟨o', .member hrow⟩
  | binding name mode isFinal value =>
    obtain rfl : c = value := by simpa [NodeKind.children] using hc
    exact .inr ⟨_, .value⟩
  | function params body =>
    obtain rfl : c = body := by simpa [NodeKind.children] using hc
    exact .inr ⟨_, .body⟩
  | loop start stop body =>
    by_cases hbound : c ∈ [start, stop]
    · exact .inr ⟨o, .bound hbound⟩
    · obtain rfl : c = body := by
        simp only [NodeKind.children, List.mem_cons] at hc hbound
        tauto
      exact .inr ⟨_, .round⟩
  | assign target value =>
    by_cases hvalue : c = value
    · subst hvalue
      exact .inr ⟨o, .assigned⟩
    · obtain rfl : c = target := by
        simp only [NodeKind.children, List.mem_cons] at hc
        tauto
      by_cases hname : ∃ name, a.kind? c = some (.ident name)
      · obtain ⟨name, hname⟩ := hname
        exact .inl ⟨value, name, rfl, hname⟩
      · exact .inr ⟨o, .target fun name hk => hname ⟨name, hk⟩⟩
  | envOpen target body =>
    by_cases htarget : c = target
    · subst htarget
      exact .inr ⟨_, .record⟩
    · obtain rfl : c = body := by
        simp only [NodeKind.children, List.mem_cons] at hc
        tauto
      exact .inr ⟨none, .inside⟩
  | _ => exact .inr ⟨o, .operand rfl hc⟩

/-- A node stands in an outlook, at or below a node that stands in another one. -/
inductive Stands (a : Arena) : Outlook → NodeId → Outlook → NodeId → Prop
  | here {o : Outlook} {id : NodeId} : Stands a o id o id
  | deeper {o o' o'' : Outlook} {id c i : NodeId} {node : Node} (hn : a.get? id = some node)
    (hp : a.Places node o c o') (h : Stands a o' c o'' i) : Stands a o id o'' i

theorem Stands.trans {o'' : Outlook} {i : NodeId} (h : a.Stands o id o' c) (k : a.Stands o' c o'' i) :
    a.Stands o id o'' i := by
  induction h with
  | here => exact k
  | deeper hn hp _ ih => exact .deeper hn hp (ih k)

/-- A node that has something above it has so after some pipes have been desugared: what was taken away from a pipe
stands below a call. -/
theorem Desugars.exists_parent {settled : Arena} {roots : List Root} (hd : a.Desugars settled) (ha : a.Laid roots)
    {p : NodeId} (hp : a.Parent p c) : ∃ q, settled.Parent q c := by
  obtain ⟨⟨kind, position⟩, hn, hc⟩ := hp
  cases kind with
  | call callee args =>
    obtain ⟨more, hcall, -⟩ := hd.moved p callee args (kind?_eq_some.2 ⟨_, hn⟩)
    obtain ⟨position', hn'⟩ := kind?_eq_some.1 hcall
    refine ⟨p, _, hn', ?_⟩
    simp only [NodeKind.children, List.mem_cons, List.mem_append] at hc ⊢
    tauto
  | pipe lhs rhs mark =>
    obtain rfl := ha.pipe_fresh hn
    have hk : a.kind? p = some (.pipe lhs rhs false) := kind?_eq_some.2 ⟨_, hn⟩
    obtain ⟨mark', hk'⟩ := hd.outline.pipe hk
    obtain ⟨position', hn'⟩ := kind?_eq_some.1 hk'
    by_cases hstays : c ∈ (NodeKind.pipe lhs rhs mark').children
    · exact ⟨p, _, hn', hstays⟩
    · -- The pipe has been desugared, and the node is its left operand.
      have hmark : mark' = true := by
        cases mark' with
        | true => rfl
        | false => exact absurd hc hstays
      subst hmark
      obtain rfl : c = lhs := by
        simp only [NodeKind.children, List.mem_cons, if_true, Bool.false_eq_true, if_false] at hc hstays
        tauto
      obtain ⟨call, hcall⟩ := hd.leads p c rhs ⟨hk, hk'⟩
      obtain ⟨⟨callee, args, hkcall⟩, -⟩ := pipeCall?_eq_some.1 hcall
      obtain ⟨more, hkcall', hmore⟩ := hd.moved call callee args hkcall
      obtain ⟨position'', hncall⟩ := kind?_eq_some.1 hkcall'
      have hmoved : c ∈ more := (hmore c).2 ⟨p, rhs, ⟨hk, hk'⟩, hcall⟩
      exact ⟨call, _, hncall, List.mem_cons_of_mem _ (List.mem_append_right _ hmoved)⟩
  | _ => exact ⟨p, _, hd.outline.get?_of_not_joint hn rfl, hc⟩

end Arena

namespace Program

variable {program : Program} {outer : Outlook}

/-- A node stands in an outlook, somewhere in the statements of a program. -/
def StandsIn (program : Program) (outer o : Outlook) (id : NodeId) : Prop :=
  ∃ items c o', program.arena.kind? program.body = some (.block items) ∧ program.arena.InRow outer items c o' ∧
    program.arena.Stands o' c o id

/-- Every node stands somewhere, apart from the block of the program and the names that are assigned. -/
theorem exists_standsIn (hf : program.arena.IsForest)
    (hcovered : ∀ id : NodeId, id.index < program.arena.size → id ≠ program.body → ∃ p, program.arena.Parent p id)
    {items : List NodeId} (hk : program.arena.kind? program.body = some (.block items)) (outer : Outlook)
    {id : NodeId} {node : Node} (hn : program.arena.get? id = some node) (hne : id ≠ program.body)
    (hname : ∀ name, node.kind ≠ .ident name) : ∃ o, program.StandsIn outer o id := by
  have hlt : id.index < program.arena.size := Arena.lt_size_of_get? hn
  obtain ⟨above, habove⟩ : ∃ n, n = program.arena.size - id.index := ⟨_, rfl⟩
  -- A parent has a greater number, so the way up ends.
  induction above using Nat.strong_induction_on generalizing id node with
  | _ above ih =>
    obtain ⟨p, hp⟩ := hcovered id hlt hne
    have hdown : id.index < p.index := hf.down hp
    obtain ⟨pnode, hpn, hc⟩ := hp
    have hplt : p.index < program.arena.size := Arena.lt_size_of_get? hpn
    by_cases hbody : p = program.body
    · subst hbody
      obtain ⟨position, hblock⟩ := Arena.kind?_eq_some.1 hk
      obtain rfl := Option.some.inj (hpn.symm.trans hblock)
      obtain ⟨o, hrow⟩ := Arena.exists_inRow hc outer
      exact ⟨o, items, id, o, hk, hrow, .here⟩
    · have hpname : ∀ name, pnode.kind ≠ .ident name := by
        intro name hkind
        rw [hkind] at hc
        cases hc
      obtain ⟨o, items', c, o', hk', hrow, hstands⟩ := ih _ (by omega) hpn hbody hpname hplt rfl
      rcases Arena.exists_places hc o with ⟨_, name, -, hident⟩ | ⟨o'', hplaces⟩
      · obtain ⟨position, hn'⟩ := Arena.kind?_eq_some.1 hident
        obtain rfl := Option.some.inj (hn.symm.trans hn')
        exact absurd rfl (hname name)
      · exact ⟨o'', items', c, o', hk', hrow, hstands.trans (.deeper hpn hplaces .here)⟩

end Program

end DynScript
