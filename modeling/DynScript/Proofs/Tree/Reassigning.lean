import DynScript.Proofs.Tree.Lexical

/-!
# Assignments that belong to a place

An assignment to a name that is evaluated with a node changes what the name means at the node, unless a binding of the
name is sure to be evaluated between them. What is evaluated only when a function or a class is called does not count.
-/

namespace DynScript

namespace Arena

variable {a : Arena} {name : String} {id c : NodeId} {ids : List NodeId} {node : Node} {kind : NodeKind}

/-- A node is a binding of a name. -/
def Binds (a : Arena) (name : String) (id : NodeId) : Prop :=
  ∃ mode isFinal value, a.kind? id = some (.binding name mode isFinal value)

/-- A node is an assignment to a name. -/
def AssignsAt (a : Arena) (name : String) (id : NodeId) : Prop :=
  ∃ target value, a.kind? id = some (.assign target value) ∧ a.kind? target = some (.ident name)

/-- A node stands in a row, and no binding of a name stands before it there. -/
inductive Exposed (a : Arena) (name : String) : List NodeId → NodeId → Prop
  | first {id : NodeId} {rest : List NodeId} : Exposed a name (id :: rest) id
  | later {id c : NodeId} {rest : List NodeId} (hb : ¬ a.Binds name id) (h : Exposed a name rest c) :
    Exposed a name (id :: rest) c

/-- The nodes right below one of this kind that are evaluated with it while no binding of a name has been evaluated
between them. -/
def Under (a : Arena) (name : String) : NodeKind → NodeId → Prop
  | .block items, c => a.Exposed name items c
  | .object none _ members, c => a.Exposed name members c
  | .object (some _) _ _, _ | .function _ _, _ => False
  | .loop start stop body, c => c = start ∨ c = stop ∨ name ≠ Analysis.loopName ∧ c = body
  | kind, c => c ∈ kind.children

/-- An assignment to a name is evaluated with a node while no binding of the name has been evaluated between them. -/
inductive Reassigns (a : Arena) (name : String) : NodeId → Prop
  | here {id : NodeId} (h : a.AssignsAt name id) : Reassigns a name id
  | deeper {id c : NodeId} {node : Node} (hn : a.get? id = some node) (hc : a.Under name node.kind c)
    (h : Reassigns a name c) : Reassigns a name id

/-- Such an assignment stands where a record stands open that has been opened below the node. -/
inductive ReassignsInside (a : Arena) (name : String) : NodeId → Prop
  | here {id target body : NodeId} (hk : a.kind? id = some (.envOpen target body)) (h : Reassigns a name body) :
    ReassignsInside a name id
  | deeper {id c : NodeId} {node : Node} (hn : a.get? id = some node) (hc : a.Under name node.kind c)
    (h : ReassignsInside a name c) : ReassignsInside a name id

theorem Reassigns.exists_assignsAt (h : a.Reassigns name id) : ∃ i, a.AssignsAt name i := by
  induction h with
  | here h => exact ⟨_, h⟩
  | deeper _ _ _ ih => exact ih

/-- Where no record is opened there is nothing inside one. -/
theorem not_reassignsInside (h : ∀ node ∈ a.nodes, ∀ target body, node.kind ≠ .envOpen target body) :
    ¬ a.ReassignsInside name id := by
  intro hinside
  induction hinside with
  | here hk _ =>
    obtain ⟨position, hn⟩ := kind?_eq_some.1 hk
    exact h _ (Array.mem_of_getElem? hn) _ _ rfl
  | deeper _ _ _ ih => exact ih

/-- What is no statement and no member is no binding. -/
theorem Settled.not_binds (ha : a.Settled) (hn : a.get? id = some node) (hc : c ∈ node.kind.operands) :
    ¬ a.Binds name c := by
  rintro ⟨mode, isFinal, value, hk⟩
  obtain ⟨kind, hkind, hoperand⟩ := ha.operands hn c hc
  obtain rfl := Option.some.inj (hkind.symm.trans hk)
  cases hoperand

/-- What is assigned is no place of its own. -/
theorem not_reassigns_ident {other : String} (hk : a.kind? id = some (.ident other)) : ¬ a.Reassigns name id := by
  rintro (⟨target, value, hk', -⟩ | ⟨hn, hc, -⟩)
  · cases hk.symm.trans hk'
  · have hkind := hk.symm.trans (kind?_eq_some.2 ⟨_, hn⟩)
    rw [← Option.some.inj hkind] at hc
    cases hc

end Arena

/-! ## What a name means -/

namespace Scope

/-- A name is declared as one that may not be assigned, or not at all. -/
def Protects (scopes : List Scope) (name : String) : Prop :=
  ∀ d, inForce? scopes name = some d → d.isMutable = false

end Scope

/-- An outlook is known, and a name may not be assigned there. -/
def Outlook.Protects (o : Outlook) (name : String) : Prop := ∃ scopes, o = some scopes ∧ Scope.Protects scopes name

namespace Outlook

variable {o : Outlook} {d : Declaration} {name : String}

theorem Protects.opened (h : o.Protects name) : o.opened.Protects name := by
  obtain ⟨scopes, rfl, hprotects⟩ := h
  refine ⟨_, rfl, fun d hd => hprotects d ?_⟩
  rwa [Scope.inForce?_cons, Scope.find?_empty, Option.none_or] at hd

theorem Protects.declare_of_ne (h : o.Protects name) (hd : d.name ≠ name) : (o.declare d).Protects name := by
  obtain ⟨scopes, rfl, hprotects⟩ := h
  refine ⟨_, rfl, fun d' hd' => hprotects d' ?_⟩
  rwa [Scope.inForce?_declareIn_of_ne hd] at hd'

/-- A declaration that allows no assignment leaves a name protected. -/
theorem Protects.declare_immutable (h : o.Protects name) (hd : d.isMutable = false) : (o.declare d).Protects name := by
  by_cases hname : d.name = name
  · obtain ⟨scopes, rfl, hprotects⟩ := h
    refine ⟨_, rfl, fun d' hd' => ?_⟩
    cases scopes with
    | nil =>
      rw [Scope.declareIn, Scope.inForce?_cons, Scope.find?_push_self hname, Option.some_or] at hd'
      obtain rfl := Option.some.inj hd'
      exact hd
    | cons scope outer =>
      rw [Scope.declareIn] at hd'
      split at hd'
      · exact hprotects d' hd'
      · rw [Scope.inForce?_cons, Scope.find?_push_self hname, Option.some_or] at hd'
        obtain rfl := Option.some.inj hd'
        exact hd
  · exact h.declare_of_ne hname

theorem Protects.declareAll_immutable (h : o.Protects name) {ds : List Declaration}
    (hds : ∀ d ∈ ds, d.isMutable = false) : (o.declareAll ds).Protects name := by
  induction ds generalizing o with
  | nil => exact h
  | cons first rest ih =>
    obtain ⟨hfirst, hrest⟩ := List.forall_mem_cons.1 hds
    exact ih (h.declare_immutable hfirst) hrest

/-- A name is protected once it has been declared so that it may not be assigned, if it could be declared. -/
theorem protects_declare {scopes : List Scope} (hd : d.isMutable = false) (hf : ¬ Fixes (some scopes) d.name) :
    (declare (some scopes) d).Protects d.name := by
  refine ⟨_, rfl, fun d' hd' => ?_⟩
  have hpushed : (Scope.inForce? (Scope.declareIn d scopes) d.name) = some d := by
    cases scopes with
    | nil => rw [Scope.declareIn, Scope.inForce?_cons, Scope.find?_push_self rfl, Option.some_or]
    | cons scope outer =>
      rw [Scope.declareIn, if_neg, Scope.inForce?_cons, Scope.find?_push_self rfl, Option.some_or]
      intro hfinal
      exact hf fun scopes hscopes => ⟨scope, outer, (Option.some.inj hscopes).symm, hfinal⟩
  obtain rfl := Option.some.inj (hpushed.symm.trans hd')
  exact hd

theorem Fixes.of_declare (h : (o.declare d).Fixes name) (hd : d.name ≠ name) : o.Fixes name := by
  intro scopes hscopes
  obtain ⟨scope, outer, hdeclared, hfinal⟩ := h _ (Option.mem_map_of_mem _ hscopes)
  cases scopes with
  | nil =>
    obtain ⟨rfl, -⟩ := List.cons.inj hdeclared
    rw [Scope.find?_push_of_ne hd, Scope.find?_empty] at hfinal
    cases hfinal
  | cons first rest =>
    rw [Scope.declareIn] at hdeclared
    split at hdeclared <;> obtain ⟨rfl, rfl⟩ := List.cons.inj hdeclared
    · exact ⟨_, _, rfl, hfinal⟩
    · rw [Scope.find?_push_of_ne hd] at hfinal
      exact ⟨_, _, rfl, hfinal⟩

theorem not_fixes_opened (scopes : List Scope) (name : String) : ¬ (opened (some scopes)).Fixes name := by
  intro h
  obtain ⟨scope, outer, hopened, hfinal⟩ := h _ rfl
  obtain ⟨rfl, -⟩ := List.cons.inj hopened
  cases hfinal

/-- Several declarations that allow no assignment protect their names. -/
theorem protects_declareAll {scopes : List Scope} {ds : List Declaration} (hds : ∀ d ∈ ds, d.isMutable = false)
    (hd : d ∈ ds) (h : Protects (some scopes) d.name ∨ ¬ Fixes (some scopes) d.name) :
    (declareAll (some scopes) ds).Protects d.name := by
  induction ds generalizing scopes with
  | nil => cases hd
  | cons first rest ih =>
    obtain ⟨hfirst, hrest⟩ := List.forall_mem_cons.1 hds
    by_cases hname : first.name = d.name
    · apply Protects.declareAll_immutable _ hrest
      rcases h with hprotects | hfree
      · exact hprotects.declare_immutable hfirst
      · rw [← hname] at hfree ⊢
        exact protects_declare hfirst hfree
    · have hmem : d ∈ rest := by
        rcases List.mem_cons.1 hd with rfl | hmem
        · exact absurd rfl hname
        · exact hmem
      refine ih hrest hmem (h.imp (·.declare_of_ne hname) fun hfree hfixes => hfree ?_)
      exact Fixes.of_declare (d := first) hfixes hname

end Outlook

namespace Arena

variable {a : Arena} {o o' : Outlook} {name : String} {id c : NodeId} {ids : List NodeId} {node : Node}

/-- A statement that does not bind a name leaves it protected. -/
theorem protects_past (h : o.Protects name) (hb : ¬ a.Binds name id) : (a.past o id).Protects name := by
  unfold past
  split
  · rename_i d hd
    obtain ⟨⟨kind, position⟩, hn, hdeclared⟩ := Option.bind_eq_some_iff.1 hd
    apply h.declare_of_ne
    rintro rfl
    cases kind with
    | binding name mode isFinal value =>
      obtain rfl := Option.some.inj hdeclared
      exact hb ⟨mode, isFinal, value, kind?_eq_some.2 ⟨position, hn⟩⟩
    | _ => cases hdeclared
  · exact h

/-- A node that stands in an outlook introduces a name that may not be assigned: a binding to what follows it, a function
or a loop to its body. -/
inductive Introduces (a : Arena) (name : String) (o : Outlook) (id : NodeId) : Outlook → Prop
  | binding {mode : BindingMode} {isFinal : Bool} {value : NodeId}
    (hk : a.kind? id = some (.binding name mode isFinal value)) (hmode : mode ≠ .mutable) :
    Introduces a name o id (a.past o id)
  | param {params : List Param} {body : NodeId} {p : Param} (hk : a.kind? id = some (.function params body))
    (hp : p ∈ params) (hname : p.name = name) :
    Introduces a name o id (o.opened.declareAll (params.map Param.ofFunction))
  | index {start stop body : NodeId} (hk : a.kind? id = some (.loop start stop body))
    (hname : Analysis.loopName = name) :
    Introduces a name o id (o.opened.declare ⟨Analysis.loopName, none, true, false⟩)

/-- Where it has been introduced the name is protected, unless it was final before. -/
theorem Introduces.protects {scopes : List Scope} (h : a.Introduces name (some scopes) id o')
    (hf : ∀ mode isFinal value,
      a.kind? id = some (.binding name mode isFinal value) → ¬ Outlook.Fixes (some scopes) name) :
    o'.Protects name := by
  cases h with
  | @binding mode isFinal value hk hmode =>
    obtain ⟨position, hn⟩ := kind?_eq_some.1 hk
    rw [past_binding hn]
    exact Outlook.protects_declare (d := ⟨name, position, isFinal, mode = .mutable⟩) (decide_eq_false hmode)
      (hf mode isFinal value hk)
  | @param params body p hk hp hname =>
    subst hname
    have hnone : ∀ d ∈ params.map Param.ofFunction, d.isMutable = false := List.forall_mem_map.2 fun _ _ => rfl
    exact Outlook.protects_declareAll hnone (List.mem_map_of_mem hp) (.inr (Outlook.not_fixes_opened scopes p.name))
  | index hk hname =>
    subst hname
    exact Outlook.protects_declare rfl (Outlook.not_fixes_opened scopes _)

/-- In a row a name is protected where no binding of it stands before. -/
theorem Exposed.protects (h : a.Exposed name ids c) (ho : o.Protects name) :
    ∃ o', a.InRow o ids c o' ∧ o'.Protects name := by
  induction h generalizing o with
  | first => exact ⟨o, .first, ho⟩
  | later hb _ ih =>
    obtain ⟨o', hrow, ho'⟩ := ih (protects_past ho hb)
    exact ⟨o', .later hrow, ho'⟩

/-- What is evaluated with a node stands where a name is protected if the node does, unless it stands inside a record
that the node opens or is a name that the node assigns to. -/
theorem Under.protects (hu : a.Under name node.kind c) (ho : o.Protects name) :
    (∃ target, node.kind = .envOpen target c) ∨ (∃ other, a.kind? c = some (.ident other)) ∨
      ∃ o', a.Places node o c o' ∧ o'.Protects name := by
  obtain ⟨kind, position⟩ := node
  cases kind with
  | block items =>
    obtain ⟨o', hrow, ho'⟩ := Exposed.protects hu ho.opened
    exact .inr (.inr ⟨o', .statement hrow, ho'⟩)
  | object params composed members =>
    cases params with
    | some params => cases hu
    | none =>
      obtain ⟨o', hrow, ho'⟩ := Exposed.protects hu ho.opened
      exact .inr (.inr ⟨o', .member hrow, ho'⟩)
  | function params body => cases hu
  | binding bound mode isFinal value =>
    obtain rfl : c = value := List.mem_singleton.1 hu
    refine .inr (.inr ⟨_, .value, ?_⟩)
    split
    · exact ho.declare_immutable rfl
    · exact ho
  | loop start stop body =>
    rcases hu with rfl | rfl | ⟨hne, rfl⟩
    · exact .inr (.inr ⟨o, .bound (by simp), ho⟩)
    · exact .inr (.inr ⟨o, .bound (by simp), ho⟩)
    · exact .inr (.inr ⟨_, .round, ho.opened.declare_of_ne (Ne.symm hne)⟩)
  | assign target value =>
    by_cases hvalue : c = value
    · subst hvalue
      exact .inr (.inr ⟨o, .assigned, ho⟩)
    · have hmem : c ∈ [target, value] := hu
      obtain rfl : c = target := by
        simp only [List.mem_cons] at hmem
        tauto
      by_cases hname : ∃ other, a.kind? c = some (.ident other)
      · exact .inr (.inl hname)
      · exact .inr (.inr ⟨o, .target fun other hk => hname ⟨other, hk⟩, ho⟩)
  | envOpen target body =>
    by_cases hbody : c = body
    · subst hbody
      exact .inl ⟨target, rfl⟩
    · have hmem : c ∈ [target, body] := hu
      obtain rfl : c = target := by
        simp only [List.mem_cons] at hmem
        tauto
      exact .inr (.inr ⟨_, .record, ho.opened⟩)
  | _ => exact .inr (.inr ⟨o, .operand rfl hu, ho⟩)

/-- If no assignment to a name stands where the name is protected then none belongs to a node that stands there, unless
inside a record that is opened. -/
theorem Reassigns.inside (h : a.Reassigns name id) {P : Outlook → NodeId → Prop}
    (hP : ∀ {o o' id c node}, P o id → a.get? id = some node → a.Places node o c o' → P o' c)
    (hnone : ∀ o id, P o id → o.Protects name → ¬ a.AssignsAt name id) (hp : P o id) (ho : o.Protects name) :
    a.ReassignsInside name id := by
  induction h generalizing o with
  | here h => exact absurd h (hnone o _ hp ho)
  | @deeper id c node hn hu h ih =>
    rcases hu.protects ho with ⟨target, hk⟩ | ⟨other, hk⟩ | ⟨o', hplaces, ho'⟩
    · have hopen : a.kind? id = some (.envOpen target c) := kind?_eq_some.2 ⟨node.position, by rw [hn, ← hk]⟩
      exact .here hopen h
    · exact absurd h (not_reassigns_ident hk)
    · exact .deeper hn hu (ih (hP hp hn hplaces) ho')

end Arena

end DynScript
