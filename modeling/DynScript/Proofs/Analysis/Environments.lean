import DynScript.Proofs.Analysis.Growing
import DynScript.Proofs.Scope.Search
import DynScript.Proofs.Tree.Lexical

/-!
# What a visit does to the environments

A visit comes back to the environment in which it began. It adds a declaration to the innermost scope of that
environment if the node is a binding, it may make environments below it, and it leaves all others as they are:
`AnalysisState.Sprouts`. This holds while the nodes change, so it is stated of a region of the program out of which
nothing leads (`Arena.Tame`), and `names` bounds what the new environments are called.
-/

namespace DynScript

namespace Arena

variable {a b : Arena} {region : NodeId → Prop}

/-- The nodes of a program on the way to being settled. Nothing leads out of a region of them, and bindings are
statements or members. -/
structure Tame (a b : Arena) (region : NodeId → Prop) : Prop where
  /-- They are those of the program, apart from what an analysis changes. -/
  outline : a.SameOutline b
  /-- Nothing leads out of the region. -/
  closed : b.Closed region
  /-- Bindings are statements or members. -/
  operands : ∀ p node, b.get? p = some node → ∀ c ∈ node.kind.operands,
    ∃ kind, a.kind? c = some kind ∧ kind.isOperand

/-- The nodes of a program that has been read are tame. -/
theorem Laid.tame {roots : List Root} (ha : a.Laid roots) (hr : a.Closed region) : a.Tame a region :=
  ⟨.refl a, hr, ha.operands⟩

namespace Tame

/-- A call or a pipe may be changed when what is new below it belongs to the region. -/
theorem setKind (h : a.Tame b region) {i : NodeId} {kind kind' : NodeKind} (hk : b.kind? i = some kind)
    (ho : kind'.outline = kind.outline) (hj : kind'.isJoint)
    (hc : ∀ c ∈ kind'.children, c ∈ kind.children ∨ region c ∧ ∃ k, a.kind? c = some k ∧ k.isOperand) :
    a.Tame (b.setKind i kind') region := by
  obtain ⟨position, hn⟩ := kind?_eq_some.1 hk
  have hj' : kind.isJoint := by rwa [← NodeKind.isJoint_outline, ← ho, NodeKind.isJoint_outline]
  have hself : (b.setKind i kind').get? i = some ⟨kind', position⟩ := by rw [get?_setKind, if_pos rfl, hn]; rfl
  have hother (x : NodeId) (hx : x ≠ i) : (b.setKind i kind').get? x = b.get? x := by rw [get?_setKind, if_neg hx]
  constructor
  case outline =>
    intro x
    by_cases hx : x = i
    · rw [hx, hself, ← h.outline i, hn]
      simp only [Option.map_some, Node.outline, ho]
    · rw [hother x hx]
      exact h.outline x
  case closed =>
    rintro x c hrx ⟨node, hnode, hcx⟩
    by_cases hx : x = i
    · subst hx
      obtain rfl := Option.some.inj (hself.symm.trans hnode)
      rcases hc c hcx with hold | ⟨hnew, -⟩
      · exact h.closed x c hrx ⟨_, hn, hold⟩
      · exact hnew
    · exact h.closed x c hrx ⟨node, hother x hx ▸ hnode, hcx⟩
  case operands =>
    intro x node hnode c hcx
    by_cases hx : x = i
    · subst hx
      obtain rfl := Option.some.inj (hself.symm.trans hnode)
      rcases hc c (NodeKind.mem_children_of_operands hcx) with hold | ⟨-, hnew⟩
      · have hmem : c ∈ kind.operands := by
          cases kind <;> first | exact hold | cases hj'
        exact h.operands x _ hn c hmem
      · exact hnew
    · exact h.operands x node (hother x hx ▸ hnode) c hcx

theorem appendArgument (h : a.Tame b region) (call : NodeId) {arg : NodeId} (hr : region arg)
    (ho : ∃ kind, a.kind? arg = some kind ∧ kind.isOperand) :
    a.Tame (Analysis.appendArgument b call arg) region := by
  unfold Analysis.appendArgument
  split
  · rename_i callee args hk
    refine h.setKind hk rfl rfl fun c hc => ?_
    have hc' : c = callee ∨ c ∈ args ∨ c = arg := by simpa [NodeKind.children] using hc
    rcases hc' with rfl | hc' | rfl
    · exact .inl List.mem_cons_self
    · exact .inl (List.mem_cons_of_mem _ hc')
    · exact .inr ⟨hr, ho⟩
  · exact h

theorem markDesugared (h : a.Tame b region) (p : NodeId) : a.Tame (Analysis.markDesugared b p) region := by
  unfold Analysis.markDesugared
  split
  · rename_i lhs rhs mark hk
    refine h.setKind hk rfl rfl fun c hc => .inl ?_
    obtain rfl : c = rhs := by simpa [NodeKind.children] using hc
    cases mark <;> simp [NodeKind.children]
  · exact h

/-- An object is bound that is an object of the program. -/
theorem object (h : a.Tame b region) {i : NodeId} {params : Option (List Param)} {composed : List Label}
    {members : List NodeId} {position : Option Position}
    (hn : b.get? i = some ⟨.object params composed members, position⟩) :
    a.get? i = some ⟨.object params composed members, position⟩ :=
  h.outline.symm.get?_of_not_joint hn rfl

end Tame

/-- A node binds a name to an object literal. -/
def BindsObject (a : Arena) (i : NodeId) (name : String) : Prop :=
  ∃ mode isFinal value params composed members, a.kind? i = some (.binding name mode isFinal value) ∧
    a.kind? value = some (.object params composed members)

instance (a : Arena) (i : NodeId) (name : String) : Decidable (a.BindsObject i name) :=
  decidable_of_iff ((a.kind? i).any (fun
      | .binding bound _ _ value => bound = name && (a.kind? value).any NodeKind.isObject
      | _ => false)) <| by
    rw [BindsObject, Option.any_eq_true]
    constructor
    · rintro ⟨kind, hk, htest⟩
      cases kind with
      | binding bound mode isFinal value =>
        obtain ⟨hname, hvalue⟩ := Bool.and_eq_true_iff.1 htest
        obtain ⟨kind', hk', hobject⟩ := (Option.any_eq_true _ _).1 hvalue
        cases kind' with
        | object params composed members =>
          exact ⟨mode, isFinal, value, params, composed, members, of_decide_eq_true hname ▸ hk, hk'⟩
        | _ => cases hobject
      | _ => cases htest
    · rintro ⟨mode, isFinal, value, params, composed, members, hk, hvalue⟩
      exact ⟨_, hk, by simp [hvalue, NodeKind.isObject]⟩

/-- The scopes after several statements. -/
def addsAll (a : Arena) (ids : List NodeId) (scopes : List Scope) : List Scope :=
  ids.foldl (fun scopes c => a.adds c scopes) scopes

/-- The scopes of an object after its last member. -/
def objectScopes (a : Arena) (params : List Param) (members : List NodeId) (scopes : List Scope) : List Scope :=
  a.addsAll members ((params.map Param.ofClass).foldl (fun scopes d => Scope.declareIn d scopes) scopes)

/-- Only the innermost scope changes. -/
theorem exists_addsAll (a : Arena) (ids : List NodeId) (scope : Scope) (outer : List Scope) :
    ∃ scope', a.addsAll ids (scope :: outer) = scope' :: outer := by
  induction ids generalizing scope with
  | nil => exact ⟨scope, rfl⟩
  | cons c rest ih =>
    have hc : ∃ scope', a.adds c (scope :: outer) = scope' :: outer := by
      unfold adds
      split
      · exact Scope.exists_declareIn _ _ _
      · exact ⟨scope, rfl⟩
    obtain ⟨scope', hscope⟩ := hc
    obtain ⟨scope'', hrest⟩ := ih scope'
    exact ⟨scope'', by rw [← hrest, ← hscope]; rfl⟩

end Arena

/-- Several declarations change the innermost scope only. -/
theorem Scope.exists_foldl_declareIn (ds : List Declaration) (scope : Scope) (outer : List Scope) :
    ∃ scope', ds.foldl (fun scopes d => declareIn d scopes) (scope :: outer) = scope' :: outer := by
  induction ds generalizing scope with
  | nil => exact ⟨scope, rfl⟩
  | cons d rest ih =>
    obtain ⟨scope', hscope⟩ := exists_declareIn d scope outer
    obtain ⟨scope'', hrest⟩ := ih scope'
    exact ⟨scope'', by rw [← hrest, ← hscope]; rfl⟩

theorem Arena.exists_objectScopes (a : Arena) (params : List Param) (members : List NodeId) (scope : Scope)
    (outer : List Scope) : ∃ scope', a.objectScopes params members (scope :: outer) = scope' :: outer := by
  obtain ⟨scope', hparams⟩ := Scope.exists_foldl_declareIn (params.map Param.ofClass) scope outer
  rw [objectScopes, hparams]
  exact a.exists_addsAll members scope' outer

namespace AnalysisState

variable {s s' s'' : AnalysisState} {names : String → Prop}

/-- A visit has come back to the environment in which it began, and may have made others below it, which have one
scope each. -/
structure Sprouts (s s' : AnalysisState) (names : String → Prop) : Prop where
  /-- The environment is the same. -/
  current : s'.current = s.current
  /-- Returns are allowed as they were. -/
  inFunction : s'.inFunction = s.inFunction
  /-- Environments are still there. -/
  size : s.tree.size ≤ s'.tree.size
  /-- The others are what they were. -/
  others : ∀ x : EnvId, x.index < s.tree.size → x ≠ s.current → s'.tree.get? x = s.tree.get? x
  /-- This one may list new children after the others. -/
  here : ∀ node, s.tree.get? s.current = some node → ∃ more scopes,
    s'.tree.get? s.current = some { node with children := node.children ++ more, scopes } ∧
      ∀ c ∈ more, s.tree.size ≤ c.index ∧ c.index < s'.tree.size
  /-- New environments list only newer ones. -/
  made : ∀ (x : EnvId) (node : EnvNode), s.tree.size ≤ x.index → s'.tree.get? x = some node → names node.name ∧
    node.scopes.length = 1 ∧ ∀ c ∈ node.children, x.index < c.index ∧ c.index < s'.tree.size

namespace Sprouts

/-- Nothing is made. -/
theorem of_tree (ht : s'.tree = s.tree) (hc : s'.current = s.current) (hf : s'.inFunction = s.inFunction) :
    s.Sprouts s' names where
  current := hc
  inFunction := hf
  size := by rw [ht]
  others x _ _ := by rw [ht]
  here node hnode := ⟨[], node.scopes, by rw [ht, hnode, List.append_nil], by simp⟩
  made x node hx hnode := by
    rw [ht] at hnode
    have hlt := EnvTree.lt_size_of_get? hnode
    omega

theorem trans (hc : s.current.index < s.tree.size) (h : s.Sprouts s' names) (k : s'.Sprouts s'' names) :
    s.Sprouts s'' names where
  current := k.current.trans h.current
  inFunction := k.inFunction.trans h.inFunction
  size := h.size.trans k.size
  others x hx hne := by
    rw [k.others x (hx.trans_le h.size) (h.current.symm ▸ hne), h.others x hx hne]
  here node hnode := by
    obtain ⟨more, scopes, hnode', hmore⟩ := h.here node hnode
    obtain ⟨more', scopes', hnode'', hmore'⟩ := k.here _ (h.current.symm ▸ hnode')
    rw [h.current] at hnode''
    refine ⟨more ++ more', scopes', ?_, fun c hc => ?_⟩
    · rw [hnode'', List.append_assoc]
    · have hsize := h.size
      have hsize' := k.size
      rcases List.mem_append.1 hc with hc | hc
      · obtain ⟨hge, hlt⟩ := hmore c hc
        omega
      · obtain ⟨hge, hlt⟩ := hmore' c hc
        omega
  made x node hx hnode := by
    by_cases hx' : x.index < s'.tree.size
    · have hne : x ≠ s'.current := by
        rintro rfl
        rw [h.current] at hx
        omega
      rw [k.others x hx' hne] at hnode
      obtain ⟨hname, hlength, hchildren⟩ := h.made x node hx hnode
      have hsize := k.size
      refine ⟨hname, hlength, fun c hc => ?_⟩
      obtain ⟨hgt, hlt⟩ := hchildren c hc
      omega
    · exact k.made x node (by omega) hnode

/-- The scopes of the environment change. -/
theorem modifyScopes (f : List Scope → List Scope) :
    s.Sprouts { s with tree := s.tree.modifyScopes s.current f } names where
  current := rfl
  inFunction := rfl
  size := by simp
  others x _ hne := by
    show (s.tree.modifyScopes s.current f).get? x = s.tree.get? x
    rw [EnvTree.get?_modifyScopes, if_neg hne]
  here node hnode := by
    refine ⟨[], f node.scopes, ?_, by simp⟩
    show (s.tree.modifyScopes s.current f).get? s.current = _
    rw [EnvTree.get?_modifyScopes, if_pos rfl, hnode, List.append_nil]
    rfl
  made x node hx hnode := by
    have hlt : x.index < (s.tree.modifyScopes s.current f).size := EnvTree.lt_size_of_get? hnode
    have hsize : (s.tree.modifyScopes s.current f).size = s.tree.size := s.tree.size_modifyScopes s.current f
    omega

end Sprouts

end AnalysisState

namespace Analysis

variable {α β : Type} {a : Arena} {region : NodeId → Prop} {names : String → Prop}
  {scopes scopes' scopes'' : List Scope}

/-- A step leaves nodes on the way to being settled, and it takes back no environment. -/
def Goes (a : Arena) (region : NodeId → Prop) (x : Analysis α) : Prop :=
  ∀ s v s', a.Tame s.arena region → x s = .ok (v, s') → a.Tame s'.arena region ∧ s.tree.size ≤ s'.tree.size

namespace Goes

theorem stays {x : Analysis α} (hx : Stays x) : Goes a region x := by
  intro s v s' ha hrun
  obtain ⟨harena, hsize⟩ := hx s v s' hrun
  exact ⟨by rwa [harena], hsize.ge⟩

theorem idle {x : Analysis α} (hx : Idle x) : Goes a region x := stays (.idle hx)

theorem bind {x : Analysis α} {k : α → Analysis β} (hx : Goes a region x) (hk : ∀ v, Goes a region (k v)) :
    Goes a region (x >>= k) := by
  intro s r s' ha hrun
  obtain ⟨⟨v, t⟩, hv, hrest⟩ := bind_ok hrun
  obtain ⟨hat, hsize⟩ := hx s v t ha hv
  exact (hk v t r s' hat hrest).imp_right hsize.trans

theorem node {id : NodeId} {k : Node → Analysis α}
    (hk : ∀ (b : Arena) (n : Node), a.Tame b region → b.get? id = some n → Goes a region (k n)) :
    Goes a region (Analysis.node id >>= k) := by
  intro s v s' ha hrun
  obtain ⟨n, hn, hrest⟩ := node_ok hrun
  exact hk s.arena n ha hn s v s' ha hrest

theorem modifyScopes (f : List Scope → List Scope) :
    Goes a region (modifyTree fun tree current => tree.modifyScopes current f) :=
  idle (.modifyScopes fun _ _ => f)

/-- What is done about an environment that is opened, once its scope is there. -/
theorem opening {visit : NodeId → Analysis Unit} {target body : NodeId} (ht : Goes a region (visit target))
    (hb : Goes a region (visit body)) (saved : Nat) : Goes a region (do
      Analysis.modifyTree EnvTree.pushScope
      visit target
      match (← Analysis.node target).kind with
      | .ident name =>
        Analysis.modifyTree fun tree current =>
          match tree.findEnv? current name with
          | some env => tree.bringIntoScope current env
          | none => tree
      | _ => Pure.pure ()
      visit body
      Analysis.modifyTree fun tree current => tree.truncateScopes current saved) := by
  have hclose : Goes a region (visit body >>= fun _ =>
      Analysis.modifyTree fun tree current => tree.truncateScopes current saved) :=
    hb.bind fun _ => modifyScopes fun scopes => scopes.drop (scopes.length - saved)
  refine (modifyScopes (Scope.empty :: ·)).bind fun _ => ht.bind fun _ => node fun b n _ _ => ?_
  split
  · exact (idle (.bringing _)).bind fun _ => hclose
  · exact (idle (.pure ())).bind fun _ => hclose

end Goes

/-- A step in an environment with these scopes leaves it with those, and does nothing else to the environments that
were there, if it makes no more environments than there are numbers for. -/
structure Tends (a : Arena) (region : NodeId → Prop) (names : String → Prop) (scopes : List Scope) (x : Analysis α)
    (scopes' : List Scope) : Prop where
  /-- It goes on, whatever the scopes are. -/
  goes : Goes a region x
  /-- What it does to the environments. -/
  tends : ∀ s v s', a.Tame s.arena region → s.current.index < s.tree.size → s.tree.scopes s.current = scopes →
    x s = .ok (v, s') → s'.tree.size ≤ UInt32.size → s.Sprouts s' names ∧ s'.tree.scopes s.current = scopes'

namespace Tends

theorem bind {x : Analysis α} {k : α → Analysis β} (hx : Tends a region names scopes x scopes')
    (hk : ∀ v, Tends a region names scopes' (k v) scopes'') : Tends a region names scopes (x >>= k) scopes'' := by
  refine ⟨hx.goes.bind fun v => (hk v).goes, fun s r s' ha hc hs hrun hroom => ?_⟩
  obtain ⟨⟨v, t⟩, hv, hrest⟩ := bind_ok hrun
  obtain ⟨hat, -⟩ := hx.goes s v t ha hv
  have hmiddle : t.tree.size ≤ s'.tree.size := ((hk v).goes t r s' hat hrest).2
  obtain ⟨hst, hscopes⟩ := hx.tends s v t ha hc hs hv (hmiddle.trans hroom)
  have hct : t.current.index < t.tree.size := by
    rw [hst.current]
    exact hc.trans_le hst.size
  have hscopes' : t.tree.scopes t.current = scopes' := by rw [hst.current, hscopes]
  obtain ⟨hs', hend⟩ := (hk v).tends t r s' hat hct hscopes' hrest hroom
  refine ⟨hst.trans hc hs', ?_⟩
  rw [← hst.current]
  exact hend

/-- A step that has nothing to do with the nodes or the environments. -/
theorem still {x : Analysis α} (hx : ∀ s v s', x s = .ok (v, s') →
    s'.arena = s.arena ∧ s'.tree = s.tree ∧ s'.current = s.current ∧ s'.inFunction = s.inFunction) :
    Tends a region names scopes x scopes := by
  refine ⟨.stays fun s v s' hrun => ?_, fun s v s' _ _ hs hrun _ => ?_⟩
  · obtain ⟨harena, htree, -, -⟩ := hx s v s' hrun
    exact ⟨harena, congrArg EnvTree.size htree⟩
  · obtain ⟨harena, htree, hcurrent, hf⟩ := hx s v s' hrun
    exact ⟨.of_tree htree hcurrent hf, by rwa [htree]⟩

theorem pure (v : α) : Tends a region names scopes (Pure.pure v) scopes := by
  apply still
  intro s v s' hrun
  cases hrun
  exact ⟨rfl, rfl, rfl, rfl⟩

/-- A step that does not come to its end. -/
theorem throwing (d : Defect) : Tends a region names scopes (throw d : Analysis α) scopes' := by
  refine ⟨fun s v s' _ hrun => ?_, fun s v s' _ _ _ hrun _ => ?_⟩ <;> cases hrun

theorem report (f : Finding) (position : Option Position) :
    Tends a region names scopes (Analysis.report f position) scopes := by
  apply still
  intro s v s' hrun
  cases hrun
  exact ⟨rfl, rfl, rfl, rfl⟩

theorem reportIf (p : Bool) (f : Finding) (position : Option Position) :
    Tends a region names scopes (Analysis.reportIf p f position) scopes := by
  cases p with
  | false => exact pure ()
  | true => exact report f position

theorem lookup? (name : String) : Tends a region names scopes (Analysis.lookup? name) scopes := by
  apply still
  intro s v s' hrun
  cases hrun
  exact ⟨rfl, rfl, rfl, rfl⟩

theorem isBound (name : String) : Tends a region names scopes (Analysis.isBound name) scopes :=
  (lookup? name).bind fun _ => pure _

/-- Looking at the state before going on. -/
theorem looking {k : AnalysisState → Analysis α} (hg : ∀ s, Goes a region (k s))
    (hk : ∀ s : AnalysisState, s.tree.scopes s.current = scopes → Tends a region names scopes (k s) scopes') :
    Tends a region names scopes (get >>= k) scopes' :=
  ⟨fun s v s' ha hrun => hg s s v s' ha hrun,
    fun s v s' ha hc hs hrun hroom => (hk s hs).tends s v s' ha hc hs hrun hroom⟩

theorem reading {k : AnalysisState → Analysis α} (hk : ∀ s, Tends a region names scopes (k s) scopes') :
    Tends a region names scopes (get >>= k) scopes' :=
  looking (fun s => (hk s).goes) fun s _ => hk s

theorem node {id : NodeId} {k : Node → Analysis α}
    (hk : ∀ (b : Arena) (n : Node), a.Tame b region → b.get? id = some n → Tends a region names scopes (k n) scopes') :
    Tends a region names scopes (Analysis.node id >>= k) scopes' := by
  refine ⟨.node fun b n hb hn => (hk b n hb hn).goes, fun s v s' ha hc hs hrun hroom => ?_⟩
  obtain ⟨n, hn, hrest⟩ := node_ok hrun
  exact (hk s.arena n ha hn).tends s v s' ha hc hs hrest hroom

/-- The scopes change. -/
theorem modifyScopes (f : List Scope → List Scope) :
    Tends a region names scopes (modifyTree fun tree current => tree.modifyScopes current f) (f scopes) := by
  refine ⟨.modifyScopes f, fun s v s' _ hc hs hrun _ => ?_⟩
  cases hrun
  refine ⟨.modifyScopes f, ?_⟩
  rw [← hs]
  exact EnvTree.scopes_modifyScopes_self f hc

theorem declare (d : Declaration) :
    Tends a region names scopes (declare d) (Scope.declareIn d scopes) := by
  refine ⟨.stays (.declare d), fun s v s' ha hc hs hrun hroom => ?_⟩
  have hfinal : (s.tree.finalInScope? s.current d.name).isSome = Scope.fixes scopes d.name := by
    rw [EnvTree.finalInScope?, hs]
    cases scopes <;> rfl
  rw [declare_eq, EnvTree.define] at hrun
  cases hfound : s.tree.finalInScope? s.current d.name with
  | some existing =>
    rw [hfound] at hrun hfinal
    rw [Scope.declareIn_of_fixes hfinal.symm]
    exact (report _ _).tends s v s' ha hc hs hrun hroom
  | none =>
    rw [hfound] at hrun hfinal
    cases hrun
    refine ⟨.modifyScopes _, (EnvTree.scopes_modifyScopes_self _ hc).trans ?_⟩
    rw [hs]
    cases scopes with
    | nil => rfl
    | cons scope outer =>
      have hno : ¬ ((scope.find? d.name).filter Declaration.isFinal).isSome := by
        rw [Bool.not_eq_true]
        exact hfinal.symm
      exact (if_neg hno).symm

/-! ### Scopes and environments -/

theorem inScope {x : Analysis Unit} {scope : Scope}
    (hx : Tends a region names (.empty :: scopes) x (scope :: scopes)) :
    Tends a region names scopes (inScope x) scopes :=
  (modifyScopes (Scope.empty :: ·)).bind fun _ => hx.bind fun _ => modifyScopes List.tail

theorem allowingReturn {x : Analysis Unit} (allowed : Bool) (hx : Tends a region names scopes x scopes') :
    Tends a region names scopes (allowingReturn allowed x) scopes' := by
  refine ⟨fun s v s' ha hrun => ?_, fun s v s' ha hc hs hrun hroom => ?_⟩ <;>
    obtain ⟨t, ht, rfl⟩ := allowingReturn_ok hrun
  · exact hx.goes { s with inFunction := allowed } () t ha ht
  obtain ⟨hsprouts, hend⟩ := hx.tends { s with inFunction := allowed } () t ha hc hs ht hroom
  exact ⟨⟨hsprouts.current, rfl, hsprouts.size, hsprouts.others, hsprouts.here, hsprouts.made⟩, hend⟩

end Tends

/-- A step that is made in a new environment leaves it with one scope. The environment in which it was made lists it
last, unless it lists another one of its name. -/
structure Encloses (s s' : AnalysisState) (name : String) (names : String → Prop) (scope : Scope) : Prop where
  /-- It is the first of those that have been made. -/
  sprouts : s.Sprouts s' names
  /-- There is a number for the new environment. -/
  numbered : (EnvId.ofIndex s.tree.size).index = s.tree.size
  /-- The new environment. -/
  made : ∃ children, s'.tree.get? (.ofIndex s.tree.size) = some ⟨name, some s.current, children, [scope]⟩
  /-- Where it is listed. -/
  listed : ∀ node, s.tree.get? s.current = some node → (∀ c ∈ node.children, s.tree.name? c ≠ some name) →
    s'.tree.get? s.current = some { node with children := node.children ++ [.ofIndex s.tree.size] }

theorem encloses_inEnvironment {x : Analysis Unit} {name : String} {scope : Scope} (hname : names name)
    (hx : Tends a region names [.empty] x [scope]) {s s' : AnalysisState} {v : Unit} (ha : a.Tame s.arena region)
    (hc : s.current.index < s.tree.size) (hrun : inEnvironment name x s = .ok (v, s'))
    (hroom : s'.tree.size ≤ UInt32.size) :
    Encloses s s' name names scope ∧ s'.tree.scopes s.current = s.tree.scopes s.current := by
  obtain ⟨r, hr, rfl⟩ := inEnvironment_ok hrun
  have hsize : (s.entered name).tree.size ≤ r.tree.size := (hx.goes (s.entered name) () r ha hr).2
  have hfits : s.tree.size < UInt32.size := by
    have hentered := s.size_entered name
    have hlast : r.tree.size ≤ UInt32.size := hroom
    omega
  have hmakes := EnvTree.makes_pushEnvironment hc hfits name
  have hindex : (EnvId.ofIndex s.tree.size).index = s.tree.size := EnvId.index_ofIndex hfits
  rw [AnalysisState.entered, EnvTree.pushEnvironment_fst] at hr hsize
  generalize (s.tree.pushEnvironment s.current name).2 = t at hmakes hr hsize
  have hscopes : t.scopes (.ofIndex s.tree.size) = [.empty] := by simp [EnvTree.scopes, hmakes.made]
  have hlt : s.tree.size < t.size := by
    rw [hmakes.size]
    exact Nat.lt_succ_self _
  obtain ⟨hin, hend⟩ := hx.tends { s with tree := t, current := .ofIndex s.tree.size } () r ha
    (hindex.symm ▸ hlt) hscopes hr hroom
  obtain ⟨more, scopes, hnode, hmore⟩ := hin.here _ hmakes.made
  have hscope : scopes = [scope] := by
    rw [← hend]
    simp [EnvTree.scopes, hnode]
  subst hscope
  have hcne : s.current ≠ .ofIndex s.tree.size := by
    intro heq
    rw [heq, hindex] at hc
    exact lt_irrefl _ hc
  -- The environments that were there are not those of the step, apart from the new one.
  have hold (y : EnvId) (hy : y.index < s.tree.size) : r.tree.get? y = t.get? y := by
    refine hin.others y (hy.trans hlt) ?_
    rintro rfl
    exact lt_irrefl _ (hindex ▸ hy)
  have hsprouts : s.Sprouts { r with current := s.current } names := by
    refine ⟨rfl, hin.inFunction, hlt.le.trans hsize, ?_, ?_, ?_⟩
    · intro y hy hne
      exact (hold y hy).trans (hmakes.others y hy hne)
    · intro node hnode
      obtain ⟨added, hadded, hcases⟩ := hmakes.parent node hnode
      refine ⟨added, node.scopes, (hold _ hc).trans hadded, fun c hcm => ?_⟩
      rcases hcases with rfl | ⟨rfl, -⟩
      · obtain rfl := List.mem_singleton.1 hcm
        rw [hindex]
        exact ⟨le_rfl, hlt.trans_le hsize⟩
      · cases hcm
    · intro y node hy hnode'
      by_cases hnew : y = .ofIndex s.tree.size
      · subst hnew
        obtain rfl := Option.some.inj (hnode.symm.trans hnode')
        refine ⟨hname, rfl, fun c hcm => ?_⟩
        obtain ⟨hge, hlt'⟩ := hmore c hcm
        rw [hindex]
        exact ⟨hlt.trans_le hge, hlt'⟩
      · have hne : y.index ≠ s.tree.size := fun heq => hnew (EnvId.ext_index (heq.trans hindex.symm))
        have hge : t.size ≤ y.index := by
          rw [hmakes.size]
          omega
        exact hin.made y node hge hnode'
  refine ⟨⟨hsprouts, hindex, ⟨more, ?_⟩, fun node hnode' hno => ?_⟩, ?_⟩
  · simpa using hnode
  · obtain ⟨added, hadded, hcases⟩ := hmakes.parent node hnode'
    rcases hcases with rfl | ⟨-, c, hcm, hc'⟩
    · exact (hold _ hc).trans hadded
    · exact absurd hc' (hno c hcm)
  · obtain ⟨node, hnode'⟩ := EnvTree.exists_get? hc
    obtain ⟨added, hadded, -⟩ := hmakes.parent node hnode'
    have hafter : r.tree.get? s.current = some { node with children := node.children ++ added } :=
      (hold _ hc).trans hadded
    show r.tree.scopes s.current = s.tree.scopes s.current
    simp [EnvTree.scopes, hafter, hnode']

namespace Tends

theorem inEnvironment {x : Analysis Unit} {name : String} {scope : Scope} (hname : names name)
    (hx : Tends a region names [.empty] x [scope]) : Tends a region names scopes (inEnvironment name x) scopes := by
  refine ⟨fun s v s' ha hrun => ?_, fun s v s' ha hc hs hrun hroom => ?_⟩
  · obtain ⟨t, ht, rfl⟩ := inEnvironment_ok hrun
    obtain ⟨hat, hsize⟩ := hx.goes (s.entered name) () t ha ht
    rw [s.size_entered name] at hsize
    exact ⟨hat, (Nat.le_succ _).trans hsize⟩
  obtain ⟨hencloses, hend⟩ := encloses_inEnvironment hname hx ha hc hrun hroom
  exact ⟨hencloses.sprouts, hend.trans hs⟩

/-! ### Labels -/

/-- Labels that declare nothing. -/
theorem forLabels {ι : Type} {label : ι → Label} {visit : ι → Bool → Analysis Unit} {items : List ι}
    (h : ∀ item ∈ items, ∀ again, Tends a region names scopes (visit item again) scopes) :
    Tends a region names scopes (Analysis.forLabels label visit items) scopes := by
  have hgo (seen : List String) :
      Tends a region names scopes (Analysis.forLabels.go label visit seen items) scopes := by
    induction items generalizing seen with
    | nil => exact pure ()
    | cons item rest ih =>
      obtain ⟨hitem, hrest⟩ := List.forall_mem_cons.1 h
      exact (hitem _).bind fun _ => ih hrest _
  exact hgo []

/-- Parameters: the first one of every name is declared, and it is final. -/
theorem forParams (declaration : Param → Declaration) (again : Param → Finding) (params : List Param)
    (hname : ∀ q, (declaration q).name = q.name) (hfinal : ∀ q, (declaration q).isFinal) :
    Tends a region names scopes (Analysis.forLabels Param.toLabel (fun param seen =>
      if seen then Analysis.report (again param) param.position else Analysis.declare (declaration param)) params)
      ((params.map declaration).foldl (fun scopes d => Scope.declareIn d scopes) scopes) := by
  have hgo (seen : List String) (hseen : ∀ name ∈ seen, Scope.fixes scopes name) : Tends a region names scopes
      (Analysis.forLabels.go Param.toLabel (fun param seen => if seen then Analysis.report (again param) param.position
        else Analysis.declare (declaration param)) seen params)
      ((params.map declaration).foldl (fun scopes d => Scope.declareIn d scopes) scopes) := by
    induction params generalizing seen scopes with
    | nil => exact pure ()
    | cons param rest ih =>
      have hnext : ∀ name ∈ param.name :: seen, Scope.fixes (Scope.declareIn (declaration param) scopes) name := by
        intro name hmem
        cases hfixes : Scope.fixes scopes (declaration param).name with
        | true =>
          rw [Scope.declareIn_of_fixes hfixes]
          rcases List.mem_cons.1 hmem with rfl | hmem
          · rwa [hname] at hfixes
          · exact hseen name hmem
        | false =>
          rw [Scope.fixes_declareIn (hfinal param) hfixes, hname]
          rcases List.mem_cons.1 hmem with rfl | hmem
          · simp
          · simp [hseen name hmem]
      have hitem : Tends a region names scopes (if seen.contains param.name
          then Analysis.report (again param) param.position else Analysis.declare (declaration param))
          (Scope.declareIn (declaration param) scopes) := by
        cases hagain : seen.contains param.name with
        | true =>
          -- The name was declared by the parameter before, so nothing is declared now.
          have hfixes : Scope.fixes scopes (declaration param).name := by
            rw [hname]
            exact hseen _ (List.contains_iff_mem.1 hagain)
          rw [Scope.declareIn_of_fixes hfixes]
          exact report _ _
        | false => exact declare _
      exact hitem.bind fun _ => ih _ hnext
  exact hgo [] (by simp)

/-! ### Visits -/

/-- The left operand of a pipe is moved into a call. -/
theorem moving (p call : NodeId) {lhs : NodeId} (hr : region lhs)
    (ho : ∃ kind, a.kind? lhs = some kind ∧ kind.isOperand) :
    Tends a region names scopes
      (modify fun s => { s with arena := markDesugared (appendArgument s.arena call lhs) p }) scopes := by
  refine ⟨fun s v s' ha hrun => ?_, fun s v s' _ _ hs hrun _ => ?_⟩ <;> cases hrun
  · exact ⟨(ha.appendArgument call hr ho).markDesugared p, le_rfl⟩
  · exact ⟨.of_tree rfl rfl rfl, hs⟩

/-- Copies of the scopes of some environment are brought into scope. -/
theorem bringing {name : String} {k : Unit → Analysis α}
    (hk : ∀ brought, Tends a region names (brought ++ scopes) (k ()) scopes') :
    Tends a region names scopes ((modifyTree fun tree current =>
      match tree.findEnv? current name with
      | some env => tree.bringIntoScope current env
      | none => tree) >>= k) scopes' := by
  refine ⟨(Goes.idle (.bringing name)).bind fun _ => (hk []).goes, fun s v s' ha hc hs hrun hroom => ?_⟩
  have hstep : (modifyTree fun tree current =>
      match tree.findEnv? current name with
      | some env => tree.bringIntoScope current env
      | none => tree) s = .ok ((), { s with tree := match s.tree.findEnv? s.current name with
        | some env => s.tree.bringIntoScope s.current env
        | none => s.tree }) := rfl
  rw [bind_eq hstep] at hrun
  cases hfound : s.tree.findEnv? s.current name with
  | none =>
    rw [hfound] at hrun
    exact (hk []).tends s v s' ha hc hs hrun hroom
  | some env =>
    rw [hfound] at hrun
    have hbrought : Tends a region names scopes
        ((modifyTree fun tree current => tree.modifyScopes current (s.tree.scopes env ++ ·)) >>= k) scopes' :=
      (modifyScopes _).bind fun _ => hk _
    exact hbrought.tends s v s' ha hc hs hrun hroom

variable {visit : NodeId → Analysis Unit}
  (hv : ∀ c, region c → ∀ scopes, Tends a region names scopes (visit c) (a.adds c scopes))
include hv

/-- A node that is no binding. -/
theorem operand {c : NodeId} (hc : region c) (ho : ∃ kind, a.kind? c = some kind ∧ kind.isOperand) :
    Tends a region names scopes (visit c) scopes := by
  have hvisit := hv c hc scopes
  rwa [a.adds_isOperand ho] at hvisit

theorem operands {ids : List NodeId} (h : ∀ c ∈ ids, region c)
    (ho : ∀ c ∈ ids, ∃ kind, a.kind? c = some kind ∧ kind.isOperand) :
    Tends a region names scopes (visitAll visit ids) scopes := by
  induction ids with
  | nil => exact pure ()
  | cons c rest ih =>
    obtain ⟨hc, hrest⟩ := List.forall_mem_cons.1 h
    obtain ⟨hoc, horest⟩ := List.forall_mem_cons.1 ho
    exact (operand hv hc hoc).bind fun _ => ih hrest horest

theorem visitStatements {ids : List NodeId} (h : ∀ c ∈ ids, region c) :
    Tends a region names scopes (visitAll visit ids) (a.addsAll ids scopes) := by
  induction ids generalizing scopes with
  | nil => exact pure ()
  | cons c rest ih =>
    obtain ⟨hc, hrest⟩ := List.forall_mem_cons.1 h
    exact (hv c hc scopes).bind fun _ => ih hrest

theorem visitMembers {members : List NodeId} (h : ∀ c ∈ members, region c) (seen : List String) :
    Tends a region names scopes (visitObject.visitMembers visit seen members) (a.addsAll members scopes) := by
  induction members generalizing scopes seen with
  | nil => exact pure ()
  | cons member rest ih =>
    obtain ⟨hmember, hrest⟩ := List.forall_mem_cons.1 h
    refine node fun b n _ _ => ?_
    split
    · exact (reportIf _ _ _).bind fun _ => (hv member hmember scopes).bind fun _ => ih hrest _
    · exact throwing _

theorem visitObject (params : Option (List Param)) (composed : List Label) {members : List NodeId}
    (h : ∀ c ∈ members, region c) :
    Tends a region names scopes (visitObject visit params composed members)
      (a.objectScopes (params.getD []) members scopes) := by
  have hparams : Tends a region names scopes _ _ := forParams Param.ofClass
    (fun q => .duplicateConstructorParameter q.name) (params.getD []) (fun _ => rfl) fun _ => rfl
  refine hparams.bind fun _ => (forLabels fun source _ again => ?_).bind fun _ => visitMembers hv h []
  exact (isBound _).bind fun _ => (reportIf _ _ _).bind fun _ => reportIf _ _ _

theorem visitValue {name : String} {value : NodeId} (hc : region value)
    (ho : ∃ kind, a.kind? value = some kind ∧ kind.isOperand)
    (hname : ∀ params composed members, a.kind? value = some (.object params composed members) → names name) :
    Tends a region names scopes (visitValue visit name value) scopes := by
  refine node fun b ⟨kind, position⟩ hb hn => ?_
  dsimp only
  split
  · rename_i params composed members
    have hk : a.kind? value = some (.object params composed members) := Arena.kind?_eq_some.2 ⟨_, hb.object hn⟩
    have hmembers : ∀ c ∈ members, region c := fun c hcm => hb.closed value c hc ⟨_, hn, hcm⟩
    obtain ⟨scope, hscope⟩ := a.exists_objectScopes (params.getD []) members .empty []
    exact inEnvironment (hname _ _ _ hk) (hscope ▸ visitObject hv params composed hmembers)
  · exact operand hv hc ho

omit hv in
theorem visitBinding {name : String} {mode : BindingMode} {isFinal : Bool} {value : NodeId}
    {position : Option Position}
    (hvalue : ∀ scopes, Tends a region names scopes (Analysis.visitValue visit name value) scopes) :
    Tends a region names scopes (visitBinding visit name mode isFinal value position)
      (Scope.declareIn ⟨name, position, isFinal, mode = .mutable⟩ scopes) := by
  have hmain (scopes : List Scope) (main : AnalysisState → Bool) : Tends a region names scopes
      (get >>= fun s => Analysis.reportIf (main s) .mainNotFinal position) scopes := reading fun _ => reportIf _ _ _
  dsimp only [Analysis.visitBinding]
  split
  · exact (declare _).bind fun _ => (hvalue _).bind fun _ => hmain _ _
  · exact (hvalue _).bind fun _ => (declare _).bind fun _ => hmain _ _

theorem visitFunction (params : List Param) {body : NodeId} (hc : region body)
    (ho : ∃ kind, a.kind? body = some kind ∧ kind.isOperand) :
    Tends a region names scopes (visitFunction visit params body) scopes := by
  have hparams : Tends a region names (.empty :: scopes) _ _ := forParams Param.ofFunction
    (fun q => .duplicateParameter q.name) params (fun _ => rfl) fun _ => rfl
  obtain ⟨scope, hscope⟩ := Scope.exists_foldl_declareIn (params.map Param.ofFunction) .empty scopes
  rw [hscope] at hparams
  exact allowingReturn true (inScope (hparams.bind fun _ => operand hv hc ho))

theorem visitCall {callee : NodeId} {args : List NodeId} {position : Option Position}
    (h : ∀ c ∈ callee :: args, region c) (ho : ∀ c ∈ callee :: args, ∃ kind, a.kind? c = some kind ∧ kind.isOperand) :
    Tends a region names scopes (visitCall visit callee args position) scopes := by
  have hrest : Tends a region names scopes (visit callee >>= fun _ => visitAll visit args) scopes :=
    operands hv h ho
  refine node fun b n _ _ => ?_
  split
  · exact (report _ _).bind fun _ => hrest
  · exact hrest

theorem visitRecord {fields : List Field} (h : ∀ c ∈ fields.map Field.value, region c)
    (ho : ∀ c ∈ fields.map Field.value, ∃ kind, a.kind? c = some kind ∧ kind.isOperand) :
    Tends a region names scopes (visitRecord visit fields) scopes := by
  refine forLabels fun field hfield again => (reportIf _ _ _).bind fun _ => ?_
  have hmem := List.mem_map_of_mem (f := Field.value) hfield
  exact operand hv (h _ hmem) (ho _ hmem)

theorem visitLoop {start stop body : NodeId} (h : ∀ c ∈ [start, stop, body], region c)
    (ho : ∀ c ∈ [start, stop, body], ∃ kind, a.kind? c = some kind ∧ kind.isOperand) :
    Tends a region names scopes (visitLoop visit start stop body) scopes := by
  have hone {scopes : List Scope} {c : NodeId} (hc : c ∈ [start, stop, body]) :
      Tends a region names scopes (visit c) scopes := operand hv (h c hc) (ho c hc)
  obtain ⟨scope, hscope⟩ := Scope.exists_declareIn ⟨loopName, none, true, false⟩ .empty scopes
  have hround : Tends a region names (.empty :: scopes)
      (Analysis.declare ⟨loopName, none, true, false⟩ >>= fun _ => visit body) (scope :: scopes) := by
    rw [← hscope]
    exact (declare _).bind fun _ => hone (by simp)
  exact (hone (by simp)).bind fun _ => (hone (by simp)).bind fun _ => inScope hround

theorem visitAssign {target value : NodeId} (h : ∀ c ∈ [target, value], region c)
    (ho : ∀ c ∈ [target, value], ∃ kind, a.kind? c = some kind ∧ kind.isOperand) :
    Tends a region names scopes (visitAssign visit target value) scopes := by
  have hone {scopes : List Scope} {c : NodeId} (hc : c ∈ [target, value]) :
      Tends a region names scopes (visit c) scopes := operand hv (h c hc) (ho c hc)
  refine node fun b n _ _ => (hone (by simp)).bind fun _ => ?_
  split
  · refine (lookup? _).bind fun d => ?_
    split
    · exact report _ _
    · exact reportIf _ _ _
  · exact hone (by simp)

theorem visitPipe {p lhs rhs : NodeId} {mark : Bool} (h : ∀ c ∈ (NodeKind.pipe lhs rhs mark).children, region c)
    (ho : ∀ c ∈ (NodeKind.pipe lhs rhs mark).children, ∃ kind, a.kind? c = some kind ∧ kind.isOperand) :
    Tends a region names scopes (visitPipe visit p lhs rhs mark) scopes := by
  have hone {scopes : List Scope} {c : NodeId} (hc : c ∈ (NodeKind.pipe lhs rhs mark).children) :
      Tends a region names scopes (visit c) scopes := operand hv (h c hc) (ho c hc)
  cases mark with
  | true => exact hone (by simp [NodeKind.children])
  | false =>
    have hlhs : lhs ∈ (NodeKind.pipe lhs rhs false).children := by simp [NodeKind.children]
    refine node fun b n _ _ => reading fun s => ?_
    split
    · exact (hone hlhs).bind fun _ => report _ _
    · rename_i call _
      exact (moving p call (h lhs hlhs) (ho lhs hlhs)).bind fun _ => hone (by simp [NodeKind.children])

theorem visitEnvOpen {target body : NodeId} (h : ∀ c ∈ [target, body], region c)
    (ho : ∀ c ∈ [target, body], ∃ kind, a.kind? c = some kind ∧ kind.isOperand) :
    Tends a region names scopes (visitEnvOpen visit target body) scopes := by
  have hone {scopes : List Scope} {c : NodeId} (hc : c ∈ [target, body]) :
      Tends a region names scopes (visit c) scopes := operand hv (h c hc) (ho c hc)
  have hclose (brought : List Scope) : Tends a region names (brought ++ .empty :: scopes) (visit body >>= fun _ =>
      modifyTree fun tree current => tree.truncateScopes current scopes.length) scopes := by
    have htruncate : Tends a region names (brought ++ .empty :: scopes) _ _ :=
      modifyScopes fun inner => inner.drop (inner.length - scopes.length)
    have hinner : scopes <:+ brought ++ Scope.empty :: scopes := ⟨brought ++ [.empty], by simp⟩
    rw [← List.suffix_iff_eq_drop.1 hinner] at htruncate
    exact (hone (by simp)).bind fun _ => htruncate
  have htarget : Goes a region (visit target) := (hv target (h target (by simp)) scopes).goes
  have hgoes (saved : Nat) := htarget.opening (hv body (h body (by simp)) scopes).goes saved
  refine allowingReturn false (looking (fun s => hgoes _) fun s hs => ?_)
  have hcount : s.tree.scopeCount s.current = scopes.length := congrArg List.length hs
  rw [hcount]
  refine (modifyScopes (Scope.empty :: ·)).bind fun _ => (hone (by simp)).bind fun _ => node fun b n _ _ => ?_
  split
  · exact bringing hclose
  · exact (pure ()).bind fun _ => hclose []

theorem visitReturn {value : Option NodeId} {position : Option Position} (h : ∀ c ∈ value.toList, region c)
    (ho : ∀ c ∈ value.toList, ∃ kind, a.kind? c = some kind ∧ kind.isOperand) :
    Tends a region names scopes (visitReturn visit value position) scopes := by
  refine reading fun s => (reportIf _ _ _).bind fun _ => ?_
  cases value with
  | none => exact pure ()
  | some value => exact operand hv (h value (by simp)) (ho value (by simp))

omit hv in
theorem visitExport (role : Role) (labels : List Label) (position : Option Position) :
    Tends a region names scopes (visitExport role labels position) scopes :=
  (reportIf _ _ _).bind fun _ => forLabels fun _ _ _ =>
    (isBound _).bind fun _ => (reportIf _ _ _).bind fun _ => reportIf _ _ _

/-- The visit of a node. The environments that it makes are named like the bindings of the region. -/
theorem visitNode (hnames : ∀ x name, region x → a.BindsObject x name → names name) {role : Role} {id : NodeId}
    (hid : region id) : Tends a region names scopes (visitNode role visit id) (a.adds id scopes) := by
  refine node fun b ⟨kind, position⟩ hb hn => ?_
  have hchild : ∀ c ∈ kind.children, region c := fun c hc => hb.closed id c hid ⟨_, hn, hc⟩
  have hoperand : ∀ c ∈ kind.operands, ∃ k, a.kind? c = some k ∧ k.isOperand := hb.operands id _ hn
  have hregion : ∀ c ∈ kind.operands, region c := fun c hc => hchild c (NodeKind.mem_children_of_operands hc)
  have hform {x : Analysis Unit} (hx : Tends a region names scopes x scopes) (hop : kind.isOperand) :
      Tends a region names scopes x (a.adds id scopes) := by
    have hself : ∃ k, a.kind? id = some k ∧ k.isOperand := by
      obtain ⟨⟨kind', position'⟩, hn', ho⟩ := hb.outline.symm.get? hn
      refine ⟨kind', Arena.kind?_eq_some.2 ⟨_, hn'⟩, ?_⟩
      rcases Node.alike_of_outline ho with heq | ⟨-, hj⟩
      · rwa [← (Node.mk.inj heq).1]
      · exact NodeKind.isOperand_of_isJoint hj
    rwa [a.adds_isOperand hself]
  have hone {c : NodeId} (hc : kind.operands = [c]) : Tends a region names scopes (visit c) scopes :=
    operand hv (hregion c (by simp [hc])) (hoperand c (by simp [hc]))
  have hall : Tends a region names scopes (visitAll visit kind.operands) scopes := operands hv hregion hoperand
  cases kind with
  | block items =>
    obtain ⟨scope, hscope⟩ := a.exists_addsAll items .empty scopes
    exact hform (inScope (hscope ▸ visitStatements hv hchild)) rfl
  | binding name mode isFinal value =>
    have hn' : a.get? id = some ⟨.binding name mode isFinal value, position⟩ := hb.outline.symm.get?_of_not_joint hn rfl
    rw [Arena.adds_binding hn']
    refine visitBinding fun scopes => visitValue hv (hregion value (by simp [NodeKind.operands, NodeKind.children]))
      (hoperand value (by simp [NodeKind.operands, NodeKind.children])) fun params composed members hk => ?_
    exact hnames id name hid ⟨mode, isFinal, value, params, composed, members, Arena.kind?_eq_some.2 ⟨_, hn'⟩, hk⟩
  | function params body =>
    exact hform (visitFunction hv params (hregion body (by simp [NodeKind.operands, NodeKind.children]))
      (hoperand body (by simp [NodeKind.operands, NodeKind.children]))) rfl
  | call callee args => exact hform (visitCall hv hregion hoperand) rfl
  | ident name => exact hform ((isBound name).bind fun _ => reportIf _ _ _) rfl
  | literal _ | imports _ _ => exact hform (pure ()) rfl
  | record fields => exact hform (visitRecord hv hregion hoperand) rfl
  | property target _ | len target | negate target | clone target => exact hform (hone rfl) rfl
  | loop start stop body => exact hform (visitLoop hv hregion hoperand) rfl
  | assign target value => exact hform (visitAssign hv hregion hoperand) rfl
  | pipe lhs rhs mark => exact hform (visitPipe hv hregion hoperand) rfl
  | object params composed members =>
    obtain ⟨scope, hscope⟩ := a.exists_objectScopes (params.getD []) members .empty scopes
    exact hform (inScope (hscope ▸ visitObject hv params composed hchild)) rfl
  | envOpen target body => exact hform (visitEnvOpen hv hregion hoperand) rfl
  | exports labels => exact hform (visitExport role labels position) rfl
  | returns value => exact hform (visitReturn hv hregion hoperand) rfl
  | _ => exact hform hall rfl

omit hv in
theorem visitWithin (hnames : ∀ x name, region x → a.BindsObject x name → names name) (role : Role) (levels : Nat)
    {id : NodeId} (hid : region id) :
    Tends a region names scopes (visitWithin role levels id) (a.adds id scopes) := by
  induction levels generalizing id scopes with
  | zero => exact throwing _
  | succ levels ih => exact visitNode (fun c hc scopes => ih hc) hnames hid

end Tends

end Analysis

end DynScript
