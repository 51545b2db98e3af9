import DynScript.Proofs.Analysis.Checker
import DynScript.Proofs.Analysis.Growing

/-!
# Steps from place to place

`AnalysisState.At` ties the state of an analysis, with its tree of environments, to the place of a checker.
`Analysis.Finds` says of a step that leaves the nodes that it leads from place to place and what it finds on its way.
-/

namespace DynScript

/-! ## Places -/

namespace Place

variable {p : Place} {d : Declaration} {name : String}

/-- A name that is final is not declared again. -/
theorem declare_of_fixes (h : p.fixes d.name) : p.declare d = p := by
  rw [declare, Scope.declareIn_of_fixes h]

/-- Nothing is final in a new scope. -/
@[simp] theorem fixes_opened (p : Place) (name : String) : p.opened.fixes name = false := rfl

variable {a b : Arena} {id : NodeId}

/-- What a statement declares does not depend on what has been desugared. -/
theorem past_of_sameOutline (h : a.SameOutline b) (p : Place) (id : NodeId) : p.past b id = p.past a id := by
  have hd (n n' : Node) (ho : n'.outline = n.outline) : n'.declaration? = n.declaration? := by
    rcases Node.alike_of_outline ho with rfl | ⟨hj, hj'⟩
    · rfl
    · obtain ⟨kind, position⟩ := n
      obtain ⟨kind', position'⟩ := n'
      cases kind <;> cases hj <;> cases kind' <;> cases hj' <;> rfl
  unfold past Arena.adds
  cases hn : a.get? id with
  | none =>
    have hn' : b.get? id = none := by simpa [hn] using h id
    rw [hn']
  | some n =>
    obtain ⟨n', hn', ho⟩ := h.get? hn
    rw [hn', Option.bind_some, Option.bind_some, hd n n' ho]

/-- Only bindings declare. -/
theorem past_isOperand (h : ∃ kind, a.kind? id = some kind ∧ kind.isOperand) (p : Place) : p.past a id = p := by
  rw [past, Arena.adds_isOperand h]

end Place

namespace AnalysisState

/-- An analysis has come to its end over these nodes, and there is a number for each environment. -/
structure Ends (b : Arena) (s : AnalysisState) : Prop where
  /-- The nodes. -/
  arena : s.arena = b
  /-- The numbers. -/
  fits : s.tree.size ≤ UInt32.size

/-- An analysis is at a place. -/
structure At (s : AnalysisState) (p : Place) : Prop where
  /-- It searches the scopes of the place. -/
  sees : s.Sees (some p.scopes)
  /-- Returns are allowed as they are there. -/
  inFunction : s.inFunction = p.inFunction
  /-- An environment has its scopes inside those of the unit. -/
  nested : s.current ≠ EnvTree.root → 1 < p.scopes.length
  /-- There is a number for each environment. -/
  fits : s.tree.size ≤ UInt32.size

namespace At

variable {s s' : AnalysisState} {p : Place}

/-- The innermost scope is that of the current environment. -/
theorem exists_scope (h : s.At p) : ∃ scope inner outer, s.tree.scopes s.current = scope :: inner ∧
    p.scopes = scope :: outer := by
  obtain ⟨scope, inner, hscopes⟩ := List.exists_cons_of_ne_nil h.sees.inside
  obtain ⟨scopes, inFunction⟩ := p
  cases h.sees.chain scopes rfl with
  | root hp => exact ⟨scope, inner, inner, hscopes, hscopes⟩
  | child hp hchain => exact ⟨scope, inner, _, hscopes, by rw [hscopes, List.cons_append]⟩

theorem lookup? (h : s.At p) (name : String) : s.tree.lookup? s.current name = p.inForce? name :=
  h.sees.lookup? name

theorem finalInScope? (h : s.At p) (name : String) :
    (s.tree.finalInScope? s.current name).isSome = p.fixes name := by
  obtain ⟨scope, inner, outer, hscopes, hp⟩ := h.exists_scope
  rw [EnvTree.finalInScope?, hscopes, Place.fixes, hp, Scope.fixes]

/-- The analysis is at the top of the unit when its place is. -/
theorem isTop (h : s.At p) :
    (s.current = EnvTree.root && s.tree.scopeCount EnvTree.root = 1 : Bool) = p.isTop := by
  by_cases hroot : s.current = EnvTree.root
  · have hnone : s.tree.parent? EnvTree.root = none := by
      cases hp : s.tree.parent? EnvTree.root with
      | none => rfl
      | some e => exact absurd (h.sees.descends _ _ hp) (Nat.not_lt_zero _)
    have hchain := h.sees.chain p.scopes rfl
    obtain ⟨scopes, inFunction⟩ := p
    rw [hroot] at hchain
    cases hchain with
    | root hp =>
      show (_ && decide ((s.tree.scopes EnvTree.root).length = 1)) = decide ((s.tree.scopes EnvTree.root).length = 1)
      rw [decide_eq_true hroot, Bool.true_and]
    | child hp _ => rw [hnone] at hp; cases hp
  · have hlt := h.nested hroot
    have hne : p.scopes.length ≠ 1 := by omega
    simp [hroot, Place.isTop, hne]

theorem pushScope (h : s.At p) : At { s with tree := s.tree.pushScope s.current } p.opened where
  sees := h.sees.pushScope
  inFunction := h.inFunction
  nested hroot := (h.nested hroot).trans (Nat.lt_succ_self _)
  fits := by simpa [EnvTree.pushScope] using h.fits

theorem entered (h : s.At p) (hroom : s.tree.size < UInt32.size) (name : String) : (s.entered name).At p.opened where
  sees := h.sees.pushEnvironment hroom name
  inFunction := h.inFunction
  fits := s.size_entered name ▸ hroom
  nested _ := by
    obtain ⟨scope, inner, outer, -, hp⟩ := h.exists_scope
    simp [Place.opened, hp]

theorem restored (h : s.At p) (hr : s.Restores s') (hd : s'.tree.Descends)
    (hm : s'.tree.MutableOnly s'.arena.Mutates) (hf : s'.inFunction = s.inFunction)
    (hfits : s'.tree.size ≤ UInt32.size) : s'.At p where
  sees := h.sees.restored hr hd hm
  inFunction := hf.trans h.inFunction
  nested := hr.current ▸ h.nested
  fits := hfits

end At

end AnalysisState

namespace Analysis

variable {α β : Type} {a b : Arena} {p p' p'' : Place} {found found' : Found}

/-! ## Steps over nodes that stay -/

/-- A step that begins at a place and ends with the nodes with which it began and with numbers for all environments. It
has this result, it leads to this place, and it finds this. -/
def Finds (b : Arena) (p : Place) (x : Analysis α) (v : α) (p' : Place) (found : Found) : Prop :=
  ∀ s : AnalysisState, s.arena = b → s.At p → ∀ w s', x s = .ok (w, s') → s'.Ends b →
    w = v ∧ s'.At p' ∧ s.Continues s' ∧ s'.inFunction = s.inFunction ∧ s'.queue = s.queue.pushAll found ∧
      s'.errors = s.errors + found.errors

namespace Finds

variable {x : Analysis α} {k : α → Analysis β} {v : α} {r : β}

/-- Two steps, of which the first one leaves the nodes when both do. -/
theorem between (hx : Finds b p x v p' found) (hk : Finds b p' (k v) r p'' found')
    (hstays : ∀ s u t w s', s.arena = b → s.At p → x s = .ok (u, t) → k u t = .ok (w, s') → s'.Ends b → t.Ends b) :
    Finds b p (x >>= k) r p'' (found ++ found') := by
  intro s ha hs w s' hrun ha'
  obtain ⟨⟨u, t⟩, hu, hrest⟩ := bind_ok hrun
  have ht : t.Ends b := hstays s u t w s' ha hs hu hrest ha'
  obtain ⟨rfl, hst, hc, hf, hq, he⟩ := hx s ha hs u t hu ht
  obtain ⟨rfl, hs', hc', hf', hq', he'⟩ := hk t ht.arena hst w s' hrest ha'
  refine ⟨rfl, hs', hc.trans hc', hf'.trans hf, ?_, ?_⟩
  · rw [hq', hq, Queue.pushAll_append]
  · rw [he', he, Found.errors_append, Nat.add_assoc]

/-- Two steps, of which it is not known that the first one leaves the nodes. -/
theorem bind (hg : Grows x) (hg' : ∀ v, Grows (k v)) (hx : Finds b p x v p' found)
    (hk : Finds b p' (k v) r p'' found') : Finds b p (x >>= k) r p'' (found ++ found') := by
  refine hx.between hk fun s u t w s' ha _ hu hrest ha' => ?_
  obtain ⟨hforth, -⟩ := hg s u t hu
  obtain ⟨hback, hsize⟩ := hg' u t w s' hrest
  exact ⟨(ha ▸ hforth).antisymm (ha'.arena ▸ hback), hsize.trans ha'.fits⟩

/-- Two steps, of which the first one leaves the nodes. -/
theorem after (hx : Finds b p x v p' found) (hstays : Stays x) (hk : Finds b p' (k v) r p'' found') :
    Finds b p (x >>= k) r p'' (found ++ found') :=
  hx.between hk fun s u t _ _ ha hs hu _ _ =>
    ⟨(hstays s u t hu).1.trans ha, (hstays s u t hu).2.trans_le hs.fits⟩

theorem pure (v : α) : Finds b p (Pure.pure v) v p [] := by
  intro s ha hs w s' hrun _
  cases hrun
  exact ⟨rfl, hs, .refl _, rfl, rfl, rfl⟩

theorem reading {k : AnalysisState → Analysis α} (hk : ∀ s, s.arena = b → s.At p → Finds b p (k s) v p' found) :
    Finds b p (get >>= k) v p' found :=
  fun s ha hs w s' hrun ha' => hk s ha hs s ha hs w s' hrun ha'

theorem node {id : NodeId} {k : Node → Analysis α} (hk : ∀ n, b.get? id = some n → Finds b p (k n) v p' found) :
    Finds b p (Analysis.node id >>= k) v p' found := by
  intro s ha hs w s' hrun ha'
  obtain ⟨n, hn, hrest⟩ := node_ok hrun
  exact hk n (ha ▸ hn) s ha hs w s' hrest ha'

/-- A step that only reports. -/
theorem reporting {x : Analysis Unit} (hx : ∀ s : AnalysisState, s.At p → x s = .ok ((), s.reporting found)) :
    Finds b p x () p found := by
  intro s ha hs w s' hrun _
  obtain ⟨-, rfl⟩ := Prod.mk.inj (Except.ok.inj ((hx s hs).symm.trans hrun))
  refine ⟨rfl, ⟨⟨hs.sees.current, hs.sees.inside, hs.sees.descends, hs.sees.chain, hs.sees.mutableOnly⟩,
    hs.inFunction, hs.nested, hs.fits⟩, ?_, rfl, rfl, rfl⟩
  exact ⟨rfl, le_rfl, fun _ _ => rfl, fun _ _ _ => rfl, rfl⟩

theorem reportIf (c : Bool) (f : Finding) (position : Option Position) :
    Finds b p (Analysis.reportIf c f position) () p (foundIf c f position) :=
  reporting fun s _ => reportIf_eq c f position s

theorem report (f : Finding) (position : Option Position) :
    Finds b p (Analysis.report f position) () p [(f, position)] := reportIf true f position

/-- A finding before others. -/
theorem afterIf {k : Unit → Analysis α} (c : Bool) (f : Finding) (position : Option Position)
    (hk : Finds b p (k ()) v p' found) :
    Finds b p (Analysis.reportIf c f position >>= k) v p' (foundIf c f position ++ found) :=
  (reportIf c f position).after (.reportIf c f position) hk

theorem lookup? {name : String} {k : Option Declaration → Analysis α}
    (hk : Finds b p (k (p.inForce? name)) v p' found) : Finds b p (Analysis.lookup? name >>= k) v p' found := by
  intro s ha hs w s' hrun ha'
  have hlookup : (Analysis.lookup? name >>= k) s = k (s.tree.lookup? s.current name) s := rfl
  rw [hlookup, hs.lookup?] at hrun
  exact hk s ha hs w s' hrun ha'

theorem isBound {name : String} {k : Bool → Analysis α} (hk : Finds b p (k (p.isBound name)) v p' found) :
    Finds b p (Analysis.isBound name >>= k) v p' found := by
  intro s ha hs w s' hrun ha'
  have hbound : (Analysis.isBound name >>= k) s = k (s.tree.lookup? s.current name).isSome s := rfl
  rw [hbound, hs.lookup?] at hrun
  exact hk s ha hs w s' hrun ha'

/-- A declaration of what the nodes declare. -/
theorem declare {d : Declaration} (hd : d.isMutable → b.Mutates d.name) :
    Finds b p (declare d) () (p.declare d) (Checker.declared p d) := by
  intro s ha hs w s' hrun ha'
  obtain ⟨hsees, hc, -⟩ := (Scans.declare d hd s ha w s' hrun).2.2 ha'.fits hs.sees
  rw [declare_eq, EnvTree.define] at hrun
  have hfixes := hs.finalInScope? d.name
  cases hfinal : s.tree.finalInScope? s.current d.name with
  | some existing =>
    rw [hfinal] at hrun hfixes
    rw [Place.declare_of_fixes hfixes.symm, Checker.declared, ← hfixes]
    exact reportIf true _ _ s ha hs w s' hrun ha'
  | none =>
    rw [hfinal] at hrun hfixes
    rw [Checker.declared, ← hfixes]
    cases hrun
    refine ⟨rfl, ⟨hsees, hs.inFunction, fun hroot => ?_, ha'.fits⟩, hc, rfl, rfl, rfl⟩
    obtain ⟨scope, inner, outer, -, hp⟩ := hs.exists_scope
    have hlt := hs.nested hroot
    rw [hp] at hlt
    simp only [Place.declare, hp, Scope.declareIn]
    split <;> simpa using hlt

/-! ### Scopes -/

theorem inScope {x : Analysis Unit} (hx : Finds b p.opened x () p' found) : Finds b p (inScope x) () p found := by
  intro s ha hs w s' hrun ha'
  obtain ⟨t, ht, rfl⟩ := inScope_ok hrun
  have hend : t.Ends b := ⟨ha'.arena, by simpa [EnvTree.popScope] using ha'.fits⟩
  obtain ⟨-, hs', hc, hf, hq, he⟩ := hx { s with tree := s.tree.pushScope s.current } ha hs.pushScope () t ht hend
  have hrestores := hc.popScope hs.sees.current
  refine ⟨rfl, hs.restored hrestores (hs'.sees.descends.modifyScopes _)
    (hs'.sees.mutableOnly.modifyScopes fun scope hscope => ?_) hf ha'.fits, hrestores.continues hs.sees.current, hf, hq,
    he⟩
  exact hs'.sees.mutableOnly _ scope (List.mem_of_mem_tail hscope)

theorem inEnvironment {x : Analysis Unit} (name : String) (hg : Grows x) (hx : Finds b p.opened x () p' found) :
    Finds b p (inEnvironment name x) () p found := by
  intro s ha hs w s' hrun ha'
  obtain ⟨t, ht, rfl⟩ := inEnvironment_ok hrun
  have hroom : s.tree.size < UInt32.size := by
    have hsize := (hg (s.entered name) () t ht).2
    have hentered := s.size_entered name
    have hfits : t.tree.size ≤ UInt32.size := ha'.fits
    omega
  obtain ⟨-, hs', hc, hf, hq, he⟩ := hx (s.entered name) ha (hs.entered hroom name) () t ht ⟨ha'.arena, ha'.fits⟩
  have hrestores := hc.leave hs.sees.current hroom
  exact ⟨rfl, hs.restored hrestores hs'.sees.descends hs'.sees.mutableOnly hf ha'.fits,
    hrestores.continues hs.sees.current, hf, hq, he⟩

theorem allowingReturn {x : Analysis Unit} (hx : Finds b p.returning x () p.returning found) :
    Finds b p (allowingReturn true x) () p found := by
  intro s ha hs w s' hrun ha'
  obtain ⟨t, ht, rfl⟩ := allowingReturn_ok hrun
  have hsees := hs.sees
  obtain ⟨-, hs', hc, -, hq, he⟩ := hx { s with inFunction := true } ha
    ⟨⟨hsees.current, hsees.inside, hsees.descends, hsees.chain, hsees.mutableOnly⟩, rfl, hs.nested, hs.fits⟩ () t ht
    ⟨ha'.arena, ha'.fits⟩
  have hsees' := hs'.sees
  refine ⟨rfl, ⟨⟨hsees'.current, hsees'.inside, hsees'.descends, hsees'.chain, hsees'.mutableOnly⟩, hs.inFunction,
    hs'.nested, ha'.fits⟩, ?_, rfl, hq, he⟩
  exact ⟨hc.current, hc.size, hc.parents, hc.others, hc.outer⟩

/-! ### Labels -/

/-- Labels that declare nothing. -/
theorem forLabels {ι : Type} {label : ι → Label} {visit : ι → Bool → Analysis Unit} {F : ι → Bool → Found}
    {items : List ι} (hg : ∀ item again, Grows (visit item again))
    (h : ∀ item ∈ items, ∀ again, Finds b p (visit item again) () p (F item again)) :
    Finds b p (Analysis.forLabels label visit items) () p
      ((Checker.withRepeats label [] items).flatMap fun (item, again) => F item again) := by
  have hgo (seen : List String) : Finds b p (Analysis.forLabels.go label visit seen items) () p
      ((Checker.withRepeats label seen items).flatMap fun (item, again) => F item again) := by
    induction items generalizing seen with
    | nil => exact pure ()
    | cons item rest ih =>
      obtain ⟨hitem, hrest⟩ := List.forall_mem_cons.1 h
      exact bind (hg _ _) (fun _ => Grows.forLabelsGo hg _ _) (hitem _) (ih hrest _)
  exact hgo []

/-- Parameters in a new scope: the first one of every name is declared, and it is final. -/
theorem forParams (declaration : Param → Declaration) (again : Param → Finding) {params : List Param}
    (hname : ∀ q, (declaration q).name = q.name) (hfinal : ∀ q, (declaration q).isFinal)
    (hm : ∀ q ∈ params, (declaration q).isMutable → b.Mutates q.name) (hnew : ∀ name, p.fixes name = false) :
    Finds b p (Analysis.forLabels Param.toLabel (fun param seen =>
      if seen then Analysis.report (again param) param.position else Analysis.declare (declaration param)) params) ()
      (p.declareAll (params.map declaration)) (Checker.params again params) := by
  have hgo (seen : List String) (hseen : ∀ name, p.fixes name = seen.contains name) : Finds b p
      (Analysis.forLabels.go Param.toLabel (fun param seen => if seen then Analysis.report (again param) param.position
        else Analysis.declare (declaration param)) seen params) ()
      (p.declareAll (params.map declaration)) ((Checker.withRepeats Param.toLabel seen params).flatMap
        fun r => foundIf r.2 (again r.1) r.1.position) := by
    clear hnew
    induction params generalizing seen p with
    | nil => exact pure ()
    | cons param rest ih =>
      obtain ⟨hparam, hrest⟩ := List.forall_mem_cons.1 hm
      have hfixes : p.fixes (declaration param).name = seen.contains param.name := by rw [hname, hseen]
      have hnext (name : String) : (p.declare (declaration param)).fixes name = (param.name :: seen).contains name := by
        rw [List.contains_cons, ← hseen]
        cases hagain : p.fixes (declaration param).name with
        | true =>
          rw [Place.declare_of_fixes hagain]
          by_cases hsame : name = param.name
          · rw [hsame, ← hname param, hagain, Bool.or_true]
          · simp [hsame]
        | false =>
          refine (Scope.fixes_declareIn (hfinal param) hagain name).trans ?_
          rw [hname]
          rfl
      have hitem : Finds b p (if seen.contains param.name then Analysis.report (again param) param.position
          else Analysis.declare (declaration param)) () (p.declare (declaration param))
          (foundIf (seen.contains param.name) (again param) param.position) := by
        cases hagain : seen.contains param.name with
        | true =>
          -- The name was declared by the parameter before, so nothing is declared now.
          rw [Place.declare_of_fixes (hfixes.trans hagain)]
          exact report _ _
        | false =>
          have hdeclare := declare (p := p) (d := declaration param) fun h => hname param ▸ hparam h
          rwa [Checker.declared, hfixes, hagain] at hdeclare
      have hstays : Stays (if seen.contains param.name then Analysis.report (again param) param.position
          else Analysis.declare (declaration param)) := by
        split
        · exact .report _ _
        · exact .declare _
      exact hitem.after hstays (ih hrest _ hnext)
  exact hgo [] hnew

end Finds

end Analysis

end DynScript
