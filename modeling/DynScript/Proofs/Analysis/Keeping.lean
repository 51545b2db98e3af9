import DynScript.Proofs.Analysis.Abreast
import DynScript.Proofs.Analysis.Replay

/-!
# Every visit leaves the environments as they were

The visit of a node comes back to the environment in which it began and leaves the scopes of all environments that
were there, except that a binding may add its own name to the innermost scope (`AnalysisState.Keeps`). An analysis
that insists on this at every visit, and stops otherwise, is the plain analysis.
-/

namespace DynScript

namespace AnalysisState

variable {s s' : AnalysisState} {a : Arena} {id : NodeId}

/-- What the visit of a node leaves as it was. -/
structure Keeps (a : Arena) (id : NodeId) (s s' : AnalysisState) : Prop where
  /-- The environment is the same. -/
  current : s'.current = s.current
  /-- Returns are allowed as they were. -/
  inFunction : s'.inFunction = s.inFunction
  /-- Environments are still there. -/
  size : s.tree.size ≤ s'.tree.size
  /-- They have as many scopes as they had. -/
  counts : ∀ x : EnvId, x.index < s.tree.size → s'.tree.scopeCount x = s.tree.scopeCount x
  /-- All but the current one have the scopes that they had. -/
  others : ∀ x : EnvId, x.index < s.tree.size → x ≠ s.current → s'.tree.scopes x = s.tree.scopes x
  /-- So has this one, but a binding may add its own declaration to the innermost scope. -/
  here : s'.tree.scopes s.current = s.tree.scopes s.current ∨ ∃ d scope outer,
    (a.get? id).bind Node.declaration? = some d ∧ s.tree.scopes s.current = scope :: outer ∧
      s'.tree.scopes s.current = scope.push d :: outer
  /-- Environments that are new have one scope. -/
  made : ∀ x : EnvId, s.tree.size ≤ x.index → x.index < s'.tree.size → s'.tree.scopeCount x = 1

/-- What has been said of bindings of `main` so far. -/
def warnings (s : AnalysisState) : List Diagnostic := s.queue.toList.filter (·.code = .mainNotFinal)

theorem warnings_reporting {found : Found} (h : ∀ entry ∈ found, entry.1 ≠ .mainNotFinal) :
    (s.reporting found).warnings = s.warnings := by
  have hnone : (found.map fun entry => entry.1.toDiagnostic entry.2).filter (·.code = .mainNotFinal) = [] := by
    rw [List.filter_eq_nil_iff]
    intro d hd
    obtain ⟨⟨f, position⟩, hentry, rfl⟩ := List.mem_map.1 hd
    have hne := h _ hentry
    cases f <;> simp_all [Finding.toDiagnostic, Finding.code]
  rw [warnings, reporting, Queue.toList_pushAll, List.filter_append, hnone, List.append_nil, warnings]

/-- A state of an analysis in an environment with these scopes, which is the root or not. -/
structure Stands (a : Arena) (isRoot : Bool) (scopes : List Scope) (s : AnalysisState) : Prop where
  /-- The nodes are on the way to being settled. -/
  underway : a.Underway s.arena
  /-- The environment is there. -/
  current : s.current.index < s.tree.size
  /-- Its scopes. -/
  scopes : s.tree.scopes s.current = scopes
  /-- Whether it is the root. -/
  root : s.current = EnvTree.root ↔ isRoot

end AnalysisState

namespace Analysis

open AnalysisState

variable {α β : Type} {a : Arena} {isRoot : Bool} {scopes scopes' scopes'' : List Scope} {ids ids' : List NodeId}
  {s s' : AnalysisState}

theorem Tends.stands {x : Analysis α} {v : α} (h : Tends a (fun _ => True) (fun _ => True) scopes x scopes')
    (hs : s.Stands a isRoot scopes) (hrun : x s = .ok (v, s')) (hroom : s'.tree.size ≤ UInt32.size) :
    s'.Stands a isRoot scopes' := by
  obtain ⟨hsprouts, hscopes⟩ := h.tends s v s' hs.underway hs.current hs.scopes hrun hroom
  have hcurrent := hsprouts.current
  refine ⟨(h.goes s v s' hs.underway hrun).1, ?_, ?_, ?_⟩
  · rw [hcurrent]
    exact hs.current.trans_le hsprouts.size
  · rw [hcurrent, hscopes]
  · rw [hcurrent]
    exact hs.root

/-- A binding of `main` is remarked on in the only scope of the root. -/
theorem warnMain_eq (name : String) (isFinal : Bool) (position : Option Position) (s : AnalysisState) :
    warnMain name isFinal position s = reportIf (name = mainName && !isFinal &&
      (decide (s.current = EnvTree.root) && decide (s.tree.scopeCount EnvTree.root = 1))) .mainNotFinal position s :=
  rfl

/-- Of two steps the first one, when it succeeds and there are numbers for all environments, leads from scopes to scopes
and says nothing of `main`, and the second one does the same as the first. -/
structure Agree (a : Arena) (isRoot : Bool) (scopes : List Scope) (x : Bool → Analysis α) (scopes' : List Scope) :
    Prop where
  /-- What the first step does to the environments. -/
  tends : Tends a (fun _ => True) (fun _ => True) scopes (x false) scopes'
  /-- The second step does the same. -/
  same : ∀ s v s', s.Stands a isRoot scopes → x false s = .ok (v, s') → s'.tree.size ≤ UInt32.size →
    x true s = .ok (v, s') ∧ s'.warnings = s.warnings

namespace Agree

theorem bind {x : Bool → Analysis α} {k : Bool → α → Analysis β} (hx : Agree a isRoot scopes x scopes')
    (hk : ∀ v, Agree a isRoot scopes' (fun i => k i v) scopes'') :
    Agree a isRoot scopes (fun i => x i >>= k i) scopes'' := by
  refine ⟨hx.tends.bind fun v => (hk v).tends, fun s w s' hs hrun hroom => ?_⟩
  obtain ⟨⟨v, t⟩, hv, hrest⟩ := bind_ok hrun
  have hat := (hx.tends.goes s v t hs.underway hv).1
  have hfits : t.tree.size ≤ UInt32.size := ((hk v).tends.goes t w s' hat hrest).2.trans hroom
  obtain ⟨hv', hwarnings⟩ := hx.same s v t hs hv hfits
  obtain ⟨hrest', hwarnings'⟩ := (hk v).same t w s' (hx.tends.stands hs hv hfits) hrest hroom
  exact ⟨(bind_eq hv').trans hrest', hwarnings'.trans hwarnings⟩

/-- One and the same step. -/
theorem of_tends {x : Analysis α} (h : Tends a (fun _ => True) (fun _ => True) scopes x scopes')
    (hw : ∀ s v s', x s = .ok (v, s') → s'.warnings = s.warnings) : Agree a isRoot scopes (fun _ => x) scopes' :=
  ⟨h, fun s v s' _ hrun _ => ⟨hrun, hw s v s' hrun⟩⟩

/-- Looking at the state before going on. -/
theorem looking {k : Bool → AnalysisState → Analysis α} (hg : ∀ s, Goes a (fun _ => True) (k false s))
    (h : ∀ s : AnalysisState, s.tree.scopes s.current = scopes → Agree a isRoot scopes (fun i => k i s) scopes') :
    Agree a isRoot scopes (fun i => get >>= k i) scopes' :=
  ⟨.looking hg fun s hs => (h s hs).tends, fun s v s' hs hrun => (h s hs.scopes).same s v s' hs hrun⟩

theorem reading {k : Bool → AnalysisState → Analysis α}
    (h : ∀ s, Agree a isRoot scopes (fun i => k i s) scopes') : Agree a isRoot scopes (fun i => get >>= k i) scopes' :=
  looking (fun s => (h s).tends.goes) fun s _ => h s

theorem peek {id : NodeId} {k : Bool → Node → Analysis α}
    (h : ∀ b n, a.Underway b → b.get? id = some n → Agree a isRoot scopes (fun i => k i n) scopes') :
    Agree a isRoot scopes (fun i => Analysis.node id >>= k i) scopes' := by
  refine ⟨Tends.node fun b n hb hn => (h b n hb hn).tends, fun s v s' hs hrun hroom => ?_⟩
  obtain ⟨n, hn, hrest⟩ := node_ok hrun
  obtain ⟨hrest', hwarnings⟩ := (h s.arena n hs.underway hn).same s v s' hs hrest hroom
  exact ⟨(bind_eq (node_eq hn)).trans hrest', hwarnings⟩

theorem still {x : Analysis α} (hq : Quiet x) (h : Tends a (fun _ => True) (fun _ => True) scopes x scopes') :
    Agree a isRoot scopes (fun _ => x) scopes' := by
  refine of_tends h fun s v s' hrun => ?_
  obtain ⟨w, tree, found, hx, hfound⟩ := hq s
  obtain ⟨rfl, rfl⟩ := Prod.mk.inj (Except.ok.inj ((hx []).symm.trans hrun))
  exact warnings_reporting (s := { s with tree }) fun entry hentry => (hfound entry hentry).1

theorem modifyScopes (f : List Scope → List Scope) : Agree a isRoot scopes
    (fun _ => modifyTree fun tree current => tree.modifyScopes current f) (f scopes) := by
  refine of_tends (.modifyScopes f) fun s v s' hrun => ?_
  cases hrun
  rfl

theorem inScope {x : Bool → Analysis Unit} {scope : Scope}
    (hx : Agree a isRoot (.empty :: scopes) x (scope :: scopes)) :
    Agree a isRoot scopes (fun i => inScope (x i)) scopes :=
  (modifyScopes (Scope.empty :: ·)).bind fun _ => hx.bind fun _ => modifyScopes List.tail

theorem allowingReturn {x : Bool → Analysis Unit} (allowed : Bool) (hx : Agree a isRoot scopes x scopes') :
    Agree a isRoot scopes (fun i => allowingReturn allowed (x i)) scopes' := by
  refine ⟨.allowingReturn allowed hx.tends, fun s v s' hs hrun hroom => ?_⟩
  have hallowing (i : Bool) : Analysis.allowingReturn allowed (x i) s =
      (x i { s with inFunction := allowed } >>= fun r => .ok ((), { r.2 with inFunction := s.inFunction })) := rfl
  rw [hallowing] at hrun ⊢
  have hstands : Stands a isRoot scopes { s with inFunction := allowed } :=
    ⟨hs.underway, hs.current, hs.scopes, hs.root⟩
  obtain ⟨⟨w, t⟩, ht, hrest⟩ := bind_ok hrun
  cases hrest
  obtain ⟨ht', hwarnings⟩ := hx.same _ w t hstands ht hroom
  rw [ht']
  exact ⟨rfl, hwarnings⟩

theorem inEnvironment {x : Bool → Analysis Unit} {scope : Scope} (name : String)
    (hx : Agree a false [.empty] x [scope]) : Agree a isRoot scopes (fun i => inEnvironment name (x i)) scopes := by
  refine ⟨.inEnvironment trivial hx.tends, fun s v s' hs hrun hroom => ?_⟩
  obtain ⟨t, ht, rfl⟩ := inEnvironment_ok hrun
  have hfits : s.tree.size < UInt32.size := by
    have hentered := s.size_entered name
    have hsize := (hx.tends.goes (s.entered name) () t hs.underway ht).2
    have hlast : t.tree.size ≤ UInt32.size := hroom
    omega
  obtain ⟨hindex, hscopes, -⟩ := s.tree.get?_pushEnvironment_self name hs.current hfits
  have hstands : Stands a false [.empty] (s.entered name) := by
    refine ⟨hs.underway, ?_, hscopes, ?_⟩
    · exact hindex.trans_lt (s.size_entered name ▸ Nat.lt_succ_self _)
    · -- The root is there already, so the new environment is another one.
      have hne : (s.entered name).current ≠ EnvTree.root := by
        intro hroot
        have hpos := hs.current
        have hzero : s.tree.size = 0 := hindex.symm.trans (congrArg EnvId.index hroot)
        omega
      simpa using hne
  obtain ⟨ht', hwarnings⟩ := hx.same _ () t hstands ht hroom
  rw [inEnvironment_eq, ht']
  exact ⟨rfl, hwarnings⟩

/-- Copies of the scopes of some environment are brought into scope. -/
theorem bringing {name : String} {k : Bool → Unit → Analysis α}
    (hk : ∀ brought, Agree a isRoot (brought ++ scopes) (fun i => k i ()) scopes') :
    Agree a isRoot scopes (fun i => (modifyTree fun tree current =>
      match tree.findEnv? current name with
      | some env => tree.bringIntoScope current env
      | none => tree) >>= k i) scopes' := by
  refine ⟨Tends.bringing fun brought => (hk brought).tends, fun s v s' hs hrun hroom => ?_⟩
  have hstep (i : Bool) : ((modifyTree fun tree current =>
      match tree.findEnv? current name with
      | some env => tree.bringIntoScope current env
      | none => tree) >>= k i) s = k i () { s with tree := match s.tree.findEnv? s.current name with
        | some env => s.tree.bringIntoScope s.current env
        | none => s.tree } := rfl
  rw [hstep] at hrun ⊢
  cases hfound : s.tree.findEnv? s.current name with
  | none =>
    rw [hfound] at hrun
    exact (hk []).same s v s' hs hrun hroom
  | some env =>
    rw [hfound] at hrun
    have hbrings : Goes a (fun _ => True)
        (modifyTree fun tree current => tree.modifyScopes current (s.tree.scopes env ++ ·)) := .modifyScopes _
    have hunderway := (hbrings s () _ hs.underway rfl).1
    have hfits := ((hk (s.tree.scopes env)).tends.goes _ v s' hunderway hrun).2.trans hroom
    have hstands : Stands a isRoot (s.tree.scopes env ++ scopes)
        { s with tree := s.tree.bringIntoScope s.current env } :=
      (Tends.modifyScopes (s.tree.scopes env ++ ·)).stands hs rfl hfits
    exact (hk _).same _ v s' hstands hrun hroom

/-- A pipe into a call hands its left operand over before the call is visited. -/
theorem pipe {role : Role} {visit : Bool → NodeId → Analysis Unit} {p lhs rhs : NodeId} {mark : Bool}
    {position : Option Position} (hn : a.get? p = some ⟨.pipe lhs rhs mark, position⟩)
    (hl : Agree a isRoot scopes (fun i => visit i lhs) scopes)
    (hr : Agree a isRoot scopes (fun i => visit i rhs) scopes) :
    Agree a isRoot scopes (fun i => visitNode role (visit i) p) scopes := by
  refine peek fun b n hb hn' => ?_
  obtain ⟨n', hn'', ho⟩ := hb.outline.get? hn
  obtain ⟨mark', rfl⟩ := Node.pipe_of_outline ho rfl
  obtain rfl := Option.some.inj (hn''.symm.trans hn')
  cases mark' with
  | true => exact hr
  | false =>
    have hlhs : a.HasOperand lhs := hb.operands p _ hn' lhs (by simp [NodeKind.operands, NodeKind.children])
    refine peek fun b n _ _ => reading fun s => ?_
    split
    · refine hl.bind fun _ => still (.report (by simp) _) (.report _ _)
    · rename_i call _
      exact (of_tends (Tends.moving p call trivial hlhs) fun s v s' hrun => by cases hrun; rfl).bind fun _ => hr

theorem envOpen {visit : Bool → NodeId → Analysis Unit} {target body : NodeId}
    (ht : Agree a isRoot (.empty :: scopes) (fun i => visit i target) (.empty :: scopes))
    (hb : ∀ brought,
      Agree a isRoot (brought ++ .empty :: scopes) (fun i => visit i body) (brought ++ .empty :: scopes)) :
    Agree a isRoot scopes (fun i => visitEnvOpen (visit i) target body) scopes := by
  have hclose (brought : List Scope) : Agree a isRoot (brought ++ .empty :: scopes) (fun i => visit i body >>= fun _ =>
      modifyTree fun tree current => tree.truncateScopes current scopes.length) scopes := by
    have htruncate : Agree a isRoot (brought ++ .empty :: scopes) _ _ :=
      modifyScopes fun inner => inner.drop (inner.length - scopes.length)
    have hinner : scopes <:+ brought ++ Scope.empty :: scopes := ⟨brought ++ [.empty], by simp⟩
    rw [← List.suffix_iff_eq_drop.1 hinner] at htruncate
    exact (hb brought).bind fun _ => htruncate
  have hgoes (saved : Nat) := Goes.opening ht.tends.goes (hb []).tends.goes saved
  refine allowingReturn false (looking (fun s => hgoes _) fun s hs => ?_)
  have hcount : s.tree.scopeCount s.current = scopes.length := congrArg List.length hs
  rw [hcount]
  refine (modifyScopes (Scope.empty :: ·)).bind fun _ => ht.bind fun _ => peek fun b n _ _ => ?_
  split
  · exact bringing hclose
  · exact (still (.pure ()) (.pure ())).bind fun _ => hclose []

/-- At the top level only is anything said of `main`. -/
theorem warn (name : String) (isFinal : Bool) (position : Option Position) (h : Inner isRoot scopes) :
    Agree a isRoot scopes (fun _ => warnMain name isFinal position) scopes := by
  refine ⟨Tends.reading fun s => Tends.reportIf _ _ _, fun s v s' hs hrun _ => ⟨hrun, ?_⟩⟩
  have hnot : (decide (s.current = EnvTree.root) && decide (s.tree.scopeCount EnvTree.root = 1)) = false := by
    rw [Bool.and_eq_false_imp, decide_eq_true_eq, decide_eq_false_iff_not]
    intro hroot hone
    have hcount := h (hs.root.1 hroot)
    rw [← hs.scopes, hroot] at hcount
    exact absurd hone (Nat.ne_of_gt hcount)
  rw [warnMain_eq, hnot, Bool.and_false] at hrun
  cases hrun
  rfl

theorem announce (role : Role) (position : Option Position) :
    Agree a isRoot scopes (fun _ => reportIf (role = .entry) .exportFromEntry position) scopes := by
  refine of_tends (.reportIf _ _ _) fun s v s' hrun => ?_
  obtain ⟨-, rfl⟩ := Prod.mk.inj (Except.ok.inj ((reportIf_eq ..).symm.trans hrun))
  refine warnings_reporting fun entry hentry => ?_
  cases role <;> simp_all [foundIf]

/-- A step that stops the analysis. -/
theorem stop (d : Defect) : Agree a isRoot scopes (fun _ => (throw d : Analysis α)) scopes' := by
  refine ⟨.throwing d, fun s v s' _ hrun _ => ?_⟩
  cases hrun

theorem abreast (a : Arena) (role : Role) : Abreast a (fun _ : Bool => role)
    (fun isRoot scopes _ x scopes' => Agree a isRoot scopes x scopes')
    fun isRoot scopes _ x scopes' => Agree a isRoot scopes x scopes' where
  stop := stop
  bind := bind
  widen _ h := h
  still := still
  reading _ h := reading h
  peek := peek
  enter := peek
  within h := h
  inScope := inScope
  allowingReturn := allowingReturn
  inEnvironment := inEnvironment
  warn := warn
  announce position := announce role position
  pipe := pipe
  envOpen := envOpen

end Agree

/-! ## Insisting -/

open Classical in
/-- Stop the analysis after the visit of a node that does not keep what it should. -/
noncomputable def insist (keeps : NodeId → AnalysisState → AnalysisState → Prop) (id : NodeId) (visit : Analysis Unit) :
    Analysis Unit := do
  let before ← get
  visit
  let after ← get
  if keeps id before after then pure () else throw (.misplacedNode id)

open Classical in
theorem insist_eq {keeps : NodeId → AnalysisState → AnalysisState → Prop} {id : NodeId} {visit : Analysis Unit}
    (hrun : visit s = .ok ((), s')) (hk : keeps id s s') : insist keeps id visit s = .ok ((), s') := by
  have hinsist : insist keeps id visit s = (visit >>= fun _ => get >>= fun after =>
      if keeps id s after then pure () else throw (.misplacedNode id)) s := rfl
  rw [hinsist, bind_eq hrun]
  show (if keeps id s s' then pure () else throw (.misplacedNode id) : Analysis Unit) s' = _
  rw [if_pos hk]
  rfl

/-- Insist on what a visit should keep, or do nothing around it. -/
noncomputable def insistIf (a : Arena) : Bool → NodeId → Analysis Unit → Analysis Unit
  | false, _, visit => visit
  | true, id, visit => insist (Keeps a) id visit

/-- What a visit that comes to its end keeps. -/
theorem keeps_of_tends {x : Analysis Unit} {id : NodeId} (hs : scopes ≠ [])
    (h : Tends a (fun _ => True) (fun _ => True) scopes x (a.adds id scopes)) (hstands : s.Stands a isRoot scopes)
    (hrun : x s = .ok ((), s')) (hroom : s'.tree.size ≤ UInt32.size) : Keeps a id s s' := by
  obtain ⟨hsprouts, hend⟩ := h.tends s () s' hstands.underway hstands.current hstands.scopes hrun hroom
  have hothers (x : EnvId) (hx : x.index < s.tree.size) (hne : x ≠ s.current) :
      s'.tree.scopes x = s.tree.scopes x := by
    rw [EnvTree.scopes, hsprouts.others x hx hne, EnvTree.scopes]
  have hscopes := hstands.scopes
  refine ⟨hsprouts.current, hsprouts.inFunction, hsprouts.size, fun x hx => ?_, hothers, ?_, fun x hx hlt => ?_⟩
  · by_cases hne : x = s.current
    · rw [hne, EnvTree.scopeCount, EnvTree.scopeCount, hend, hscopes]
      exact (length_adds _ hs).2
    · rw [EnvTree.scopeCount, EnvTree.scopeCount, hothers x hx hne]
  · obtain ⟨scope, outer, rfl⟩ := List.exists_cons_of_ne_nil hs
    rw [hend, hscopes, Arena.adds]
    split
    · rename_i d hd
      rw [Scope.declareIn]
      split
      · exact .inl rfl
      · exact .inr ⟨d, scope, outer, hd, rfl, rfl⟩
    · exact .inl rfl
  · obtain ⟨node, hnode⟩ := EnvTree.exists_get? hlt
    obtain ⟨-, hone, -⟩ := hsprouts.made x node hx hnode
    simp [EnvTree.scopeCount, EnvTree.scopes, hnode, hone]

/-- When a visit agrees with another one, it also does so if that is insisted on. -/
theorem Agree.insistIf {x : Bool → Analysis Unit} {id : NodeId} (hs : scopes ≠ [])
    (h : Agree a isRoot scopes x (a.adds id scopes)) :
    Agree a isRoot scopes (fun i => Analysis.insistIf a i id (x i)) (a.adds id scopes) := by
  refine ⟨h.tends, fun s v s' hstands hrun hroom => ?_⟩
  obtain ⟨hrun', hwarnings⟩ := h.same s v s' hstands hrun hroom
  exact ⟨insist_eq hrun' (keeps_of_tends hs h.tends hstands hrun hroom), hwarnings⟩

section

variable {roots : List Root} (ha : a.Laid roots) (role : Role)
include ha

/-- The visit of a node keeps what it should, and so do all the visits below it. -/
theorem agree_visitAround (levels : Nat) {id : NodeId} (hs : scopes ≠ [])
    (hid : a.HasOperand id ∨ Inner isRoot scopes) :
    Agree a isRoot scopes (fun i => visitAround role (insistIf a i) levels id) (a.adds id scopes) := by
  induction levels generalizing id isRoot scopes with
  | zero => exact .stop .endlessTree
  | succ levels ih =>
    exact ((Agree.abreast a role).visitNode (fun c _ _ hs hc => ih hs hc) ha hs hid).insistIf hs

omit ha in
theorem tends_visitAround (levels : Nat) (id : NodeId) : Tends a (fun _ => True) (fun _ => True) scopes
    (visitAround role (insistIf a false) levels id) (a.adds id scopes) := by
  have hplain : visitAround role (insistIf a false) = visitWithin role := visitAround_nothing role
  rw [hplain]
  exact .visitWithin (fun _ _ _ _ => trivial) role levels trivial

omit ha in
theorem tends_visitAll (levels : Nat) (ids : List NodeId) : Tends a (fun _ => True) (fun _ => True) scopes
    (visitAll (visitAround role (insistIf a false) levels) ids) (a.addsAll ids scopes) :=
  .visitStatements (fun c _ _ => tends_visitAround role levels c) fun _ _ => trivial

/-- What is said of a statement of the top level that binds `main`. -/
def mainWarning? (a : Arena) (id : NodeId) : Option Diagnostic :=
  match a.get? id with
  | some ⟨.binding name _ false _, position⟩ =>
    if name = mainName then some (Finding.mainNotFinal.toDiagnostic position) else none
  | _ => none

omit ha in
theorem warnMain_atTop {name : String} {isFinal : Bool} {position : Option Position} (hs : s.Stands a true scopes)
    (hone : scopes.length = 1) : warnMain name isFinal position s =
      reportIf (name = mainName && !isFinal) .mainNotFinal position s := by
  have hroot : s.current = EnvTree.root := hs.root.2 rfl
  have hcount : s.tree.scopeCount EnvTree.root = 1 := by
    rw [← hroot, EnvTree.scopeCount, hs.scopes, hone]
  rw [warnMain_eq, hroot, hcount]
  simp

omit ha in
theorem warnings_warnMain {id value : NodeId} {name : String} {mode : BindingMode} {isFinal : Bool}
    {position : Option Position} (hn : a.get? id = some ⟨.binding name mode isFinal value, position⟩) :
    (s.reporting (foundIf (name = mainName && !isFinal) .mainNotFinal position)).warnings =
      s.warnings ++ (mainWarning? a id).toList := by
  rw [warnings, reporting, Queue.toList_pushAll, List.filter_append, mainWarning?, hn, warnings]
  congr 1
  cases isFinal with
  | true => simp [foundIf]
  | false =>
    by_cases hmain : name = mainName
    · simp [foundIf, hmain, Finding.toDiagnostic, Finding.code]
    · simp [foundIf, hmain]

/-- The visit of a binding at the top level keeps what it should, too, and says of `main` what is to be said. -/
theorem same_visitAround_binding (levels : Nat) {id value : NodeId} {name : String} {mode : BindingMode}
    {isFinal : Bool} {position : Option Position} (hn : a.get? id = some ⟨.binding name mode isFinal value, position⟩)
    (hs : s.Stands a true scopes) (hone : scopes.length = 1)
    (hrun : visitAround role (insistIf a false) levels id s = .ok ((), s')) (hroom : s'.tree.size ≤ UInt32.size) :
    visitAround role (insistIf a true) levels id s = .ok ((), s') ∧
      s'.warnings = s.warnings ++ (mainWarning? a id).toList := by
  have hne : scopes ≠ [] := List.length_pos_iff.1 (by omega)
  have hkeeps := keeps_of_tends hne (tends_visitAround role levels id) hs hrun hroom
  cases levels with
  | zero => cases hrun
  | succ levels =>
    have ho : a.HasOperand value := ha.operands id _ hn value (by simp [NodeKind.operands, NodeKind.children])
    have hvalue : Agree a true scopes (fun i => declareValue (visitAround role (insistIf a i) levels) mode _ value) _ :=
      (Agree.abreast a role).declareValue (fun c _ _ hs hc => agree_visitAround ha role levels hs hc) hne ho mode
        ⟨name, position, isFinal, mode = .mutable⟩
    have hnode (i : Bool) : visitNode role (visitAround role (insistIf a i) levels) id s =
        (declareValue (visitAround role (insistIf a i) levels) mode ⟨name, position, isFinal, mode = .mutable⟩ value >>=
          fun _ => warnMain name isFinal position) s := by
      rw [← visitBinding_eq]
      exact bind_eq (node_eq (hs.underway.outline.get?_of_not_joint hn rfl))
    have hplain : visitAround role (insistIf a false) (levels + 1) id s =
        visitNode role (visitAround role (insistIf a false) levels) id s := rfl
    rw [hplain, hnode] at hrun
    obtain ⟨⟨⟨⟩, t⟩, hv, hrest⟩ := bind_ok hrun
    have hfits : t.tree.size ≤ UInt32.size := by
      have hend := (warnMain_eq name isFinal position t).symm.trans hrest
      exact ((Goes.stays (Stays.reportIf _ _ _)) t () s' (hvalue.tends.goes s () t hs.underway hv).1 hend).2.trans hroom
    obtain ⟨hv', hwarnings⟩ := hvalue.same s () t hs hv hfits
    have ht : t.Stands a true _ := hvalue.tends.stands hs hv hfits
    have hlength : (Scope.declareIn ⟨name, position, isFinal, mode = .mutable⟩ scopes).length = 1 := by
      rw [← Arena.adds_binding hn, (length_adds _ hne).2, hone]
    have hend : warnMain name isFinal position t = .ok ((), s') := hrest
    refine ⟨insist_eq ((hnode true).trans ((bind_eq hv').trans hend)) hkeeps, ?_⟩
    rw [warnMain_atTop ht hlength, reportIf_eq] at hend
    obtain ⟨-, rfl⟩ := Prod.mk.inj (Except.ok.inj hend)
    rw [warnings_warnMain hn, hwarnings]

/-- The visits of the statements of the top level. -/
theorem same_visitAll (levels : Nat) {items : List NodeId} (hitems : ∀ id ∈ items, ∃ node, a.get? id = some node)
    (hs : s.Stands a true scopes) (hone : scopes.length = 1)
    (hrun : visitAll (visitAround role (insistIf a false) levels) items s = .ok ((), s'))
    (hroom : s'.tree.size ≤ UInt32.size) :
    visitAll (visitAround role (insistIf a true) levels) items s = .ok ((), s') ∧
      s'.warnings = s.warnings ++ items.filterMap (mainWarning? a) := by
  induction items generalizing s scopes with
  | nil =>
    cases hrun
    exact ⟨rfl, (List.append_nil _).symm⟩
  | cons id rest ih =>
    obtain ⟨⟨node, hn⟩, hrest⟩ := List.forall_mem_cons.1 hitems
    obtain ⟨⟨⟨⟩, t⟩, hv, hlater⟩ := bind_ok hrun
    have hne : scopes ≠ [] := List.length_pos_iff.1 (by omega)
    have hvisit : Tends a _ _ scopes _ (a.adds id scopes) := tends_visitAround role levels id
    have hlast : Tends a _ _ (a.adds id scopes) _ _ := tends_visitAll role levels rest
    have hfits : t.tree.size ≤ UInt32.size :=
      (hlast.goes t () s' (hvisit.goes s () t hs.underway hv).1 hlater).2.trans hroom
    have ht : t.Stands a true (a.adds id scopes) := hvisit.stands hs hv hfits
    have hfirst : visitAround role (insistIf a true) levels id s = .ok ((), t) ∧
        t.warnings = s.warnings ++ (mainWarning? a id).toList := by
      obtain ⟨kind, position⟩ := node
      by_cases hbinding : ∃ name mode isFinal value, kind = .binding name mode isFinal value
      · obtain ⟨name, mode, isFinal, value, rfl⟩ := hbinding
        exact same_visitAround_binding ha role levels hn hs hone hv hfits
      · have hnone : mainWarning? a id = none := by
          rw [mainWarning?, hn]
          cases kind <;> first | rfl | exact absurd ⟨_, _, _, _, rfl⟩ hbinding
        have ho : a.HasOperand id := by
          refine ⟨kind, Arena.kind?_eq_some.2 ⟨_, hn⟩, ?_⟩
          cases kind <;> first | rfl | exact absurd ⟨_, _, _, _, rfl⟩ hbinding
        rw [hnone, Option.toList_none, List.append_nil]
        exact (agree_visitAround ha role levels hne (.inl ho)).same s () t hs hv hfits
    obtain ⟨hsame, hwarnings⟩ := ih hrest ht ((length_adds _ hne).2.trans hone) hlater
    refine ⟨(bind_eq hfirst.1).trans hsame, ?_⟩
    rw [hwarnings, hfirst.2, List.append_assoc]
    congr 1
    cases hw : mainWarning? a id <;> simp [hw]

end

end Analysis

open Analysis AnalysisState

theorem AnalysisState.stands_initialState (p : Parsed) (queue : Queue) :
    (initialState p.program.arena queue).Stands p.program.arena true [⟨[⟨hostName, none, true, false⟩]⟩] := by
  refine ⟨p.laid.tame fun _ _ _ _ => trivial, ?_, rfl, by simp [initialState]⟩
  show 0 < initialTree.size
  decide

/-- Analysing a program comes to its end also when it insists at every visit that the environments are kept. In the end
every environment has one scope, that of the root has the host and what the top level binds, and of `main` is said what
is to be said of every statement of the top level that binds it without `final`. -/
theorem visits_keep_environments (p : Numbered) (role : Role) (queue : Queue) : ∃ s items emitted,
    p.program.arena.kind? p.program.body = some (.block items) ∧
      (visitProgram role p.program.body).run (initialState p.program.arena queue) = .ok ((), s) ∧
      (visitProgramAround role (insist (Keeps p.program.arena)) p.program.body).run
        (initialState p.program.arena queue) = .ok ((), s) ∧
      (∀ x : EnvId, x.index < s.tree.size → s.tree.scopeCount x = 1) ∧
      s.tree.scopes EnvTree.root = p.program.arena.addsAll items [⟨[⟨hostName, none, true, false⟩]⟩] ∧
      s.queue.toList = queue.toList ++ emitted ∧
      emitted.filter (·.code = .mainNotFinal) = items.filterMap (mainWarning? p.program.arena) := by
  obtain ⟨items, position, hn⟩ := p.laid.exists_block
  have hitems : ∀ id ∈ items, ∃ node, p.program.arena.get? id = some node := fun id hid =>
    Arena.exists_get? (p.laid.toIsForest.lt_size ⟨_, hn, hid⟩)
  have hstands := stands_initialState p.toParsed queue
  -- The plain analysis comes to its end.
  obtain ⟨settled, found, -, -, -, hpass⟩ := analyse_settles p.laid role
  obtain ⟨s, hrun, hanalysed⟩ := run_of_analyse (hpass queue).1
  have hqueue : s.queue.toList = queue.toList ++ found.map fun entry => entry.1.toDiagnostic entry.2 := by
    rw [← Queue.toList_pushAll, (Analysed.mk.inj hanalysed).2.1]
  have hroom : s.tree.size ≤ UInt32.size := p.fits (hpass queue).1 (.inl rfl) hrun
  have hvisits : visitAll (visitAround role (insistIf p.program.arena false) (p.program.arena.size + 1)) items
      (initialState p.program.arena queue) = .ok ((), s) := by
    have hblock : visitProgramAround role (fun _ x => x) p.program.body (initialState p.program.arena queue) = _ :=
      visitProgramAround_block hn
    rw [visitProgramAround_nothing] at hblock
    exact hblock.symm.trans hrun
  obtain ⟨hsame, hwarnings⟩ := same_visitAll p.laid role _ hitems hstands rfl hvisits hroom
  -- All that it makes are environments of one scope.
  obtain ⟨hsprouts, hscopes⟩ := (tends_visitAll role (p.program.arena.size + 1) items).tends
    (initialState p.program.arena queue) () s hstands.underway hstands.current rfl hvisits hroom
  have hroot : s.tree.scopes EnvTree.root = p.program.arena.addsAll items [⟨[⟨hostName, none, true, false⟩]⟩] := hscopes
  have hinsisting : visitProgramAround role (insist (Keeps p.program.arena)) p.program.body
      (initialState p.program.arena queue) = .ok ((), s) := (visitProgramAround_block hn).trans hsame
  refine ⟨s, items, found.map fun entry => entry.1.toDiagnostic entry.2, Arena.kind?_eq_some.2 ⟨_, hn⟩, hrun,
    hinsisting, fun x hx => ?_, hroot, hqueue, ?_⟩
  · by_cases hx0 : x = EnvTree.root
    · obtain ⟨scope, hscope⟩ := p.program.arena.exists_addsAll items ⟨[⟨hostName, none, true, false⟩]⟩ []
      rw [hx0, EnvTree.scopeCount, hroot, hscope]
      rfl
    · obtain ⟨node, hnode⟩ := EnvTree.exists_get? hx
      obtain ⟨-, hone, -⟩ := hsprouts.made x node (Nat.one_le_iff_ne_zero.2 fun h => hx0 (EnvId.ext_index h)) hnode
      rw [EnvTree.scopeCount, EnvTree.scopes, hnode]
      exact hone
  · rw [warnings, hqueue, List.filter_append] at hwarnings
    exact List.append_cancel_left hwarnings

end DynScript
