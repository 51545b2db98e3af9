import DynScript.Proofs.Analysis.Environments
import DynScript.Proofs.Analysis.Exports

/-!
# Analyses abreast

Several analyses of a unit that differ only in what is done around the visit of a node go on side by side. What is to
be shown of them is a relation between families of steps, one for each of the analyses; `Abreast` says how the
relation is carried through the ways in which visits are put together, and `Abreast.visitNode` carries it through the
visit of a node. The relation may speak of the scopes of the environment, before and after, and of the nodes that are
visited.
-/

namespace DynScript

/-- A node is there that may stand anywhere. -/
def Arena.HasOperand (a : Arena) (id : NodeId) : Prop := ∃ kind, a.kind? id = some kind ∧ kind.isOperand

/-- The nodes of a unit, on the way to being settled. -/
abbrev Arena.Underway (a b : Arena) : Prop := a.Tame b fun _ => True

namespace Analysis

variable {α β ι : Type} {a : Arena}

/-! ## Quiet steps -/

/-- A step that changes only scopes, does not look at what has been found, and finds nothing that depends on what the
unit is for or on where its top level is. -/
def Quiet (x : Analysis α) : Prop :=
  ∀ s : AnalysisState, ∃ (v : α) (tree : EnvTree) (found : Found),
    (∀ before, x (s.reporting before) = .ok (v, { s with tree }.reporting (before ++ found))) ∧
      ∀ entry ∈ found, entry.1 ≠ .mainNotFinal ∧ entry.1 ≠ .exportFromEntry

namespace Quiet

theorem pure (v : α) : Quiet (Pure.pure v : Analysis α) := fun s =>
  ⟨v, s.tree, [], fun before => by rw [List.append_nil]; rfl, by simp⟩

theorem bind {x : Analysis α} {k : α → Analysis β} (hx : Quiet x) (hk : ∀ v, Quiet (k v)) : Quiet (x >>= k) := by
  intro s
  obtain ⟨v, tree, found, hrun, hfound⟩ := hx s
  obtain ⟨w, tree', more, hrun', hmore⟩ := hk v { s with tree }
  refine ⟨w, tree', found ++ more, fun before => ?_, fun entry hentry => ?_⟩
  · rw [bind_eq (hrun before), hrun', List.append_assoc]
  · exact (List.mem_append.1 hentry).elim (hfound entry) (hmore entry)

theorem report {f : Finding} (hf : f ≠ .mainNotFinal ∧ f ≠ .exportFromEntry) (position : Option Position) :
    Quiet (Analysis.report f position) := fun s =>
  ⟨(), s.tree, [(f, position)], fun before => by
    rw [AnalysisState.reporting_append]; exact reportIf_eq true f position _, by simpa using hf⟩

theorem reportIf (p : Bool) {f : Finding} (hf : f ≠ .mainNotFinal ∧ f ≠ .exportFromEntry) (position : Option Position) :
    Quiet (Analysis.reportIf p f position) := by
  cases p with
  | false => exact pure ()
  | true => exact report hf position

theorem lookup? (name : String) : Quiet (Analysis.lookup? name) := fun s =>
  ⟨s.tree.lookup? s.current name, s.tree, [], fun before => by rw [List.append_nil]; rfl, by simp⟩

theorem isBound (name : String) : Quiet (Analysis.isBound name) := (lookup? name).bind fun _ => pure _

theorem declare (d : Declaration) : Quiet (declare d) := by
  intro s
  cases hdefine : s.tree.define s.current d with
  | ok tree =>
    refine ⟨(), tree, [], fun before => ?_, by simp⟩
    have hsame : (s.reporting before).tree.define (s.reporting before).current d = .ok tree := hdefine
    rw [declare_eq, hsame, List.append_nil]
    rfl
  | error d' =>
    obtain ⟨v, tree, found, hrun, hfound⟩ := report (f := .finalRedeclaration d.name) (by simp) d.position s
    refine ⟨v, tree, found, fun before => ?_, hfound⟩
    have hsame : (s.reporting before).tree.define (s.reporting before).current d = .error d' := hdefine
    rw [declare_eq, hsame]
    exact hrun before

theorem forLabels {label : ι → Label} {visit : ι → Bool → Analysis Unit} (h : ∀ item again, Quiet (visit item again))
    (items : List ι) : Quiet (Analysis.forLabels label visit items) := by
  have hgo (seen : List String) : Quiet (Analysis.forLabels.go label visit seen items) := by
    induction items generalizing seen with
    | nil => exact pure ()
    | cons item rest ih => exact (h item _).bind fun _ => ih _
  exact hgo []

/-- Parameters are declared, and names that stand there again are found. -/
theorem forParams (declaration : Param → Declaration) (again : Param → Finding)
    (hagain : ∀ q, again q ≠ .mainNotFinal ∧ again q ≠ .exportFromEntry) (params : List Param) :
    Quiet (Analysis.forLabels Param.toLabel (fun param seen =>
      if seen then Analysis.report (again param) param.position else Analysis.declare (declaration param)) params) := by
  refine forLabels (fun param seen => ?_) params
  cases seen with
  | false => exact declare _
  | true => exact report (hagain param) _

/-- The names that an object is composed from. -/
theorem composed (sources : List Label) : Quiet (Analysis.forLabels id (fun source again => do
    Analysis.reportIf (!(← Analysis.isBound source.name)) (.unknownComposition source.name) source.position
    Analysis.reportIf again (.duplicateComposition source.name) source.position) sources) :=
  forLabels (fun _ _ => (isBound _).bind fun _ => (reportIf _ (by simp) _).bind fun _ => reportIf _ (by simp) _) _

/-- The names that a statement exports. -/
theorem exported (labels : List Label) : Quiet (Analysis.forLabels id (fun label again => do
    Analysis.reportIf (!(← Analysis.isBound label.name)) (.unknownExport label.name) label.position
    Analysis.reportIf again (.duplicateExport label.name) label.position) labels) :=
  forLabels (fun _ _ => (isBound _).bind fun _ => (reportIf _ (by simp) _).bind fun _ => reportIf _ (by simp) _) _

end Quiet

/-! ## Ways of putting visits together -/

/-- Declare the name of a binding, after its value has been visited or before. -/
def declareValue (visit : NodeId → Analysis Unit) (mode : BindingMode) (d : Declaration) (value : NodeId) :
    Analysis Unit := do
  if mode = .recursive then
    declare d
    visitValue visit d.name value
  else
    visitValue visit d.name value
    declare d

/-- What is said of a binding of `main` at the top level. -/
def warnMain (name : String) (isFinal : Bool) (position : Option Position) : Analysis Unit := do
  let s ← get
  let atTop := s.current = EnvTree.root && s.tree.scopeCount EnvTree.root = 1
  reportIf (name = mainName && !isFinal && atTop) .mainNotFinal position

/-- A binding declares its name before anything is said of `main`. -/
theorem visitBinding_eq (visit : NodeId → Analysis Unit) (name : String) (mode : BindingMode) (isFinal : Bool)
    (value : NodeId) (position : Option Position) : visitBinding visit name mode isFinal value position =
      (declareValue visit mode ⟨name, position, isFinal, mode = .mutable⟩ value >>= fun _ =>
        warnMain name isFinal position) := by
  dsimp only [visitBinding, declareValue]
  split <;> simp only [bind_assoc, warnMain]

/-- Not the only scope of the root environment. -/
def Inner (isRoot : Bool) (scopes : List Scope) : Prop := isRoot → 2 ≤ scopes.length

/-- A relation that is carried through all ways of putting visits together. `R isRoot scopes ids x scopes'` says
something of the steps `x`, one for every index, in an environment with these scopes, which is the root or not: they
leave it with the scopes `scopes'` and visit the nodes `ids` at most. `V isRoot scopes id x scopes'` says it of what is
done at one node, and may say more. -/
structure Abreast (a : Arena) (role : ι → Role)
    (R : ∀ {α : Type}, Bool → List Scope → List NodeId → (ι → Analysis α) → List Scope → Prop)
    (V : ∀ {α : Type}, Bool → List Scope → NodeId → (ι → Analysis α) → List Scope → Prop) : Prop where
  stop {α : Type} {isRoot : Bool} {scopes scopes' : List Scope} {ids : List NodeId} (d : Defect) :
    R isRoot scopes ids (fun _ => (throw d : Analysis α)) scopes'
  bind {α β : Type} {isRoot : Bool} {scopes scopes' scopes'' : List Scope} {ids ids' : List NodeId}
    {x : ι → Analysis α} {k : ι → α → Analysis β} : R isRoot scopes ids x scopes' →
      (∀ v, R isRoot scopes' ids' (fun i => k i v) scopes'') →
        R isRoot scopes (ids ++ ids') (fun i => x i >>= k i) scopes''
  widen {α : Type} {isRoot : Bool} {scopes scopes' : List Scope} {ids ids' : List NodeId} {x : ι → Analysis α} :
    ids.Subperm ids' → R isRoot scopes ids x scopes' → R isRoot scopes ids' x scopes'
  still {α : Type} {isRoot : Bool} {scopes scopes' : List Scope} {x : Analysis α} : Quiet x →
    Tends a (fun _ => True) (fun _ => True) scopes x scopes' → R isRoot scopes [] (fun _ => x) scopes'
  reading {α : Type} {isRoot : Bool} {scopes scopes' : List Scope} {ids : List NodeId}
    {k : ι → AnalysisState → Analysis α} : (∀ i s found, k i (AnalysisState.reporting s found) = k i s) →
      (∀ s, R isRoot scopes ids (fun i => k i s) scopes') → R isRoot scopes ids (fun i => get >>= k i) scopes'
  peek {α : Type} {isRoot : Bool} {scopes scopes' : List Scope} {ids : List NodeId} {id : NodeId}
    {k : ι → Node → Analysis α} :
      (∀ b n, a.Underway b → b.get? id = some n → R isRoot scopes ids (fun i => k i n) scopes') →
        R isRoot scopes ids (fun i => Analysis.node id >>= k i) scopes'
  enter {α : Type} {isRoot : Bool} {scopes scopes' : List Scope} {id : NodeId} {k : ι → Node → Analysis α} :
    (∀ b n, a.Underway b → b.get? id = some n → R isRoot scopes n.kind.children (fun i => k i n) scopes') →
      V isRoot scopes id (fun i => Analysis.node id >>= k i) scopes'
  within {α : Type} {isRoot : Bool} {scopes scopes' : List Scope} {id : NodeId} {x : ι → Analysis α} :
    V isRoot scopes id x scopes' → R isRoot scopes [id] x scopes'
  inScope {isRoot : Bool} {scopes : List Scope} {scope : Scope} {ids : List NodeId} {x : ι → Analysis Unit} :
    R isRoot (.empty :: scopes) ids x (scope :: scopes) → R isRoot scopes ids (fun i => inScope (x i)) scopes
  allowingReturn {isRoot : Bool} {scopes scopes' : List Scope} {ids : List NodeId} {x : ι → Analysis Unit}
    (allowed : Bool) : R isRoot scopes ids x scopes' →
      R isRoot scopes ids (fun i => allowingReturn allowed (x i)) scopes'
  inEnvironment {isRoot : Bool} {scopes : List Scope} {scope : Scope} {ids : List NodeId} {x : ι → Analysis Unit}
    (name : String) : R false [.empty] ids x [scope] → R isRoot scopes ids (fun i => inEnvironment name (x i)) scopes
  warn {isRoot : Bool} {scopes : List Scope} (name : String) (isFinal : Bool) (position : Option Position) :
    Inner isRoot scopes → R isRoot scopes [] (fun _ => warnMain name isFinal position) scopes
  announce {isRoot : Bool} {scopes : List Scope} (position : Option Position) :
    R isRoot scopes [] (fun i => reportIf (role i = .entry) .exportFromEntry position) scopes
  pipe {isRoot : Bool} {scopes : List Scope} {visit : ι → NodeId → Analysis Unit} {p lhs rhs : NodeId} {mark : Bool}
    {position : Option Position} : a.get? p = some ⟨.pipe lhs rhs mark, position⟩ →
      R isRoot scopes [lhs] (fun i => visit i lhs) scopes → R isRoot scopes [rhs] (fun i => visit i rhs) scopes →
        V isRoot scopes p (fun i => visitNode (role i) (visit i) p) scopes
  envOpen {isRoot : Bool} {scopes : List Scope} {visit : ι → NodeId → Analysis Unit} {target body : NodeId} :
    R isRoot (.empty :: scopes) [target] (fun i => visit i target) (.empty :: scopes) →
      (∀ brought, R isRoot (brought ++ .empty :: scopes) [body] (fun i => visit i body) (brought ++ .empty :: scopes)) →
        R isRoot scopes [target, body] (fun i => visitEnvOpen (visit i) target body) scopes

/-! ## Scopes of inner places -/

theorem length_adds (id : NodeId) {scopes : List Scope} (h : scopes ≠ []) :
    a.adds id scopes ≠ [] ∧ (a.adds id scopes).length = scopes.length := by
  obtain ⟨scope, outer, rfl⟩ := List.exists_cons_of_ne_nil h
  obtain ⟨scope', hadds⟩ := a.exists_addsAll [id] scope outer
  have hadds : a.adds id (scope :: outer) = scope' :: outer := hadds
  rw [hadds]
  exact ⟨List.cons_ne_nil _ _, rfl⟩

theorem Inner.of_length {isRoot : Bool} {scopes scopes' : List Scope} (h : Inner isRoot scopes)
    (hl : scopes'.length = scopes.length) : Inner isRoot scopes' := fun hr => hl ▸ h hr

theorem inner_cons {isRoot : Bool} {scope : Scope} {scopes : List Scope} (h : scopes ≠ []) :
    Inner isRoot (scope :: scopes) := fun _ => by
  have := List.length_pos_iff.2 h
  rw [List.length_cons]
  omega

theorem inner_false {scopes : List Scope} : Inner false scopes := fun h => by cases h

namespace Abreast

variable {role : ι → Role}
  {R : ∀ {α : Type}, Bool → List Scope → List NodeId → (ι → Analysis α) → List Scope → Prop}
  {V : ∀ {α : Type}, Bool → List Scope → NodeId → (ι → Analysis α) → List Scope → Prop}
  (H : Abreast a role @R @V) {isRoot : Bool} {scopes scopes' : List Scope} {ids : List NodeId}
include H

theorem pure (v : α) : R isRoot scopes [] (fun _ => (Pure.pure v : Analysis α)) scopes := H.still (.pure v) (.pure v)

theorem report {f : Finding} (hf : f ≠ .mainNotFinal ∧ f ≠ .exportFromEntry) (position : Option Position) :
    R isRoot scopes [] (fun _ => Analysis.report f position) scopes := H.still (.report hf _) (.report _ _)

theorem reportIf (p : Bool) {f : Finding} (hf : f ≠ .mainNotFinal ∧ f ≠ .exportFromEntry)
    (position : Option Position) : R isRoot scopes [] (fun _ => Analysis.reportIf p f position) scopes :=
  H.still (.reportIf _ hf _) (.reportIf _ _ _)

/-- A quiet step before others. -/
theorem first {x : Analysis α} {k : ι → α → Analysis β} (hq : Quiet x)
    (hx : Tends a (fun _ => True) (fun _ => True) scopes x scopes)
    (hk : ∀ v, R isRoot scopes ids (fun i => k i v) scopes') : R isRoot scopes ids (fun i => x >>= k i) scopes' :=
  H.bind (H.still hq hx) hk

/-! ## Visits -/

variable {visit : ι → NodeId → Analysis Unit}
  (hv : ∀ c isRoot scopes, scopes ≠ [] → a.HasOperand c ∨ Inner isRoot scopes →
    R isRoot scopes [c] (fun i => visit i c) (a.adds c scopes))
include hv

omit H in
theorem operand {c : NodeId} (hs : scopes ≠ []) (ho : a.HasOperand c) :
    R isRoot scopes [c] (fun i => visit i c) scopes := by
  have hvisit := hv c isRoot scopes hs (.inl ho)
  rwa [a.adds_isOperand ho] at hvisit

theorem operands (hs : scopes ≠ []) {ids : List NodeId} (ho : ∀ c ∈ ids, a.HasOperand c) :
    R isRoot scopes ids (fun i => visitAll (visit i) ids) scopes := by
  induction ids with
  | nil => exact H.pure ()
  | cons c rest ih =>
    rw [List.forall_mem_cons] at ho
    exact H.bind (operand hv hs ho.1) fun _ => ih ho.2

theorem visitStatements (hs : scopes ≠ []) (hi : Inner isRoot scopes) (ids : List NodeId) :
    R isRoot scopes ids (fun i => visitAll (visit i) ids) (a.addsAll ids scopes) := by
  induction ids generalizing scopes with
  | nil => exact H.pure ()
  | cons c rest ih =>
    obtain ⟨hne, hlength⟩ := length_adds (a := a) c hs
    exact H.bind (hv c isRoot scopes hs (.inr hi)) fun _ => ih hne (hi.of_length hlength)

theorem visitMembers (hs : scopes ≠ []) (hi : Inner isRoot scopes) (seen : List String) (members : List NodeId) :
    R isRoot scopes members (fun i => visitObject.visitMembers (visit i) seen members) (a.addsAll members scopes) := by
  induction members generalizing scopes seen with
  | nil => exact H.pure ()
  | cons member rest ih =>
    obtain ⟨hne, hlength⟩ := length_adds (a := a) member hs
    refine H.peek fun b n _ _ => ?_
    split
    · exact H.bind (H.reportIf _ (by simp) _) fun _ =>
        H.bind (hv member isRoot scopes hs (.inr hi)) fun _ => ih hne (hi.of_length hlength) _
    · exact H.stop _

theorem visitObject (hs : scopes ≠ []) (hi : Inner isRoot scopes) (params : Option (List Param))
    (composed : List Label) (members : List NodeId) :
    R isRoot scopes members (fun i => Analysis.visitObject (visit i) params composed members)
      (a.objectScopes (params.getD []) members scopes) := by
  have hparams : Tends a (fun _ => True) (fun _ => True) scopes _ _ := .forParams Param.ofClass
    (fun q => .duplicateConstructorParameter q.name) (params.getD []) (fun _ => rfl) fun _ => rfl
  obtain ⟨scope, outer, rfl⟩ := List.exists_cons_of_ne_nil hs
  obtain ⟨scope', hscope⟩ := Scope.exists_foldl_declareIn ((params.getD []).map Param.ofClass) scope outer
  rw [Arena.objectScopes, hscope]
  rw [hscope] at hparams
  refine H.bind (H.still (.forParams _ _ (by simp) _) hparams) fun _ =>
    H.bind (H.still (.composed _) (.forLabels fun _ _ _ => ?_)) fun _ => ?_
  · exact (Tends.isBound _).bind fun _ => (Tends.reportIf _ _ _).bind fun _ => Tends.reportIf _ _ _
  · exact H.visitMembers hv (List.cons_ne_nil scope' outer) (hi.of_length rfl) [] members

theorem visitValue (hs : scopes ≠ []) {name : String} {value : NodeId} (ho : a.HasOperand value) :
    R isRoot scopes [value] (fun i => Analysis.visitValue (visit i) name value) scopes := by
  by_cases hobject : ∃ params composed members, a.kind? value = some (.object params composed members)
  · obtain ⟨params, composed, members, hk⟩ := hobject
    obtain ⟨position, hn⟩ := Arena.kind?_eq_some.1 hk
    obtain ⟨scope, hscope⟩ := a.exists_objectScopes (params.getD []) members .empty []
    refine H.within (H.enter fun b n hb hn' => ?_)
    obtain rfl := Option.some.inj ((hb.outline.get?_of_not_joint hn rfl).symm.trans hn')
    have hobject := H.visitObject hv (List.cons_ne_nil .empty []) inner_false params composed members
    rw [hscope] at hobject
    exact H.inEnvironment name hobject
  · refine H.peek fun b ⟨kind, position⟩ hb hn => ?_
    dsimp only
    split
    · rename_i params composed members
      exact absurd ⟨params, composed, members, Arena.kind?_eq_some.2 ⟨_, hb.object hn⟩⟩ hobject
    · exact operand hv hs ho

theorem declareValue (hs : scopes ≠ []) {value : NodeId} (ho : a.HasOperand value) (mode : BindingMode)
    (d : Declaration) :
    R isRoot scopes [value] (fun i => Analysis.declareValue (visit i) mode d value) (Scope.declareIn d scopes) := by
  obtain ⟨scope, outer, rfl⟩ := List.exists_cons_of_ne_nil hs
  obtain ⟨scope', hscope⟩ := Scope.exists_declareIn d scope outer
  have hdeclare : R isRoot (scope :: outer) [] (fun _ => Analysis.declare d) (scope' :: outer) :=
    H.still (.declare _) (hscope ▸ .declare _)
  rw [hscope]
  dsimp only [Analysis.declareValue]
  split
  · exact H.bind hdeclare fun _ => H.visitValue hv (List.cons_ne_nil _ _) ho
  · exact H.bind (H.visitValue hv hs ho) fun _ => hdeclare

theorem visitFunction (params : List Param) {body : NodeId} (ho : a.HasOperand body) :
    R isRoot scopes [body] (fun i => Analysis.visitFunction (visit i) params body) scopes := by
  have hparams : Tends a (fun _ => True) (fun _ => True) (.empty :: scopes) _ _ := .forParams Param.ofFunction
    (fun q => .duplicateParameter q.name) params (fun _ => rfl) fun _ => rfl
  obtain ⟨scope, hscope⟩ := Scope.exists_foldl_declareIn (params.map Param.ofFunction) .empty scopes
  rw [hscope] at hparams
  exact H.allowingReturn true (H.inScope (H.bind (H.still (.forParams _ _ (by simp) _) hparams) fun _ =>
    operand hv (List.cons_ne_nil scope scopes) ho))

theorem visitCall (hs : scopes ≠ []) {callee : NodeId} {args : List NodeId} {position : Option Position}
    (ho : ∀ c ∈ callee :: args, a.HasOperand c) :
    R isRoot scopes (callee :: args) (fun i => Analysis.visitCall (visit i) callee args position) scopes := by
  have hrest : R isRoot scopes (callee :: args) (fun i => visit i callee >>= fun _ => visitAll (visit i) args) scopes :=
    H.operands hv hs ho
  refine H.peek fun b n _ _ => ?_
  split
  · exact H.bind (H.report (by simp) _) fun _ => hrest
  · exact hrest

theorem visitRecord (hs : scopes ≠ []) {fields : List Field} (ho : ∀ c ∈ fields.map Field.value, a.HasOperand c) :
    R isRoot scopes (fields.map Field.value) (fun i => Analysis.visitRecord (visit i) fields) scopes := by
  have hgo (seen : List String) : R isRoot scopes (fields.map Field.value) (fun i => forLabels.go Field.toLabel
      (fun field again => do
        Analysis.reportIf again (.duplicateField field.name) field.position
        visit i field.value) seen fields) scopes := by
    induction fields generalizing seen with
    | nil => exact H.pure ()
    | cons field rest ih =>
      rw [List.map_cons, List.forall_mem_cons] at ho
      have hfield : R isRoot scopes [field.value] (fun i => Analysis.reportIf (seen.contains field.name)
          (.duplicateField field.name) field.position >>= fun _ => visit i field.value) scopes :=
        H.bind (H.reportIf _ (by simp) _) fun _ => operand hv hs ho.1
      exact H.bind hfield fun _ => ih ho.2 _
  exact hgo []

theorem visitLoop (hs : scopes ≠ []) {start stop body : NodeId} (ho : ∀ c ∈ [start, stop, body], a.HasOperand c) :
    R isRoot scopes [start, stop, body] (fun i => Analysis.visitLoop (visit i) start stop body) scopes := by
  obtain ⟨scope, hscope⟩ := Scope.exists_declareIn ⟨loopName, none, true, false⟩ .empty scopes
  have hdeclare : R isRoot (.empty :: scopes) [] (fun _ => Analysis.declare ⟨loopName, none, true, false⟩)
      (scope :: scopes) := H.still (.declare _) (hscope ▸ .declare _)
  have hbody : R isRoot (scope :: scopes) [body] (fun i => visit i body) (scope :: scopes) :=
    operand hv (List.cons_ne_nil _ _) (ho body (by simp))
  exact H.bind (operand hv hs (ho start (by simp))) fun _ => H.bind (operand hv hs (ho stop (by simp))) fun _ =>
    H.inScope (H.bind hdeclare fun _ => hbody)

theorem visitAssign (hs : scopes ≠ []) {target value : NodeId} (ho : ∀ c ∈ [target, value], a.HasOperand c) :
    R isRoot scopes [target, value] (fun i => Analysis.visitAssign (visit i) target value) scopes := by
  have hvalue : R isRoot scopes [value] (fun i => visit i value) scopes := operand hv hs (ho value (by simp))
  refine H.peek fun b n _ _ => H.widen (List.Perm.swap target value []).subperm (H.bind hvalue fun _ => ?_)
  split
  · refine H.widen (List.nil_subperm) (H.first (.lookup? _) (.lookup? _) fun d => ?_)
    split
    · exact H.report (by simp) _
    · exact H.reportIf _ (by simp) _
  · exact operand hv hs (ho target (by simp))

theorem visitReturn (hs : scopes ≠ []) {value : Option NodeId} {position : Option Position}
    (ho : ∀ c ∈ value.toList, a.HasOperand c) :
    R isRoot scopes value.toList (fun i => Analysis.visitReturn (visit i) value position) scopes := by
  refine H.reading (fun _ _ _ => rfl) fun s => H.bind (H.reportIf _ (by simp) _) fun _ => ?_
  cases value with
  | none => exact H.pure ()
  | some value => exact operand hv hs (ho value (by simp))

omit hv in
theorem visitExport (labels : List Label) (position : Option Position) :
    R isRoot scopes [] (fun i => Analysis.visitExport (role i) labels position) scopes := by
  refine H.bind (H.announce position) fun _ => H.still (.exported labels) (.forLabels fun _ _ _ => ?_)
  exact (Tends.isBound _).bind fun _ => (Tends.reportIf _ _ _).bind fun _ => Tends.reportIf _ _ _

/-- The visits of a node, which is no binding unless the place is an inner one. -/
theorem visitNode {roots : List Root} (ha : a.Laid roots) (hs : scopes ≠ []) {id : NodeId}
    (hid : a.HasOperand id ∨ Inner isRoot scopes) :
    V isRoot scopes id (fun i => Analysis.visitNode (role i) (visit i) id) (a.adds id scopes) := by
  by_cases hpipe : ∃ lhs rhs mark, a.kind? id = some (.pipe lhs rhs mark)
  · obtain ⟨lhs, rhs, mark, hk⟩ := hpipe
    obtain ⟨position, hn⟩ := Arena.kind?_eq_some.1 hk
    obtain rfl := ha.pipe_fresh hn
    have ho : ∀ c ∈ [lhs, rhs], a.HasOperand c := ha.operands id _ hn
    rw [a.adds_isOperand ⟨_, hk, rfl⟩]
    exact H.pipe hn (operand hv hs (ho lhs (by simp))) (operand hv hs (ho rhs (by simp)))
  refine H.enter fun b ⟨kind, position⟩ hb hn => ?_
  have ho : ∀ c ∈ kind.operands, a.HasOperand c := hb.operands id _ hn
  have hform {x : ι → Analysis Unit} (hx : R isRoot scopes kind.children x scopes) (hop : kind.isOperand) :
      R isRoot scopes kind.children x (a.adds id scopes) := by
    have hself : a.HasOperand id := by
      obtain ⟨⟨kind', position'⟩, hn', ho⟩ := hb.outline.symm.get? hn
      refine ⟨kind', Arena.kind?_eq_some.2 ⟨_, hn'⟩, ?_⟩
      rcases Node.alike_of_outline ho with heq | ⟨-, hj⟩
      · rwa [← (Node.mk.inj heq).1]
      · exact NodeKind.isOperand_of_isJoint hj
    rwa [a.adds_isOperand hself]
  have hall : R isRoot scopes kind.operands (fun i => visitAll (visit i) kind.operands) scopes :=
    H.operands hv hs ho
  have hone {c : NodeId} (hc : kind.operands = [c]) : R isRoot scopes [c] (fun i => visit i c) scopes :=
    operand hv hs (ho c (by simp [hc]))
  cases kind with
  | block items =>
    obtain ⟨scope, hscope⟩ := a.exists_addsAll items .empty scopes
    exact hform (H.inScope (hscope ▸ H.visitStatements hv (List.cons_ne_nil _ _) (inner_cons hs) items)) rfl
  | binding name mode isFinal value =>
    have hn' : a.get? id = some ⟨.binding name mode isFinal value, position⟩ := hb.outline.symm.get?_of_not_joint hn rfl
    have hinner : Inner isRoot scopes := by
      refine hid.resolve_left fun ⟨kind, hk, hop⟩ => ?_
      rw [Arena.kind?, hn'] at hk
      cases hk
      cases hop
    rw [Arena.adds_binding hn']
    simp only [visitBinding_eq]
    refine H.bind (H.declareValue hv hs (ho value (by simp [NodeKind.operands, NodeKind.children])) mode _) fun _ =>
      H.warn _ _ _ (hinner.of_length ?_)
    rw [← Arena.adds_binding hn']
    exact (length_adds id hs).2
  | function params body =>
    exact hform (H.visitFunction hv params (ho body (by simp [NodeKind.operands, NodeKind.children]))) rfl
  | call callee args => exact hform (H.visitCall hv hs ho) rfl
  | ident name =>
    exact hform (H.first (.isBound name) (.isBound name) fun _ => H.reportIf _ (by simp) _) rfl
  | literal _ | imports _ _ => exact hform (H.pure ()) rfl
  | record fields => exact hform (H.visitRecord hv hs ho) rfl
  | property target _ | len target | negate target | clone target => exact hform (hone rfl) rfl
  | loop start stop body => exact hform (H.visitLoop hv hs ho) rfl
  | assign target value => exact hform (H.visitAssign hv hs ho) rfl
  | pipe lhs rhs mark =>
    obtain ⟨mark', hk⟩ := hb.outline.symm.pipe (Arena.kind?_eq_some.2 ⟨_, hn⟩)
    exact absurd ⟨lhs, rhs, mark', hk⟩ hpipe
  | object params composed members =>
    obtain ⟨scope, hscope⟩ := a.exists_objectScopes (params.getD []) members .empty scopes
    have hinner : Inner isRoot (.empty :: scopes) := inner_cons hs
    have hobject := H.visitObject hv (List.cons_ne_nil _ _) hinner params composed members
    exact hform (H.inScope (hscope ▸ hobject)) rfl
  | envOpen target body =>
    refine hform (H.envOpen (operand hv (List.cons_ne_nil _ _) (ho target ?_)) fun brought =>
      operand hv (by simp) (ho body ?_)) rfl <;> simp [NodeKind.operands, NodeKind.children]
  | exports labels => exact hform (H.visitExport labels position) rfl
  | returns value => exact hform (H.visitReturn hv hs ho) rfl
  | _ => exact hform hall rfl

end Abreast

/-! ## Doing something around visits -/

/-- Visit a node and the tree below it, at most `levels` deep, and do something around the visit of every node. -/
def visitAround (role : Role) (around : NodeId → Analysis Unit → Analysis Unit) : Nat → NodeId → Analysis Unit
  | 0, _ => throw .endlessTree
  | levels + 1, id => around id (visitNode role (visitAround role around levels) id)

/-- Visit the top level of a unit, and do something around the visit of every node. -/
def visitProgramAround (role : Role) (around : NodeId → Analysis Unit → Analysis Unit) (body : NodeId) :
    Analysis Unit := do
  let levels := (← get).arena.size + 1
  visitAll (visitAround role around levels) (← statements body)

theorem visitProgramAround_block {role : Role} {around : NodeId → Analysis Unit → Analysis Unit} {body : NodeId}
    {items : List NodeId} {position : Option Position} {s : AnalysisState}
    (hn : s.arena.get? body = some ⟨.block items, position⟩) :
    visitProgramAround role around body s = visitAll (visitAround role around (s.arena.size + 1)) items s := by
  have hstatements : statements body s = .ok (items, s) := by
    rw [statements, bind_eq (node_eq hn)]
    rfl
  show (statements body >>= fun items => visitAll (visitAround role around (s.arena.size + 1)) items) s = _
  rw [bind_eq hstatements]

/-- An analysis does nothing around its visits. -/
theorem visitAround_nothing (role : Role) : visitAround role (fun _ x => x) = visitWithin role := by
  funext levels
  induction levels with
  | zero => rfl
  | succ levels ih =>
    funext id
    rw [visitAround, ih]
    rfl

theorem visitProgramAround_nothing (role : Role) : visitProgramAround role (fun _ x => x) = visitProgram role := by
  funext body
  rw [visitProgramAround, visitAround_nothing]
  rfl

/-- An analysis that comes to its end is a run of the visits of the top level. -/
theorem run_of_analyse {program : Program} {role : Role} {queue : Queue} {analysed : Analysed}
    (h : analyse program role queue = .ok analysed) : ∃ s,
      visitProgram role program.body (initialState program.arena queue) = .ok ((), s) ∧
        analysed = ⟨⟨s.arena, program.body⟩, s.queue, s.errors⟩ := by
  unfold analyse at h
  cases hrun : (visitProgram role program.body).run (initialState program.arena queue) with
  | error d =>
    rw [hrun] at h
    cases h
  | ok r =>
    rw [hrun] at h
    exact ⟨r.2, hrun, (Except.ok.inj h).symm⟩

end Analysis

end DynScript
