import DynScript.Proofs.Grammar.Productions
import DynScript.Proofs.Scope.Changes
import DynScript.Proofs.Tree.Outline

/-!
# Walks

Two walks of an analysis through a unit can be compared form by form: a relation between steps that is kept by
the ways in which the visits are put together is an `Analysis.Walk`, and `Walk.visitNode` then relates the
visits of a node. Such a relation tells which nodes a step visits, below which number they stand, and which
findings are due.
-/

namespace DynScript

/-- The codes of the findings that are due for a node that is left as it is. -/
def NodeKind.owed : NodeKind → List Code
  | record fields => if (fields.map fun f => f.name).Nodup then [] else [.duplicateField]
  | pipe _ _ false => [.pipeIntoNonCall]
  | _ => []

namespace Analysis

variable {α β : Type}

/-! ## Steps -/

/-- A step that has nothing to do with the nodes, finds nothing, and makes no environment. -/
def Idle (x : Analysis α) : Prop :=
  ∀ s : AnalysisState, ∃ (a : α) (tree : EnvTree) (current : EnvId) (inFunction : Bool), tree.size = s.tree.size ∧
    ∀ arena queue, x { s with arena, queue } = .ok (a, { s with arena, queue, tree, current, inFunction })

/-- The state as an idle step sees it. -/
def glance : Analysis AnalysisState := modifyGet fun s => ({ s with arena := .empty, queue := .empty }, s)

/-- Looking at the state is a glance, when nothing that is seen of the nodes and findings matters. -/
theorem get_bind {k : AnalysisState → Analysis β}
    (hk : ∀ s, k { s with arena := .empty, queue := .empty } = k s) : (get >>= k) = glance >>= k :=
  funext fun s => by
    show k s s = k _ s
    rw [hk]

namespace Idle

theorem glance : Idle glance := fun s =>
  ⟨{ s with arena := .empty, queue := .empty }, s.tree, s.current, s.inFunction, rfl, fun _ _ => rfl⟩

theorem pure (a : α) : Idle (Pure.pure a : Analysis α) :=
  fun s => ⟨a, s.tree, s.current, s.inFunction, rfl, fun _ _ => rfl⟩

theorem modifyTree {f : EnvTree → EnvId → EnvTree} (hf : ∀ t e, (f t e).size = t.size) :
    Idle (Analysis.modifyTree f) :=
  fun s => ⟨(), f s.tree s.current, s.current, s.inFunction, hf _ _, fun _ _ => rfl⟩

/-- Scopes are opened or closed. -/
theorem modifyScopes (f : EnvTree → EnvId → List Scope → List Scope) :
    Idle (Analysis.modifyTree fun tree current => tree.modifyScopes current (f tree current)) :=
  modifyTree fun t e => t.size_modifyScopes e (f t e)

/-- The scopes of an environment are brought into scope, if there is one of the name. -/
theorem bringing (name : String) : Idle (Analysis.modifyTree fun tree current =>
    match tree.findEnv? current name with
    | some env => tree.bringIntoScope current env
    | none => tree) := modifyTree fun t e => by
  split
  · exact t.size_modifyScopes e _
  · rfl

theorem bind {x : Analysis α} {k : α → Analysis β} (hx : Idle x) (hk : ∀ a, Idle (k a)) :
    Idle (x >>= k) := by
  intro s
  obtain ⟨a, tree, current, inFunction, hsize, h⟩ := hx s
  obtain ⟨b, tree', current', inFunction', hsize', h'⟩ := hk a { s with tree, current, inFunction }
  refine ⟨b, tree', current', inFunction', hsize'.trans hsize, fun arena queue => ?_⟩
  simp only [Bind.bind, StateT.bind, h, Except.bind]
  exact h' arena queue

theorem lookup? (name : String) : Idle (Analysis.lookup? name) :=
  fun s => ⟨s.tree.lookup? s.current name, s.tree, s.current, s.inFunction, rfl, fun _ _ => rfl⟩

theorem isBound (name : String) : Idle (Analysis.isBound name) := (lookup? name).bind fun _ => .pure _

end Idle

/-- A relation between the steps of two walks through a unit with the nodes of an arena. It says that both
visit the given nodes, which have smaller numbers than the given one, and which findings are due. -/
structure Walk (a : Arena)
    (T : ∀ {α : Type}, Nat → List NodeId → List Code → Analysis α → Analysis α → Prop) : Prop where
  lower {α : Type} {n m : Nat} {ids : List NodeId} {codes : List Code} {x y : Analysis α} :
    n ≤ m → T m ids codes x y → T n ids codes x y
  zero {α : Type} {id : NodeId} {codes : List Code} {x y : Analysis α} : T 0 [id] codes x y
  fewer {α : Type} {n : Nat} {ids : List NodeId} {codes codes' : List Code} {x y : Analysis α} :
    codes' ⊆ codes → T n ids codes x y → T n ids codes' x y
  perm {α : Type} {n : Nat} {ids ids' : List NodeId} {codes : List Code} {x y : Analysis α} :
    ids.Perm ids' → T n ids codes x y → T n ids' codes x y
  leaf {α : Type} {n : Nat} {id : NodeId} {name : String} {codes : List Code} {x y : Analysis α} :
    a.kind? id = some (.ident name) → T n [] codes x y → T n [id] codes x y
  idle {α : Type} {n : Nat} {x : Analysis α} : Idle x → T n [] [] x x
  report {n : Nat} (f : Finding) (position : Option Position) :
    T n [] [f.code] (report f position) (report f position)
  declare {n : Nat} (d : Declaration) : T n [] [] (declare d) (declare d)
  bind {α β : Type} {n : Nat} {ids ids' : List NodeId} {codes codes' : List Code} {x y : Analysis α}
    {k l : α → Analysis β} :
    T n ids codes x y → (∀ a, T n ids' codes' (k a) (l a)) →
      T n (ids ++ ids') (codes ++ codes') (x >>= k) (y >>= l)
  peek {α : Type} {n : Nat} {ids : List NodeId} {codes : List Code} {id : NodeId} {node : Node}
    {k l : Node → Analysis α} :
    a.get? id = some node → (∀ m m', node.Alike m → node.Alike m' → T n ids codes (k m) (l m')) →
      T n ids codes (Analysis.node id >>= k) (Analysis.node id >>= l)
  enter {α : Type} {n : Nat} {id : NodeId} {node : Node} {k l : Node → Analysis α} :
    a.get? id = some node → (∀ lhs rhs mark, node.kind ≠ .pipe lhs rhs mark) →
      (∀ m, m.outline = node.outline → T n m.kind.children m.kind.owed (k m) (l m)) →
        T (n + 1) [id] [] (Analysis.node id >>= k) (Analysis.node id >>= l)
  enclose {n : Nat} {id : NodeId} {params : Option (List Param)} {composed : List Label} {members : List NodeId}
    {position : Option Position} {name : String} {x y : Analysis Unit} {k l : Node → Analysis Unit} :
    a.get? id = some ⟨.object params composed members, position⟩ →
      k ⟨.object params composed members, position⟩ = Analysis.inEnvironment name x →
        l ⟨.object params composed members, position⟩ = Analysis.inEnvironment name y →
          T n members [] x y → T (n + 1) [id] [] (Analysis.node id >>= k) (Analysis.node id >>= l)

namespace Walk

variable {a : Arena} {T : ∀ {α : Type}, Nat → List NodeId → List Code → Analysis α → Analysis α → Prop}
  (H : Walk a @T) {n : Nat} {ids : List NodeId} {codes : List Code}
include H

theorem reading {k l : AnalysisState → Analysis β} (h : ∀ s, T n ids codes (k s) (l s))
    (hk : ∀ s, k { s with arena := .empty, queue := .empty } = k s := by exact fun _ => rfl)
    (hl : ∀ s, l { s with arena := .empty, queue := .empty } = l s := by exact fun _ => rfl) :
    T n ids codes (get >>= k) (get >>= l) := by
  rw [get_bind hk, get_bind hl]
  exact H.bind (H.idle .glance) h

/-- An idle step before others. -/
theorem first {x : Analysis α} {k l : α → Analysis β} (hx : Idle x) (h : ∀ a, T n ids codes (k a) (l a)) :
    T n ids codes (x >>= k) (x >>= l) :=
  H.bind (H.idle hx) h

/-- An idle step after others. -/
theorem last {x y : Analysis α} {k : α → Analysis β} (h : T n ids codes x y) (hk : ∀ a, Idle (k a)) :
    T n ids codes (x >>= k) (y >>= k) := by
  have hb := H.bind h fun a => H.idle (hk a)
  rwa [List.append_nil, List.append_nil] at hb

/-- Findings that are not due may be made, too. -/
theorem reporting (f : Finding) (position : Option Position) :
    T n [] [] (Analysis.report f position) (Analysis.report f position) :=
  H.fewer (List.nil_subset _) (H.report f position)

theorem reportIf (p : Bool) (f : Finding) (position : Option Position) :
    T n [] (if p then [f.code] else []) (Analysis.reportIf p f position)
      (Analysis.reportIf p f position) := by
  cases p with
  | false => exact H.idle (.pure _)
  | true => exact H.report f position

theorem remark (p : Bool) (f : Finding) (position : Option Position) :
    T n [] [] (Analysis.reportIf p f position) (Analysis.reportIf p f position) :=
  H.fewer (List.nil_subset _) (H.reportIf p f position)

/-- Looking at a node and going on: nodes that may have been changed in different ways are no objects and no
names. -/
theorem peeking {id : NodeId} {node : Node} {k l : Node → Analysis β} (hn : a.get? id = some node)
    (hsame : ∀ m, T n ids codes (k m) (l m))
    (hjoint : ∀ m m' : Node, m.kind.isJoint → m'.kind.isJoint → T n ids codes (k m) (l m')) :
    T n ids codes (Analysis.node id >>= k) (Analysis.node id >>= l) := by
  refine H.peek hn fun m m' hm hm' => ?_
  rcases hm with rfl | ⟨hj, hm⟩
  · rcases hm' with rfl | ⟨hm, hm'⟩
    · exact hsame _
    · exact hjoint _ _ hm hm'
  · rcases hm' with rfl | ⟨_, hm'⟩
    · exact hjoint _ _ hm hj
    · exact hjoint _ _ hm hm'

/-! ## Scopes -/

section

variable {x y : Analysis Unit} (h : T n ids codes x y)
include h

theorem inScope : T n ids codes (inScope x) (inScope y) :=
  H.first (.modifyScopes _) fun _ => H.last h fun _ => .modifyScopes _

theorem allowingReturn (allowed : Bool) :
    T n ids codes (allowingReturn allowed x) (allowingReturn allowed y) := by
  refine H.reading fun s => H.first (fun s => ⟨(), s.tree, s.current, _, rfl, fun _ _ => rfl⟩) fun _ => ?_
  exact H.last h fun _ => fun s => ⟨(), s.tree, s.current, _, rfl, fun _ _ => rfl⟩

end

end Walk

/-- The codes that are due when a code is due for every label that stands a second time. -/
def dueAgain (due : List Code) : List String → List String → List Code
  | _, [] => []
  | seen, name :: rest => (if seen.contains name then due else []) ++ dueAgain due (name :: seen) rest

/-- Nothing is due only if the names differ. -/
theorem nodup_of_dueAgain {due : List Code} (hd : due ≠ []) {seen names : List String}
    (h : dueAgain due seen names = []) : names.Nodup ∧ ∀ name ∈ names, name ∉ seen := by
  induction names generalizing seen with
  | nil => simp
  | cons name rest ih =>
    obtain ⟨hname, hrest⟩ := List.append_eq_nil_iff.1 h
    obtain ⟨hnodup, hseen⟩ := ih hrest
    have hnot : name ∉ seen := by
      intro hmem
      rw [if_pos (List.contains_iff_mem.2 hmem)] at hname
      exact hd hname
    refine ⟨List.nodup_cons.2 ⟨fun hmem => hseen name hmem (by simp), hnodup⟩, ?_⟩
    intro other hother
    rcases List.mem_cons.1 hother with rfl | hother
    · exact hnot
    · exact fun hmem => hseen other hother (List.mem_cons_of_mem _ hmem)

/-- What is due is the given code. -/
theorem mem_dueAgain {code : Code} {seen names : List String} (h : dueAgain [code] seen names ≠ []) :
    code ∈ dueAgain [code] seen names := by
  induction names generalizing seen with
  | nil => exact absurd rfl h
  | cons name rest ih =>
    unfold dueAgain at h ⊢
    split
    · simp
    · rename_i hseen
      rw [if_neg hseen] at h
      exact ih h

namespace Walk

variable {a : Arena} {T : ∀ {α : Type}, Nat → List NodeId → List Code → Analysis α → Analysis α → Prop}
  (H : Walk a @T) {n : Nat} {ids : List NodeId} {codes : List Code}
include H

theorem forLabels (label : α → Label) (below : α → List NodeId) (due : List Code)
    {visit visit' : α → Bool → Analysis Unit}
    (h : ∀ item again, T n (below item) (if again then due else []) (visit item again) (visit' item again))
    (items : List α) :
    T n (items.flatMap below) (dueAgain due [] (items.map fun item => (label item).name))
      (forLabels label visit items) (forLabels label visit' items) := by
  have hgo (seen : List String) : T n (items.flatMap below)
      (dueAgain due seen (items.map fun item => (label item).name))
      (forLabels.go label visit seen items) (forLabels.go label visit' seen items) := by
    induction items generalizing seen with
    | nil => exact H.idle (.pure _)
    | cons item rest ih => exact H.bind (h item _) fun _ => ih _
  exact hgo []

/-- Labels below which no nodes stand. -/
theorem forLeaves {label : α → Label} {visit : α → Bool → Analysis Unit}
    (h : ∀ item again, T n [] [] (visit item again) (visit item again)) (items : List α) :
    T n [] [] (Analysis.forLabels label visit items) (Analysis.forLabels label visit items) := by
  have hf := H.forLabels label (fun _ => []) []
    (fun item again => by rw [ite_self]; exact h item again) items
  rw [show (items.flatMap fun _ => ([] : List NodeId)) = [] by simp] at hf
  exact H.fewer (List.nil_subset _) hf

/-! ## Visits -/

section visits

variable {visit visit' : NodeId → Analysis Unit} (hv : ∀ c, T n [c] [] (visit c) (visit' c))

section
include hv

theorem visitAll (ids : List NodeId) : T n ids [] (visitAll visit ids) (visitAll visit' ids) := by
  induction ids with
  | nil => exact H.idle (.pure _)
  | cons id rest ih => exact H.bind (hv id) fun _ => ih

theorem visitMembers {members : List NodeId} (seen : List String)
    (hm : ∀ m ∈ members, ∃ kind, a.kind? m = some kind ∧ kind.isBinding) :
    T n members [] (visitObject.visitMembers visit seen members)
      (visitObject.visitMembers visit' seen members) := by
  induction members generalizing seen with
  | nil => exact H.idle (.pure _)
  | cons m rest ih =>
    obtain ⟨kind, hk, hbinding⟩ := hm m (by simp)
    obtain ⟨position, hn⟩ := Arena.kind?_eq_some.1 hk
    cases kind with
    | binding name mode isFinal value =>
      refine H.peek hn fun p p' hp hp' => ?_
      obtain rfl : _ = p := hp.resolve_right fun h => by simp [NodeKind.isJoint] at h
      obtain rfl : _ = p' := hp'.resolve_right fun h => by simp [NodeKind.isJoint] at h
      refine H.bind (H.remark _ _ _) fun _ => H.bind (hv m) fun _ => ?_
      exact ih _ fun m hmem => hm m (List.mem_cons_of_mem _ hmem)
    | _ => simp [NodeKind.isBinding] at hbinding

theorem visitObject (params : Option (List Param)) (composed : List Label) {members : List NodeId}
    (hm : ∀ m ∈ members, ∃ kind, a.kind? m = some kind ∧ kind.isBinding) :
    T n members [] (visitObject visit params composed members)
      (visitObject visit' params composed members) := by
  refine H.bind (H.forLeaves (fun param again => ?_) _) fun _ => ?_
  · split
    · exact H.reporting _ _
    · exact H.declare _
  refine H.bind (H.forLeaves (fun source again => ?_) _) fun _ => H.visitMembers hv _ hm
  exact H.first (.isBound _) fun bound => H.bind (H.remark _ _ _) fun _ => H.remark _ _ _

theorem visitRecord (fields : List Field) :
    T n (fields.map Field.value) (NodeKind.record fields).owed (visitRecord visit fields)
      (visitRecord visit' fields) := by
  have hfield (field : Field) (again : Bool) : T n [field.value] (if again then [.duplicateField] else [])
      (do Analysis.reportIf again (.duplicateField field.name) field.position; visit field.value)
      (do Analysis.reportIf again (.duplicateField field.name) field.position; visit' field.value) := by
    have h := H.bind (H.reportIf again (.duplicateField field.name) field.position) fun _ => hv field.value
    rw [List.append_nil] at h
    exact h
  have hf := H.forLabels Field.toLabel (fun f => [f.value]) [.duplicateField] hfield fields
  rw [← List.map_eq_flatMap] at hf
  refine H.fewer ?_ hf
  simp only [NodeKind.owed]
  split
  · exact List.nil_subset _
  · rename_i hdup
    have hdue : dueAgain [Code.duplicateField] [] (fields.map fun f => f.name) ≠ [] :=
      fun h => hdup (nodup_of_dueAgain (by simp) h).1
    exact List.cons_subset.2 ⟨mem_dueAgain hdue, List.nil_subset _⟩

theorem visitFunction (params : List Param) (body : NodeId) :
    T n [body] [] (visitFunction visit params body) (visitFunction visit' params body) := by
  refine H.allowingReturn (H.inScope (H.bind (H.forLeaves (fun param again => ?_) _) fun _ => hv body)) true
  split
  · exact H.reporting _ _
  · exact H.declare _

theorem visitCall {callee : NodeId} {node : Node} (hc : a.get? callee = some node) (args : List NodeId)
    (position : Option Position) :
    T n (callee :: args) [] (visitCall visit callee args position)
      (visitCall visit' callee args position) := by
  have hrest : T n (callee :: args) [] (do visit callee; Analysis.visitAll visit args)
      (do visit' callee; Analysis.visitAll visit' args) :=
    H.bind (hv callee) fun _ => H.visitAll hv args
  refine H.peeking hc (fun m => ?_) fun m m' hm hm' => ?_
  · dsimp only
    split
    · exact H.bind (H.reporting _ _) fun _ => hrest
    · exact hrest
  · obtain ⟨kind, position⟩ := m
    obtain ⟨kind', position'⟩ := m'
    cases kind <;> cases kind' <;> simp only [NodeKind.isJoint, Bool.false_eq_true] at hm hm' <;>
      exact hrest

theorem visitLoop (start stop body : NodeId) :
    T n [start, stop, body] [] (visitLoop visit start stop body) (visitLoop visit' start stop body) :=
  H.bind (hv start) fun _ => H.bind (hv stop) fun _ =>
    H.inScope (H.bind (H.declare _) fun _ => hv body)

theorem visitAssign {target : NodeId} {node : Node} (ht : a.get? target = some node) (value : NodeId) :
    T n [target, value] [] (visitAssign visit target value) (visitAssign visit' target value) := by
  refine H.perm (List.Perm.swap target value []) ?_
  by_cases hident : ∃ name, node.kind = .ident name
  · obtain ⟨name, hname⟩ := hident
    have hj : node.kind.isJoint = false := by rw [hname]; rfl
    refine H.peek ht fun m m' hm hm' => ?_
    obtain rfl : node = m := hm.resolve_right fun h => by simp [hj] at h
    obtain rfl : node = m' := hm'.resolve_right fun h => by simp [hj] at h
    have hkind : a.kind? target = some (.ident name) := by simp [Arena.kind?, ht, hname]
    refine H.bind (hv value) fun _ => H.leaf hkind ?_
    rw [hname]
    refine H.first (.lookup? name) fun d => ?_
    split
    · exact H.reporting _ _
    · exact H.remark _ _ _
  · have hnot {m : Node} (hm : node.Alike m) (name : String) : m.kind ≠ .ident name := by
      rcases hm with rfl | ⟨_, hj⟩
      · exact fun h => hident ⟨name, h⟩
      · intro h
        simp [h, NodeKind.isJoint] at hj
    refine H.peek ht fun m m' hm hm' => H.bind (hv value) fun _ => ?_
    split
    · exact absurd ‹_› (hnot hm _)
    · split
      · exact absurd ‹_› (hnot hm' _)
      · exact hv target

theorem visitEnvOpen {target : NodeId} {node : Node} (ht : a.get? target = some node) (body : NodeId) :
    T n [target, body] [] (visitEnvOpen visit target body) (visitEnvOpen visit' target body) := by
  refine H.allowingReturn (H.reading fun s => ?_) false
  refine H.first (.modifyScopes _) fun _ => H.bind (hv target) fun _ => ?_
  have hrest (saved : Nat) : T n [body] []
      (do visit body; Analysis.modifyTree fun tree current => tree.truncateScopes current saved)
      (do visit' body; Analysis.modifyTree fun tree current => tree.truncateScopes current saved) :=
    H.last (hv body) fun _ => .modifyScopes _
  refine H.peeking ht (fun m => ?_) fun m m' hm hm' => ?_
  · dsimp only
    split
    · exact H.first (.bringing _) fun _ => hrest _
    · exact H.first (.pure _) fun _ => hrest _
  · obtain ⟨kind, position⟩ := m
    obtain ⟨kind', position'⟩ := m'
    cases kind <;> cases kind' <;> simp only [NodeKind.isJoint, Bool.false_eq_true] at hm hm' <;>
      exact H.first (.pure _) fun _ => hrest _

theorem visitReturn (value : Option NodeId) (position : Option Position) :
    T n value.toList [] (visitReturn visit value position) (visitReturn visit' value position) := by
  refine H.reading fun s => H.bind (H.remark _ _ _) fun _ => ?_
  cases value with
  | none => exact H.idle (.pure _)
  | some value => exact hv value

end

omit hv in
theorem visitExport (role : Role) (names : List Label) (position : Option Position) :
    T n [] [] (Analysis.visitExport role names position) (Analysis.visitExport role names position) := by
  refine H.bind (H.remark _ _ _) fun _ => H.forLeaves (fun label again => ?_) _
  exact H.first (.isBound _) fun bound => H.bind (H.remark _ _ _) fun _ => H.remark _ _ _

variable {roots : List Root} (ha : a.Laid roots)
include ha

include hv

theorem visitValue (name : String) {value : NodeId} {node : Node} (hn : a.get? value = some node) :
    T n [value] [] (visitValue visit name value) (visitValue visit' name value) := by
  by_cases hobject : ∃ params composed members, node.kind = .object params composed members
  · obtain ⟨params, composed, members, hk⟩ := hobject
    obtain ⟨kind, position⟩ := node
    subst hk
    cases n with
    | zero => exact H.zero
    | succ n =>
      exact H.enclose hn rfl rfl
        (H.visitObject (fun c => H.lower n.le_succ (hv c)) params composed (ha.isBinding_of_mem hn))
  · have hnot {m : Node} (hm : node.Alike m) params composed members :
        m.kind ≠ .object params composed members := by
      rcases hm with rfl | ⟨_, hj⟩
      · exact fun h => hobject ⟨_, _, _, h⟩
      · intro h
        simp [h, NodeKind.isJoint] at hj
    refine H.peek hn fun m m' hm hm' => ?_
    split
    · exact absurd ‹_› (hnot hm _ _ _)
    · split
      · exact absurd ‹_› (hnot hm' _ _ _)
      · exact hv value

theorem visitBinding (name : String) (mode : BindingMode) (isFinal : Bool) {value : NodeId} {node : Node}
    (hn : a.get? value = some node) (position : Option Position) :
    T n [value] [] (visitBinding visit name mode isFinal value position)
      (visitBinding visit' name mode isFinal value position) := by
  have hvalue := H.visitValue hv ha name hn
  have hmain (main : AnalysisState → Bool)
      (hm : ∀ s, main { s with arena := .empty, queue := .empty } = main s) :
      T n [] [] (get >>= fun s => Analysis.reportIf (main s) .mainNotFinal position)
        (get >>= fun s => Analysis.reportIf (main s) .mainNotFinal position) :=
    H.reading (fun s => H.remark _ _ _) (fun s => by rw [hm]) fun s => by rw [hm]
  dsimp only [Analysis.visitBinding]
  split
  · exact H.bind (H.declare _) fun _ => H.bind hvalue fun _ => hmain _ fun _ => rfl
  · exact H.bind hvalue fun _ => H.bind (H.declare _) fun _ => hmain _ fun _ => rfl

/-- The visits of a node are related when those of the nodes below it are, unless it is a pipe. -/
theorem visitNode {role : Role} {id : NodeId} {node : Node} (hn : a.get? id = some node)
    (hp : ∀ lhs rhs mark, node.kind ≠ .pipe lhs rhs mark) :
    T (n + 1) [id] [] (visitNode role visit id) (visitNode role visit' id) := by
  have hchild {c : NodeId} (hc : c ∈ node.kind.children) : ∃ child, a.get? c = some child :=
    Arena.exists_get? (ha.toIsForest.lt_size ⟨node, hn, hc⟩)
  refine H.enter hn hp fun m hm => ?_
  by_cases hcall : ∃ callee args, node.kind = .call callee args
  · obtain ⟨callee, args, hk⟩ := hcall
    obtain ⟨args', rfl⟩ := Node.call_of_outline hm hk
    obtain ⟨child, hc⟩ := hchild (c := callee) (by rw [hk]; simp [NodeKind.children])
    exact H.visitCall hv hc args' node.position
  obtain ⟨kind, position⟩ := node
  have hj : kind.isJoint = false := by
    cases kind with
    | call callee args => exact absurd ⟨_, _, rfl⟩ hcall
    | pipe lhs rhs mark => exact absurd rfl (hp lhs rhs mark)
    | _ => rfl
  obtain rfl := Node.eq_of_outline hm hj
  cases kind with
  | block items => exact H.inScope (H.visitAll hv _)
  | binding name mode isFinal value =>
    obtain ⟨child, hc⟩ := hchild (c := value) (by simp [NodeKind.children])
    exact H.visitBinding hv ha name mode isFinal hc position
  | function params body => exact H.visitFunction hv _ _
  | call callee args => simp [NodeKind.isJoint] at hj
  | ident name => exact H.first (.isBound _) fun bound => H.remark _ _ _
  | literal value => exact H.idle (.pure _)
  | list items => exact H.visitAll hv _
  | record fields => exact H.visitRecord hv _
  | index target i => exact H.visitAll hv _
  | property target name => exact hv _
  | len operand => exact hv _
  | loop start stop body => exact H.visitLoop hv _ _ _
  | conditional condition thenBranch elseBranch => exact H.visitAll hv _
  | assign target value =>
    obtain ⟨child, hc⟩ := hchild (c := target) (by simp [NodeKind.children])
    exact H.visitAssign hv hc value
  | logical op lhs rhs => exact H.visitAll hv _
  | equality op lhs rhs => exact H.visitAll hv _
  | comparison op lhs rhs => exact H.visitAll hv _
  | arithmetic op lhs rhs => exact H.visitAll hv _
  | negate operand => exact hv _
  | prepend item rest => exact H.visitAll hv _
  | pipe lhs rhs mark => exact absurd rfl (hp lhs rhs mark)
  | object params composed members =>
    exact H.inScope (H.visitObject hv params composed (ha.isBinding_of_mem hn))
  | clone operand => exact hv _
  | envOpen target body =>
    obtain ⟨child, hc⟩ := hchild (c := target) (by simp [NodeKind.children])
    exact H.visitEnvOpen hv hc body
  | imports root path => exact H.idle (.pure _)
  | exports names => exact H.visitExport _ _ _
  | print args => exact H.visitAll hv _
  | returns value => exact H.visitReturn hv _ _

end visits

end Walk

end Analysis

end DynScript
