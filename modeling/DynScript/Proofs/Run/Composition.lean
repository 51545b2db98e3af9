import DynScript.Proofs.Run.Still
import DynScript.Proofs.Tree.Layout
import DynScript.Proofs.Tree.Returns

/-!
# Relations that steps keep when they are put together

An `Eval.Composition` relates two steps that are put together in one way from related ones, beginning with still
steps. What is evaluated further down need not be related for every node: `D` says for which, and `Yields` says of
the steps that find such nodes that they find no others. `Composition.nodeKind` is the walk over the forms of nodes.
-/

namespace DynScript

namespace Eval

variable {α β : Type}

/-- The relation holds of whatever goes on from a step as soon as it does so for the values of which `Q` holds. -/
def Yields (T : ∀ {α : Type}, Eval α → Eval α → Prop) (x : Eval α) (Q : α → Prop) : Prop :=
  ∀ {β : Type} {k k' : α → Eval β}, (∀ a, Q a → T (k a) (k' a)) → T (x >>= k) (x >>= k')

/-- Nothing goes on after an interruption. -/
theorem throw_bind (e : Interruption) (k : α → Eval β) : (throw e : Eval α) >>= k = throw e := rfl

/-- A relation between steps that holds of still steps, and of steps that are put together in one way from
related steps. -/
structure Composition (T : ∀ {α : Type}, Eval α → Eval α → Prop) : Prop where
  still {α : Type} {x : Eval α} : x.Still → T x x
  bind {α β : Type} {x y : Eval α} {f g : α → Eval β} :
    T x y → (∀ a, T (f a) (g a)) → T (x >>= f) (y >>= g)
  holding {α : Type} (g : List Value → List Value) {x y : Eval α} :
    T x y → T (withReader g x) (withReader g y)
  inScope {α : Type} {x y : Eval α} : T x y → T (inScope x) (inScope y)
  inRecord {α : Type} (r : RecordId) {x y : Eval α} : T x y → T (inRecord r x) (inRecord r y)

/-- Two manners that relate steps when the same is done in nodes other than calls. -/
structure AlikeInside (T : ∀ {α : Type}, Eval α → Eval α → Prop) (M M' : Manner) : Prop where
  find (name : String) : T (M.find name) (M'.find name)
  property (r : RecordId) (name : String) : T (M.property r name) (M'.property r name)
  merge (place : List Nat) (r from_ : RecordId) : T (M.merge place r from_) (M'.merge place r from_)
  copy (r : RecordId) : T (M.copy r) (M'.copy r)
  text (place : List Nat) (v : Value) : T (M.text place v) (M'.text place v)

/-- What a relation has to know of a node, in order that the node is evaluated alike in two manners by evaluations that
are related for the nodes of which `D` holds. -/
structure Known (T : ∀ {α : Type}, Eval α → Eval α → Prop) (M M' : Manner) (D : NodeId → Prop) (unit : UnitId)
    (kind : NodeKind) : Prop where
  /-- The nodes right below it. -/
  children : kind.isDeferred = false → ∀ c ∈ kind.children, D c
  /-- The name that a binding gives a value. -/
  defines : ∀ name mode isFinal value, kind = .binding name mode isFinal value →
    ∀ v, T (define name v) (define name v)
  /-- The name that a loop gives a value. -/
  counts : ∀ start stop body, kind = .loop start stop body → ∀ v, T (define "idx" v) (define "idx" v)
  /-- The record or the name that an assignment changes. -/
  target : ∀ target value, kind = .assign target value →
    Yields @T (assignee unit target) fun a => match a with
      | .name name => ∀ v, T (assign name v) (assign name v)
      | .property owner _ => D owner
  /-- The values of the members of an object. -/
  members : ∀ composed members, kind = .object none composed members →
    ∀ m ∈ members, Yields @T (memberParts unit m) fun parts => D parts.2.2
  /-- The names that an object is composed of. -/
  composed : ∀ composed members, kind = .object none composed members →
    ∀ r, T (M.compose r composed) (M'.compose r composed)
  /-- The names of the fields of a record. -/
  fields : ∀ items, kind = .record items → ∀ field ∈ items,
    T (failAt field.position (.duplicateField field.name) : Eval PUnit)
      (failAt field.position (.duplicateField field.name))
  /-- The names that are exported. -/
  names : ∀ names, kind = .exports names → T (M.exportNames names) (M'.exportNames names)
  /-- A return. -/
  leaving : ∀ value, kind = .returns value → ∀ v,
    T (fail (.returning v) : Eval Value) (fail (.returning v))

namespace Composition

variable {T : ∀ {α : Type}, Eval α → Eval α → Prop} (H : Composition @T)
include H

/-- A step that is made only under a condition, and what comes after it. -/
theorem guarded (c : Prop) [Decidable c] {stop : Eval PUnit} {k k' : PUnit → Eval α} (hs : T stop stop)
    (hk : ∀ u, T (k u) (k' u)) : T (if c then stop >>= k else k ()) (if c then stop >>= k' else k' ()) := by
  split
  · exact H.bind hs hk
  · exact hk ()

/-- Looking at a machine and going on, unless the units or the bound on the calls are looked at. -/
theorem reading {k k' : Machine → Eval α} (h : ∀ m, T (k m) (k' m))
    (hb : ∀ m units maxDepth, k ((m.withUnits units).withMaxDepth maxDepth) = k m := by exact fun _ _ _ => rfl)
    (hb' : ∀ m units maxDepth, k' ((m.withUnits units).withMaxDepth maxDepth) = k' m := by exact fun _ _ _ => rfl) :
    T (get >>= k) (get >>= k') := by
  rw [get_bind hb, get_bind hb']
  exact H.bind (H.still .glance) h

theorem within {eval eval' : Evaluator} (unit : UnitId) {id : NodeId} (h : T (eval id) (eval' id)) :
    T (within unit eval id) (within unit eval' id) :=
  H.bind (H.still (.requireUnit ..)) fun _ => h

/-- Steps that are still in the usual manner. -/
theorem inside_usual : AlikeInside @T .usual .usual where
  find name := H.still (.lookup? name)
  property r name := H.still (.property r name)
  merge _ r from_ := H.still (.merge r from_)
  copy r := H.still (.shallowClone r)
  text _ _ := H.bind (H.still .heapOf) fun _ => H.still (.pure _)

/-! ### Names -/

section

variable {M M' : Manner} (hM : AlikeInside @T M M')
include hM

theorem lookup (name : String) : T (M.lookup name) (M'.lookup name) := by
  refine H.bind (hM.find name) fun value => ?_
  split
  · exact H.still (.pure _)
  · exact H.still (.fail nofun)

theorem compose (r : RecordId) {sources : List Label}
    (hf : ∀ source ∈ sources, ∀ cause : Cause, cause.Quiet →
      T (failAt source.position cause : Eval Unit) (failAt source.position cause)) :
    T (M.compose r sources) (M'.compose r sources) := by
  induction sources with
  | nil => exact H.still (.pure _)
  | cons source rest ih =>
    obtain ⟨hsource, hrest⟩ := List.forall_mem_cons.1 hf
    refine H.bind (hM.find _) fun value => ?_
    split
    · exact hsource _ nofun
    · exact H.bind (hM.merge ..) fun _ => ih hrest
    · exact hsource _ nofun

theorem exportNames {labels : List Label}
    (hf : ∀ label ∈ labels, ∀ cause : Cause, cause.Quiet →
      T (failAt label.position cause : Eval PUnit) (failAt label.position cause)) :
    T (M.exportNames labels) (M'.exportNames labels) := by
  induction labels with
  | nil => exact H.still (.pure _)
  | cons label rest ih =>
    obtain ⟨hlabel, hrest⟩ := List.forall_mem_cons.1 hf
    refine H.bind (hM.find _) fun value => ?_
    split
    · refine H.bind (H.still (.change (.change (.change _ (fun _ => ?_) fun _ _ _ => rfl)))) fun _ => ih hrest
      exact ⟨rfl, rfl, rfl, rfl, rfl, List.prefix_rfl⟩
    · exact H.bind (hlabel _ nofun) fun _ => ih hrest

end

/-- The rounds of a loop, if each of them is made alike. -/
theorem iterations {eval eval' : Evaluator} {bodyId : NodeId}
    (hr : ∀ v, T (Eval.inScope (define "idx" v >>= fun _ => eval bodyId))
      (Eval.inScope (define "idx" v >>= fun _ => eval' bodyId)))
    (count : Nat) (i : Int) : T (iterations eval bodyId count i) (iterations eval' bodyId count i) := by
  induction count generalizing i with
  | zero => exact H.still (.pure _)
  | succ count ih => exact H.bind (hr _) fun _ => ih _

/-! ### Parts of nodes -/

section

variable {unit : UnitId} {a : Arena}
  (hread : ∀ id, Yields @T (nodeIn unit id) fun node => a.get? id = some node)
include hread

theorem yields_nodeOf (id : NodeId) : Yields @T (nodeOf unit id) fun node => a.get? id = some node := by
  intro β k k' hk
  rw [nodeOf_bind, nodeOf_bind]
  exact H.bind (H.still (.requireUnit ..)) fun _ => hread id hk

/-- Looking at a member finds the value that stands in it. -/
theorem yields_memberParts (m : NodeId) {D : NodeId → Prop}
    (hD : ∀ name mode isFinal value, a.kind? m = some (.binding name mode isFinal value) → D value) :
    Yields @T (memberParts unit m) fun parts => D parts.2.2 := by
  intro β k k' hk
  unfold Eval.memberParts
  rw [bind_assoc, bind_assoc]
  refine H.yields_nodeOf hread m fun ⟨kind, position⟩ hn => ?_
  have hkind : a.kind? m = some kind := Arena.kind?_eq_some.2 ⟨position, hn⟩
  dsimp only
  split
  · exact hk _ (hD _ _ _ _ hkind)
  · rw [defect, throw_bind, throw_bind]
    exact H.still (.stuck _)

/-- Looking at what stands left of an assignment finds what is changed. -/
theorem yields_assignee (target : NodeId) {D : NodeId → Prop}
    (ha : ∀ name, a.kind? target = some (.ident name) → ∀ v, T (assign name v) (assign name v))
    (hD : ∀ owner name, a.kind? target = some (.property owner name) → D owner) :
    Yields @T (assignee unit target) fun found => match found with
      | .name name => ∀ v, T (assign name v) (assign name v)
      | .property owner _ => D owner := by
  intro β k k' hk
  unfold Eval.assignee
  rw [bind_assoc, bind_assoc]
  refine H.yields_nodeOf hread target fun ⟨kind, position⟩ hn => ?_
  have hkind : a.kind? target = some kind := Arena.kind?_eq_some.2 ⟨position, hn⟩
  dsimp only
  split
  · exact hk _ (ha _ hkind)
  · exact hk _ (hD _ _ hkind)
  · rw [fail, throw_bind, throw_bind]
    exact H.still (.fail nofun)

end

section

variable {D : NodeId → Prop} {eval eval' : Evaluator} (he : ∀ id, D id → T (eval id) (eval' id))
include he

/-! ### Statements and objects -/

theorem statementsAfter (last : Value) {items : List NodeId} (hi : ∀ i ∈ items, D i) :
    T (statementsAfter eval last items) (statementsAfter eval' last items) := by
  induction items generalizing last with
  | nil => exact H.still (.pure _)
  | cons statement rest ih =>
    obtain ⟨hstatement, hrest⟩ := List.forall_mem_cons.1 hi
    exact H.bind (H.holding _ (he _ hstatement)) fun value => ih value hrest

theorem statements {items : List NodeId} (hi : ∀ i ∈ items, D i) :
    T (statements eval items) (statements eval' items) :=
  H.statementsAfter he _ hi

theorem body {unit : UnitId} {id : NodeId} (hid : D id)
    (hb : Yields @T (blockItems? unit id) fun found => ∀ items, found = some items → ∀ i ∈ items, D i) :
    T (body eval unit id) (body eval' unit id) := by
  refine hb fun found hfound => ?_
  cases found with
  | some items => exact H.statements he (hfound items rfl)
  | none => exact he id hid

theorem members {unit : UnitId} (r : RecordId) {ids : List NodeId}
    (hm : ∀ m ∈ ids, Yields @T (memberParts unit m) fun parts => D parts.2.2) :
    T (members eval unit r ids) (members eval' unit r ids) := by
  induction ids with
  | nil => exact H.still (.pure _)
  | cons member rest ih =>
    obtain ⟨hmember, hrest⟩ := List.forall_mem_cons.1 hm
    refine hmember fun (name, mode, valueId) hvalue => ?_
    refine H.guarded _ (H.still (.setProperty ..)) fun _ => H.bind (he _ hvalue) fun value => ?_
    exact H.bind (H.still (.setProperty ..)) fun _ => ih hrest

theorem construct {M M' : Manner} {unit : UnitId} (r : RecordId) (params : List (String × Value))
    {composed : List Label} {ids : List NodeId} (hc : T (M.compose r composed) (M'.compose r composed))
    (hm : ∀ m ∈ ids, Yields @T (memberParts unit m) fun parts => D parts.2.2) :
    T (M.construct eval unit r params composed ids) (M'.construct eval' unit r params composed ids) :=
  H.bind (H.still (.setAll r params)) fun _ => H.bind hc fun _ =>
    H.inRecord r (H.members he r hm)

/-! ### Expressions -/

theorem valuesAfter (before : List Value) {ids : List NodeId} (hi : ∀ i ∈ ids, D i) :
    T (valuesAfter eval before ids) (valuesAfter eval' before ids) := by
  induction ids generalizing before with
  | nil => exact H.still (.pure _)
  | cons id rest ih =>
    obtain ⟨hid, hrest⟩ := List.forall_mem_cons.1 hi
    exact H.bind (he id hid) fun value => H.holding _ (ih _ hrest)

theorem values {ids : List NodeId} (hi : ∀ i ∈ ids, D i) : T (values eval ids) (values eval' ids) :=
  H.valuesAfter he _ hi

theorem operands {lhs rhs : NodeId} (hl : D lhs) (hr : D rhs) :
    T (operands eval lhs rhs) (operands eval' lhs rhs) :=
  H.bind (he lhs hl) fun _ => H.bind (H.holding _ (he rhs hr)) fun _ => H.still (.pure _)

theorem binding {name : String} (mode : BindingMode) {valueId : NodeId} (hv : D valueId)
    (hd : ∀ v, T (define name v) (define name v)) :
    T (binding eval name mode valueId) (binding eval' name mode valueId) := by
  refine H.guarded _ (hd _) fun _ => H.bind (he valueId hv) fun value => ?_
  exact H.bind (hd _) fun _ => H.still (.pure _)

theorem assignment {unit : UnitId} {target valueId : NodeId} (hv : D valueId)
    (ha : Yields @T (assignee unit target) fun a => match a with
      | .name name => ∀ v, T (assign name v) (assign name v)
      | .property owner _ => D owner) :
    T (assignment eval unit target valueId) (assignment eval' unit target valueId) := by
  refine H.bind (he valueId hv) fun value => ha fun assignee hassignee => ?_
  cases assignee with
  | name name => exact H.bind (hassignee _) fun _ => H.still (.pure _)
  | property owner name =>
    refine H.bind (H.holding _ (he owner hassignee)) fun record => ?_
    split
    · exact H.still (.bind (.setProperty ..) fun _ => .pure _)
    · exact H.still (.bind (.fail nofun) fun _ => .pure _)

theorem fields (r : RecordId) {items : List Field} (hi : ∀ field ∈ items, D field.value)
    (hf : ∀ field ∈ items, T (failAt field.position (.duplicateField field.name) : Eval PUnit)
      (failAt field.position (.duplicateField field.name))) :
    T (fields eval r items) (fields eval' r items) := by
  induction items with
  | nil => exact H.still (.pure _)
  | cons field rest ih =>
    obtain ⟨hfield, hrest⟩ := List.forall_mem_cons.1 hi
    obtain ⟨hfail, hfails⟩ := List.forall_mem_cons.1 hf
    refine H.bind (he _ hfield) fun value => H.bind (H.still .heapOf) fun heap => ?_
    refine H.guarded _ hfail fun _ => ?_
    exact H.bind (H.still (.setProperty ..)) fun _ => ih hrest hfails

theorem loop {start stop bodyId : NodeId} (hstart : D start) (hstop : D stop)
    (hr : ∀ v, T (Eval.inScope (define "idx" v >>= fun _ => eval bodyId))
      (Eval.inScope (define "idx" v >>= fun _ => eval' bodyId))) :
    T (loop eval start stop bodyId) (loop eval' start stop bodyId) := by
  refine H.bind (H.operands he hstart hstop) fun bounds => ?_
  split
  · exact H.bind (H.iterations hr ..) fun _ => H.still (.pure _)
  · exact H.still (.fail nofun)
  · exact H.still (.fail nofun)

theorem conditional {condition thenBranch : NodeId} {elseBranch : Option NodeId} (hc : D condition)
    (ht : D thenBranch) (he' : ∀ branch ∈ elseBranch, D branch) :
    T (conditional eval condition thenBranch elseBranch)
      (conditional eval' condition thenBranch elseBranch) := by
  refine H.bind (he condition hc) fun value => ?_
  split
  · exact he thenBranch ht
  · cases elseBranch with
    | some branch => exact he branch (he' branch rfl)
    | none => exact H.still (.pure _)
  · exact H.still (.fail nofun)

theorem logical (op : LogicalOp) {lhs rhs : NodeId} (hl : D lhs) (hr : D rhs) :
    T (logical eval op lhs rhs) (logical eval' op lhs rhs) := by
  refine H.bind (he lhs hl) fun left => H.bind (H.still (.truth ..)) fun left => ?_
  split
  · exact H.still (.pure _)
  · exact H.still (.pure _)
  · exact H.bind (he rhs hr) fun right => H.still (.bind (.truth ..) fun _ => .pure _)

theorem texts {M M' : Manner} (hM : AlikeInside @T M M') (written : String) {ids : List NodeId} (hi : ∀ i ∈ ids, D i) :
    T (M.texts eval written ids) (M'.texts eval' written ids) := by
  induction ids generalizing written with
  | nil => exact H.still (.pure _)
  | cons id rest ih =>
    obtain ⟨hid, hrest⟩ := List.forall_mem_cons.1 hi
    exact H.bind (he id hid) fun value => H.bind (hM.text ..) fun text => ih _ hrest

theorem print {M M' : Manner} (hM : AlikeInside @T M M') {args : List NodeId} (hi : ∀ i ∈ args, D i) :
    T (M.print eval args) (M'.print eval' args) :=
  H.bind (H.texts he hM _ hi) fun line => H.still (.bind (.println line) fun _ => .pure _)

theorem leaveCall {value : Option NodeId} (hv : ∀ id ∈ value, D id)
    (hl : ∀ v, T (fail (.returning v) : Eval Value) (fail (.returning v))) :
    T (leaveCall eval value) (leaveCall eval' value) := by
  cases value with
  | none => exact hl _
  | some id => exact H.bind (he id (hv id rfl)) fun v => hl v

theorem envOpen {target bodyId : NodeId} (ht : D target) (hb : D bodyId) :
    T (envOpen eval target bodyId) (envOpen eval' target bodyId) := by
  refine H.bind (he target ht) fun value => ?_
  split
  · exact H.inRecord _ (he bodyId hb)
  · exact H.still (.fail nofun)

theorem propertyOf {M M' : Manner} (hM : AlikeInside @T M M') {name : String} {target : NodeId} (ht : D target) :
    T (M.propertyOf eval target name) (M'.propertyOf eval' target name) := by
  refine H.bind (he target ht) fun value => ?_
  split
  · exact hM.property ..
  · exact H.still (.fail nofun)

theorem clone {M M' : Manner} (hM : AlikeInside @T M M') {operand : NodeId} (ho : D operand) :
    T (eval operand >>= M.clone) (eval' operand >>= M'.clone) := by
  refine H.bind (he operand ho) fun v => ?_
  cases v with
  | record r => exact H.bind (hM.copy r) fun _ => H.still (.pure _)
  | list => exact H.still (.newList _)
  | _ => exact H.still (.pure _)

end

/-! ### Nodes -/

section

variable {D : NodeId → Prop} {own own' eval eval' : Evaluator} {M M' : Manner}
  (ho : ∀ id, D id → T (own id) (own' id))
include ho

theorem call {callee : NodeId} {args : List NodeId} (hc : D callee) (ha : ∀ i ∈ args, D i)
    {callSite : Option Position} (hcall : ∀ function arguments,
      T (M.callValue eval function arguments callSite) (M'.callValue eval' function arguments callSite)) :
    T (M.call own eval callee args callSite) (M'.call own' eval' callee args callSite) :=
  H.bind (ho callee hc) fun _ => H.bind (H.holding _ (H.values ho ha)) fun _ => hcall ..

/-- Literals of functions and classes, and the leaves of the tree: nothing further down is evaluated. -/
theorem object {unit : UnitId} {id : NodeId} {params : Option (List Param)} {composed : List Label}
    {ids : List NodeId} (hk : Known @T M M' D unit (.object params composed ids)) :
    T (M.object own unit id params.isSome composed ids) (M'.object own' unit id params.isSome composed ids) := by
  unfold Manner.object
  split
  · exact H.still (.bind (.newClass _) fun _ => .pure _)
  · rename_i hnone
    obtain rfl : params = none := by simpa using hnone
    refine H.bind (H.still .newRecord) fun r => ?_
    refine H.bind (H.holding _ (H.construct ho r [] (hk.composed _ _ rfl r) (hk.members _ _ rfl))) fun _ => ?_
    exact H.still (.pure _)

/-- A node is evaluated alike by evaluations that are related for the nodes that it refers to. -/
theorem nodeKind {load load' : ImportRequest → Eval Value} {unit : UnitId} {id : NodeId} {node : Node}
    (hk : Known @T M M' D unit node.kind) (hM : AlikeInside @T M M')
    (hcall : ∀ callee args, node.kind = .call callee args → ∀ function arguments,
      T (M.callValue eval function arguments node.position) (M'.callValue eval' function arguments node.position))
    (hload : ∀ root path, node.kind = .imports root path → ∀ directory,
      T (load ⟨root, path, directory⟩) (load' ⟨root, path, directory⟩)) :
    T (M.nodeKind own eval load unit id node) (M'.nodeKind own' eval' load' unit id node) := by
  obtain ⟨kind, position⟩ := node
  dsimp only at hk hcall hload
  have hchild := hk.children
  unfold Manner.nodeKind Eval.nodeKind
  cases kind
  all_goals
    dsimp only
    simp only [NodeKind.children, NodeKind.isDeferred, List.forall_mem_cons, List.forall_mem_map,
      forall_const] at hchild
  case block => exact H.inScope (H.statements ho hchild)
  case binding => exact H.binding ho _ hchild.1 (hk.defines _ _ _ _ rfl)
  case function => exact H.still (.pure _)
  case call => exact H.call ho hchild.1 hchild.2 (hcall _ _ rfl)
  case ident => exact H.lookup hM _
  case literal => exact H.still (.pure _)
  case list => exact H.bind (H.values ho hchild) fun _ => H.still (.newList _)
  case record items =>
    refine H.bind (H.still .newRecord) fun r => ?_
    exact H.bind (H.holding _ (H.fields ho r hchild (hk.fields items rfl))) fun _ => H.still (.pure _)
  case index =>
    exact H.bind (H.operands ho hchild.1 hchild.2.1) fun _ => H.still (.ofExcept (accepts_quiet.itemAt trivial _))
  case property => exact H.propertyOf ho hM hchild.1
  case len => exact H.bind (ho _ hchild.1) fun v => H.still (.ofExcept (accepts_quiet.len v))
  case loop =>
    refine H.loop ho hchild.1 hchild.2.1 fun v => H.inScope ?_
    exact H.bind (hk.counts _ _ _ rfl v) fun _ => ho _ hchild.2.2.1
  case conditional condition thenBranch elseBranch =>
    exact H.conditional ho hchild.1 hchild.2.1 fun branch hb => hchild.2.2 branch (by simpa using hb)
  case assign => exact H.assignment ho hchild.2.1 (hk.target _ _ rfl)
  case logical => exact H.logical ho _ hchild.1 hchild.2.1
  case equality op _ _ =>
    exact H.bind (H.operands ho hchild.1 hchild.2.1) fun (v, u) =>
      H.still (.bind .heapOf fun h => .ofExcept (accepts_quiet.equality h op v u))
  case comparison op _ _ =>
    exact H.bind (H.operands ho hchild.1 hchild.2.1) fun (v, u) =>
      H.still (.bind .heapOf fun h => .ofExcept (accepts_quiet.comparison h op v u))
  case arithmetic op _ _ =>
    exact H.bind (H.operands ho hchild.1 hchild.2.1) fun (v, u) =>
      H.still (.operation fun h => accepts_quiet.arithmetic h op trivial trivial)
  case negate => exact H.bind (ho _ hchild.1) fun v => H.still (.ofExcept (accepts_quiet.negate v))
  case prepend =>
    exact H.bind (H.operands ho hchild.1 hchild.2.1) fun (v, u) =>
      H.still (.operation fun h => accepts_quiet.prepend h trivial trivial)
  case pipe lhs rhs desugared =>
    cases desugared with
    | true => exact ho rhs (hchild rhs (by simp))
    | false => exact H.still (.fail nofun)
  case object => exact H.object ho hk
  case clone => exact H.clone ho hM hchild.1
  case envOpen => exact H.envOpen ho hchild.1 hchild.2.1
  case imports => exact H.reading fun m => hload _ _ rfl m.directory
  case exports => exact H.bind (hk.names _ rfl) fun _ => H.still (.pure _)
  case print => exact H.print ho hM hchild
  case returns => exact H.leaveCall ho (fun id hid => hchild id (by simpa using hid)) (hk.leaving _ rfl)

end

end Composition

end Eval

end DynScript
