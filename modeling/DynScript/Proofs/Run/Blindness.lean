import DynScript.Proofs.Run.Blind

/-!
# Evaluation does not get hold of a record

The nodes of a unit are evaluated without getting hold of a hidden record, form by form, if the nodes further down are.
Where the record does not stand open in the innermost frame this holds of every node; where it does, it holds of a node
as soon as it holds of the operands, unless the node is a binding.
-/

namespace DynScript

namespace Eval

variable {r q : RecordId} {α : Type} {P : Machine → Prop} {Q : α → Prop} {unit : UnitId}

namespace Blind

/-! ## Nodes and what they refer to -/

theorem functionParts (f : Function) : Blind r P (Eval.functionParts f) Whatever := by
  refine nodeIn fun node => ?_
  split
  · exact pure trivial
  · exact stuck _

theorem templateParts (t : Template) : Blind r P (Eval.templateParts t) Whatever := by
  refine nodeIn fun node => ?_
  split
  · exact pure trivial
  · exact stuck _

section

variable (hP : Machine.Lasting r P)
include hP

theorem nodeOf {id : NodeId} {k : Node → Eval α}
    (hk : ∀ node, Blind r (fun m => P m ∧ m.world.node? unit id = some node) (k node) Q) :
    Blind r P (Eval.nodeOf unit id >>= k) Q := by
  rw [nodeOf_bind]
  exact bind hP (requireUnit unit id) fun _ _ => nodeIn hk

theorem blockItems? (id : NodeId) : Blind r P (Eval.blockItems? unit id) Whatever := by
  refine nodeOf hP fun node => ?_
  split <;> exact pure trivial

theorem memberParts (id : NodeId) : Blind r P (Eval.memberParts unit id) Whatever := by
  refine nodeOf hP fun node => ?_
  split
  · exact pure trivial
  · exact stuck _

/-- Looking at what stands left of an assignment, and going on with what is known then. -/
theorem assignee {target : NodeId} {k : Assignee → Eval α}
    (hname : ∀ name, Blind r (fun m => P m ∧ ∃ position, m.world.node? unit target = some ⟨.ident name, position⟩)
      (k (.name name)) Q)
    (hproperty : ∀ owner name,
      Blind r (fun m => P m ∧ ∃ position, m.world.node? unit target = some ⟨.property owner name, position⟩)
        (k (.property owner name)) Q) : Blind r P (Eval.assignee unit target >>= k) Q := by
  unfold Eval.assignee
  rw [bind_assoc]
  refine nodeOf hP fun ⟨kind, position⟩ => ?_
  cases kind with
  | ident name => exact (hname name).assuming fun m hm => ⟨hm.1, position, hm.2⟩
  | property owner name => exact (hproperty owner name).assuming fun m hm => ⟨hm.1, position, hm.2⟩
  | _ => exact bind (hP.knowing _ _ _) (Q := fun _ => False) (fail nofun) fun _ h => h.elim

/-! ## Statements and objects -/

section

variable {eval : Evaluator}

theorem within {id : NodeId} (he : Blind r P (eval id) (Value.Avoids r)) :
    Blind r P (within unit eval id) (Value.Avoids r) :=
  bind hP (requireUnit unit id) fun _ _ => he

theorem statementsAfter {last : Value} (hl : last.Avoids r) {items : List NodeId}
    (hi : ∀ i ∈ items, Blind r P (eval i) (Value.Avoids r)) :
    Blind r P (statementsAfter eval last items) (Value.Avoids r) := by
  induction items generalizing last with
  | nil => exact pure hl
  | cons statement rest ih =>
    obtain ⟨hstatement, hrest⟩ := List.forall_mem_cons.1 hi
    exact bind hP (holding _ hstatement) fun value hv => ih hv hrest

theorem statements {items : List NodeId} (hi : ∀ i ∈ items, Blind r P (eval i) (Value.Avoids r)) :
    Blind r P (statements eval items) (Value.Avoids r) :=
  statementsAfter hP .nil hi

theorem body (he : ∀ id, Blind r P (eval id) (Value.Avoids r)) (id : NodeId) :
    Blind r P (body eval unit id) (Value.Avoids r) := by
  refine bind hP (blockItems? hP id) fun items _ => ?_
  cases items with
  | some items => exact statements hP fun i _ => he i
  | none => exact he id

theorem members (hq : q ≠ r) (he : ∀ id, Blind r P (eval id) (Value.Avoids r)) (ids : List NodeId) :
    Blind r P (members eval unit q ids) Whatever := by
  induction ids with
  | nil => exact pure trivial
  | cons member rest ih =>
    refine bind hP (memberParts hP member) fun (name, mode, valueId) _ => ?_
    refine guarded hP _ (setProperty hq name .nil) fun _ => ?_
    refine bind hP (he valueId) fun value hv => ?_
    exact bind hP (setProperty hq name (hv.named name)) fun _ _ => ih

/-- Another record is filled while it stands open in a frame of its own. -/
theorem construct (hq : q ≠ r) (he : ∀ id, Blind r (Machine.Apart r) (eval id) (Value.Avoids r))
    {params : List (String × Value)} (hp : ∀ entry ∈ params, entry.2.Avoids r) (composed : List Label)
    (ids : List NodeId) : Blind r P (construct eval unit q params composed ids) Whatever := by
  refine bind hP (setAll hq hp) fun _ _ => bind hP (compose hP hq composed) fun _ _ => ?_
  exact inRecord hq (members Machine.lasting_apart hq he ids)

end

/-! ## Calls -/

section

variable {eval : Evaluator} (he : ∀ id, Blind r (Machine.Apart r) (eval id) (Value.Avoids r))
include he

omit hP in
theorem withinApart (unit : UnitId) (id : NodeId) :
    Blind r (Machine.Apart r) (Eval.within unit eval id) (Value.Avoids r) :=
  within Machine.lasting_apart (he id)

theorem callFunction (f : Function) {args : List Value} (ha : ∀ v ∈ args, v.Avoids r) (callSite : Option Position) :
    Blind r P (callFunction eval f args callSite) (Value.Avoids r) := by
  refine bind hP (functionParts f) fun (params, bodyId) _ => ?_
  refine guarded hP _ (fail nofun) fun _ => catchReturn (inCall _ ?_)
  refine bind Machine.lasting_true (receiverOf f) fun receiver _ => inUnit _ (asMethodOf receiver ?_)
  refine bind Machine.lasting_apart (defineAll Machine.lasting_apart (fun _ hm => hm) fun entry hmem => ?_) fun _ _ => ?_
  · exact ha _ (List.of_mem_zip hmem).2
  · exact body Machine.lasting_apart (withinApart he f.unit) bodyId

theorem instantiate (cls : RecordId) (t : Template) {args : List Value} (ha : ∀ v ∈ args, v.Avoids r)
    (callSite : Option Position) : Blind r P (instantiate eval cls t args callSite) (Value.Avoids r) := by
  refine bind hP (templateParts t) fun (params, composed, members) _ => ?_
  refine guarded hP _ (failAt nofun) fun _ => ?_
  refine bind hP (adding none (some cls)) fun q hq => ?_
  have hbound : ∀ entry ∈ (params.map fun p => p.name).zip args, entry.2.Avoids r := fun entry hmem =>
    ha _ (List.of_mem_zip hmem).2
  have hmade : Blind r (fun _ => True) (Eval.construct (Eval.within t.unit eval) t.unit q
      ((params.map fun p => p.name).zip args) composed members) Whatever :=
    construct Machine.lasting_true hq (withinApart he t.unit) hbound composed members
  exact bind hP (holding _ (inUnit t.unit hmade)) fun _ _ => pure (.record hq)

theorem callRecord (q : RecordId) {args : List Value} (ha : ∀ v ∈ args, v.Avoids r) (callSite : Option Position) :
    Blind r P (callRecord eval q args callSite) (Value.Avoids r) := by
  refine bind hP heap fun h _ => ?_
  split
  · exact instantiate hP he q _ ha callSite
  · refine guarded hP _ (fail nofun) fun _ => ?_
    exact bind hP (shallowClone q) fun _ hq => pure (.record hq)

theorem callValue (callee : Value) {args : List Value} (ha : ∀ v ∈ args, v.Avoids r) (callSite : Option Position) :
    Blind r P (callValue eval callee args callSite) (Value.Avoids r) := by
  refine holding _ (holding _ ?_)
  cases callee with
  | function f => exact callFunction hP he f ha callSite
  | native n => exact callNative n
  | record q => exact callRecord hP he q ha callSite
  | _ => exact fail nofun

end

/-! ## Expressions -/

section

variable {own : Evaluator}

theorem valuesAfter {before : List Value} (hb : ∀ v ∈ before, v.Avoids r) {ids : List NodeId}
    (hi : ∀ i ∈ ids, Blind r P (own i) (Value.Avoids r)) :
    Blind r P (valuesAfter own before ids) fun values => ∀ v ∈ values, v.Avoids r := by
  induction ids generalizing before with
  | nil => exact pure fun v hv => hb v (List.mem_reverse.1 hv)
  | cons id rest ih =>
    obtain ⟨hid, hrest⟩ := List.forall_mem_cons.1 hi
    exact bind hP hid fun value hv => holding _ (ih (List.forall_mem_cons.2 ⟨hv, hb⟩) hrest)

theorem values {ids : List NodeId} (hi : ∀ i ∈ ids, Blind r P (own i) (Value.Avoids r)) :
    Blind r P (values own ids) fun values => ∀ v ∈ values, v.Avoids r :=
  valuesAfter hP (by simp) hi

theorem operands {lhs rhs : NodeId} (hl : Blind r P (own lhs) (Value.Avoids r))
    (hr : Blind r P (own rhs) (Value.Avoids r)) :
    Blind r P (operands own lhs rhs) fun pair => pair.1.Avoids r ∧ pair.2.Avoids r :=
  bind hP hl fun _ hv => bind hP (holding _ hr) fun _ hu => pure ⟨hv, hu⟩

theorem binding (ha : ∀ m, P m → m.Apart r) (name : String) (mode : BindingMode) {valueId : NodeId}
    (hv : Blind r P (own valueId) (Value.Avoids r)) : Blind r P (binding own name mode valueId) (Value.Avoids r) := by
  refine guarded hP _ (define ha name .nil) fun _ => bind hP hv fun value hvalue => ?_
  exact bind hP (define ha name (hvalue.named name)) fun _ _ => pure (hvalue.named name)

theorem assignment {id target valueId : NodeId}
    (hn : ∀ m : Machine, P m → ∃ position, m.world.node? unit id = some ⟨.assign target valueId, position⟩)
    (hv : Blind r P (own valueId) (Value.Avoids r))
    (ho : ∀ owner name, Blind r
      (fun m => P m ∧ ∃ position, m.world.node? unit target = some ⟨.property owner name, position⟩) (own owner)
      (Value.Avoids r)) : Blind r P (assignment own unit target valueId) (Value.Avoids r) := by
  have hknowing (kind : NodeKind) : Machine.Lasting r fun m =>
      P m ∧ ∃ position, m.world.node? unit target = some ⟨kind, position⟩ := fun _ _ hleaves hm =>
    ⟨hP _ _ hleaves hm.1, hm.2.imp fun _ => World.node?_later hleaves.units⟩
  refine bind hP hv fun value hvalue => assignee hP (fun name => ?_) fun owner name => ?_
  · -- The node and its target are what it takes to assign the name.
    refine bind (hknowing _) (assign (fun m hm => ?_) hvalue) fun _ _ => pure hvalue
    obtain ⟨position, hassign⟩ := hn m hm.1
    obtain ⟨position', htarget⟩ := hm.2
    exact ⟨unit, id, target, valueId, position, position', hassign, htarget⟩
  · refine bind (hknowing _) (holding _ (ho owner name)) fun record hrecord => ?_
    cases hrecord with
    | record hq => exact bind (hknowing _) (setProperty hq name hvalue) fun _ _ => pure hvalue
    | _ => exact bind (hknowing _) (Q := Whatever) (fail nofun) fun _ _ => pure hvalue

theorem fields (hq : q ≠ r) {items : List Field} (hi : ∀ field ∈ items, Blind r P (own field.value) (Value.Avoids r)) :
    Blind r P (fields own q items) Whatever := by
  induction items with
  | nil => exact pure trivial
  | cons field rest ih =>
    obtain ⟨hfield, hrest⟩ := List.forall_mem_cons.1 hi
    refine bind hP hfield fun value hv => bind hP heap fun h _ => guarded hP _ (failAt nofun) fun _ => ?_
    exact bind hP (setProperty hq field.name (hv.named field.name)) fun _ _ => ih hrest

theorem recordLiteral {items : List Field} (hi : ∀ field ∈ items, Blind r P (own field.value) (Value.Avoids r)) :
    Blind r P (recordLiteral own items) (Value.Avoids r) :=
  bind hP (adding none none) fun _ hq => bind hP (holding _ (fields hP hq hi)) fun _ _ => pure (.record hq)

/-- A class is only remembered, and any other record is filled in a frame of its own. -/
theorem object (he : ∀ id, Blind r (Machine.Apart r) (own id) (Value.Avoids r)) (id : NodeId) (isClass : Bool)
    (composed : List Label) (ids : List NodeId) :
    Blind r P (object own unit id isClass composed ids) (Value.Avoids r) := by
  unfold Eval.object
  split
  · exact bind hP (adding (some ⟨unit, id⟩) none) fun _ hq => pure (.record hq)
  · refine bind hP (adding none none) fun _ hq => ?_
    exact bind hP (holding _ (construct hP hq he (by simp) composed ids)) fun _ _ => pure (.record hq)

theorem property {target : NodeId} (ht : Blind r P (own target) (Value.Avoids r)) (name : String) :
    Blind r P (property own target name) (Value.Avoids r) := by
  refine bind hP ht fun value _ => ?_
  split
  · refine bind hP heap fun h hh => ?_
    split
    · exact bind hP (holdReceiver _ _) fun f _ => pure (.function f)
    · rename_i hvalue
      exact pure (hh.property? hvalue)
    · exact fail nofun
  · exact fail nofun

theorem iterations (he : ∀ id, Blind r (Machine.Apart r) (own id) (Value.Avoids r)) (bodyId : NodeId) (count : Nat)
    (i : Int) : Blind r P (iterations own bodyId count i) Whatever := by
  induction count generalizing i with
  | zero => exact pure trivial
  | succ count ih =>
    have hround : Blind r P (Eval.inScope (Eval.define "idx" (.number (Float.ofInt i)) >>= fun _ => own bodyId))
        (Value.Avoids r) :=
      inScope (bind Machine.lasting_apart (define (fun _ hm => hm) _ (.number _)) fun _ _ => he bodyId)
    exact bind hP hround fun _ _ => ih _

theorem loop (he : ∀ id, Blind r (Machine.Apart r) (own id) (Value.Avoids r)) {start stop : NodeId}
    (hs : Blind r P (own start) (Value.Avoids r)) (ht : Blind r P (own stop) (Value.Avoids r)) (bodyId : NodeId) :
    Blind r P (loop own start stop bodyId) (Value.Avoids r) := by
  refine bind hP (operands hP hs ht) fun bounds _ => ?_
  split
  · exact bind hP (iterations hP he bodyId _ _) fun _ _ => pure .nil
  · exact fail nofun
  · exact fail nofun

theorem conditional {condition thenBranch : NodeId} {elseBranch : Option NodeId}
    (hc : Blind r P (own condition) (Value.Avoids r)) (ht : Blind r P (own thenBranch) (Value.Avoids r))
    (hb : ∀ b ∈ elseBranch, Blind r P (own b) (Value.Avoids r)) :
    Blind r P (conditional own condition thenBranch elseBranch) (Value.Avoids r) := by
  refine bind hP hc fun value _ => ?_
  split
  · exact ht
  · cases elseBranch with
    | some branch => exact hb branch rfl
    | none => exact pure .nil
  · exact fail nofun

theorem logical (op : LogicalOp) {lhs rhs : NodeId} (hl : Blind r P (own lhs) (Value.Avoids r))
    (hr : Blind r P (own rhs) (Value.Avoids r)) : Blind r P (logical own op lhs rhs) (Value.Avoids r) := by
  refine bind hP hl fun left _ => bind hP (truth _ left) fun left _ => ?_
  split
  · exact pure (.bool _)
  · exact pure (.bool _)
  · exact bind hP hr fun right _ => bind hP (truth _ right) fun _ _ => pure (.bool _)

theorem texts (written : String) {ids : List NodeId} (hi : ∀ i ∈ ids, Blind r P (own i) (Value.Avoids r)) :
    Blind r P (texts own written ids) Whatever := by
  induction ids generalizing written with
  | nil => exact pure trivial
  | cons id rest ih =>
    obtain ⟨hid, hrest⟩ := List.forall_mem_cons.1 hi
    exact bind hP hid fun value _ => bind hP heap fun h _ => ih _ hrest

theorem print {args : List NodeId} (ha : ∀ i ∈ args, Blind r P (own i) (Value.Avoids r)) :
    Blind r P (print own args) (Value.Avoids r) := by
  refine bind hP (texts hP _ ha) fun line _ => ?_
  have hline : Blind r P (modify fun m : Machine => { m with world := m.world.println line } : Eval PUnit) Whatever :=
    unmoved (fun _ _ => ⟨rfl, rfl, rfl, rfl, rfl, rfl⟩) fun _ _ _ _ => trivial
  exact bind hP hline fun _ _ => pure .nil

theorem leaveCall {value : Option NodeId} (hv : ∀ v ∈ value, Blind r P (own v) (Value.Avoids r)) :
    Blind r P (leaveCall own value) (Value.Avoids r) := by
  have hreturn {v : Value} (hv : v.Avoids r) : (Cause.returning v).Avoids r := by
    rintro _ ⟨⟩
    exact hv
  cases value with
  | none => exact fail (hreturn .nil)
  | some id => exact bind hP (hv id rfl) fun _ h => fail (hreturn h)

theorem envOpen (he : ∀ id, Blind r (Machine.Apart r) (own id) (Value.Avoids r)) {target : NodeId}
    (ht : Blind r P (own target) (Value.Avoids r)) (bodyId : NodeId) :
    Blind r P (envOpen own target bodyId) (Value.Avoids r) := by
  refine bind hP ht fun value hvalue => ?_
  cases hvalue with
  | record hq => exact inRecord hq (he bodyId)
  | _ => exact fail nofun

theorem call {eval : Evaluator} (he : ∀ id, Blind r (Machine.Apart r) (eval id) (Value.Avoids r)) {callee : NodeId}
    {args : List NodeId} (hc : Blind r P (own callee) (Value.Avoids r))
    (ha : ∀ i ∈ args, Blind r P (own i) (Value.Avoids r)) (callSite : Option Position) :
    Blind r P (call own eval callee args callSite) (Value.Avoids r) := by
  refine bind hP hc fun function _ => bind hP (holding _ (values hP ha)) fun arguments harguments => ?_
  exact callValue hP he function harguments callSite

end

/-! ## Nodes -/

/-- What is known of the nodes below a node, in order that it does not get hold of a record. -/
structure Below (r : RecordId) (P : Machine → Prop) (unit : UnitId) (own : Evaluator) (id : NodeId) (node : Node) :
    Prop where
  /-- The node. -/
  there : ∀ m : Machine, P m → m.world.node? unit id = some node
  /-- The nodes that are evaluated where it is evaluated. -/
  operands : ∀ c ∈ node.kind.operands, Blind r P (own c) (Value.Avoids r)
  /-- The owner of a property that is assigned. -/
  owner : ∀ target owner name, Blind r
    (fun m => P m ∧ ∃ position, m.world.node? unit target = some ⟨.property owner name, position⟩) (own owner)
    (Value.Avoids r)
  /-- The nodes that are evaluated in frames of their own. -/
  inner : ∀ id, Blind r (Machine.Apart r) (own id) (Value.Avoids r)
  /-- A binding is evaluated where the record does not stand open in the innermost frame. -/
  binds : node.kind.isBinding → ∀ m, P m → m.Apart r

/-- A node does not get hold of a record if the nodes below it do not. -/
theorem nodeKind {own eval : Evaluator} {load : ImportRequest → Eval Value} {id : NodeId} {node : Node}
    (hb : Below r P unit own id node) (he : ∀ id, Blind r (Machine.Apart r) (eval id) (Value.Avoids r))
    (hl : ∀ request, Blind r P (load request) (Value.Avoids r)) :
    Blind r P (nodeKind own eval load unit id node) (Value.Avoids r) := by
  obtain ⟨kind, position⟩ := node
  obtain ⟨hthere, hchild, howner, hinner, hbinds⟩ := hb
  unfold Eval.nodeKind
  cases kind
  all_goals dsimp only; simp only [NodeKind.operands, NodeKind.children] at hchild
  case block items => exact inScope (statements Machine.lasting_apart fun i _ => hinner i)
  case binding name mode isFinal value => exact binding hP (hbinds rfl) name mode (hchild _ (by simp))
  case function params body => exact pure (.function _)
  case call callee args => exact call hP he (hchild _ (by simp)) (fun i hi => hchild i (by simp [hi])) position
  case ident name => exact lookup hP name
  case literal value => exact pure (by cases value <;> constructor)
  case list items => exact bind hP (values hP hchild) fun _ hv => newList fun v hmem => hv v (List.mem_toArray.1 hmem)
  case record items => exact recordLiteral hP fun field hf => hchild _ (List.mem_map.2 ⟨field, hf, rfl⟩)
  case index target index =>
    refine bind hP (operands hP (hchild _ (by simp)) (hchild _ (by simp))) fun pair hpair => ?_
    exact ofExcept ((accepts_avoids r).itemAt hpair.1 pair.2)
  case property target name => exact property hP (hchild _ (by simp)) name
  case len operand => exact bind hP (hchild _ (by simp)) fun v _ => ofExcept ((accepts_avoids r).len v)
  case loop start stop body => exact loop hP hinner (hchild _ (by simp)) (hchild _ (by simp)) body
  case conditional condition thenBranch elseBranch =>
    refine conditional hP (hchild _ (by simp)) (hchild _ (by simp)) fun b hb => hchild b ?_
    simp [Option.mem_def.1 hb]
  case assign target value => exact assignment hP (fun m hm => ⟨position, hthere m hm⟩) (hchild _ (by simp)) (howner target)
  case logical op lhs rhs => exact logical hP op (hchild _ (by simp)) (hchild _ (by simp))
  case equality op lhs rhs =>
    refine bind hP (operands hP (hchild _ (by simp)) (hchild _ (by simp))) fun pair _ => ?_
    exact bind hP heap fun h _ => ofExcept ((accepts_avoids r).equality h op pair.1 pair.2)
  case comparison op lhs rhs =>
    refine bind hP (operands hP (hchild _ (by simp)) (hchild _ (by simp))) fun pair _ => ?_
    exact bind hP heap fun h _ => ofExcept ((accepts_avoids r).comparison h op pair.1 pair.2)
  case arithmetic op lhs rhs =>
    refine bind hP (operands hP (hchild _ (by simp)) (hchild _ (by simp))) fun pair hpair => ?_
    exact makes fun h => (accepts_avoids r).arithmetic h op hpair.1 hpair.2
  case negate operand => exact bind hP (hchild _ (by simp)) fun v _ => ofExcept ((accepts_avoids r).negate v)
  case prepend item list =>
    refine bind hP (operands hP (hchild _ (by simp)) (hchild _ (by simp))) fun pair hpair => ?_
    exact makes fun h => (accepts_avoids r).prepend h hpair.1 hpair.2
  case pipe lhs rhs desugared =>
    cases desugared with
    | true => exact hchild rhs (by simp)
    | false => exact fail (by rintro _ ⟨⟩)
  case object params composed members => exact object hP hinner id _ composed members
  case clone operand => exact bind hP (hchild _ (by simp)) fun v hv => clone hP hv
  case envOpen target body => exact envOpen hP hinner (hchild _ (by simp)) body
  case imports root path => exact reading fun m _ _ => hl _
  case exports names => exact bind hP (exportNames hP names) fun _ _ => pure .nil
  case print args => exact print hP hchild
  case returns value => exact leaveCall hP fun v hv => hchild v (by simp [Option.mem_def.1 hv])

end

end Blind

end Eval

end DynScript
