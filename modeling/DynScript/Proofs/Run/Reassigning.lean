import DynScript.Proofs.Run.Sparing
import DynScript.Proofs.Tree.Reassigning

/-!
# Evaluation that assigns nothing

When no assignment to a name belongs to a node, its evaluation changes the variables of the name at most through calls:
`Eval.SparingNodes.nodeStep`. Only a binding of the name replaces the variable of the innermost frame, and where it has
been evaluated its frame shields those outside of it.
-/

namespace DynScript

namespace Eval

variable {α β : Type} {C : Machine → Prop} {name : String} {unit : UnitId} {a : Arena}

/-- The names that a step defines in the innermost frame are there when it ends in a value. -/
def Defining (name : String) (held : List Value) (m : Machine) (x : Eval α) : Prop :=
  ∀ v n, x.runFrom held m = (.ok v, n) → n.env.BindsInnermost n.world.heap name

/-- An evaluation of the nodes of a unit that changes the variables of a name only as far as the nodes tell. -/
structure SparingNodes (C : Machine → Prop) (name : String) (unit : UnitId) (a : Arena) (eval : Evaluator) : Prop where
  /-- What is opened is closed again. -/
  restoring : ∀ id, Restoring (eval id)
  /-- Frames that have a name shield the variables behind them. -/
  shielding : ∀ id, Shielding (eval id)
  /-- No assignment belongs to the node. -/
  inner : ∀ id, ¬ a.Reassigns name id → Sparing (Machine.Evaluates unit a) C name 1 (eval id)
  /-- Neither is it a binding. -/
  outer : ∀ id, ¬ a.Reassigns name id → ¬ a.Binds name id → Sparing (Machine.Evaluates unit a) C name 0 (eval id)
  /-- Bindings define the name. -/
  defining : ∀ id, a.Binds name id → ∀ held (m : Machine), m.Evaluates unit a → m.env.Definable m.world.heap →
    Defining name held m (eval id)

/-- Nodes of the unit that is evaluated are not refused. -/
theorem runFrom_requireUnit {id : NodeId} {held : List Value} {m : Machine} (hm : m.unit = unit) :
    (requireUnit unit id).runFrom held m = (.ok (), m) := by
  rw [requireUnit, runFrom_bind, runFrom_get]
  dsimp only
  rw [if_neg (not_not.2 hm)]
  rfl

theorem runFrom_within {eval : Evaluator} {id : NodeId} {held : List Value} {m : Machine} (hm : m.unit = unit) :
    (within unit eval id).runFrom held m = (eval id).runFrom held m := by
  rw [within, runFrom_bind, runFrom_requireUnit hm]

namespace SparingNodes

variable {eval : Evaluator} (he : SparingNodes C name unit a eval)

theorem within (he : SparingNodes C name unit a eval) : SparingNodes C name unit a (within unit eval) where
  restoring id := .bind (.ofPlain (.requireUnit ..)) fun _ => he.restoring id
  shielding id := .bind (.still (.requireUnit ..)) fun _ => he.shielding id
  inner id hr held m hm := by
    rw [runFrom_within hm.current]
    exact he.inner id hr held m hm
  outer id hr hb held m hm := by
    rw [runFrom_within hm.current]
    exact he.outer id hr hb held m hm
  defining id hb held m hm hd v n := by
    rw [runFrom_within hm.current]
    exact he.defining id hb held m hm hd v n

section

variable (hS : Machine.Stage (Machine.Evaluates unit a) C)
include he hS

/-! ### Rows -/

/-- Statements change the variables of a name in the innermost frame only, if no assignment belongs to those before
which no binding of it stands. -/
theorem statementsAfter {items : List NodeId} (hrow : ∀ c, a.Exposed name items c → ¬ a.Reassigns name c) (last : Value)
    (held : List Value) {m : Machine} (hm : m.Evaluates unit a) (hd : m.env.Definable m.world.heap) :
    m.Sparing C name 1 ((Eval.statementsAfter eval last items).runFrom held m).2 := by
  have H : Loading fun x _ => Restoring x := Restoring.congruence.toLoading
  have K : Loading fun x _ => Shielding x := Shielding.loading
  induction items generalizing last m with
  | nil => exact .refl m
  | cons statement rest ih =>
    refine Sparing.bindFrom hS (he.inner statement (hrow _ .first) (last :: held) m hm) fun v n hr hn => ?_
    have hdefinable := hn.shields.env.definable hn.shields.heap hd
    by_cases hb : a.Binds name statement
    · -- The name stands in the innermost frame now, and nothing that follows reaches past it.
      have hbound := he.defining statement hb (last :: held) m hm hd v n hr
      have hrestored := @Composition.statementsAfter _ H.toComposition (fun _ => True) eval eval
        (fun id _ => he.restoring id) v rest (fun _ _ => trivial) held n
      have hshields := @Composition.statementsAfter _ K.toComposition (fun _ => True) eval eval
        (fun id _ => he.shielding id) v rest (fun _ _ => trivial) held n
      exact ⟨hrestored, hshields, fun _ => hshields.spares hbound⟩
    · exact ih (fun c hc => hrow c (.later hb hc)) v (hn.restored.evaluates hm) hdefinable

/-- A block changes no variable of the frames around it. -/
theorem block {items : List NodeId} (hrow : ∀ c, a.Exposed name items c → ¬ a.Reassigns name c) :
    Sparing (Machine.Evaluates unit a) C name 0 (inScope (statements eval items)) := by
  intro held m hm
  have hm' : Machine.Evaluates unit a { m with env := m.env.pushScope } := ⟨hm.current, hm.nodes⟩
  have hd : m.env.pushScope.Definable m.world.heap := by
    intro r hr
    simp [Environment.pushScope] at hr
  exact Sparing.inFrameFrom hS Environment.pushScope ⟨_, rfl⟩ rfl (he.statementsAfter hS hrow .nil held hm' hd)

/-- The value of a member. -/
theorem memberValue (r : RecordId) {parts : String × BindingMode × NodeId} (hv : ¬ a.Reassigns name parts.2.2) :
    Sparing (Machine.Evaluates unit a) C name 1
      ((if parts.2.1 = .recursive then setProperty r parts.1 .nil else pure ()) >>= fun _ => eval parts.2.2) := by
  refine Sparing.bind hS ?_ fun _ => he.inner _ hv
  split
  · exact .still (.setProperty ..)
  · exact .still (.pure _)

end

/-- A member is taken apart, its value is evaluated and becomes a property. -/
theorem members_cons (eval : Evaluator) (unit : UnitId) (r : RecordId) (member : NodeId) (rest : List NodeId) :
    members eval unit r (member :: rest) = memberParts unit member >>= fun parts =>
      ((if parts.2.1 = .recursive then setProperty r parts.1 .nil else pure ()) >>= fun _ => eval parts.2.2) >>=
        fun value => setProperty r parts.1 (value.named parts.1) >>= fun _ => members eval unit r rest := by
  rw [members]
  congr
  funext ⟨name, mode, value⟩
  dsimp only
  split <;> rfl

theorem kind?_of_memberParts {id : NodeId} {held : List Value} {m n : Machine} {parts : String × BindingMode × NodeId}
    (hm : m.Evaluates unit a) (h : (memberParts unit id).runFrom held m = (.ok parts, n)) :
    ∃ isFinal, a.kind? id = some (.binding parts.1 parts.2.1 isFinal parts.2.2) := by
  rw [memberParts, nodeOf_bind, runFrom_bind, runFrom_requireUnit hm.current] at h
  dsimp only at h
  rw [runFrom_nodeIn_bind, hm.node?] at h
  cases hn : a.get? id with
  | none =>
    rw [hn] at h
    cases h
  | some node =>
    obtain ⟨kind, position⟩ := node
    rw [hn] at h
    cases kind with
    | binding name mode isFinal value =>
      cases h
      exact ⟨isFinal, Arena.kind?_eq_some.2 ⟨position, hn⟩⟩
    | _ => cases h

section

variable (hS : Machine.Stage (Machine.Evaluates unit a) C)
include he hS

/-- Members change no variable at all, for they become properties of the record that stands open. -/
theorem members {ids : List NodeId} (hrow : ∀ c, a.Exposed name ids c → ¬ a.Reassigns name c) {r : RecordId}
    (held : List Value) {m : Machine} (hm : m.Evaluates unit a)
    (hr : m.env.frames[m.env.depth - 1]? = some (.record r)) (hsize : r.index < m.world.heap.size) :
    m.Sparing C name 1 ((Eval.members eval unit r ids).runFrom held m).2 := by
  have H : Calling fun x _ => Restoring x := Restoring.congruence.toCalling
  have K : Loading fun x _ => Shielding x := Shielding.loading
  induction ids generalizing m with
  | nil => exact .refl m
  | cons member rest ih =>
    rw [members_cons]
    refine Sparing.bindFrom hS (Sparing.looking (P := fun _ => True) (.memberParts unit member) held m trivial) ?_
    intro parts n hparts hmn
    obtain ⟨isFinal, hkind⟩ := kind?_of_memberParts hm hparts
    obtain ⟨position, hnode⟩ := Arena.kind?_eq_some.1 hkind
    have hvalue : ¬ a.Reassigns name parts.2.2 :=
      fun h => hrow member .first (.deeper hnode (List.mem_singleton_self _) h)
    refine Sparing.bindFrom hS (he.memberValue hS r hvalue held n (hmn.restored.evaluates hm)) fun value p _ hnp => ?_
    refine Sparing.bindFrom hS (Sparing.still (P := fun _ => True) (.setProperty ..) held p trivial)
      fun _ q hq hpq => ?_
    have hmp := hmn.trans hS hnp
    have hmq := hmp.trans hS hpq
    have hopen : q.env.frames[q.env.depth - 1]? = some (.record r) := hmq.shields.env.innermost_record hr
    by_cases hname : parts.1 = name
    · -- The open record has the name now, so it shields what stands outside of it.
      have hbound : q.env.BindsInnermost q.world.heap name := by
        cases hq
        refine ⟨_, hopen, ?_⟩
        rw [← hname]
        exact Heap.has_set_self (hsize.trans_le hmp.shields.heap.size) _ _
      have hrestored := @Invoking.members _ H.toInvoking eval eval he.restoring unit r rest held q
      have hshields := @Invoking.members _ K.toInvoking eval eval he.shielding unit r rest held q
      exact ⟨hrestored, hshields, fun _ => hshields.spares hbound⟩
    · refine ih (fun c hc => hrow c (.later ?_ hc)) (hmq.restored.evaluates hm) hopen
        (hsize.trans_le hmq.shields.heap.size)
      rintro ⟨mode, isFinal', value', hk⟩
      cases hkind.symm.trans hk
      exact hname rfl

/-- A new record is filled with its members standing open. -/
theorem construct {M : Manner} (hM : AlikeInside (fun x _ => Sparing (Machine.Evaluates unit a) C name 0 x) M M)
    {ids : List NodeId} (hrow : ∀ c, a.Exposed name ids c → ¬ a.Reassigns name c) (composed : List Label) {r : RecordId}
    (held : List Value) {m : Machine} (hm : m.Evaluates unit a) (hsize : r.index < m.world.heap.size) :
    m.Sparing C name 0 ((M.construct eval unit r [] composed ids).runFrom held m).2 := by
  have H : Composition fun x _ => Sparing (Machine.Evaluates unit a) C name 0 x := Sparing.composition hS (Nat.zero_le 1)
  have hbefore : Sparing (Machine.Evaluates unit a) C name 0
      ((modifyHeap fun h => h.setAll r []) >>= fun _ => M.compose r composed) :=
    Sparing.bind hS (.still (.setAll r [])) fun _ =>
      @Composition.compose _ H M M hM r composed fun _ _ _ _ => Sparing.throw _
  rw [Manner.construct, ← bind_assoc]
  refine Sparing.bindFrom hS (hbefore held m hm) fun _ n _ hn => ?_
  have hn' : Machine.Evaluates unit a { n with env := n.env.pushRecord r } :=
    ⟨(hn.restored.evaluates hm).current, (hn.restored.evaluates hm).nodes⟩
  refine Sparing.inFrameFrom hS (·.pushRecord r) ⟨_, rfl⟩ rfl (he.members hS hrow held hn' ?_ ?_)
  · simp [Environment.pushRecord, Environment.depth]
  · exact hsize.trans_le hn.shields.heap.size

/-- An object literal changes no variable. -/
theorem object {M : Manner} (hM : AlikeInside (fun x _ => Sparing (Machine.Evaluates unit a) C name 0 x) M M)
    (id : NodeId) {ids : List NodeId} (hrow : ∀ c, a.Exposed name ids c → ¬ a.Reassigns name c) (composed : List Label) :
    Sparing (Machine.Evaluates unit a) C name 0 (M.object eval unit id false composed ids) := by
  intro held m hm
  refine Sparing.bindFrom hS (Sparing.still (P := fun _ => True) .newRecord held m trivial) fun r n hr hn => ?_
  have hsize : r.index < n.world.heap.size := by
    cases hr
    simp [Heap.size]
  refine Sparing.bindFrom hS ?_ fun _ p _ _ => .refl p
  exact he.construct hS hM hrow composed (.record r :: held) (hn.restored.evaluates hm) hsize

/-! ### Loops and bindings -/

/-- A round of a loop changes no variable: if it is the name of the loop then no outer variable is within reach. -/
theorem round {body : NodeId} (hb : name ≠ "idx" → ¬ a.Reassigns name body) (v : Value) :
    Sparing (Machine.Evaluates unit a) C name 0 (inScope (Eval.define "idx" v >>= fun _ => eval body)) := by
  by_cases hname : name = "idx"
  · -- Every round has a variable of that name, so the body may even assign to it.
    subst hname
    intro held m hm
    have hd : m.env.pushScope.Definable m.world.heap := by
      intro r hr
      simp [Environment.pushScope] at hr
    refine Sparing.inFrameFrom hS Environment.pushScope ⟨_, rfl⟩ rfl ?_
    refine Sparing.bindFrom hS (Sparing.define (P := fun _ => True) "idx" v held _ trivial) fun _ n hn _ => ?_
    have hbound : n.env.BindsInnermost n.world.heap "idx" := by
      cases hn
      exact Environment.bindsInnermost_define hd "idx" v
    exact ⟨he.restoring body held n, he.shielding body held n, fun _ => (he.shielding body held n).spares hbound⟩
  · exact .inScope hS (.bind hS (.define "idx" v) fun _ => he.inner body (hb hname))

/-- A binding of the name changes the variable of the innermost frame only. -/
theorem binding {value : NodeId} (hv : ¬ a.Reassigns name value) (other : String) (mode : BindingMode) :
    Sparing (Machine.Evaluates unit a) C name 1 (Eval.binding eval other mode value) := by
  have H : Composition fun x _ => Sparing (Machine.Evaluates unit a) C name 1 x := Sparing.composition hS le_rfl
  exact @Composition.binding _ H (fun c => ¬ a.Reassigns name c) eval eval he.inner other mode value hv
    fun v => Sparing.define other v

end

/-- A name is defined once its value is there. -/
theorem binding_eq (eval : Evaluator) (name : String) (mode : BindingMode) (value : NodeId) :
    Eval.binding eval name mode value = ((if mode = .recursive then Eval.define name .nil else pure ()) >>= fun _ =>
      eval value) >>= fun v => Eval.define name (v.named name) >>= fun _ => pure (v.named name) := by
  unfold Eval.binding
  split <;> rfl

theorem defining_binding (hs : ∀ id, Shielding (eval id)) (mode : BindingMode) (value : NodeId) (held : List Value)
    {m : Machine} (hd : m.env.Definable m.world.heap) : Defining name held m (Eval.binding eval name mode value) := by
  intro v n hrun
  have hbefore : Shielding ((if mode = .recursive then Eval.define name .nil else pure ()) >>= fun _ => eval value) := by
    refine .bind ?_ fun _ => hs value
    split
    · exact Shielding.define name .nil
    · exact .still (.pure _)
  have hshields := hbefore held m
  rw [binding_eq, runFrom_bind] at hrun
  rcases hr : ((if mode = .recursive then Eval.define name .nil else pure ()) >>= fun _ => eval value).runFrom held m
    with ⟨e | w, p⟩ <;> rw [hr] at hrun hshields <;> cases hrun
  exact Environment.bindsInnermost_define (hshields.env.definable hshields.heap hd) name _

/-! ### Nodes -/

/-- A step that ends in a value does so without the place of its faults. -/
theorem ok_of_locating {position : Option Position} {x : Eval α} {held : List Value} {m n : Machine} {v : α}
    (h : (locating position x).runFrom held m = (.ok v, n)) : x.runFrom held m = (.ok v, n) := by
  rw [locating, mapFault, runFrom_finishing] at h
  rcases hr : x.runFrom held m with ⟨⟨fault | stuck⟩ | w, p⟩ <;> rw [hr] at h <;> cases h
  rfl

section

variable (hS : Machine.Stage (Machine.Evaluates unit a) C)
include hS

/-- What there is to know of a node, the children of which all stand where it stands. -/
theorem known {M : Manner} (hM : AlikeInside (fun x _ => Sparing (Machine.Evaluates unit a) C name 0 x) M M)
    (ha : a.Settled) {id : NodeId} {node : Node} (hn : a.get? id = some node) (hr : ¬ a.Reassigns name id)
    (hb : ¬ a.Binds name id)
    (hu : node.kind.isDeferred = false → ∀ c ∈ node.kind.children, a.Under name node.kind c ∧ c ∈ node.kind.operands)
    (ho : ∀ composed members, node.kind ≠ .object none composed members)
    (hl : ∀ start stop body, node.kind ≠ .loop start stop body) :
    Known (fun x _ => Sparing (Machine.Evaluates unit a) C name 0 x) M M
      (fun c => ¬ a.Reassigns name c ∧ ¬ a.Binds name c) unit node.kind := by
  have H : Composition fun x _ => Sparing (Machine.Evaluates unit a) C name 0 x := Sparing.composition hS (Nat.zero_le 1)
  have hkind : a.kind? id = some node.kind := Arena.kind?_eq_some.2 ⟨node.position, hn⟩
  have hchildren (hd : node.kind.isDeferred = false) (c : NodeId) (hc : c ∈ node.kind.children) :
      ¬ a.Reassigns name c ∧ ¬ a.Binds name c :=
    ⟨fun h => hr (.deeper hn (hu hd c hc).1 h), ha.not_binds hn (hu hd c hc).2⟩
  exact {
    children := hchildren
    defines := by
      intro other mode isFinal value hk v
      apply Sparing.define_of_ne
      rintro rfl
      exact hb ⟨mode, isFinal, value, hkind.trans (congrArg some hk)⟩
    counts := fun start stop body hk => absurd hk (hl start stop body)
    target := by
      intro target value hk
      have htarget : ¬ a.Reassigns name target := by
        refine (hchildren (by rw [hk]; rfl) target ?_).1
        rw [hk]
        exact List.mem_cons_self
      refine @Composition.yields_assignee _ H unit a (fun _ _ _ _ => Sparing.nodeIn) target _
        (fun other hother v => ?_) ?_
      · apply Sparing.assign_of_ne
        rintro rfl
        exact hr (.here ⟨target, value, hkind.trans (congrArg some hk), hother⟩)
      · intro owner property howner
        obtain ⟨position, htn⟩ := Arena.kind?_eq_some.1 howner
        exact ⟨fun h => htarget (.deeper htn (List.mem_singleton_self _) h),
          ha.not_binds htn (List.mem_singleton_self _)⟩
    members := fun composed members hk => absurd hk (ho composed members)
    composed := fun composed members hk => absurd hk (ho composed members)
    fields := fun _ _ _ _ => Sparing.throw _
    names := fun names _ => @Composition.exportNames _ H M M hM names fun _ _ _ _ => Sparing.throw _
    leaving := fun _ _ _ => Sparing.throw _ }

/-- A node to which no assignment belongs changes no variable, unless a call or an import does. -/
theorem nodeKind {M : Manner} {own eval : Evaluator} (ho : SparingNodes C name unit a own) (ha : a.Settled)
    {load : ImportRequest → Eval Value} {id : NodeId} {node : Node} (hn : a.get? id = some node)
    (hr : ¬ a.Reassigns name id) (hb : ¬ a.Binds name id)
    (hM : AlikeInside (fun x _ => Sparing (Machine.Evaluates unit a) C name 0 x) M M)
    (hcall : ∀ function arguments,
      Sparing (Machine.Evaluates unit a) C name 0 (M.callValue eval function arguments node.position))
    (hload : ∀ request, Sparing (Machine.Evaluates unit a) C name 0 (load request)) :
    Sparing (Machine.Evaluates unit a) C name 0 (M.nodeKind own eval load unit id node) := by
  have H : Composition fun x _ => Sparing (Machine.Evaluates unit a) C name 0 x := Sparing.composition hS (Nat.zero_le 1)
  have hbelow (c : NodeId) (hc : ¬ a.Reassigns name c ∧ ¬ a.Binds name c) := ho.outer c hc.1 hc.2
  have hflat (hu : node.kind.isDeferred = false → ∀ c ∈ node.kind.children,
        a.Under name node.kind c ∧ c ∈ node.kind.operands)
      (hobject : ∀ composed members, node.kind ≠ .object none composed members)
      (hloop : ∀ start stop body, node.kind ≠ .loop start stop body) :=
    @Composition.nodeKind _ H _ own own eval eval M M hbelow load load unit id node
      (known hS hM ha hn hr hb hu hobject hloop) hM (fun _ _ _ => hcall) fun _ _ _ _ => hload _
  -- Blocks, literals and loops open frames. The children of all other nodes stand where the nodes stand.
  obtain ⟨kind, position⟩ := node
  cases kind with
  | block items => exact ho.block hS fun c hc h => hr (.deeper hn hc h)
  | object params composed members =>
    cases params with
    | none => exact ho.object hS hM id (fun c hc h => hr (.deeper hn hc h)) composed
    | some params => exact hflat (by simp [NodeKind.isDeferred]) (by simp) (by simp)
  | loop start stop body =>
    have hbound (c : NodeId) (hc : c = start ∨ c = stop) : ¬ a.Reassigns name c ∧ ¬ a.Binds name c := by
      refine ⟨fun h => hr (.deeper hn (hc.imp_right .inl) h), ha.not_binds hn ?_⟩
      rcases hc with rfl | rfl <;> simp [NodeKind.operands, NodeKind.children]
    refine @Composition.loop _ H _ own own hbelow start stop body (hbound start (.inl rfl)) (hbound stop (.inr rfl)) ?_
    exact ho.round hS fun hne h => hr (.deeper hn (.inr (.inr ⟨hne, rfl⟩)) h)
  | function params body => exact hflat (by simp [NodeKind.isDeferred]) (by simp) (by simp)
  | _ => exact hflat (fun _ c hc => ⟨hc, hc⟩) (by simp) (by simp)

/-- A step towards the value of a node spares variables if the evaluation of the nodes further down does. -/
theorem nodeStep {M : Manner} {load : Loader} {eval : Evaluator} (he : SparingNodes C name unit a eval) (ha : a.Settled)
    (hrestoring : ∀ id, Restoring (M.nodeStep load eval id)) (hshielding : ∀ id, Shielding (M.nodeStep load eval id))
    (hM : AlikeInside (fun x _ => Sparing (Machine.Evaluates unit a) C name 0 x) M M)
    (hcall : ∀ function arguments callSite,
      Sparing (Machine.Evaluates unit a) C name 0 (M.callValue eval function arguments callSite))
    (hload : ∀ request, Sparing (Machine.Evaluates unit a) C name 0 (load eval request)) :
    SparingNodes C name unit a (M.nodeStep load eval) := by
  have houter (id : NodeId) (hr : ¬ a.Reassigns name id) (hb : ¬ a.Binds name id) :
      Sparing (Machine.Evaluates unit a) C name 0 (M.nodeStep load eval id) := by
    refine .reading fun m hm => ?_
    rw [hm.current]
    refine .nodeIn fun node hn => .ending hS (.mapFault fun _ _ _ _ => rfl) ?_
    exact nodeKind hS he.within ha hn hr hb hM (hcall · · _) hload
  refine ⟨hrestoring, hshielding, fun id hr => ?_, houter, ?_⟩
  · by_cases hb : a.Binds name id
    · obtain ⟨mode, isFinal, value, hk⟩ := hb
      refine .reading fun m hm => ?_
      rw [hm.current]
      refine .nodeIn fun ⟨kind, position⟩ hn => .ending hS (.mapFault fun _ _ _ _ => rfl) ?_
      obtain rfl := Option.some.inj (hk.symm.trans (Arena.kind?_eq_some.2 ⟨position, hn⟩))
      exact he.within.binding hS (fun h => hr (.deeper hn (List.mem_singleton_self _) h)) name mode
    · exact (houter id hr hb).weaken (Nat.zero_le 1)
  · rintro id ⟨mode, isFinal, value, hk⟩ held m hm hd v n hrun
    obtain ⟨position, hn⟩ := Arena.kind?_eq_some.1 hk
    rw [Manner.nodeStep, runFrom_bind, runFrom_get] at hrun
    dsimp only at hrun
    rw [hm.current, runFrom_nodeIn_bind, hm.node?, hn] at hrun
    exact defining_binding (fun id => he.within.shielding id) mode value held hd v n (ok_of_locating hrun)

end

end SparingNodes

end Eval

end DynScript
