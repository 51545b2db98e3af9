import DynScript.Proofs.Run.Stays
import DynScript.Run.Unit

/-!
# Evaluation stays within a realm

A node that fits its context is evaluated within the realm if the nodes further down are, form by form. A
function is called in a context of its own: one more call is in progress, and besides its parameters it knows
the names of the outermost frame.
-/

namespace DynScript

namespace Eval

open Machine (Sees Opens Stable stable_sees)

/-- Nodes are evaluated within a realm in the contexts for which `J` holds of them. -/
def Evaluates (ρ : Realm) (J : Context → NodeId → Prop) (eval : Evaluator) : Prop :=
  ∀ c id, J c id → Stays ρ (Sees ρ c) (eval id) (Value.Within ρ) (Sees ρ (ρ.arena.after c id))

/-- The functions of a realm may be called while so many calls are in progress, as far as calls may nest. -/
def Callable (ρ : Realm) (J : Context → NodeId → Prop) (depth : Nat) : Prop :=
  ∀ id, ρ.literal id → ∃ params body names, ρ.arena.kind? id = some (.function params body) ∧
    (∀ name ∈ names, name ∈ ρ.globals) ∧
    (depth < ρ.maxDepth → ρ.arena.Body J ⟨depth + 1, (params.map fun p => p.name) ++ names⟩ body)

namespace Stays

variable {α : Type} {ρ : Realm} {P P' : Machine → Prop} {Q : α → Prop} {c : Context}
  {J : Context → NodeId → Prop}

/-! ## Nodes and what they refer to -/

theorem nodeIn {id : NodeId} {kind : NodeKind} (hk : ρ.arena.kind? id = some kind) {k : Node → Eval α}
    (h : ∀ position, Stays ρ P (k ⟨kind, position⟩) Q P') : Stays ρ P (nodeIn ρ.unit id >>= k) Q P' := by
  intro held m hm hp
  obtain ⟨position, hn⟩ := hm.node? hk
  rw [runFrom_nodeIn_bind, hn]
  exact h position held m hm hp

theorem nodeOf {id : NodeId} {kind : NodeKind} (hk : ρ.arena.kind? id = some kind) {k : Node → Eval α}
    (h : ∀ position, Stays ρ P (k ⟨kind, position⟩) Q P') : Stays ρ P (nodeOf ρ.unit id >>= k) Q P' := by
  rw [nodeOf_bind]
  exact bind (requireUnit id) fun _ _ => nodeIn hk h

theorem functionParts {f : Function} (hf : f.Within ρ) {params : List Param} {body : NodeId}
    (hk : ρ.arena.kind? f.node = some (.function params body)) :
    Stays ρ P (Eval.functionParts f) (fun parts => parts = (params, body)) P := by
  unfold Eval.functionParts
  rw [hf.unit]
  exact nodeIn hk fun position => pure rfl

/-- The statements of a block are known to be in sequence. -/
theorem blockItems? {id : NodeId} (hb : ρ.arena.Body J c id) :
    Stays ρ P (Eval.blockItems? ρ.unit id) (fun items => match items with
      | some items => ρ.arena.Sequence J c items
      | none => J c id) P := by
  obtain ⟨kind, hk, hbody⟩ := hb
  refine nodeOf hk fun position => ?_
  cases kind with
  | block items => exact pure hbody
  | _ => exact pure hbody

/-- What is assigned to is known. -/
theorem assignee {target : NodeId} {kind : NodeKind} (hk : ρ.arena.kind? target = some kind) :
    Stays ρ P (Eval.assignee ρ.unit target) (fun assignee => match assignee with
      | .name name => kind = .ident name
      | .property owner name => kind = .property owner name) P := by
  refine nodeOf hk fun position => ?_
  dsimp only
  split
  · exact pure rfl
  · exact pure rfl
  · exact fail (harmless_of (by simp) (by simp))

/-! ## Statements -/

section

variable {eval : Evaluator} (he : Evaluates ρ J eval)
include he

/-- What comes of a node that names nothing, in a machine of which more is known. -/
theorem operandIn (hP : Stable P) (hsees : ∀ m, P m → m.Sees ρ c) {id : NodeId} (hj : J c id) :
    Stays ρ P (eval id) (Value.Within ρ) P :=
  ((he c id hj).keeping hP hsees).weaken (fun _ h => h) (fun _ h => h) fun _ h => h.1

theorem operand {id : NodeId} (hj : J c id) : Stays ρ (Sees ρ c) (eval id) (Value.Within ρ) (Sees ρ c) :=
  operandIn he (stable_sees ρ c) (fun _ h => h) hj

theorem within : Evaluates ρ J (within ρ.unit eval) :=
  fun c id hj => bind (requireUnit id) fun _ _ => he c id hj

theorem statementsAfter {last : Value} (hl : last.Within ρ) {items : List NodeId}
    (hs : ρ.arena.Sequence J c items) :
    Stays ρ (Sees ρ c) (statementsAfter eval last items) (Value.Within ρ) (Sees ρ c) := by
  induction items generalizing c last with
  | nil => exact pure hl
  | cons statement rest ih =>
    refine bind (holding _ (he c statement hs.1)) fun value hv => ?_
    refine (ih hv hs.2).weaken (fun _ h => h) (fun _ h => h) fun m hm => hm.fewer rfl fun name hname => ?_
    exact List.mem_append_right _ hname

theorem statements {items : List NodeId} (hs : ρ.arena.Sequence J c items) :
    Stays ρ (Sees ρ c) (statements eval items) (Value.Within ρ) (Sees ρ c) :=
  statementsAfter he .nil hs

theorem body {id : NodeId} (hb : ρ.arena.Body J c id) :
    Stays ρ (Sees ρ c) (body eval ρ.unit id) (Value.Within ρ) (Sees ρ c) := by
  refine bind (blockItems? hb) fun items hi => ?_
  cases items with
  | some items => exact statements he hi
  | none => exact operand he hi

end

/-! ## Scopes -/

/-- What a context says holds in a new scope, too. -/
theorem sees_pushScope {m : Machine} (hm : m.Sees ρ c) :
    Sees ρ c { m with env := m.env.pushScope } where
  depth := hm.depth
  names := hm.names.imp id fun hnames name hname => by
    obtain ⟨frame, hframe, hhas⟩ := hnames name hname
    exact ⟨frame, Array.mem_push.2 (.inl hframe), hhas⟩
  definable := .inr fun r hr => by
    have hback : m.env.pushScope.frames.back? = some (.locals .empty) := Array.back?_push
    rw [hback] at hr
    cases hr

/-- So it does with a record standing open that is there. -/
theorem sees_pushRecord {m : Machine} {r : RecordId} (hm : m.Sees ρ c)
    (hr : ρ.misses ∨ r.index < m.world.heap.size) : Sees ρ c { m with env := m.env.pushRecord r } where
  depth := hm.depth
  names := hm.names.imp id fun hnames name hname => by
    obtain ⟨frame, hframe, hhas⟩ := hnames name hname
    exact ⟨frame, Array.mem_push.2 (.inl hframe), hhas⟩
  definable := hr.imp id fun hlt q hq => by
    have hback : (m.env.pushRecord r).frames.back? = some (.record r) := Array.back?_push
    rw [hback] at hq
    obtain rfl : r = q := by simpa using hq
    exact hlt

/-- A step in a scope of its own. -/
theorem inOwnScope {x : Eval α} (hx : Stays ρ (Sees ρ c) x Q P') :
    Stays ρ (Sees ρ c) (Eval.inScope x) Q (Sees ρ c) :=
  hx.inScope (stable_sees ρ c) fun _ _ hp => sees_pushScope hp

/-! ## Calls -/

section

variable {eval : Evaluator} (he : Evaluates ρ J eval)
include he

/-- The body of a function knows its parameters and names of the outermost frame. -/
theorem functionBody {bound : List (String × Value)} (hb : ∀ entry ∈ bound, entry.2.Within ρ)
    {names : List String} (hn : ∀ name ∈ names, name ∈ ρ.globals) {d : Nat} {id : NodeId}
    (hbody : ρ.arena.Body J ⟨d, bound.map Prod.fst ++ names⟩ id) :
    Stays ρ (fun m => m.calls.depth = d)
      (Eval.inScope (Eval.defineAll bound >>= fun _ => Eval.body (Eval.within ρ.unit eval) ρ.unit id))
      (Value.Within ρ) fun m => m.calls.depth = d := by
  have hrun := bind (defineAll (c := ⟨d, names⟩) hb) fun _ _ => body (within he) hbody
  refine hrun.inScope (Machine.stable_depth d) fun m hm hd => ⟨hd, .inr fun name hname => ?_, .inr ?_⟩
  · obtain ⟨frame, hframe, hhas⟩ := hm.globals name (hn name hname)
    exact ⟨frame, Array.mem_push.2 (.inl (Array.mem_of_getElem? hframe)), hhas⟩
  · intro r hr
    have hback : m.env.pushScope.frames.back? = some (.locals .empty) := Array.back?_push
    rw [hback] at hr
    cases hr

theorem callFunction {d : Nat} (hP : Stable P) (hd : ∀ m, P m → m.calls.depth = d) (hc : Callable ρ J d)
    {f : Function} (hf : f.Within ρ) {args : List Value} (ha : ∀ v ∈ args, v.Within ρ)
    (callSite : Option Position) : Stays ρ P (callFunction eval f args callSite) (Value.Within ρ) P := by
  obtain ⟨params, bodyId, names, hk, hnames, hbody⟩ := hc f.node hf.literal
  refine bind (functionParts hf hk) fun parts hsame => ?_
  subst hsame
  dsimp only
  by_cases harity : params.length = args.length
  · rw [if_neg (not_not.2 harity)]
    have hfst : ((params.map fun p => p.name).zip args).map Prod.fst = params.map fun p => p.name :=
      List.map_fst_zip (by simp [harity])
    have hbound : ∀ entry ∈ (params.map fun p => p.name).zip args, entry.2.Within ρ :=
      fun entry hmem => ha _ (List.of_mem_zip hmem).2
    have hstable := Machine.stable_depth (d + 1)
    refine catchReturn hP (inCall (R := fun m => m.calls.depth = d + 1) hP hd hstable
      (fun hlt : d < ρ.maxDepth => ?inside) fun m hp => ?entered)
    case inside =>
      refine bind (receiverOf hstable hf) fun receiver hr => ?_
      rw [hf.unit]
      refine inUnit ?_
      rw [← hfst] at hbody
      have hrun := functionBody he hbound hnames (hbody hlt)
      cases receiver with
      | none => exact hrun
      | some r =>
        have howns := hr r rfl
        exact (hrun.inRecord hstable howns fun _ _ h => h).withActive hstable howns fun _ h => h
    case entered =>
      show (m.calls.frames.push _).size = d + 1
      rw [Array.size_push, ← hd m hp]
      rfl
  · rw [if_pos harity]
    exact bind (Q := fun _ => False) (R := P) (fail (ρ.accepts.ordinary rfl)) fun _ h => h.elim

omit he in
/-- No record of a realm is a class, so calling one copies it. -/
theorem callRecord (hP : Stable P) {r : RecordId} (hr : ρ.Owns r) (args : List Value)
    (callSite : Option Position) : Stays ρ P (callRecord eval r args callSite) (Value.Within ρ) P := by
  refine bind heap fun h hh => ?_
  rw [hh.template? hr]
  dsimp only
  refine stopping _ (fail (ρ.accepts.ordinary rfl)) fun _ => ?_
  refine bind (onHeap (Q := ρ.Owns) hP fun h hh => ⟨.shallowClone h _, hh.shallowClone hr⟩) fun q hq => ?_
  exact pure (.record hq)

theorem callValue {d : Nat} (hP : Stable P) (hd : ∀ m, P m → m.calls.depth = d) (hc : Callable ρ J d)
    {callee : Value} (hcallee : callee.Within ρ) {args : List Value} (ha : ∀ v ∈ args, v.Within ρ)
    (callSite : Option Position) : Stays ρ P (callValue eval callee args callSite) (Value.Within ρ) P := by
  refine holding _ (holding _ ?_)
  cases hcallee with
  | function hf => exact callFunction he hP hd hc hf ha callSite
  | native n => exact callNative hP n args
  | record hr => exact callRecord hP hr args callSite
  | _ => exact fail (ρ.accepts.ordinary rfl)

end

/-! ## Forms -/

/-- An operator that makes a value in a heap and changes no record. -/
theorem makes (hP : Stable P) {f : Heap → Except Cause (Value × Heap)}
    (h : ∀ heap : Heap, Gives (Cause.Harmless ρ) (heap.Makes (Value.Within ρ)) (f heap)) :
    Stays ρ P (do
      let (value, heap) ← Eval.ofExcept (f (← Eval.heap))
      Eval.modifyHeap fun _ => heap
      return value) (Value.Within ρ) P := by
  intro held m hm hp
  have hgives := h m.world.heap
  simp only [Eval.heap, runFrom_bind, runFrom_get, runFrom_pure]
  cases hresult : f m.world.heap with
  | error cause =>
    rw [hresult] at hgives
    exact ⟨.refl m, hm, hgives⟩
  | ok result =>
    rw [hresult] at hgives
    have hgrows := Heap.GrowsTo.of_records hgives.2
    have hext : m.Extends { m with world := { m.world with heap := result.2 } } := ⟨.refl _, hgrows, rfl⟩
    exact ⟨hext, hm.withHeap (hm.heap.of_records hgives.2) hgrows, hgives.1, hP m _ hext hp⟩

section

variable {own : Evaluator} (ho : Evaluates ρ J own)
include ho

theorem valuesAfter {before : List Value} (hb : ∀ v ∈ before, v.Within ρ) {ids : List NodeId}
    (hi : ∀ i ∈ ids, J c i) :
    Stays ρ (Sees ρ c) (valuesAfter own before ids) (fun values => ∀ v ∈ values, v.Within ρ) (Sees ρ c) := by
  induction ids generalizing before with
  | nil => exact pure fun v hv => hb v (List.mem_reverse.1 hv)
  | cons id rest ih =>
    refine bind (operand ho (hi id (by simp))) fun value hv => ?_
    refine holding _ (ih (fun w hw => ?_) fun i hmem => hi i (by simp [hmem]))
    rcases List.mem_cons.1 hw with rfl | hw
    · exact hv
    · exact hb w hw

theorem values {ids : List NodeId} (hi : ∀ i ∈ ids, J c i) :
    Stays ρ (Sees ρ c) (values own ids) (fun values => ∀ v ∈ values, v.Within ρ) (Sees ρ c) :=
  valuesAfter ho (by simp) hi

theorem operands {lhs rhs : NodeId} (hl : J c lhs) (hr : J c rhs) :
    Stays ρ (Sees ρ c) (operands own lhs rhs) (fun pair => pair.1.Within ρ ∧ pair.2.Within ρ) (Sees ρ c) :=
  bind (operand ho hl) fun _ hv => bind (holding _ (operand ho hr)) fun _ hw => pure ⟨hv, hw⟩

/-- The value of a binding gets the name. -/
theorem bindingValue (name : String) {valueId : NodeId} (hv : J c valueId) :
    Stays ρ (Sees ρ c) (do
      let value := (← own valueId).named name
      Eval.define name value
      return value) (Value.Within ρ) (Sees ρ (c.define name)) := by
  refine bind (operand ho hv) fun value hvalue => ?_
  exact bind (define name (hvalue.named name)) fun _ _ => pure (hvalue.named name)

/-- A binding makes its name known; a recursive one does so before its value. -/
theorem binding (name : String) (mode : BindingMode) {valueId : NodeId}
    (hv : J (c.forValue name mode) valueId) :
    Stays ρ (Sees ρ c) (binding own name mode valueId) (Value.Within ρ) (Sees ρ (c.define name)) := by
  refine guarded (R := Sees ρ (c.forValue name mode)) _ ?_ (fun m hm hmode => ?_) fun _ => ?_
  · by_cases hmode : mode = .recursive
    · rw [Context.forValue, if_pos hmode]
      exact define name .nil
    · exact (define name .nil).weaken (fun _ h => h) (fun _ h => h) fun m hm => hm.fewer
        (by simp) fun other hother => by
          rw [Context.forValue, if_neg hmode] at hother
          exact List.mem_cons_of_mem _ hother
  · rwa [Context.forValue, if_neg hmode]
  · exact (bindingValue ho name hv).weaken (fun _ h => h) (fun _ h => h) fun m hm =>
      hm.fewer (by simp) fun other hother => Context.mem_define_forValue mode hother

theorem assignment {target valueId : NodeId} (hv : J c valueId) (ht : ∃ kind, ρ.arena.kind? target = some kind ∧
      match kind with
      | .ident name => c.Bound ρ.misses name
      | .property owner _ => J c owner
      | _ => True) :
    Stays ρ (Sees ρ c) (assignment own ρ.unit target valueId) (Value.Within ρ) (Sees ρ c) := by
  obtain ⟨kind, hk, htarget⟩ := ht
  refine bind (operand ho hv) fun value hvalue => bind (assignee hk) fun assignee hassignee => ?_
  cases assignee with
  | name name =>
    subst hassignee
    have hknows := knows_of_bound htarget fun _ h => h
    exact bind (assign (stable_sees ρ c) hknows hvalue) fun _ _ => pure hvalue
  | property owner name =>
    subst hassignee
    refine bind (holding _ (operand ho htarget)) fun record hrecord => ?_
    cases hrecord with
    | record hr => exact bind (setProperty (stable_sees ρ c) hr name hvalue) fun _ _ => pure hvalue
    | _ => exact bind (Q := fun _ => False) (R := Sees ρ c) (fail (ρ.accepts.ordinary rfl)) fun _ h => h.elim

theorem fields {r : RecordId} (hr : ρ.Owns r) {items : List Field} (hi : ∀ field ∈ items, J c field.value) :
    Stays ρ (Sees ρ c) (fields own r items) Whatever (Sees ρ c) := by
  induction items with
  | nil => exact pure trivial
  | cons field rest ih =>
    have hrest := ih fun f hf => hi f (by simp [hf])
    refine bind (operand ho (hi field (by simp))) fun value hvalue => bind heap fun h _ => ?_
    refine stopping _ (failAt (harmless_of (by simp) (by simp))) fun _ => ?_
    exact bind (setProperty (stable_sees ρ c) hr field.name (hvalue.named field.name)) fun _ _ => hrest

theorem recordLiteral {items : List Field} (hi : ∀ field ∈ items, J c field.value) :
    Stays ρ (Sees ρ c) (recordLiteral own items) (Value.Within ρ) (Sees ρ c) := by
  refine newRecord (stable_sees ρ c) fun r hr => ?_
  refine bind (holding _ ((fields ho hr hi).weaken (fun _ h => h.1) (fun _ h => h) fun _ h => h)) fun _ _ => ?_
  exact pure (.record hr)

omit ho in
/-- A property of a record that stands open makes its name known. -/
theorem setOpen {r : RecordId} (hr : ρ.Owns r) (name : String) {v : Value} (hv : v.Within ρ) :
    Stays ρ (fun m => Sees ρ c m ∧ Opens r m) (Eval.setProperty r name v) Whatever
      fun m => Sees ρ (c.define name) m ∧ Opens r m := by
  have hstable := (stable_sees ρ c).and (Machine.stable_opens r)
  intro held m hm hp
  obtain ⟨hext, hn, -, hsees, hopens⟩ := setProperty hstable hr name hv held m hm hp
  refine ⟨hext, hn, trivial, hsees.define (.inr ⟨.record r, hopens.frame, ?_⟩), hopens⟩
  exact Heap.has_set_self hp.2.there name v

/-- A member makes its name known to the members after it. -/
theorem members {r : RecordId} (hr : ρ.Owns r) {ids : List NodeId} (hm : ρ.arena.Members J c ids) :
    Stays ρ (fun m => Sees ρ c m ∧ Opens r m) (members own ρ.unit r ids) Whatever fun _ => True := by
  induction ids generalizing c with
  | nil => exact (pure trivial).weaken (fun _ h => h) (fun _ h => h) fun _ _ => trivial
  | cons member rest ih =>
    obtain ⟨name, mode, isFinal, value, hk, hvalue, hrest⟩ := hm
    have hparts : Stays ρ (fun m => Sees ρ c m ∧ Opens r m) (Eval.memberParts ρ.unit member)
        (fun parts => parts = (name, mode, value)) fun m => Sees ρ c m ∧ Opens r m :=
      nodeOf hk fun position => pure rfl
    refine bind hparts fun parts hsame => ?_
    subst hsame
    dsimp only
    have hstable (c : Context) := (stable_sees ρ c).and (Machine.stable_opens r)
    refine guarded (R := fun m => Sees ρ (c.forValue name mode) m ∧ Opens r m) _ ?_ (fun m hm hmode => ?_)
      fun _ => ?_
    · by_cases hmode : mode = .recursive
      · rw [Context.forValue, if_pos hmode]
        exact setOpen hr name .nil
      · rw [Context.forValue, if_neg hmode]
        exact setProperty (hstable c) hr name .nil
    · rwa [Context.forValue, if_neg hmode]
    · refine bind (operandIn ho (hstable _) (fun _ h => h.1) hvalue) fun v hv => ?_
      refine bind (setOpen hr name (hv.named name)) fun _ _ => (ih hrest).weaken (fun m hm => ⟨?_, hm.2⟩)
        (fun _ h => h) fun _ h => h
      exact hm.1.fewer (by simp) fun other hother => Context.mem_define_forValue mode hother

/-- An object without parameters is made at once. -/
theorem object {id : NodeId} {composed : List Label} {ids : List NodeId}
    (hl : ∀ label ∈ composed, c.Bound ρ.misses label.name) (hm : ρ.arena.Members J c ids) :
    Stays ρ (Sees ρ c) (object own ρ.unit id false composed ids) (Value.Within ρ) (Sees ρ c) := by
  have hthere (r : RecordId) : Stable fun m => Sees ρ c m ∧ r.index < m.world.heap.size :=
    (stable_sees ρ c).and fun _ _ h hlt => hlt.trans_le h.heap.size
  refine newRecord (stable_sees ρ c) fun r hr => ?_
  have hconstruct : Stays ρ (fun m => Sees ρ c m ∧ r.index < m.world.heap.size)
      (construct own ρ.unit r [] composed ids) Whatever fun m => Sees ρ c m ∧ r.index < m.world.heap.size := by
    refine bind (modifyHeap (hthere r) fun h hh => ⟨.setAll h r _, hh.setAll hr (by simp)⟩) fun _ _ => ?_
    refine bind (compose (hthere r) hr fun source hs => knows_of_bound (hl source hs) fun _ h => h.1) fun _ _ => ?_
    refine (members ho hr hm).inRecord (hthere r) hr fun m _ hp => ⟨sees_pushRecord hp.1 (.inr hp.2), ?_, hp.2⟩
    exact Array.mem_push.2 (.inr rfl)
  refine bind (holding _ hconstruct) fun _ _ => ?_
  exact (pure (.record hr)).weaken (fun _ h => h.1) (fun _ h => h) fun _ h => h

theorem property {target : NodeId} (ht : J c target) (name : String) :
    Stays ρ (Sees ρ c) (property own target name) (Value.Within ρ) (Sees ρ c) := by
  refine bind (operand ho ht) fun value hvalue => ?_
  cases hvalue with
  | record hr =>
    refine bind heap fun h hh => ?_
    split
    · rename_i f hf
      have hwithin : f.Within ρ := by
        cases hh.property? hr hf
        assumption
      exact bind (holdReceiver (stable_sees ρ c) hwithin _) fun f hf => pure (.function hf)
    · rename_i value hvalue
      exact pure (hh.property? hr hvalue)
    · exact fail (ρ.accepts.ordinary rfl)
  | _ => exact fail (ρ.accepts.ordinary rfl)

theorem iterations {bodyId : NodeId} (hb : J (c.define "idx") bodyId) (count : Nat) (i : Int) :
    Stays ρ (Sees ρ c) (iterations own bodyId count i) Whatever (Sees ρ c) := by
  induction count generalizing i with
  | zero => exact pure trivial
  | succ count ih =>
    exact bind (inOwnScope (bind (define "idx" (.number _)) fun _ _ => ho _ _ hb)) fun _ _ => ih _

theorem loop {start stop bodyId : NodeId} (hs : J c start) (ht : J c stop) (hb : J (c.define "idx") bodyId) :
    Stays ρ (Sees ρ c) (loop own start stop bodyId) (Value.Within ρ) (Sees ρ c) := by
  refine bind (operands ho hs ht) fun bounds _ => ?_
  split
  · exact bind (iterations ho hb _ _) fun _ _ => pure .nil
  · exact fail (ρ.accepts.ordinary rfl)
  · exact fail (ρ.accepts.ordinary rfl)

theorem conditional {condition thenBranch : NodeId} {elseBranch : Option NodeId} (hc : J c condition)
    (ht : J c thenBranch) (hb : ∀ branch ∈ elseBranch, J c branch) :
    Stays ρ (Sees ρ c) (conditional own condition thenBranch elseBranch) (Value.Within ρ) (Sees ρ c) := by
  refine bind (operand ho hc) fun value _ => ?_
  split
  · exact operand ho ht
  · cases elseBranch with
    | some branch => exact operand ho (hb branch rfl)
    | none => exact pure .nil
  · exact fail (ρ.accepts.ordinary rfl)

theorem logical (op : LogicalOp) {lhs rhs : NodeId} (hl : J c lhs) (hr : J c rhs) :
    Stays ρ (Sees ρ c) (logical own op lhs rhs) (Value.Within ρ) (Sees ρ c) := by
  refine bind (operand ho hl) fun left _ => bind (truth _ left) fun left _ => ?_
  split
  · exact pure (.bool _)
  · exact pure (.bool _)
  · exact bind (operand ho hr) fun right _ => bind (truth _ right) fun _ _ => pure (.bool _)

theorem texts (written : String) {ids : List NodeId} (hi : ∀ i ∈ ids, J c i) :
    Stays ρ (Sees ρ c) (texts own written ids) Whatever (Sees ρ c) := by
  induction ids generalizing written with
  | nil => exact pure trivial
  | cons id rest ih =>
    exact bind (operand ho (hi id (by simp))) fun value _ => bind heap fun h _ =>
      ih _ fun i hmem => hi i (by simp [hmem])

theorem print {args : List NodeId} (ha : ∀ i ∈ args, J c i) :
    Stays ρ (Sees ρ c) (print own args) (Value.Within ρ) (Sees ρ c) := by
  refine bind (texts ho _ ha) fun line _ => ?_
  refine bind (Q := Whatever) (change (stable_sees ρ c) fun m hm _ => ⟨⟨.refl _, .refl _, rfl⟩, ?_, trivial⟩)
    fun _ _ => pure .nil
  exact hm.withWorld rfl rfl

theorem leaveCall {value : Option NodeId} (hv : ∀ i ∈ value, J c i) :
    Stays ρ (Sees ρ c) (leaveCall own value) (Value.Within ρ) (Sees ρ c) := by
  cases value with
  | none => exact fail (harmless_returning .nil)
  | some id => exact bind (operand ho (hv id rfl)) fun _ h => fail (harmless_returning h)

/-- A record that is opened need not be there, so this is for realms in which names may be missing. -/
theorem envOpen (hmiss : ρ.misses) {target bodyId : NodeId} (ht : J c target) (hb : J c bodyId) :
    Stays ρ (Sees ρ c) (envOpen own target bodyId) (Value.Within ρ) (Sees ρ c) := by
  refine bind (operand ho ht) fun value hvalue => ?_
  cases hvalue with
  | record hr =>
    exact (operand ho hb).inRecord (stable_sees ρ c) hr fun m _ hp => sees_pushRecord hp (.inl hmiss)
  | _ => exact fail (ρ.accepts.ordinary rfl)

end

section

variable {own eval : Evaluator} (ho : Evaluates ρ J own) (he : Evaluates ρ J eval)

include ho he in
theorem call (hc : Callable ρ J c.depth) {callee : NodeId} {args : List NodeId} (hcallee : J c callee)
    (ha : ∀ i ∈ args, J c i) (callSite : Option Position) :
    Stays ρ (Sees ρ c) (call own eval callee args callSite) (Value.Within ρ) (Sees ρ c) := by
  refine bind (operand ho hcallee) fun function hf => ?_
  refine bind (holding _ (values ho ha)) fun arguments harguments => ?_
  exact callValue he (stable_sees ρ c) (fun m hm => hm.depth) hc hf harguments callSite

include ho he in
/-- A node that fits its context is evaluated within the realm, if the nodes right below it are. -/
theorem nodeKind {load : ImportRequest → Eval Value} (hc : Callable ρ J c.depth)
    {made : Context → List Param → NodeId → Prop} {id : NodeId} {kind : NodeKind}
    (hmade : ∀ params body, kind = .function params body → made c params body → ρ.literal id)
    (hf : kind.Fits ρ.arena ρ.misses made J c) (position : Option Position) :
    Stays ρ (Sees ρ c) (nodeKind own eval load ρ.unit id ⟨kind, position⟩) (Value.Within ρ)
      (Sees ρ (c.defineAll kind.introduced)) := by
  have hstable := stable_sees ρ c
  unfold Eval.nodeKind
  cases kind
  all_goals dsimp only
  case block items => exact inOwnScope (statements ho hf)
  case binding name mode isFinal value => exact binding ho name mode hf
  case function params body =>
    exact pure (.function ⟨rfl, hmade params body rfl hf, by simp [Function.ofNode]⟩)
  case call callee args => exact call ho he hc hf.1 hf.2 position
  case ident name => exact lookup (knows_of_bound hf fun _ h => h)
  case literal value => exact pure (by cases value <;> constructor)
  case list items =>
    exact bind (values ho hf) fun _ hv => newList hstable fun v hmem => hv v (List.mem_toArray.1 hmem)
  case record items => exact recordLiteral ho hf
  case index target index =>
    exact bind (operands ho hf.1 hf.2) fun pair hpair => ofExcept (ρ.accepts.itemAt hpair.1 pair.2)
  case property target name => exact property ho hf name
  case len operand => exact bind (Stays.operand ho hf) fun v _ => ofExcept (ρ.accepts.len v)
  case loop start stop body => exact loop ho hf.1 hf.2.1 hf.2.2
  case conditional condition thenBranch elseBranch => exact conditional ho hf.1 hf.2.1 hf.2.2
  case assign target value => exact assignment ho hf.1 hf.2
  case logical op lhs rhs => exact logical ho op hf.1 hf.2
  case equality op lhs rhs =>
    exact bind (operands ho hf.1 hf.2) fun pair _ => bind heap fun h _ =>
      ofExcept (ρ.accepts.equality h op pair.1 pair.2)
  case comparison op lhs rhs =>
    exact bind (operands ho hf.1 hf.2) fun pair _ => bind heap fun h _ =>
      ofExcept (ρ.accepts.comparison h op pair.1 pair.2)
  case arithmetic op lhs rhs =>
    exact bind (operands ho hf.1 hf.2) fun pair hpair =>
      makes hstable fun h => ρ.accepts.arithmetic h op hpair.1 hpair.2
  case negate operand => exact bind (Stays.operand ho hf) fun v _ => ofExcept (ρ.accepts.negate v)
  case prepend item list =>
    exact bind (operands ho hf.1 hf.2) fun pair hpair =>
      makes hstable fun h => ρ.accepts.prepend h hpair.1 hpair.2
  case pipe lhs rhs desugared =>
    cases desugared with
    | true => exact Stays.operand ho (hf rfl)
    | false => exact fail (harmless_of (by simp) (by simp))
  case object params composed members =>
    obtain ⟨rfl, hcomposed, hmembers⟩ := hf
    exact object ho hcomposed hmembers
  case clone operand => exact bind (Stays.operand ho hf) fun v hv => clone hstable hv
  case envOpen target body => exact envOpen ho hf.1 hf.2.1 hf.2.2
  case imports root path => exact hf.elim
  case exports names =>
    exact bind (exportNames hstable fun label hl => knows_of_bound (hf label hl) fun _ h => h) fun _ _ => pure .nil
  case print args => exact print ho hf
  case returns value => exact leaveCall ho hf

include he in
/-- A step towards the value of a node stays within the realm, if the steps after it do. -/
theorem nodeStep (load : Loader) (hc : Callable ρ J c.depth)
    {made : Context → List Param → NodeId → Prop} {id : NodeId} {kind : NodeKind}
    (hmade : ∀ params body, kind = .function params body → made c params body → ρ.literal id)
    (hk : ρ.arena.kind? id = some kind) (hf : kind.Fits ρ.arena ρ.misses made J c) :
    Stays ρ (Sees ρ c) (nodeStep load eval id) (Value.Within ρ) (Sees ρ (ρ.arena.after c id)) := by
  have hafter : ρ.arena.after c id = c.defineAll kind.introduced := by simp [Arena.after, hk]
  rw [hafter]
  refine reading fun m hm _ => ?_
  rw [hm.unit]
  refine nodeIn hk fun position => ?_
  exact locating (stable_sees ρ c) (nodeKind (within he) he hc hmade hf position)

/-! ## Runs of a unit -/

omit he in
/-- The statements of a unit. -/
theorem topLevel {bodyId : NodeId} {items : List NodeId} (hk : ρ.arena.kind? bodyId = some (.block items)) :
    Stays ρ P (topLevel bodyId) (fun ids => ids = items) P := by
  refine reading fun m hm _ => ?_
  rw [hm.unit]
  have hitems : Stays ρ P (Eval.blockItems? ρ.unit bodyId) (fun found => found = some items) P :=
    nodeOf hk fun position => pure rfl
  refine bind hitems fun found hfound => pure ?_
  rw [hfound]
  rfl

include he in
theorem unitStatements {items : List NodeId} (hj : ∀ i ∈ items, J c i) :
    Stays ρ (Sees ρ c) (unitStatements eval items) Whatever (Sees ρ c) := by
  induction items with
  | nil => exact pure trivial
  | cons statement rest ih =>
    refine bind (returned (stable_sees ρ c) (he c statement (hj statement (by simp)))) fun ended _ => ?_
    split
    · exact pure trivial
    · exact ih fun i hi => hj i (by simp [hi])

omit he in
/-- What has been exported is taken out of the machine. -/
theorem takeExports (hP : Stable P) : Stays ρ P
    (modifyGet fun m => (m.exports, { m with exports := .empty })) (fun exports => exports.Within ρ) P := by
  refine change hP fun m hm _ => ⟨⟨.refl _, .refl _, rfl⟩, ?_, hm.exports⟩
  exact ⟨hm.unit, hm.arena, hm.heap, hm.env, Bindings.within_empty ρ, hm.maxDepth, hm.globals⟩

include he in
theorem runUnit {bodyId : NodeId} {items : List NodeId} (hk : ρ.arena.kind? bodyId = some (.block items))
    (hj : ∀ i ∈ items, J c i) :
    Stays ρ (Sees ρ c) (runUnit eval bodyId) (fun exports => exports.Within ρ) (Sees ρ c) := by
  refine reading fun m hm _ => ?_
  rw [hm.unit]
  refine bind (topLevel hk) fun ids hids => ?_
  subst hids
  exact bind (unitStatements (within he) hj) fun _ _ => takeExports (stable_sees ρ c)

include he in
/-- Without a function `main` there is nothing to call. -/
theorem invokeMain (hc : Callable ρ J c.depth) : Stays ρ (Sees ρ c) (invokeMain eval) Whatever (Sees ρ c) := by
  refine bind (lookup? mainName) fun value hvalue => ?_
  split
  · rename_i f
    have hwithin : (Value.function f).Within ρ := hvalue.1 _ rfl
    obtain hf : f.Within ρ := by
      cases hwithin
      assumption
    obtain ⟨params, body, names, hk, -, -⟩ := hc f.node hf.literal
    refine bind (functionParts hf hk) fun parts _ => ?_
    dsimp only
    split
    · have hargs : ∀ v ∈ ([] : List Value), v.Within ρ := by simp
      exact bind (callValue he (stable_sees ρ c) (fun m hm => hm.depth) hc hwithin hargs none) fun _ _ =>
        pure trivial
    · exact pure trivial
  · exact pure trivial

end

end Stays

end Eval

end DynScript
