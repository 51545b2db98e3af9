import DynScript.Proofs.Run.Safe
import DynScript.Run.Unit

/-!
# Evaluation is safe

The nodes of units that can run are evaluated safely, form by form, if the nodes further down are. A function
or a class is called in its own unit, where its node is what it has to be.
-/

namespace DynScript

namespace Sight

/-- A unit has a node with a number. -/
def Holds (σ : Sight) (unit : UnitId) (id : NodeId) : Prop := ∃ kind, σ.kind? unit id = some kind

theorem Holds.later {σ σ' : Sight} (hσ : σ.Grows σ') {unit : UnitId} {id : NodeId} (h : σ.Holds unit id) :
    σ'.Holds unit id :=
  h.imp fun _ hk => hσ.within.kinds hk

end Sight

namespace Eval

/-- The nodes of a unit are evaluated safely. -/
def SafeIn (unit : UnitId) (eval : Evaluator) : Prop :=
  ∀ σ id, σ.Holds unit id → Safe unit σ (eval id) Sounds

/-- All nodes are evaluated safely. -/
def SafeEverywhere (eval : Evaluator) : Prop := ∀ unit, SafeIn unit eval

namespace Safe

variable {α : Type} {unit : UnitId} {σ : Sight} {Q : Sight → α → Prop}

/-! ## Nodes and what they refer to -/

/-- Looking at a node that is there, and going on. -/
theorem nodeIn {other : UnitId} {id : NodeId} {kind : NodeKind} (h : σ.kind? other id = some kind)
    {k : Node → Eval α} (hk : kind.Fit (σ.kind? other) → ∀ position, Safe unit σ (k ⟨kind, position⟩) Q) :
    Safe unit σ (nodeIn other id >>= k) Q := by
  intro held m hm
  obtain ⟨position, hn⟩ := hm.world.node? h
  rw [runFrom_nodeIn_bind, hn]
  exact hk (hm.world.runnable h) position held m hm

theorem nodeOf {id : NodeId} {kind : NodeKind} (h : σ.kind? unit id = some kind) {k : Node → Eval α}
    (hk : kind.Fit (σ.kind? unit) → ∀ position, Safe unit σ (k ⟨kind, position⟩) Q) :
    Safe unit σ (nodeOf unit id >>= k) Q := by
  intro held m hm
  rw [nodeOf_bind]
  have hrequire : (Eval.requireUnit unit id).runFrom held m = (.ok (), m) := by
    simp [Eval.requireUnit, runFrom_bind, hm.unit]
  rw [runFrom_bind, hrequire]
  exact nodeIn h hk held m hm

theorem blockItems? {id : NodeId} (h : σ.Holds unit id) :
    Safe unit σ (Eval.blockItems? unit id) fun σ items =>
      ∀ ids, items = some ids → ∀ i ∈ ids, σ.Holds unit i := by
  obtain ⟨kind, hk⟩ := h
  refine nodeOf hk fun hfit position => ?_
  dsimp only
  split
  · rename_i items _
    refine pure fun ids hids i hi => ?_
    obtain rfl := Option.some.inj hids
    exact hfit.children i hi
  · exact pure (by simp)

theorem functionParts {f : Function} (hf : f.Sound σ) :
    Safe unit σ (Eval.functionParts f) fun σ parts => σ.Holds f.unit parts.2 := by
  obtain ⟨params, body, hk⟩ := hf.literal
  exact nodeIn hk fun hfit position => pure (hfit.children body (by simp [NodeKind.children]))

/-- A node is a binding. -/
def Binds (σ : Sight) (unit : UnitId) (id : NodeId) : Prop :=
  ∃ kind, σ.kind? unit id = some kind ∧ kind.isBinding

theorem Binds.later {σ' : Sight} (hσ : σ.Grows σ') {id : NodeId} (h : Binds σ unit id) : Binds σ' unit id :=
  h.imp fun _ hk => ⟨hσ.within.kinds hk.1, hk.2⟩

theorem memberParts {id : NodeId} (h : Binds σ unit id) :
    Safe unit σ (Eval.memberParts unit id) fun σ parts => σ.Holds unit parts.2.2 := by
  obtain ⟨kind, hk, hbinding⟩ := h
  cases kind with
  | binding name mode isFinal value =>
    exact nodeOf hk fun hfit position => pure (hfit.children value (by simp [NodeKind.children]))
  | _ => cases hbinding

theorem templateParts {t : Template}
    (ht : ∃ params composed members, σ.kind? t.unit t.node = some (.object params composed members)) :
    Safe unit σ (Eval.templateParts t) fun σ parts => ∀ m ∈ parts.2.2, Binds σ t.unit m := by
  obtain ⟨params, composed, members, hk⟩ := ht
  exact nodeIn hk fun hfit position => pure hfit.demands

/-- What is assigned to is there. -/
theorem assignee {target : NodeId}
    (h : ∃ kind, σ.kind? unit target = some kind ∧ Grammar.isAssignable kind) :
    Safe unit σ (Eval.assignee unit target) fun σ assignee => match assignee with
      | .name _ => True
      | .property owner _ => σ.Holds unit owner := by
  obtain ⟨kind, hk, hassignable⟩ := h
  cases kind with
  | ident name => exact nodeOf hk fun _ position => pure trivial
  | property owner name =>
    exact nodeOf hk fun hfit position => pure (hfit.children owner (by simp [NodeKind.children]))
  | _ => cases hassignable

/-! ## Calls -/

section

variable {eval : Evaluator} (he : SafeIn unit eval)
include he

theorem within {id : NodeId} (h : σ.Holds unit id) : Safe unit σ (within unit eval id) Sounds :=
  bind (requireUnit id) fun _ hσ _ _ => he _ _ (h.later hσ)

theorem statementsAfter {last : Value} (hl : last.Sound σ) {items : List NodeId}
    (hi : ∀ i ∈ items, σ.Holds unit i) : Safe unit σ (statementsAfter eval last items) Sounds := by
  induction items generalizing σ last with
  | nil => exact pure hl
  | cons statement rest ih =>
    refine bind (holding _ (he _ _ (hi _ (by simp)))) fun σ' hσ value hv => ?_
    exact ih hv fun i hmem => (hi i (by simp [hmem])).later hσ

theorem statements {items : List NodeId} (hi : ∀ i ∈ items, σ.Holds unit i) :
    Safe unit σ (statements eval items) Sounds :=
  statementsAfter he .nil hi

theorem body {id : NodeId} (h : σ.Holds unit id) : Safe unit σ (body eval unit id) Sounds := by
  refine bind (blockItems? h) fun σ' hσ items hi => ?_
  cases items with
  | some items => exact statements he (hi items rfl)
  | none => exact he _ _ (h.later hσ)

theorem members {r : RecordId} (hr : σ.Shows r) {ids : List NodeId} (hi : ∀ i ∈ ids, Binds σ unit i) :
    Safe unit σ (members eval unit r ids) Anything := by
  induction ids generalizing σ with
  | nil => exact pure trivial
  | cons member rest ih =>
    refine bind (memberParts (hi _ (by simp))) fun σ₁ h₁ parts hparts => ?_
    obtain ⟨name, mode, valueId⟩ := parts
    have hr₁ := h₁.within.shows hr
    refine guarded _ (setProperty hr₁ name .nil) fun σ₂ h₂ _ => ?_
    refine bind (he _ _ (hparts.later h₂)) fun σ₃ h₃ value hv => ?_
    have hr₃ := h₃.within.shows (h₂.within.shows hr₁)
    refine bind (setProperty hr₃ name (hv.named name)) fun σ₄ h₄ _ _ => ?_
    exact ih (h₄.within.shows hr₃) fun i hmem =>
      (hi i (by simp [hmem])).later (((h₁.trans h₂).trans h₃).trans h₄)

theorem construct {r : RecordId} (hr : σ.Shows r) {params : List (String × Value)}
    (hp : ∀ entry ∈ params, entry.2.Sound σ) (composed : List Label) {ids : List NodeId}
    (hi : ∀ i ∈ ids, Binds σ unit i) : Safe unit σ (construct eval unit r params composed ids) Anything := by
  refine bind (modifyHeap fun h hh => hh.setAll hr hp) fun σ₁ h₁ _ _ => ?_
  refine bind (compose (h₁.within.shows hr) composed) fun σ₂ h₂ _ _ => ?_
  have hσ := h₁.trans h₂
  have hr₂ := hσ.within.shows hr
  exact inRecord hr₂ (members he hr₂ fun i hmem => (hi i hmem).later hσ)

end

section

variable {eval : Evaluator} (he : SafeEverywhere eval)
include he

theorem callFunction {f : Function} (hf : f.Sound σ) {args : List Value} (ha : ∀ v ∈ args, v.Sound σ)
    (callSite : Option Position) : Safe unit σ (callFunction eval f args callSite) Sounds := by
  refine bind (functionParts hf) fun σ₁ h₁ parts hparts => ?_
  obtain ⟨params, bodyId⟩ := parts
  refine guarded _ (fail (Cause.sound_of rfl rfl)) fun σ₂ h₂ _ => catchReturn (inCall ?_)
  have hσ := h₁.trans h₂
  refine bind (receiverOf (hf.later hσ)) fun σ₃ h₃ receiver hr => ?_
  have hbound : ∀ entry ∈ (params.map fun p => p.name).zip args, entry.2.Sound σ₃ := fun entry hmem =>
    (ha _ (List.of_mem_zip hmem).2).later (hσ.trans h₃)
  -- The body is evaluated with the nodes of the unit in which the function was written.
  have hown : SafeIn f.unit (Eval.within f.unit eval) := fun σ id h => within (he f.unit) h
  refine inUnit (asMethodOf hr (inScope (bind (defineAll hbound) fun σ₄ h₄ _ _ => ?_)))
  exact body hown (hparts.later ((h₂.trans h₃).trans h₄))

theorem instantiate (cls : RecordId) {t : Template}
    (ht : ∃ params composed members, σ.kind? t.unit t.node = some (.object params composed members))
    {args : List Value} (ha : ∀ v ∈ args, v.Sound σ) (callSite : Option Position) :
    Safe unit σ (instantiate eval cls t args callSite) Sounds := by
  refine bind (templateParts ht) fun σ₁ h₁ parts hparts => ?_
  obtain ⟨params, composed, members⟩ := parts
  refine guarded _ (failAt (Cause.sound_of rfl rfl)) fun σ₂ h₂ _ => ?_
  refine bind (adding fun h hh => hh.alloc (RecordData.sound_empty _ _)) fun σ₃ h₃ r hr => ?_
  have hbound : ∀ entry ∈ (params.map fun p => p.name).zip args, entry.2.Sound σ₃ := fun entry hmem =>
    (ha _ (List.of_mem_zip hmem).2).later ((h₁.trans h₂).trans h₃)
  have hmembers : ∀ i ∈ members, Binds σ₃ t.unit i := fun i hmem => (hparts i hmem).later (h₂.trans h₃)
  -- The literal is evaluated with the nodes of the unit in which the class was written.
  have hown : SafeIn t.unit (Eval.within t.unit eval) := fun σ id h => within (he t.unit) h
  refine bind (holding _ (inUnit (construct hown hr hbound composed hmembers))) fun σ₄ h₄ _ _ => ?_
  exact pure (.record (h₄.within.shows hr))

theorem callRecord {r : RecordId} (hr : σ.Shows r) {args : List Value} (ha : ∀ v ∈ args, v.Sound σ)
    (callSite : Option Position) : Safe unit σ (callRecord eval r args callSite) Sounds := by
  refine bind heap fun σ' hσ h hh => ?_
  have hr' := hσ.within.shows hr
  split
  · rename_i t ht
    exact instantiate he r (hh.template? hr' ht) (fun v hv => (ha v hv).later hσ) callSite
  · refine guarded _ (fail (Cause.sound_of rfl rfl)) fun σ'' hσ' _ => ?_
    have hr'' := hσ'.within.shows hr'
    exact bind (adding fun h hh => hh.shallowClone hr'') fun _ _ r hr => pure (.record hr)

theorem callValue {callee : Value} (hc : callee.Sound σ) {args : List Value} (ha : ∀ v ∈ args, v.Sound σ)
    (callSite : Option Position) : Safe unit σ (callValue eval callee args callSite) Sounds := by
  refine holding _ (holding _ ?_)
  cases hc with
  | function hf => exact callFunction he hf ha callSite
  | native n => exact callNative n args
  | record hr => exact callRecord he hr ha callSite
  | _ => exact fail (Cause.sound_of rfl rfl)

end

/-! ## Nodes -/

/-- An operator that makes a value in a heap and changes no record. -/
theorem makes {f : Heap → Except Cause (Value × Heap)}
    (h : ∀ heap : Heap, Gives (Cause.Sound σ) (heap.Makes (Value.Sound σ)) (f heap)) :
    Safe unit σ (do
      let (value, heap) ← Eval.ofExcept (f (← Eval.heap))
      Eval.modifyHeap fun _ => heap
      return value) Sounds := by
  intro held m hm
  have hgood := h m.world.heap
  simp only [Eval.heap, runFrom_bind, runFrom_get, runFrom_pure]
  cases hresult : f m.world.heap with
  | error cause =>
    rw [hresult] at hgood
    exact ⟨σ, .refl σ, hm, hgood⟩
  | ok result =>
    rw [hresult] at hgood
    have hheap := hm.world.withHeap (.refl σ) rfl (hm.world.heap.of_records hgood.2)
    exact ⟨σ, .refl σ, hm.withWorld (.refl σ) hheap, hgood.1⟩

section

variable {eval : Evaluator} (he : SafeIn unit eval)
include he

theorem valuesAfter {before : List Value} (hb : ∀ v ∈ before, v.Sound σ) {ids : List NodeId}
    (hi : ∀ i ∈ ids, σ.Holds unit i) :
    Safe unit σ (valuesAfter eval before ids) fun σ values => ∀ v ∈ values, v.Sound σ := by
  induction ids generalizing σ before with
  | nil => exact pure fun v hv => hb v (List.mem_reverse.1 hv)
  | cons id rest ih =>
    refine bind (he _ _ (hi _ (by simp))) fun σ' hσ value hv => ?_
    refine holding _ (ih (fun w hw => ?_) fun i hmem => ?_)
    · rcases List.mem_cons.1 hw with rfl | hw
      · exact hv
      · exact (hb w hw).later hσ
    · exact (hi i (by simp [hmem])).later hσ

theorem values {ids : List NodeId} (hi : ∀ i ∈ ids, σ.Holds unit i) :
    Safe unit σ (values eval ids) fun σ values => ∀ v ∈ values, v.Sound σ :=
  valuesAfter he (by simp) hi

theorem operands {lhs rhs : NodeId} (hl : σ.Holds unit lhs) (hr : σ.Holds unit rhs) :
    Safe unit σ (operands eval lhs rhs) fun σ pair => pair.1.Sound σ ∧ pair.2.Sound σ := by
  refine bind (he _ _ hl) fun σ₁ h₁ left hv => ?_
  refine bind (holding _ (he _ _ (hr.later h₁))) fun σ₂ h₂ right hw => ?_
  exact pure ⟨hv.later h₂, hw⟩

theorem binding (name : String) (mode : BindingMode) {valueId : NodeId} (hv : σ.Holds unit valueId) :
    Safe unit σ (binding eval name mode valueId) Sounds := by
  refine guarded _ (define name .nil) fun σ₁ h₁ _ => ?_
  refine bind (he _ _ (hv.later h₁)) fun σ₂ h₂ value hvalue => ?_
  have hnamed := hvalue.named name
  exact bind (define name hnamed) fun σ₃ h₃ _ _ => pure (hnamed.later h₃)

theorem assignment {target valueId : NodeId}
    (ht : ∃ kind, σ.kind? unit target = some kind ∧ Grammar.isAssignable kind) (hv : σ.Holds unit valueId) :
    Safe unit σ (assignment eval unit target valueId) Sounds := by
  refine bind (he _ _ hv) fun σ₁ h₁ value hvalue => ?_
  obtain ⟨kind, hk, hassignable⟩ := ht
  refine bind (assignee ⟨kind, h₁.within.kinds hk, hassignable⟩) fun σ₂ h₂ target hassignee => ?_
  have hvalue₂ := hvalue.later h₂
  cases target with
  | name name => exact bind (assign name hvalue₂) fun σ₃ h₃ _ _ => pure (hvalue₂.later h₃)
  | property owner name =>
    refine bind (holding _ (he _ _ hassignee)) fun σ₃ h₃ record hrecord => ?_
    have hvalue₃ := hvalue₂.later h₃
    cases hrecord with
    | record hr => exact bind (setProperty hr name hvalue₃) fun σ₄ h₄ _ _ => pure (hvalue₃.later h₄)
    | _ => exact stopping (fail (Cause.sound_of rfl rfl))

theorem object {id : NodeId} {params : Option (List Param)} {composed : List Label} {ids : List NodeId}
    (hk : σ.kind? unit id = some (.object params composed ids)) (hi : ∀ i ∈ ids, Binds σ unit i) :
    Safe unit σ (object eval unit id params.isSome composed ids) Sounds := by
  unfold Eval.object
  split
  · refine bind (adding fun h hh => hh.alloc ⟨Bindings.sound_empty _, ?_⟩) fun _ _ r hr => pure (.record hr)
    rintro t ⟨⟩
    exact ⟨params, composed, ids, hk⟩
  · refine bind (adding fun h hh => hh.alloc (RecordData.sound_empty _ _)) fun σ₁ h₁ r hr => ?_
    have hmembers : ∀ i ∈ ids, Binds σ₁ unit i := fun i hmem => (hi i hmem).later h₁
    refine bind (holding _ (construct he hr (by simp) composed hmembers)) fun σ₂ h₂ _ _ => ?_
    exact pure (.record (h₂.within.shows hr))

theorem property {target : NodeId} (ht : σ.Holds unit target) (name : String) :
    Safe unit σ (property eval target name) Sounds := by
  refine bind (he _ _ ht) fun σ₁ h₁ value hvalue => ?_
  cases hvalue with
  | record hr =>
    refine bind heap fun σ₂ h₂ h hh => ?_
    have hr₂ := h₂.within.shows hr
    split
    · rename_i f hf
      have hsound : f.Sound σ₂ := by cases hh.property? hr₂ hf; assumption
      exact bind (holdReceiver hsound _) fun σ₃ h₃ f hf => pure (.function hf)
    · rename_i value hvalue
      exact pure (hh.property? hr₂ hvalue)
    · exact fail (Cause.sound_of rfl rfl)
  | _ => exact fail (Cause.sound_of rfl rfl)

theorem iterations {bodyId : NodeId} (hb : σ.Holds unit bodyId) (count : Nat) (i : Int) :
    Safe unit σ (iterations eval bodyId count i) Anything := by
  induction count generalizing σ i with
  | zero => exact pure trivial
  | succ count ih =>
    have hround : Safe unit σ
        (Eval.inScope (Eval.define "idx" (.number (Float.ofInt i)) >>= fun _ => eval bodyId)) Sounds :=
      inScope (bind (define _ (.number _)) fun σ₁ h₁ _ _ => he _ _ (hb.later h₁))
    exact bind hround fun σ₂ h₂ _ _ => ih (hb.later h₂) _

theorem loop {start stop bodyId : NodeId} (hs : σ.Holds unit start) (ht : σ.Holds unit stop)
    (hb : σ.Holds unit bodyId) : Safe unit σ (loop eval start stop bodyId) Sounds := by
  refine bind (operands he hs ht) fun σ₁ h₁ bounds _ => ?_
  split
  · exact bind (iterations he (hb.later h₁) _ _) fun _ _ _ _ => pure .nil
  · exact fail (Cause.sound_of rfl rfl)
  · exact fail (Cause.sound_of rfl rfl)

theorem conditional {condition thenBranch : NodeId} {elseBranch : Option NodeId} (hc : σ.Holds unit condition)
    (ht : σ.Holds unit thenBranch) (hb : ∀ b ∈ elseBranch, σ.Holds unit b) :
    Safe unit σ (conditional eval condition thenBranch elseBranch) Sounds := by
  refine bind (he _ _ hc) fun σ₁ h₁ value _ => ?_
  split
  · exact he _ _ (ht.later h₁)
  · cases elseBranch with
    | some branch => exact he _ _ ((hb branch rfl).later h₁)
    | none => exact pure .nil
  · exact fail (Cause.sound_of rfl rfl)

theorem logical (op : LogicalOp) {lhs rhs : NodeId} (hl : σ.Holds unit lhs) (hr : σ.Holds unit rhs) :
    Safe unit σ (logical eval op lhs rhs) Sounds := by
  refine bind (he _ _ hl) fun σ₁ h₁ left _ => bind (truth _ left) fun σ₂ h₂ left _ => ?_
  split
  · exact pure (.bool _)
  · exact pure (.bool _)
  · refine bind (he _ _ (hr.later (h₁.trans h₂))) fun σ₃ h₃ right _ => ?_
    exact bind (truth _ right) fun _ _ _ _ => pure (.bool _)

theorem texts (written : String) {ids : List NodeId} (hi : ∀ i ∈ ids, σ.Holds unit i) :
    Safe unit σ (texts eval written ids) Anything := by
  induction ids generalizing σ written with
  | nil => exact pure trivial
  | cons id rest ih =>
    refine bind (he _ _ (hi _ (by simp))) fun σ₁ h₁ value _ => ?_
    refine bind heap fun σ₂ h₂ h _ => ih _ fun i hmem => ?_
    exact (hi i (by simp [hmem])).later (h₁.trans h₂)

theorem print {args : List NodeId} (ha : ∀ i ∈ args, σ.Holds unit i) :
    Safe unit σ (print eval args) Sounds := by
  refine bind (texts he _ ha) fun σ₁ h₁ line _ => ?_
  refine bind (Q := Anything) (change fun m hm => ⟨σ₁, .refl σ₁, ?_, trivial⟩) fun _ _ _ _ => pure .nil
  exact hm.withWorld (.refl σ₁) (hm.world.of_same rfl rfl rfl)

theorem leaveCall {value : Option NodeId} (hv : ∀ v ∈ value, σ.Holds unit v) :
    Safe unit σ (leaveCall eval value) Sounds := by
  cases value with
  | none => exact fail (Cause.sound_returning .nil)
  | some id => exact bind (he _ _ (hv id rfl)) fun _ _ _ h => fail (Cause.sound_returning h)

theorem envOpen {target bodyId : NodeId} (ht : σ.Holds unit target) (hb : σ.Holds unit bodyId) :
    Safe unit σ (envOpen eval target bodyId) Sounds := by
  refine bind (he _ _ ht) fun σ₁ h₁ value hvalue => ?_
  cases hvalue with
  | record hr => exact inRecord hr (he _ _ (hb.later h₁))
  | _ => exact fail (Cause.sound_of rfl rfl)

end

end Safe

/-! ## Record literals -/

/-- From sound machines in which a record is hidden a step leads to machines in which it is shown, and to a
good end. -/
def Reveals (unit : UnitId) (σ : Sight) (r : RecordId) (data : RecordData) (x : Eval α)
    (Q : Sight → α → Prop) : Prop :=
  ∀ held (m : Machine), m.Sound (σ.hide r data) unit → ∃ σ', σ.Grows σ' ∧
    (x.runFrom held m).2.Sound σ' unit ∧ Lands σ' Q (x.runFrom held m).1

namespace Reveals

variable {α β : Type} {unit : UnitId} {σ : Sight} {r : RecordId} {data : RecordData} {Q : Sight → α → Prop}
  {Q' : Sight → β → Prop}

/-- A hidden record of a machine may be shown when it is sound. -/
theorem reveal {m : Machine} (hm : m.Sound (σ.hide r data) unit) (hd : data.Sound σ) : m.Sound σ unit where
  world := {
    units := hm.world.units
    runnable := hm.world.runnable
    heap := hm.world.heap.reveal hd
    cache := fun entry he => (σ.within_of_hide r data).shows (hm.world.cache entry he) }
  env := hm.env.mono (σ.within_of_hide r data)
  exports := hm.exports.mono (σ.within_of_hide r data)
  unit := hm.unit

theorem pure (hd : data.Sound σ) {a : α} (h : Q σ a) : Reveals unit σ r data (Pure.pure a) Q :=
  fun _ _ hm => ⟨σ, .refl σ, reveal hm hd, h⟩

/-- A safe step that does not know of the record, and what comes after it. -/
theorem bind {P : Sight → β → Prop} {x : Eval β} {k : β → Eval α} (hd : data.Sound σ)
    (hx : Safe unit (σ.hide r data) x P)
    (hk : ∀ σ', σ.Grows σ' → ∀ a, P (σ'.hide r data) a → Reveals unit σ' r data (k a) Q) :
    Reveals unit σ r data (x >>= k) Q := by
  intro held m hm
  obtain ⟨σ₁, h₁, hn, hland⟩ := hx held m hm
  obtain ⟨σ', hσ, rfl⟩ := h₁.of_hide
  have hwithin := σ'.within_of_hide r data
  rw [runFrom_bind]
  rcases hr : x.runFrom held m with ⟨⟨fault | stuck⟩ | a, n⟩ <;> rw [hr] at hn hland
  · exact ⟨σ', hσ, reveal hn (hd.mono hσ.within), hland.1, fun v hv => (hland.2 v hv).mono hwithin⟩
  · exact ⟨σ', hσ, reveal hn (hd.mono hσ.within), hland⟩
  · obtain ⟨σ'', hσ', hn', hland'⟩ := hk σ' hσ a hland held n hn
    exact ⟨σ'', hσ.trans hσ', hn', hland'⟩

/-- The record is given a property. -/
theorem setProperty {k : Unit → Eval α} {name : String} {v : Value} (hr : σ.Shows r) (hv : v.Sound σ)
    (hk : Reveals unit σ r (data.put r name v) (k ()) Q) :
    Reveals unit σ r data (Eval.setProperty r name v >>= k) Q := by
  intro held m hm
  have hwithin := σ.within_hide r data (data.put r name v)
  have hworld : World.Sound (σ.hide r (data.put r name v)) { m.world with heap := m.world.heap.set r name v } := {
    units := hm.world.units
    runnable := hm.world.runnable
    heap := hm.world.heap.set_hidden hr name hv
    cache := fun entry he => hwithin.shows (hm.world.cache entry he) }
  exact hk held _ ⟨hworld, hm.env.mono hwithin, hm.exports.mono hwithin, hm.unit⟩

/-- What comes after the record has been shown. -/
theorem andThen {x : Eval β} {k : β → Eval α} (hx : Reveals unit σ r data x Q')
    (hk : ∀ σ', σ.Grows σ' → ∀ a, Q' σ' a → Safe unit σ' (k a) Q) : Reveals unit σ r data (x >>= k) Q := by
  intro held m hm
  obtain ⟨σ', hσ, hn, hland⟩ := hx held m hm
  rw [runFrom_bind]
  rcases hr : x.runFrom held m with ⟨⟨fault | stuck⟩ | a, n⟩ <;> rw [hr] at hn hland
  · exact ⟨σ', hσ, hn, hland⟩
  · exact ⟨σ', hσ, hn, hland⟩
  · obtain ⟨σ'', hσ', hn', hland'⟩ := hk σ' hσ a hland held n hn
    exact ⟨σ'', hσ.trans hσ', hn', hland'⟩

end Reveals

namespace Safe

variable {α : Type} {unit : UnitId} {σ : Sight} {Q : Sight → α → Prop}

/-- A new record is hidden until something shows it. -/
theorem newRecord {k : RecordId → Eval α}
    (hk : ∀ r, σ.grown.Shows r → Reveals unit σ.grown r ⟨none, .empty, none⟩ (k r) Q) :
    Safe unit σ (Eval.onHeap Heap.newRecord >>= k) Q := by
  intro held m hm
  have hheap := hm.world.heap
  have hwithin := σ.within_grown_hide ⟨none, .empty, none⟩
  have hid : (⟨m.world.heap.size⟩ : RecordId) = ⟨σ.records⟩ := congrArg RecordId.mk hheap.size
  have hshown : σ.grown.Shows ⟨σ.records⟩ := hid ▸ (hheap.alloc (RecordData.sound_empty σ none)).2
  let world : World := { m.world with heap := (m.world.heap.alloc ⟨none, .empty, none⟩).2 }
  have hworld : world.Sound (σ.grown.hide ⟨σ.records⟩ ⟨none, .empty, none⟩) := {
    units := hm.world.units
    runnable := hm.world.runnable
    heap := hheap.hide (RecordData.sound_empty σ none)
    cache := fun entry he => hwithin.shows (hm.world.cache entry he) }
  obtain ⟨σ', hσ, hn, hland⟩ := hk _ hshown held { m with world := world }
    ⟨hworld, hm.env.mono hwithin, hm.exports.mono hwithin, hm.unit⟩
  rw [← hid] at hn hland
  exact ⟨σ', σ.grows_grown.trans hσ, hn, hland⟩

section

variable {eval : Evaluator} (he : SafeIn unit eval)
include he

/-- No field of a record literal is there before it is made. -/
theorem fields {r : RecordId} (hr : σ.Shows r) {data : RecordData} (hd : data.Sound σ) {items : List Field}
    (hi : ∀ field ∈ items, σ.Holds unit field.value) (hn : (items.map fun f => f.name).Nodup)
    (hnew : ∀ field ∈ items, data.properties.has field.name = false) :
    Reveals unit σ r data (Eval.fields eval r items) Anything := by
  induction items generalizing σ data with
  | nil => exact .pure hd trivial
  | cons field rest ih =>
    refine Reveals.bind hd (he _ _ (hi field (by simp))) fun σ₁ h₁ value hvalue => ?_
    refine Reveals.bind (hd.mono h₁.within) heap fun σ₂ h₂ h hh => ?_
    have hhas : h.has r field.name = false := by
      have hg : h.get? r = some data := hh.hidden (List.mem_cons_self ..)
      simp [Heap.has, Heap.properties, hg, hnew field (by simp)]
    rw [if_neg (by simp [hhas])]
    have hσ := h₁.trans h₂
    have hr₂ := hσ.within.shows hr
    have hvalue₂ : (value.named field.name).Sound σ₂ :=
      ((hvalue.mono (σ₁.within_of_hide r data)).later h₂).named field.name
    obtain ⟨hfirst, hrest⟩ := List.nodup_cons.1 hn
    refine Reveals.setProperty hr₂ hvalue₂ (ih hr₂ ((hd.mono hσ.within).put hr₂ hvalue₂ field.name)
      (fun f hf => (hi f (by simp [hf])).later hσ) hrest fun f hf => ?_)
    refine (Bindings.has_set ?_ _).trans (hnew f (by simp [hf]))
    exact fun heq => hfirst (List.mem_map.2 ⟨f, hf, heq⟩)

theorem recordLiteral {items : List Field} (hi : ∀ field ∈ items, σ.Holds unit field.value)
    (hn : (items.map fun f => f.name).Nodup) : Safe unit σ (recordLiteral eval items) Sounds := by
  refine newRecord fun r hr => ?_
  have hfields := fields he hr (RecordData.sound_empty _ none) (fun f hf => (hi f hf).later σ.grows_grown) hn
    fun f hf => rfl
  refine Reveals.andThen (fun held m hm => hfields _ m hm) fun σ' hσ _ _ => ?_
  exact pure (.record (hσ.within.shows hr))

end

section

variable {own eval : Evaluator} (ho : SafeIn unit own) (he : SafeEverywhere eval)

include ho he in
theorem call {callee : NodeId} {args : List NodeId} (hc : σ.Holds unit callee)
    (ha : ∀ i ∈ args, σ.Holds unit i) (callSite : Option Position) :
    Safe unit σ (call own eval callee args callSite) Sounds := by
  refine bind (ho _ _ hc) fun σ₁ h₁ function hf => ?_
  refine bind (holding _ (values ho fun i hi => (ha i hi).later h₁)) fun σ₂ h₂ arguments harguments => ?_
  exact callValue he (hf.later h₂) harguments callSite

include ho he in
/-- A node that is fit for evaluation is evaluated safely, if the nodes right below it are. -/
theorem nodeKind {load : ImportRequest → Eval Value} (hl : ∀ σ request, Safe unit σ (load request) Sounds)
    {id : NodeId} {kind : NodeKind} (hk : σ.kind? unit id = some kind) (hfit : kind.Fit (σ.kind? unit))
    (position : Option Position) : Safe unit σ (nodeKind own eval load unit id ⟨kind, position⟩) Sounds := by
  obtain ⟨hchildren, hdemands⟩ := hfit
  have hthere (i : NodeId) (hi : i ∈ kind.children) : σ.Holds unit i := hchildren i hi
  unfold Eval.nodeKind
  cases kind
  all_goals dsimp only; simp only [NodeKind.children] at hthere
  case block items => exact inScope (statements ho hthere)
  case binding name mode isFinal value => exact binding ho name mode (hthere _ (by simp))
  case function params body => exact pure (.function ⟨⟨params, body, hk⟩, by simp [Function.ofNode]⟩)
  case call callee args =>
    exact call ho he (hthere _ (by simp)) (fun i hi => hthere i (by simp [hi])) position
  case ident name => exact lookup name
  case literal value => exact pure (by cases value <;> constructor)
  case list items =>
    exact bind (values ho hthere) fun _ _ _ hv => newList fun v hmem => hv v (List.mem_toArray.1 hmem)
  case record items =>
    exact recordLiteral ho (fun field hf => hthere _ (List.mem_map.2 ⟨field, hf, rfl⟩)) hdemands
  case index target index =>
    refine bind (operands ho (hthere _ (by simp)) (hthere _ (by simp))) fun σ₁ _ pair hpair => ?_
    exact ofExcept (σ₁.accepts.itemAt hpair.1 pair.2)
  case property target name => exact property ho (hthere _ (by simp)) name
  case len operand => exact bind (ho _ _ (hthere _ (by simp))) fun σ₁ _ v _ => ofExcept (σ₁.accepts.len v)
  case loop start stop body => exact loop ho (hthere _ (by simp)) (hthere _ (by simp)) (hthere _ (by simp))
  case conditional condition thenBranch elseBranch =>
    refine conditional ho (hthere _ (by simp)) (hthere _ (by simp)) fun b hb => hthere b ?_
    simp [Option.mem_def.1 hb]
  case assign target value => exact assignment ho hdemands (hthere _ (by simp))
  case logical op lhs rhs => exact logical ho op (hthere _ (by simp)) (hthere _ (by simp))
  case equality op lhs rhs =>
    refine bind (operands ho (hthere _ (by simp)) (hthere _ (by simp))) fun _ _ pair _ => ?_
    exact bind heap fun σ₂ _ h _ => ofExcept (σ₂.accepts.equality h op pair.1 pair.2)
  case comparison op lhs rhs =>
    refine bind (operands ho (hthere _ (by simp)) (hthere _ (by simp))) fun _ _ pair _ => ?_
    exact bind heap fun σ₂ _ h _ => ofExcept (σ₂.accepts.comparison h op pair.1 pair.2)
  case arithmetic op lhs rhs =>
    refine bind (operands ho (hthere _ (by simp)) (hthere _ (by simp))) fun σ₁ h₁ pair hpair => ?_
    exact makes fun h => σ₁.accepts.arithmetic h op hpair.1 hpair.2
  case negate operand =>
    exact bind (ho _ _ (hthere _ (by simp))) fun σ₁ _ v _ => ofExcept (σ₁.accepts.negate v)
  case prepend item list =>
    refine bind (operands ho (hthere _ (by simp)) (hthere _ (by simp))) fun σ₁ h₁ pair hpair => ?_
    exact makes fun h => σ₁.accepts.prepend h hpair.1 hpair.2
  -- An analysis without errors leaves no pipe that has not been desugared.
  case pipe lhs rhs desugared =>
    obtain rfl : desugared = true := hdemands
    exact ho _ _ (hthere _ (by simp))
  case object params composed members => exact object ho hk hdemands
  case clone operand => exact bind (ho _ _ (hthere _ (by simp))) fun _ _ v hv => clone hv
  case envOpen target body => exact envOpen ho (hthere _ (by simp)) (hthere _ (by simp))
  case imports root path => exact reading fun m hm => hl _ _
  case exports names => exact bind (exportNames names) fun _ _ _ _ => pure .nil
  case print args => exact print ho hthere
  case returns value => exact leaveCall ho fun v hv => hthere v (by simp [Option.mem_def.1 hv])

include he in
/-- A step towards the value of a node is safe, if the steps after it are. -/
theorem nodeStep {load : Loader} (hl : ∀ unit σ request, Safe unit σ (load eval request) Sounds) :
    SafeEverywhere (nodeStep load eval) := by
  intro unit σ id hid
  obtain ⟨kind, hk⟩ := hid
  refine reading fun m hm => ?_
  rw [hm.unit]
  refine nodeIn hk fun hfit position => locating ?_
  exact nodeKind (fun σ id h => within (he unit) h) he (hl unit) hk hfit position

end

end Safe

end Eval

end DynScript
