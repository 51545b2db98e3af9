import DynScript.Proofs.Run.Sound

/-!
# Safe steps

A step is safe when it leads from sound machines to sound ones and ends neither in a defect nor in a fault that
analysis rules out. What is known of its value may depend on the sight at its end.
-/

namespace DynScript

namespace Eval

variable {α β : Type} {unit : UnitId} {σ σ' : Sight} {Q : Sight → α → Prop} {Q' : Sight → β → Prop}

/-- A step has come to a good end: to a value of which `Q` holds, to a fault that is not ruled out, or it has
run out of fuel. -/
def Lands (σ : Sight) (Q : Sight → α → Prop) : Except Interruption α → Prop
  | .ok a => Q σ a
  | .error (.fault fault) => fault.cause.Sound σ
  | .error (.stuck stuck) => stuck = .outOfFuel

/-- From sound machines a step leads to sound ones, and to a good end. -/
def Safe (unit : UnitId) (σ : Sight) (x : Eval α) (Q : Sight → α → Prop) : Prop :=
  ∀ held (m : Machine), m.Sound σ unit → ∃ σ', σ.Grows σ' ∧
    (x.runFrom held m).2.Sound σ' unit ∧ Lands σ' Q (x.runFrom held m).1

/-- A value is sound. -/
abbrev Sounds (σ : Sight) (v : Value) : Prop := v.Sound σ

/-- Nothing is said of a value. -/
abbrev Anything (_ : Sight) (_ : α) : Prop := True

namespace Safe

/-! ### Rules -/

theorem pure {a : α} (h : Q σ a) : Safe unit σ (Pure.pure a) Q := fun _ _ hm => ⟨σ, .refl σ, hm, h⟩

theorem throw {fault : Fault} (h : fault.cause.Sound σ) :
    Safe unit σ (MonadExcept.throw (Interruption.fault fault)) Q :=
  fun _ _ hm => ⟨σ, .refl σ, hm, h⟩

theorem fail {cause : Cause} (h : cause.Sound σ) : Safe unit σ (Eval.fail cause) Q := throw h

theorem failAt {position : Option Position} {cause : Cause} (h : cause.Sound σ) :
    Safe unit σ (Eval.failAt position cause) Q :=
  throw h

theorem bind {x : Eval α} {k : α → Eval β} (hx : Safe unit σ x Q)
    (hk : ∀ σ', σ.Grows σ' → ∀ a, Q σ' a → Safe unit σ' (k a) Q') : Safe unit σ (x >>= k) Q' := by
  intro held m hm
  obtain ⟨σ', hσ, hn, hland⟩ := hx held m hm
  rw [runFrom_bind]
  rcases hr : x.runFrom held m with ⟨⟨fault | stuck⟩ | a, n⟩ <;> rw [hr] at hn hland
  · exact ⟨σ', hσ, hn, hland⟩
  · exact ⟨σ', hσ, hn, hland⟩
  · obtain ⟨σ'', hσ', hn', hland'⟩ := hk σ' hσ a hland held n hn
    exact ⟨σ'', hσ.trans hσ', hn', hland'⟩

/-- What would come after a fault is not reached. -/
theorem stopping {x : Eval α} {k : α → Eval β} (hx : Safe unit σ x fun _ _ => False) :
    Safe unit σ (x >>= k) Q' :=
  hx.bind fun _ _ _ h => h.elim

/-- A step that is made only under a condition, and what comes after it. -/
theorem guarded (c : Prop) [Decidable c] {stop : Eval PUnit} {k : PUnit → Eval α}
    (hs : Safe unit σ stop Anything) (hk : ∀ σ', σ.Grows σ' → ∀ u, Safe unit σ' (k u) Q) :
    Safe unit σ (if c then stop >>= k else k ()) Q := by
  split
  · exact hs.bind fun σ' hσ u _ => hk σ' hσ u
  · exact hk σ (.refl σ) ()

theorem weaken {P : Sight → α → Prop} {x : Eval α} (hx : Safe unit σ x P)
    (h : ∀ σ', σ.Grows σ' → ∀ a, P σ' a → Q σ' a) : Safe unit σ x Q := by
  intro held m hm
  obtain ⟨σ', hσ, hn, hland⟩ := hx held m hm
  refine ⟨σ', hσ, hn, ?_⟩
  rcases hr : (x.runFrom held m).1 with ⟨fault | stuck⟩ | a <;> rw [hr] at hland
  · exact hland
  · exact hland
  · exact h σ' hσ a hland

theorem anyway {x : Eval α} (hx : Safe unit σ x Q) : Safe unit σ x Anything :=
  hx.weaken fun _ _ _ _ => trivial

theorem holding {x : Eval α} (g : List Value → List Value) (hx : Safe unit σ x Q) :
    Safe unit σ (withReader g x : Eval α) Q :=
  fun held m hm => hx (g held) m hm

/-- Looking at a machine and going on. -/
theorem reading {k : Machine → Eval α} (hk : ∀ m, m.Sound σ unit → Safe unit σ (k m) Q) :
    Safe unit σ (get >>= k) Q :=
  fun held m hm => hk m hm held m hm

/-- A change of a machine. -/
theorem change {f : Machine → α × Machine}
    (h : ∀ m, m.Sound σ unit → ∃ σ', σ.Grows σ' ∧ (f m).2.Sound σ' unit ∧ Q σ' (f m).1) :
    Safe unit σ (modifyGet f) Q :=
  fun _ m hm => h m hm

/-- Looking at the end of a step, when a good end leads to a good end. -/
theorem finishing {x : Eval α} {f : Except Interruption α → Machine → Except Interruption β × Machine}
    (hx : Safe unit σ x Q)
    (hf : ∀ σ' result (m : Machine), σ.Grows σ' → m.Sound σ' unit → Lands σ' Q result →
      (f result m).2.Sound σ' unit ∧ Lands σ' Q' (f result m).1) :
    Safe unit σ (finishing x f) Q' := by
  intro held m hm
  obtain ⟨σ', hσ, hn, hland⟩ := hx held m hm
  exact ⟨σ', hσ, hf σ' _ _ hσ hn hland⟩

/-- A step between two changes that have nothing to do with the world. -/
theorem between {unit' : UnitId} {x : Eval α} {f g : Machine → Machine} (hx : Safe unit' σ x Q)
    (hf : ∀ m : Machine, m.Sound σ unit → (f m).Sound σ unit')
    (hg : ∀ σ' (n : Machine), σ.Grows σ' → n.Sound σ' unit' → (g n).Sound σ' unit) :
    Safe unit σ (modify f >>= fun _ => afterwards g x) Q := by
  intro held m hm
  obtain ⟨σ', hσ, hn, hland⟩ := hx held (f m) (hf m hm)
  exact ⟨σ', hσ, hg σ' _ hσ hn, hland⟩

theorem mapFault {x : Eval α} {f : Machine → Fault → Fault} (hx : Safe unit σ x Q)
    (hf : ∀ m fault, (f m fault).cause = fault.cause) : Safe unit σ (mapFault f x) Q := by
  refine hx.finishing fun σ' result m hσ hm hland => ?_
  rcases result with ⟨fault | stuck⟩ | a
  · exact ⟨hm, show (f m fault).cause.Sound σ' by rw [hf]; exact hland⟩
  · exact ⟨hm, hland⟩
  · exact ⟨hm, hland⟩

theorem locating {position : Option Position} {x : Eval α} (hx : Safe unit σ x Q) :
    Safe unit σ (locating position x) Q :=
  hx.mapFault fun _ fault => by split <;> rfl

theorem catchReturn {x : Eval Value} (hx : Safe unit σ x Sounds) : Safe unit σ (catchReturn x) Sounds := by
  refine hx.finishing fun σ' result m hσ hm hland => ?_
  split
  · exact ⟨hm, hland.2 _ rfl⟩
  · exact ⟨hm, hland⟩

theorem returned {x : Eval Value} (hx : Safe unit σ x Sounds) : Safe unit σ (returned x) Anything := by
  refine hx.finishing fun σ' result m hσ hm hland => ?_
  split
  · exact ⟨hm, trivial⟩
  · exact ⟨hm, trivial⟩
  · rename_i interruption _
    cases interruption <;> exact ⟨hm, hland⟩

theorem attempt {x : Eval α} (hx : Safe unit σ x Q) :
    Safe unit σ (attempt x) fun σ' result => match result with
      | .ok a => Q σ' a
      | .error fault => fault.cause.Sound σ' := by
  refine hx.finishing fun σ' result m hσ hm hland => ?_
  rcases result with ⟨fault | stuck⟩ | a
  · exact ⟨hm, hland⟩
  · exact ⟨hm, hland⟩
  · exact ⟨hm, hland⟩

/-! ### What is opened and closed -/

theorem inFrame {x : Eval α} {push : Environment → Environment}
    (hpush : ∀ env, env.Sound σ → (push env).Sound σ) (hx : Safe unit σ x Q) :
    Safe unit σ (inFrame push x) Q := by
  refine reading fun _ _ => hx.between (fun m hm => ⟨hm.world, hpush _ hm.env, hm.exports, hm.unit⟩) ?_
  exact fun _ _ _ hn => ⟨hn.world, hn.env.truncate _, hn.exports, hn.unit⟩

theorem inScope {x : Eval α} (hx : Safe unit σ x Q) : Safe unit σ (inScope x) Q :=
  hx.inFrame fun _ he => he.pushScope

theorem inRecord {x : Eval α} {r : RecordId} (hr : σ.Shows r) (hx : Safe unit σ x Q) :
    Safe unit σ (inRecord r x) Q :=
  hx.inFrame fun _ he => he.pushRecord hr

theorem withActive {x : Eval α} {r : RecordId} (hr : σ.Shows r) (hx : Safe unit σ x Q) :
    Safe unit σ (withActive r x) Q :=
  hx.between (fun _ hm => ⟨hm.world, hm.env.enter hr, hm.exports, hm.unit⟩)
    fun _ _ _ hn => ⟨hn.world, hn.env.leave, hn.exports, hn.unit⟩

theorem asMethodOf {x : Eval α} {receiver : Option RecordId} (hr : ∀ r, receiver = some r → σ.Shows r)
    (hx : Safe unit σ x Q) : Safe unit σ (asMethodOf receiver x) Q := by
  cases receiver with
  | none => exact hx
  | some r => exact (hx.inRecord (hr r rfl)).withActive (hr r rfl)

theorem inUnit {x : Eval α} {other : UnitId} (hx : Safe other σ x Q) : Safe unit σ (inUnit other x) Q := by
  refine reading fun _ hm => hx.between (fun n hn => ⟨hn.world, hn.env, hn.exports, rfl⟩) ?_
  exact fun _ n _ hn => ⟨hn.world, hn.env, hn.exports, hm.unit⟩

theorem inCall {x : Eval α} {frame : CallFrame} (hx : Safe unit σ x Q) : Safe unit σ (inCall frame x) Q := by
  have hcause (m : Machine) (fault : Fault) :
      (m.calls.attachBacktrace m.world.heap fault).cause = fault.cause := by
    unfold CallStack.attachBacktrace
    split <;> rfl
  have hcall := (hx.mapFault hcause).between (f := fun m => { m with calls := m.calls.enter frame })
    (g := fun m => { m with calls := m.calls.pop })
    (fun n hn => ⟨hn.world, hn.env, hn.exports, hn.unit⟩)
    fun _ n _ hn => ⟨hn.world, hn.env, hn.exports, hn.unit⟩
  refine reading fun m hm => ?_
  split
  · rename_i cause hrefused
    refine stopping (fail ?_)
    unfold CallStack.refusal? at hrefused
    split at hrefused
    · obtain rfl := Option.some.inj hrefused
      exact Cause.sound_of rfl rfl
    · cases hrefused
  · exact hcall

/-! ### Records -/

theorem ofExcept {e : Except Cause α} (he : Gives (Cause.Sound σ) (Q σ) e) : Safe unit σ (Eval.ofExcept e) Q := by
  cases e with
  | ok a => exact pure he
  | error cause => exact fail he

theorem requireUnit (id : NodeId) : Safe unit σ (Eval.requireUnit unit id) Anything := by
  refine reading fun m hm => ?_
  rw [if_neg (not_not.2 hm.unit)]
  exact pure trivial

theorem heap : Safe unit σ Eval.heap fun σ h => h.Sound σ :=
  fun _ _ hm => ⟨σ, .refl σ, hm, hm.world.heap⟩

theorem onHeap {f : Heap → α × Heap}
    (h : ∀ heap, heap.Sound σ →
      ∃ σ', σ.Grows σ' ∧ σ'.units = σ.units ∧ (f heap).2.Sound σ' ∧ Q σ' (f heap).1) :
    Safe unit σ (Eval.onHeap f) Q := by
  refine change fun m hm => ?_
  obtain ⟨σ', hσ, hu, hh, hq⟩ := h m.world.heap hm.world.heap
  exact ⟨σ', hσ, hm.withWorld hσ (hm.world.withHeap hσ hu hh), hq⟩

theorem modifyHeap {f : Heap → Heap} (h : ∀ heap, heap.Sound σ → (f heap).Sound σ) :
    Safe unit σ (Eval.modifyHeap f) Anything := by
  refine change fun m hm => ⟨σ, .refl σ, ?_, trivial⟩
  exact hm.withWorld (.refl σ) (hm.world.withHeap (.refl σ) rfl (h _ hm.world.heap))

/-- A record is added. -/
theorem adding {f : Heap → RecordId × Heap}
    (h : ∀ heap, heap.Sound σ → (f heap).2.Sound σ.grown ∧ σ.grown.Shows (f heap).1) :
    Safe unit σ (Eval.onHeap f) fun σ r => σ.Shows r :=
  onHeap fun heap hh => ⟨σ.grown, σ.grows_grown, rfl, h heap hh⟩

theorem newList {items : Array Value} (hi : ∀ v ∈ items, v.Sound σ) :
    Safe unit σ (Eval.newList items) Sounds :=
  onHeap fun _ hh => ⟨σ, .refl σ, rfl, hh.of_records rfl, .list hi⟩

theorem setProperty {r : RecordId} (hr : σ.Shows r) (name : String) {v : Value} (hv : v.Sound σ) :
    Safe unit σ (Eval.setProperty r name v) Anything :=
  modifyHeap fun _ hh => hh.set hr hv name

theorem lives (r : RecordId) : Safe unit σ (Eval.lives r) Anything := by
  intro held m hm
  refine ⟨σ, .refl σ, ?_, trivial⟩
  show (m.lives held r).2.Sound σ unit
  rw [m.snd_lives]
  exact hm.withWorld (.refl σ) (hm.world.withHeap (.refl σ) rfl (hm.world.heap.of_records (m.records_lives held r)))

theorem receiverOf {f : Function} (hf : f.Sound σ) :
    Safe unit σ (Eval.receiverOf f) fun σ receiver => ∀ r, receiver = some r → σ.Shows r := by
  unfold Eval.receiverOf Function.receiver?
  split
  · exact pure (by simp)
  · rename_i r hr
    refine pure fun q hq => hf.receiver q (.inr ?_)
    rw [hr, Option.some.inj hq]
  · rename_i r hr
    refine bind (lives r) fun σ' hσ b _ => pure fun q hq => hσ.within.shows (hf.receiver q (.inl ?_))
    split at hq
    · rw [hr, Option.some.inj hq]
    · cases hq

theorem holdReceiver {f : Function} (hf : f.Sound σ) (owner : RecordId) :
    Safe unit σ (Eval.holdReceiver owner f) fun σ f => f.Sound σ := by
  refine holding _ ?_
  unfold Function.holding
  split
  · rename_i r hr
    have hlives : Safe unit σ (if r = owner then Pure.pure true else Eval.lives r) Anything := by
      split
      · exact pure trivial
      · exact lives r
    refine bind hlives fun σ' hσ b _ => pure ⟨?_, fun q hq => ?_⟩
    · obtain ⟨params, body, hk⟩ := hf.literal
      exact ⟨params, body, hσ.within.kinds hk⟩
    · refine hσ.within.shows (hf.receiver q (.inl ?_))
      cases b <;> simp at hq
      rw [hr, hq]
  · exact pure hf

/-! ### Names -/

theorem lookup? (name : String) :
    Safe unit σ (Eval.lookup? name) fun σ value => ∀ v, value = some v → v.Sound σ :=
  reading fun _ hm => pure fun _ hv => hm.env.lookup hm.world.heap hv

theorem lookup (name : String) : Safe unit σ (Eval.lookup name) Sounds := by
  refine bind (lookup? name) fun σ' hσ value hv => ?_
  split
  · exact pure (hv _ rfl)
  · exact fail (Cause.sound_of rfl rfl)

theorem put {holder : Holder} (hh : holder.Sound σ) (name : String) {v : Value} (hv : v.Sound σ) :
    Safe unit σ (Eval.put holder name v) Anything := by
  refine change fun m hm => ⟨σ, .refl σ, ?_, trivial⟩
  obtain ⟨henv, hheap⟩ := hm.env.put hm.world.heap hh hv name
  exact ⟨hm.world.withHeap (.refl σ) rfl hheap, henv, hm.exports, hm.unit⟩

theorem define (name : String) {v : Value} (hv : v.Sound σ) : Safe unit σ (Eval.define name v) Anything :=
  reading fun _ hm => put hm.env.innermost name hv

theorem assign (name : String) {v : Value} (hv : v.Sound σ) : Safe unit σ (Eval.assign name v) Anything := by
  refine reading fun m hm => ?_
  split
  · rename_i holder ht
    exact put (hm.env.target? ht) name hv
  · exact fail (Cause.sound_of rfl rfl)

theorem defineAll {bound : List (String × Value)} (hb : ∀ entry ∈ bound, entry.2.Sound σ) :
    Safe unit σ (Eval.defineAll bound) Anything := by
  induction bound generalizing σ with
  | nil => exact pure trivial
  | cons entry rest ih =>
    refine bind (define _ (hb entry (by simp))) fun σ' hσ _ _ => ih fun e he => ?_
    exact (hb e (by simp [he])).later hσ

theorem compose {r : RecordId} (hr : σ.Shows r) (sources : List Label) :
    Safe unit σ (Eval.compose r sources) Anything := by
  induction sources generalizing σ with
  | nil => exact pure trivial
  | cons source rest ih =>
    refine bind (lookup? _) fun σ' hσ value hv => ?_
    have hr' := hσ.within.shows hr
    split
    · exact failAt (Cause.sound_of rfl rfl)
    · rename_i from_
      have hfrom : σ'.Shows from_ := by cases hv _ rfl; assumption
      refine bind (modifyHeap fun h hh => hh.setAll hr' fun e he => ?_) fun σ'' hσ' _ _ => ?_
      · exact hh.properties hfrom _ (List.mem_map.2 ⟨e, he, rfl⟩)
      · exact ih (hσ'.within.shows hr')
    · exact failAt (Cause.sound_of rfl rfl)

theorem exportNames (labels : List Label) : Safe unit σ (Eval.exportNames labels) Anything := by
  induction labels generalizing σ with
  | nil => exact pure trivial
  | cons label rest ih =>
    refine bind (lookup? _) fun σ' hσ value hv => ?_
    cases value with
    | some v =>
      refine bind (Q := Anything) (change fun m hm => ⟨σ', .refl σ', ?_, trivial⟩) fun σ'' _ _ _ => ih
      exact ⟨hm.world, hm.env, hm.exports.set (hv v rfl) _, hm.unit⟩
    | none => exact stopping (failAt (Cause.sound_of rfl rfl))

theorem clone {v : Value} (hv : v.Sound σ) : Safe unit σ (Eval.clone v) Sounds := by
  cases hv with
  | record hr => exact bind (adding fun h hh => hh.shallowClone hr) fun σ' _ r hr' => pure (.record hr')
  | list hi => exact newList hi
  | function hf => exact pure (.function hf)
  | _ => exact pure (by constructor)

theorem truth (operator : String) (v : Value) : Safe unit σ (Eval.truth operator v) Anything := by
  unfold Eval.truth
  split
  · exact pure trivial
  · exact fail (Cause.sound_of rfl rfl)

theorem callNative (n : Native) (args : List Value) : Safe unit σ (Eval.callNative n args) Sounds := by
  intro held m hm
  exact ofExcept (σ.accepts.callNative m.world n args) held _ (hm.withWorld (.refl σ) (hm.world.callNative n args))

end Safe

end Eval

end DynScript
