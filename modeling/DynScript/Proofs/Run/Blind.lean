import DynScript.Proofs.Run.Veiling

/-!
# Steps that do not get hold of a record

No value is a record that is still being made, and evaluation makes none. `Eval.Blind` says of a step that it keeps to
this where a record is hidden: it ends in a machine that hides the record, in a value of which something holds, or in a
fault that does not return the record.
-/

namespace DynScript

variable {r q : RecordId}

theorem Cause.Quiet.avoids {cause : Cause} (h : cause.Quiet) : cause.Avoids r := fun v hv => absurd hv (h v)

namespace Eval

variable {α β : Type} {P P' : Machine → Prop} {Q : α → Prop} {Q' : β → Prop}

/-- A step has ended in a value of which `Q` holds, or in a fault by which a record is not returned, or it is stuck. -/
def EndsApart (r : RecordId) (Q : α → Prop) : Except Interruption α → Prop
  | .ok a => Q a
  | .error (.fault fault) => fault.cause.Avoids r
  | .error (.stuck _) => True

/-- Where a record is hidden and `P` holds, a step does not get hold of the record, and `Q` holds of its value. -/
def Blind (r : RecordId) (P : Machine → Prop) (x : Eval α) (Q : α → Prop) : Prop :=
  ∀ held (m : Machine), m.Hides r → P m →
    (x.runFrom held m).2.Hides r ∧ m.Leaves r (x.runFrom held m).2 ∧ EndsApart r Q (x.runFrom held m).1

namespace Blind

/-! ### Rules -/

/-- A step that changes nothing that matters here. -/
theorem unmoved {x : Eval α} (hn : ∀ held (m : Machine), m.Unmoved (x.runFrom held m).2)
    (he : ∀ held (m : Machine), m.Hides r → P m → EndsApart r Q (x.runFrom held m).1) : Blind r P x Q :=
  fun held m hm hp => ⟨(hn held m).hides hm, (hn held m).leaves, he held m hm hp⟩

theorem pure {a : α} (h : Q a) : Blind r P (Pure.pure a) Q := unmoved (fun _ m => .refl m) fun _ _ _ _ => h

theorem throw {fault : Fault} (h : fault.cause.Avoids r) : Blind r P (MonadExcept.throw (Interruption.fault fault)) Q :=
  unmoved (fun _ m => .refl m) fun _ _ _ _ => h

theorem fail {cause : Cause} (h : cause.Avoids r) : Blind r P (Eval.fail cause) Q := throw h

theorem failAt {position : Option Position} {cause : Cause} (h : cause.Avoids r) :
    Blind r P (Eval.failAt position cause) Q :=
  throw h

theorem stuck (s : Stuck) : Blind r P (MonadExcept.throw (Interruption.stuck s) : Eval α) Q :=
  unmoved (fun _ m => .refl m) fun _ _ _ _ => trivial

theorem assuming {x : Eval α} (hx : Blind r P' x Q) (h : ∀ m, P m → P' m) : Blind r P x Q :=
  fun held m hm hp => hx held m hm (h m hp)

/-- What is known wherever `P` holds may be used. -/
theorem knowing {R : Prop} {x : Eval α} (h : ∀ m, P m → R) (hx : R → Blind r P x Q) : Blind r P x Q :=
  fun held m hm hp => hx (h m hp) held m hm hp

theorem holding {x : Eval α} (g : List Value → List Value) (hx : Blind r P x Q) :
    Blind r P (withReader g x : Eval α) Q :=
  fun held m hm hp => hx (g held) m hm hp

/-- Looking at a machine and going on. -/
theorem reading {k : Machine → Eval α} (hk : ∀ m : Machine, m.Hides r → P m → Blind r P (k m) Q) : Blind r P (get >>= k) Q :=
  fun held m hm hp => hk m hm hp held m hm hp

/-- Looking at the end of a step. -/
theorem finishing {x : Eval α} {f : Except Interruption α → Machine → Except Interruption β × Machine}
    (hx : Blind r P x Q) (hn : ∀ result (m : Machine), m.Unmoved (f result m).2)
    (he : ∀ result m, EndsApart r Q result → EndsApart r Q' (f result m).1) : Blind r P (finishing x f) Q' := by
  intro held m hm hp
  obtain ⟨hides, hleaves, hend⟩ := hx held m hm hp
  exact ⟨(hn _ _).hides hides, hleaves.trans (hn _ _).leaves, he _ _ hend⟩

theorem mapFault {x : Eval α} {f : Machine → Fault → Fault} (hx : Blind r P x Q)
    (hf : ∀ m fault, (f m fault).cause = fault.cause) : Blind r P (mapFault f x) Q := by
  refine hx.finishing (fun result m => by split <;> rfl) fun result m hend => ?_
  rcases result with ⟨fault | stuck⟩ | a
  · show (f m fault).cause.Avoids r
    rw [hf]
    exact hend
  · trivial
  · exact hend

theorem locating {position : Option Position} {x : Eval α} (hx : Blind r P x Q) : Blind r P (locating position x) Q :=
  hx.mapFault fun _ fault => by split <;> rfl

theorem catchReturn {x : Eval Value} (hx : Blind r P x (Value.Avoids r)) : Blind r P (catchReturn x) (Value.Avoids r) := by
  refine hx.finishing (fun result m => by split <;> rfl) fun result m hend => ?_
  split
  · exact hend _ rfl
  · exact hend

theorem returned {x : Eval Value} (hx : Blind r P x (Value.Avoids r)) : Blind r P (returned x) Whatever := by
  refine hx.finishing (fun result m => by split <;> rfl) fun result m hend => ?_
  split
  · trivial
  · trivial
  · rename_i interruption _
    cases interruption <;> exact hend

theorem attempt {x : Eval α} (hx : Blind r P x Q) :
    Blind r P (attempt x) fun result => match result with
      | .ok a => Q a
      | .error fault => fault.cause.Avoids r := by
  refine hx.finishing (fun result m => by split <;> rfl) fun result m hend => ?_
  rcases result with ⟨fault | stuck⟩ | a <;> exact hend

/-- Looking at a node and going on with what is known then. -/
theorem nodeIn {unit : UnitId} {id : NodeId} {k : Node → Eval α}
    (hk : ∀ node, Blind r (fun m => P m ∧ m.world.node? unit id = some node) (k node) Q) :
    Blind r P (Eval.nodeIn unit id >>= k) Q := by
  intro held m hm hp
  rw [runFrom_nodeIn_bind]
  cases hn : m.world.node? unit id with
  | none => exact stuck (P := P) _ held m hm hp
  | some node => exact hk node held m hm ⟨hp, hn⟩

section

variable (hP : Machine.Lasting r P)
include hP

theorem bind {x : Eval α} {k : α → Eval β} (hx : Blind r P x Q) (hk : ∀ a, Q a → Blind r P (k a) Q') :
    Blind r P (x >>= k) Q' := by
  intro held m hm hp
  obtain ⟨hn, hleaves, hend⟩ := hx held m hm hp
  rw [runFrom_bind]
  rcases hr : x.runFrom held m with ⟨⟨fault | stuck⟩ | a, n⟩ <;> rw [hr] at hn hleaves hend
  · exact ⟨hn, hleaves, hend⟩
  · exact ⟨hn, hleaves, trivial⟩
  · obtain ⟨hn', hleaves', hend'⟩ := hk a hend held n hn (hP m n hleaves hp)
    exact ⟨hn', hleaves.trans hleaves', hend'⟩

/-- A step that is made only under a condition, and what comes after it. -/
theorem guarded (c : Prop) [Decidable c] {stop : Eval PUnit} {k : PUnit → Eval α} (hs : Blind r P stop Whatever)
    (hk : ∀ u, Blind r P (k u) Q) : Blind r P (if c then stop >>= k else k ()) Q := by
  split
  · exact bind hP hs fun u _ => hk u
  · exact hk ()

end

/-! ### What is opened and closed -/

theorem inFrame {x : Eval α} {push : Environment → Environment} (frame : Frame)
    (hpush : ∀ env, (push env).frames = env.frames.push frame) (hf : frame.Avoids r)
    (hP : ∀ m : Machine, P m → P' { m with env := push m.env }) (hx : Blind r P' x Q) : Blind r P (inFrame push x) Q := by
  intro held m hm hp
  obtain ⟨hn, hleaves, hend⟩ := hx held _ (hm.push (hpush m.env) hf) (hP m hp)
  exact ⟨hn.truncate _, hleaves.inFrame (hpush m.env), hend⟩

theorem inScope {x : Eval α} (hx : Blind r (Machine.Apart r) x Q) : Blind r P (inScope x) Q := by
  refine inFrame (.locals .empty) (fun _ => rfl) (Bindings.avoids_empty r) (fun m _ => ?_) hx
  intro hopen
  have hinner : m.env.pushScope.innermost = .locals m.env.depth := by
    simp [Environment.innermost, Environment.pushScope, Environment.depth, Frame.holder]
  rw [hinner] at hopen
  cases hopen

/-- Another record stands open in a frame of its own. -/
theorem inRecord {x : Eval α} (hq : q ≠ r) (hx : Blind r (Machine.Apart r) x Q) : Blind r P (inRecord q x) Q := by
  refine inFrame (.record q) (fun _ => rfl) trivial (fun m _ => ?_) hx
  intro hopen
  have hinner : (m.env.pushRecord q).innermost = .record q := by
    simp [Environment.innermost, Environment.pushRecord, Frame.holder]
  rw [hinner] at hopen
  exact hq (Holder.record.inj hopen)

/-- A step between two changes that make no difference. -/
theorem between {x : Eval α} {f g : Machine → Machine} (hf : ∀ m : Machine, m.Unmoved (f m)) (hg : ∀ m : Machine, m.Unmoved (g m))
    (hx : Blind r (fun _ => True) x Q) : Blind r P (modify f >>= fun _ => afterwards g x) Q := by
  intro held m hm _
  obtain ⟨hn, hleaves, hend⟩ := hx held (f m) ((hf m).hides hm) trivial
  exact ⟨(hg _).hides hn, ((hf m).leaves.trans hleaves).trans (hg _).leaves, hend⟩

/-- The body of a method has a scope of its own, whatever record stands open around it. -/
theorem asMethodOf {x : Eval α} (receiver : Option RecordId) (hx : Blind r (Machine.Apart r) x Q) :
    Blind r P (asMethodOf receiver (Eval.inScope x)) Q := by
  cases receiver with
  | none => exact hx.inScope
  | some q =>
    have hscope : Blind r (fun _ => True) (Eval.inScope x) Q := hx.inScope
    have hopen : Blind r (fun _ => True) (Eval.inRecord q (Eval.inScope x)) Q :=
      inFrame (.record q) (fun _ => rfl) trivial (fun _ _ => trivial) hscope
    exact hopen.between (fun _ => ⟨rfl, rfl, rfl, rfl, rfl, rfl⟩) fun _ => ⟨rfl, rfl, rfl, rfl, rfl, rfl⟩

theorem inUnit {x : Eval α} (unit : UnitId) (hx : Blind r (fun _ => True) x Q) : Blind r P (inUnit unit x) Q := by
  intro held m hm _
  obtain ⟨hn, hleaves, hend⟩ := hx held { m with unit } ⟨⟨hm.heap, hm.modules, hm.frames, hm.exports⟩, hm.there⟩ trivial
  refine ⟨⟨⟨hn.heap, hn.modules, hn.frames, hn.exports⟩, hn.there⟩, ?_, hend⟩
  exact ⟨hleaves.env, rfl, hleaves.units, hleaves.record, hleaves.values⟩

theorem inCall {x : Eval α} (frame : CallFrame) (hx : Blind r (fun _ => True) x Q) : Blind r P (inCall frame x) Q := by
  have hcause (m : Machine) (fault : Fault) : (m.calls.attachBacktrace m.world.heap fault).cause = fault.cause := by
    unfold CallStack.attachBacktrace
    split <;> rfl
  have hcall := (hx.mapFault hcause).between (P := P) (f := fun m => { m with calls := m.calls.enter frame })
    (g := fun m => { m with calls := m.calls.pop }) (fun _ => ⟨rfl, rfl, rfl, rfl, rfl, rfl⟩)
    fun _ => ⟨rfl, rfl, rfl, rfl, rfl, rfl⟩
  refine reading fun m _ _ => ?_
  split
  · rename_i cause hrefused
    have hquiet : cause.Quiet := by
      unfold CallStack.refusal? at hrefused
      split at hrefused
      · obtain rfl := Option.some.inj hrefused
        exact nofun
      · cases hrefused
    exact fail (Q := Q) hquiet.avoids
  · exact hcall

/-! ### Records -/

theorem ofExcept {e : Except Cause α} (he : Gives (Cause.Avoids r) Q e) : Blind r P (Eval.ofExcept e) Q := by
  cases e with
  | ok a => exact pure he
  | error cause => exact fail he

theorem requireUnit (unit : UnitId) (id : NodeId) : Blind r P (Eval.requireUnit unit id) Whatever := by
  refine reading fun m _ _ => ?_
  split
  · exact stuck _
  · exact pure trivial

theorem heap : Blind r P Eval.heap (Heap.Avoids r) := unmoved (fun _ m => .refl m) fun _ _ hm _ => hm.heap

/-- A change of other records. -/
theorem onHeap {f : Heap → α × Heap} (h : ∀ heap : Heap, r.index < heap.size → heap.Avoids r →
    heap.Spares r (f heap).2 ∧ (f heap).2.Avoids r ∧ Q (f heap).1) : Blind r P (Eval.onHeap f) Q := by
  intro held m hm _
  obtain ⟨hs, hh, hq⟩ := h m.world.heap hm.there hm.heap
  exact ⟨hm.withHeap hs hh, .of_spares rfl rfl List.prefix_rfl hs, hq⟩

theorem modifyHeap {f : Heap → Heap} (h : ∀ heap : Heap, heap.Avoids r → heap.Spares r (f heap) ∧ (f heap).Avoids r) :
    Blind r P (Eval.modifyHeap f) Whatever := by
  intro held m hm _
  obtain ⟨hs, hh⟩ := h m.world.heap hm.heap
  exact ⟨hm.withHeap hs hh, .of_spares rfl rfl List.prefix_rfl hs, trivial⟩

/-- A record that is added is another one. -/
theorem adding (template : Option Template) (parent : Option RecordId) :
    Blind r P (Eval.onHeap fun h => h.alloc ⟨template, .empty, parent⟩) (· ≠ r) :=
  onHeap fun _ hr hh => ⟨.alloc hr _, hh.alloc template parent, Heap.Spares.new_ne hr⟩

/-- So is the copy of a record. -/
theorem shallowClone (q : RecordId) : Blind r P (Eval.onHeap fun h => h.shallowClone q) (· ≠ r) :=
  onHeap fun h hr hh =>
    ⟨.shallowClone hr q, hh.shallowClone q, by rw [Heap.fst_shallowClone]; exact Heap.Spares.new_ne hr⟩

theorem newList {items : Array Value} (hi : ∀ v ∈ items, v.Avoids r) : Blind r P (Eval.newList items) (Value.Avoids r) :=
  onHeap fun _ _ hh => ⟨.of_records rfl, hh.of_records rfl, .list hi⟩

theorem setProperty (hq : q ≠ r) (name : String) {v : Value} (hv : v.Avoids r) :
    Blind r P (Eval.setProperty q name v) Whatever :=
  modifyHeap fun _ hh => ⟨.set hq name v, hh.set hv q name⟩

theorem setAll (hq : q ≠ r) {entries : List (String × Value)} (hv : ∀ entry ∈ entries, entry.2.Avoids r) :
    Blind r P (Eval.modifyHeap fun h => h.setAll q entries) Whatever :=
  modifyHeap fun _ hh => ⟨.setAll hq entries, hh.setAll hv q⟩

theorem lives (q : RecordId) : Blind r P (Eval.lives q) Whatever :=
  unmoved (fun held m => .lives m held q) fun _ _ _ _ => trivial

theorem receiverOf (f : Function) : Blind r P (Eval.receiverOf f) Whatever := by
  refine unmoved (fun held m => ?_) fun held m _ _ => ?_
  · unfold Eval.receiverOf Function.receiver?
    split
    · exact .refl m
    · exact .refl m
    · rename_i q _
      exact .lives m held q
  · unfold Eval.receiverOf Function.receiver?
    split <;> trivial

theorem holdReceiver (owner : RecordId) (f : Function) : Blind r P (Eval.holdReceiver owner f) Whatever := by
  refine holding _ ?_
  unfold Function.holding
  split
  · rename_i q _
    have hlives : Blind r (fun _ => True) (if q = owner then Pure.pure true else Eval.lives q) Whatever := by
      split
      · exact pure trivial
      · exact lives q
    exact (bind Machine.lasting_true hlives fun _ _ => pure trivial).assuming fun _ _ => trivial
  · exact pure trivial

/-! ### Names -/

theorem lookup? (name : String) : Blind r P (Eval.lookup? name) fun value => ∀ v, value = some v → v.Avoids r :=
  unmoved (fun _ m => .refl m) fun _ _ hm _ _ hv => hm.lookup hv

/-- A name is defined while the record does not stand open in the innermost frame. -/
theorem define (hP : ∀ m, P m → m.Apart r) (name : String) {v : Value} (hv : v.Avoids r) :
    Blind r P (Eval.define name v) Whatever :=
  fun _ m hm hp => ⟨hm.put hv _ name, .define (hP m hp) name v, trivial⟩

/-- A name that is assigned somewhere in a unit is assigned. -/
theorem assign {name : String} (hP : ∀ m : Machine, P m → m.world.Assigns name) {v : Value} (hv : v.Avoids r) :
    Blind r P (Eval.assign name v) Whatever := by
  have hunbound : (Cause.unboundName name).Avoids r := nofun
  intro held m hm hp
  rw [Eval.assign, runFrom_bind, runFrom_target?]
  dsimp only
  cases ht : m.env.target? m.world.heap name with
  | some holder => exact ⟨hm.put hv holder name, .assign ht (hP m hp) v, trivial⟩
  | none => exact fail (P := P) (Q := Whatever) hunbound held m hm hp

section

variable (hP : Machine.Lasting r P)
include hP

theorem lookup (name : String) : Blind r P (Eval.lookup name) (Value.Avoids r) := by
  refine bind hP (lookup? name) fun value hv => ?_
  split
  · exact pure (hv _ rfl)
  · exact fail nofun

theorem defineAll (ha : ∀ m, P m → m.Apart r) {bound : List (String × Value)} (hb : ∀ entry ∈ bound, entry.2.Avoids r) :
    Blind r P (Eval.defineAll bound) Whatever := by
  induction bound with
  | nil => exact pure trivial
  | cons entry rest ih =>
    obtain ⟨hentry, hrest⟩ := List.forall_mem_cons.1 hb
    exact bind hP (define ha _ hentry) fun _ _ => ih hrest

theorem compose (hq : q ≠ r) (sources : List Label) : Blind r P (Eval.compose q sources) Whatever := by
  induction sources with
  | nil => exact pure trivial
  | cons source rest ih =>
    refine bind hP (lookup? _) fun value hv => ?_
    split
    · exact failAt nofun
    · rename_i from_
      exact bind hP (modifyHeap fun h hh => ⟨.setAll hq _, hh.setAll (hh.entries from_) q⟩) fun _ _ => ih
    · exact failAt nofun

theorem exportNames (labels : List Label) : Blind r P (Eval.exportNames labels) Whatever := by
  induction labels with
  | nil => exact pure trivial
  | cons label rest ih =>
    refine bind hP (lookup? _) fun value hv => ?_
    cases value with
    | some v =>
      refine bind hP (Q := Whatever) (fun held m hm _ => ⟨?_, ?_, trivial⟩) fun _ _ => ih
      · exact ⟨⟨hm.heap, hm.modules, hm.frames, hm.exports.set (hv v rfl) label.name⟩, hm.there⟩
      · exact .of_spares rfl rfl List.prefix_rfl (.refl _)
    | none => exact bind hP (Q := Whatever) (failAt nofun) fun _ _ => ih

theorem clone {v : Value} (hv : v.Avoids r) : Blind r P (Eval.clone v) (Value.Avoids r) := by
  cases hv with
  | record hq =>
    rename_i q
    exact bind hP (shallowClone q) fun _ hq => pure (.record hq)
  | list hi => exact newList hi
  | function f => exact pure (.function f)
  | _ => exact pure (by constructor)

end

theorem truth (operator : String) (v : Value) : Blind r P (Eval.truth operator v) Whatever := by
  unfold Eval.truth
  split
  · exact pure trivial
  · exact fail nofun

theorem callNative (n : Native) {args : List Value} : Blind r P (Eval.callNative n args) (Value.Avoids r) := by
  let after (m : Machine) : Machine := { m with world := (m.world.callNative n args).2 }
  have hends (held : List Value) (m : Machine) : (Eval.callNative n args).runFrom held m =
      (Eval.ofExcept (m.world.callNative n args).1).runFrom held (after m) := rfl
  refine unmoved (fun held m => ?_) fun held m _ _ => ?_
  · have hmoved : m.Unmoved (after m) :=
      ⟨congrArg Heap.records (m.world.heap_callNative n args),
        congrArg ModuleCache.modules (m.world.cache_callNative n args), m.world.units_callNative n args, rfl, rfl, rfl⟩
    rw [hends]
    cases (m.world.callNative n args).1 <;> exact hmoved
  · have hgood := (accepts_avoids r).callNative m.world n args
    rw [hends]
    cases hresult : (m.world.callNative n args).1 with
    | error cause =>
      rw [hresult] at hgood
      exact hgood
    | ok value =>
      rw [hresult] at hgood
      exact hgood

/-- An operator that makes a value in a heap and changes no record. -/
theorem makes {f : Heap → Except Cause (Value × Heap)}
    (h : ∀ heap : Heap, Gives (Cause.Avoids r) (heap.Makes (Value.Avoids r)) (f heap)) :
    Blind r P (do
      let (value, heap) ← Eval.ofExcept (f (← Eval.heap))
      Eval.modifyHeap fun _ => heap
      return value) (Value.Avoids r) := by
  refine unmoved (fun held m => ?_) fun held m _ _ => ?_
  all_goals
    have hgood := h m.world.heap
    simp only [Eval.heap, runFrom_bind, runFrom_get, runFrom_pure]
    cases hresult : f m.world.heap with
    | error cause => first | exact .refl m | (rw [hresult] at hgood; exact hgood)
    | ok result =>
      rw [hresult] at hgood
      first | exact ⟨hgood.2, rfl, rfl, rfl, rfl, rfl⟩ | exact hgood.1

end Blind

end Eval

end DynScript
