import DynScript.Proofs.Session.Safety
import DynScript.Proofs.Value.Copies

/-!
# What a record is composed from

A class that is called looks up the names that its literal composes before its new record stands open. What these
names mean is therefore decided by the environment of the call alone: the arguments are properties of the new record by
then, but no name stands for them.
-/

namespace DynScript

namespace Environment

variable {env : Environment} {h h' : Heap} {r : RecordId}

/-- A record neither stands open nor is the receiver of a call. -/
structure Avoids (env : Environment) (r : RecordId) : Prop where
  /-- It does not stand open. -/
  frames : .record r ∉ env.frames
  /-- It is not the receiver of a call. -/
  active : r ∉ env.active

/-- All records that stand open or are receivers of calls are there. -/
structure Grounded (env : Environment) (h : Heap) : Prop where
  /-- Those that stand open. -/
  frames : ∀ r, .record r ∈ env.frames → r.index < h.size
  /-- Those that are receivers. -/
  active : ∀ r ∈ env.active, r.index < h.size

/-- The next record is none of them. -/
theorem Grounded.avoids (hg : env.Grounded h) : env.Avoids ⟨h.size⟩ :=
  ⟨fun hr => lt_irrefl _ (hg.frames _ hr), fun hr => lt_irrefl _ (hg.active _ hr)⟩

/-- What names mean does not depend on a record that no name can reach. -/
theorem Avoids.lookup (ha : env.Avoids r) (hs : Heap.SameBut r h h') (name : String) :
    env.lookup h' name = env.lookup h name := by
  have hnames (frame : Frame) (hf : frame ∈ env.frames) : frame.names h' = frame.names h := by
    cases frame with
    | locals names => rfl
    | record q =>
      refine hs.properties ?_
      rintro rfl
      exact ha.frames hf
  have hactive (q : RecordId) (hq : q ∈ env.active) : h'.property? q name = h.property? q name := by
    have hne : q ≠ r := by
      rintro rfl
      exact ha.active hq
    rw [Heap.property?, Heap.property?, hs.properties hne]
  rcases env.finds_or_none h name with ⟨i, frame, hf⟩ | hnone
  · have hf' : env.Finds h' name i frame := by
      refine ⟨hf.there, ?_, fun j inner hj hinner => ?_⟩
      · rw [hnames frame hf.mem]
        exact hf.has
      · rw [hnames inner (Array.mem_of_getElem? hinner)]
        exact hf.innermost j inner hj hinner
    rw [hf.lookup, hf'.lookup, hnames frame hf.mem]
  · rw [lookup_of_none hnone, lookup_of_none fun frame hframe => hnames frame hframe ▸ hnone frame hframe]
    cases hq : env.active? with
    | none => rfl
    | some q => exact hactive q (List.mem_of_head? hq)

end Environment

/-! ## Composed names -/

namespace Machine

variable {m : Machine} {r : RecordId}

/-- A name stands for a record. -/
def Names (m : Machine) (label : Label) (q : RecordId) : Prop :=
  m.env.lookup m.world.heap label.name = some (.record q)

/-- The same machine with other records. -/
def withHeap (m : Machine) (heap : Heap) : Machine := { m with world := { m.world with heap := heap } }

end Machine

/-- Why a name cannot be composed, given what it stands for. -/
def Label.composeCause (label : Label) : Option Value → Cause
  | none => .unboundName label.name
  | some other => .notARecord "compose with" other.kindName

namespace Eval

variable {m : Machine} {r : RecordId} {h : Heap} {held : List Value} {composed before rest : List Label}
  {records : List RecordId}

/-- Names that stand for records are merged one after the other, whatever comes after them. -/
theorem runFrom_compose (ha : m.env.Avoids r) (hs : Heap.SameBut r m.world.heap h)
    (hn : List.Forall₂ m.Names before records) (rest : List Label) (held : List Value) :
    (compose r (before ++ rest)).runFrom held (m.withHeap h) =
      (compose r rest).runFrom held (m.withHeap (h.mergeAll r records)) := by
  induction hn generalizing h with
  | nil => rfl
  | @cons label q before records hq _ ih =>
    have hlookup : (lookup? label.name).runFrom held (m.withHeap h) = (.ok (some (.record q)), m.withHeap h) := by
      have hsame : m.env.lookup h label.name = some (.record q) := (ha.lookup hs label.name).trans hq
      show (Except.ok (m.env.lookup h label.name), m.withHeap h) = _
      rw [hsame]
    rw [List.cons_append, compose, runFrom_bind, hlookup]
    dsimp only
    rw [runFrom_bind]
    exact ih (hs.trans (Heap.sameBut_setAll h r _))

/-- A name that stands for no record is refused. -/
theorem runFrom_compose_refused (ha : m.env.Avoids r) (hs : Heap.SameBut r m.world.heap h) {label : Label}
    {value : Option Value} (hv : m.env.lookup m.world.heap label.name = value)
    (hrecord : value.bind Value.record? = none) (rest : List Label) (held : List Value) :
    (compose r (label :: rest)).runFrom held (m.withHeap h) =
      (.error (.fault ((Fault.ofCause (label.composeCause value)).locatedAt label.position)), m.withHeap h) := by
  have hlookup : (lookup? label.name).runFrom held (m.withHeap h) = (.ok value, m.withHeap h) := by
    have hsame : m.env.lookup h label.name = value := (ha.lookup hs label.name).trans hv
    show (Except.ok (m.env.lookup h label.name), m.withHeap h) = _
    rw [hsame]
  rw [compose, runFrom_bind, hlookup]
  cases value with
  | none => rfl
  | some v =>
    cases v with
    | record q => cases hrecord
    | _ => rfl

/-- What is left of making a record by a class when its parameters are properties. -/
def composing (eval : Evaluator) (t : Template) (r : RecordId) (composed : List Label) (ids : List NodeId) :
    Eval Value := do
  holding (.record r) <| inUnit t.unit do
    compose r composed
    inRecord r (members (within t.unit eval) t.unit r ids)
  return .record r

variable {eval : Evaluator} {t : Template} {ids : List NodeId}

theorem runFrom_inUnit {α : Type} (unit : UnitId) (x : Eval α) :
    (inUnit unit x).runFrom held m =
      ((x.runFrom held { m with unit := unit }).1, { (x.runFrom held { m with unit := unit }).2 with unit := m.unit }) :=
  rfl

theorem runFrom_holding {α : Type} (v : Value) (x : Eval α) :
    (holding v x).runFrom held m = x.runFrom (v :: held) m := rfl

/-- When all composed names have been merged, the members are left. -/
theorem runFrom_composing_ok {composed : List Label} {h' : Heap}
    (hc : (compose r composed).runFrom (.record r :: held) { m.withHeap h with unit := t.unit } =
      (.ok (), { m.withHeap h' with unit := t.unit })) :
    (composing eval t r composed ids).runFrom held (m.withHeap h) =
      (composing eval t r [] ids).runFrom held (m.withHeap h') := by
  have hunit : (inUnit t.unit (compose r composed >>= fun _ =>
        inRecord r (members (within t.unit eval) t.unit r ids))).runFrom (.record r :: held) (m.withHeap h) =
      (inUnit t.unit (compose r [] >>= fun _ =>
        inRecord r (members (within t.unit eval) t.unit r ids))).runFrom (.record r :: held) (m.withHeap h') := by
    rw [runFrom_inUnit, runFrom_inUnit, runFrom_bind, hc]
    rfl
  rw [composing, composing, runFrom_bind, runFrom_bind, runFrom_holding, runFrom_holding, hunit]

/-- When a composed name is refused, nothing is left. -/
theorem runFrom_composing_error {composed : List Label} {h' : Heap} {e : Interruption}
    (hc : (compose r composed).runFrom (.record r :: held) { m.withHeap h with unit := t.unit } =
      (.error e, { m.withHeap h' with unit := t.unit })) :
    (composing eval t r composed ids).runFrom held (m.withHeap h) = (.error e, m.withHeap h') := by
  have hunit : (inUnit t.unit (compose r composed >>= fun _ =>
        inRecord r (members (within t.unit eval) t.unit r ids))).runFrom (.record r :: held) (m.withHeap h) =
      (.error e, m.withHeap h') := by
    rw [runFrom_inUnit, runFrom_bind, hc]
    rfl
  rw [composing, runFrom_bind, runFrom_holding, hunit]

end Eval

/-! ## Classes -/

namespace Machine

/-- The record that is made next. -/
def nextRecord (m : Machine) : RecordId := ⟨m.world.heap.size⟩

/-- A template is a literal with these parameters, composed names and members. -/
def Literal (m : Machine) (t : Template) (params : List Param) (composed : List Label) (ids : List NodeId) : Prop :=
  ∃ written position, m.world.node? t.unit t.node = some ⟨.object written composed ids, position⟩ ∧
    written.getD [] = params

/-- The records once a new one has been made by a class and has the arguments as properties. -/
def filled (m : Machine) (cls : RecordId) (params : List Param) (args : List Value) : Heap :=
  (m.world.heap.newInstance cls).2.setAll m.nextRecord ((params.map fun p => p.name).zip args)

theorem sameBut_filled (m : Machine) (cls : RecordId) (params : List Param) (args : List Value) :
    Heap.SameBut m.nextRecord m.world.heap (m.filled cls params args) :=
  (m.world.heap.sameBut_alloc _).trans (Heap.sameBut_setAll _ _ _)

end Machine

namespace Eval

variable {m : Machine} {held : List Value} {eval : Evaluator} {t : Template} {params : List Param}
  {composed : List Label} {ids : List NodeId} {args : List Value}

/-- A class that is called with as many arguments as its literal has parameters makes a record that has them as
properties, and composing comes next. -/
theorem runFrom_instantiate (hl : m.Literal t params composed ids) (hargs : params.length = args.length)
    (cls : RecordId) (callSite : Option Position) :
    (instantiate eval cls t args callSite).runFrom held m =
      (composing eval t m.nextRecord composed ids).runFrom held (m.withHeap (m.filled cls params args)) := by
  obtain ⟨written, position, hnode, rfl⟩ := hl
  have hparts : (templateParts t).runFrom held m = (.ok (written.getD [], composed, ids), m) := by
    rw [templateParts, runFrom_nodeIn_bind, hnode]
    rfl
  rw [instantiate, runFrom_bind, hparts]
  dsimp only
  rw [if_neg (not_not.2 hargs)]
  rfl

end Eval

/-- The records of a sound machine are there. -/
theorem Machine.Sound.grounded {σ : Sight} {unit : UnitId} {m : Machine} (hm : m.Sound σ unit) :
    m.env.Grounded m.world.heap := by
  have hsize : m.world.heap.size = σ.records := hm.world.heap.size
  refine ⟨fun r hr => ?_, fun r hr => ?_⟩
  · rw [hsize]
    exact (hm.env.frames _ hr).1
  · rw [hsize]
    exact (hm.env.active r hr).1

/-- Whatever a session does, and whatever is evaluated in it, the records that stand open are there: watching makes
no difference. In such a machine let a class be called with as many arguments as it has parameters. If all names that
it composes stand for records then these are merged and the members are left. If one of them does not then the call
faults for it. In either case the names mean what they mean where the class is called, although the arguments are
properties of the new record by then. -/
theorem composed_names_mean_what_they_mean_at_the_call (fuel : Nat) (m : Machine) :
    (∀ settings printer host operations,
      let start := Session.new settings printer host
      start.performAll (Eval.watchedWithin (fun m => m.env.Grounded m.world.heap) · fuel) operations =
        start.performAll (evalWithin · fuel) operations) ∧
    (m.env.Grounded m.world.heap →
      ∀ t params composed ids, m.Literal t params composed ids → ∀ args, params.length = args.length →
        ∀ eval cls callSite held,
          let made := (Eval.instantiate eval cls t args callSite).runFrom held m
          (∀ records, List.Forall₂ m.Names composed records →
            made = (Eval.composing eval t m.nextRecord [] ids).runFrom held
              (m.withHeap ((m.filled cls params args).mergeAll m.nextRecord records))) ∧
          ∀ before label rest records, composed = before ++ label :: rest → List.Forall₂ m.Names before records →
            ∀ value, m.env.lookup m.world.heap label.name = value → value.bind Value.record? = none →
              made = (.error (.fault ((Fault.ofCause (label.composeCause value)).locatedAt label.position)),
                m.withHeap ((m.filled cls params args).mergeAll m.nextRecord records))) := by
  refine ⟨fun settings printer host operations => ?_, ?_⟩
  · exact Session.performAll_watched (fun hm => hm.grounded) settings printer host fuel operations
  · intro hm t params composed ids hl args hargs eval cls callSite held made
    -- The new record is the only one that has changed, and no name reaches it yet.
    have hsame := m.sameBut_filled cls params args
    have hmade : made = _ := Eval.runFrom_instantiate hl hargs cls callSite
    refine ⟨fun records hn => ?_, fun before label rest records hcomposed hn value hv hrecord => ?_⟩
    · rw [hmade]
      refine Eval.runFrom_composing_ok ?_
      have hmerged := Eval.runFrom_compose (m := { m with unit := t.unit }) hm.avoids hsame hn []
        (.record m.nextRecord :: held)
      rw [List.append_nil] at hmerged
      exact hmerged
    · rw [hmade]
      refine Eval.runFrom_composing_error ?_
      have hmerged := Eval.runFrom_compose (m := { m with unit := t.unit }) hm.avoids hsame hn (label :: rest)
        (.record m.nextRecord :: held)
      rw [← hcomposed] at hmerged
      exact hmerged.trans (Eval.runFrom_compose_refused (m := { m with unit := t.unit }) hm.avoids
        (hsame.trans (Heap.sameBut_mergeAll _ _ _)) hv hrecord rest _)

/-- A class that composes its parameter is accepted, but where it is called nothing has the name of the parameter. -/
theorem composed_parameter_is_unbound : ∃ c unit,
    compile ⟨"main.blu"⟩ "object(base) + base { }" .entry .empty = .ok c ∧ c.result = .ok unit ∧ c.queue.toList = [] ∧
      let world := ((World.new .silent .empty).addUnit unit.program.arena).2
      let m := (Machine.idle world).withHeap (Heap.empty.newRecord.2.newClass ⟨⟨0⟩, ⟨0⟩⟩).2
      let composed : Label := ⟨"base", some ⟨⟨15, 19⟩, 1, 16⟩⟩
      m.env.Grounded m.world.heap ∧
        m.Literal ⟨⟨0⟩, ⟨0⟩⟩ [⟨⟨"base", some ⟨⟨7, 11⟩, 1, 8⟩⟩, false⟩] ([] ++ composed :: []) [] ∧
        ((Eval.instantiate (evalWithin Loader.none 9) ⟨1⟩ ⟨⟨0⟩, ⟨0⟩⟩ [.record ⟨0⟩] none).runFrom [] m).1 =
          .error (.fault ((Fault.ofCause (.unboundName "base")).locatedAt composed.position)) := by
  have hread : (compile ⟨"main.blu"⟩ "object(base) + base { }" .entry .empty).toOption.any (fun c =>
      c.result.toOption.any fun unit => decide (c.queue.toList = []) && decide (unit.program.arena.kind? ⟨0⟩ =
        some (.object (some [⟨⟨"base", some ⟨⟨7, 11⟩, 1, 8⟩⟩, false⟩]) [⟨"base", some ⟨⟨15, 19⟩, 1, 16⟩⟩] []))) := by
    decide +kernel
  obtain ⟨c, hc, hresult⟩ := exists_of_any hread
  obtain ⟨unit, hu, hdecided⟩ := exists_of_any hresult
  rw [Bool.and_eq_true, decide_eq_true_eq, decide_eq_true_eq] at hdecided
  refine ⟨c, unit, hc, hu, hdecided.1, ?_⟩
  intro world m composed
  have hgrounded : m.env.Grounded m.world.heap := by
    refine ⟨fun r hr => ?_, fun r hr => ?_⟩
    · change Frame.record r ∈ #[Frame.locals Bindings.empty] at hr
      simp at hr
    · cases hr
  have hliteral : m.Literal ⟨⟨0⟩, ⟨0⟩⟩ [⟨⟨"base", some ⟨⟨7, 11⟩, 1, 8⟩⟩, false⟩] ([] ++ composed :: []) [] := by
    obtain ⟨position, hn⟩ := Arena.kind?_eq_some.1 hdecided.2
    exact ⟨_, position, hn, rfl⟩
  have hunbound : m.env.lookup m.world.heap composed.name = none := by
    have hempty : Bindings.empty.get? composed.name = none := rfl
    have hholder : Environment.new.holder? m.world.heap composed.name = none := by
      simp [Environment.holder?, Environment.depth, Environment.new, Environment.holderBelow?, Frame.hasMarked_mark,
        Frame.get?, Frame.names, hempty]
    change Environment.new.lookup m.world.heap composed.name = none
    rw [Environment.lookup, hholder]
    rfl
  refine ⟨hgrounded, hliteral, ?_⟩
  have hmade := ((composed_names_mean_what_they_mean_at_the_call 9 m).2 hgrounded _ _ _ _ hliteral [.record ⟨0⟩] rfl
    (evalWithin Loader.none 9) ⟨1⟩ none []).2 [] composed [] [] rfl .nil none hunbound rfl
  rw [hmade]
  rfl

end DynScript
