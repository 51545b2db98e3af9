import DynScript.Proofs.Run.Blind
import DynScript.Proofs.Run.Values

/-!
# The members of an object

The members of an object are made one after the other: the initialiser of each is evaluated while the record stands open,
and its value becomes a property. `Eval.Makes` is the record of such a run, with the machines in between. Each name that
was given a value keeps the last one, unless an initialiser that is evaluated afterwards changes it.
-/

namespace DynScript

variable {r q : RecordId}

/-! ## Merging -/

theorem lastGiven_append (entries later : List (String × Value)) (name : String) :
    lastGiven (entries ++ later) name = (lastGiven later name).or (lastGiven entries name) := by
  rw [lastGiven, List.reverse_append, List.lookup_append, lastGiven, lastGiven]

namespace Heap

variable {h : Heap} {records : List RecordId} {name : String}

/-- The properties of several records, one record after the other. -/
def entriesOf (h : Heap) (records : List RecordId) : List (String × Value) :=
  records.flatMap fun q => (h.properties q).entries

theorem mem_names_entriesOf : name ∈ (h.entriesOf records).map Prod.fst ↔ ∃ q ∈ records, h.has q name := by
  simp only [entriesOf, List.mem_map, List.mem_flatMap]
  constructor
  · rintro ⟨entry, ⟨q, hq, he⟩, rfl⟩
    exact ⟨q, hq, Option.isSome_of_eq_some (((h.properties q).mem_entries_iff entry).1 he)⟩
  · rintro ⟨q, hq, hname⟩
    obtain ⟨value, hvalue⟩ := Option.isSome_iff_exists.1 hname
    exact ⟨(name, value), ⟨q, hq, ((h.properties q).mem_entries_iff (name, value)).2 hvalue⟩, rfl⟩

theorem setAll_append (entries later : List (String × Value)) :
    h.setAll r (entries ++ later) = (h.setAll r entries).setAll r later := List.foldl_append

/-- While other records are merged into a record they stay as they are, so to merge them is to set their properties. -/
theorem mergeAll_eq {later : Heap} (hs : SameBut r h later) (hne : ∀ q ∈ records, q ≠ r) :
    later.mergeAll r records = later.setAll r (h.entriesOf records) := by
  induction records generalizing later with
  | nil => rfl
  | cons q rest ih =>
    obtain ⟨hq, hrest⟩ := List.forall_mem_cons.1 hne
    rw [mergeAll, ih (hs.trans (sameBut_setAll later r _)) hrest, hs.properties hq, entriesOf, entriesOf,
      List.flatMap_cons, setAll_append]

end Heap

/-! ## Members -/

/-- A member that has been made. -/
structure Made where
  /-- Its name. -/
  name : String
  /-- What its initialiser gives. -/
  value : Value
  /-- The machine in which the initialiser is evaluated. -/
  before : Machine
  /-- The machine in which the evaluation ends. -/
  after : Machine

namespace Made

variable {x : Made} {made : List Made} {name : String}

/-- What is put into the record. -/
def entry (x : Made) : String × Value := (x.name, x.value.named x.name)

/-- The machine once the member is a property. -/
def given (x : Made) (r : RecordId) : Machine :=
  x.after.withHeap (x.after.world.heap.set r x.name (x.value.named x.name))

/-- An initialiser leaves a name of the record the value that it had. -/
def Leaves (x : Made) (r : RecordId) (name : String) : Prop :=
  x.after.world.heap.property? r name = x.before.world.heap.property? r name

/-- No initialiser changes the value of a name that no member has from there on. -/
def Settled (r : RecordId) (name : String) : List Made → Prop
  | [] => True
  | x :: later => (name ∉ (x :: later).map Made.name → x.Leaves r name) ∧ Settled r name later

/-- Where all initialisers leave a name the value that it has, it is settled. -/
theorem settled_of_leaves (h : ∀ x ∈ made, x.Leaves r name) : Settled r name made := by
  induction made with
  | nil => trivial
  | cons x later ih =>
    obtain ⟨hx, hlater⟩ := List.forall_mem_cons.1 h
    exact ⟨fun _ => hx, ih hlater⟩

end Made

namespace Machine

/-- A recursive member is nil while it is evaluated. -/
def declaring (m : Machine) (r : RecordId) (name : String) (mode : BindingMode) : Machine :=
  if mode = .recursive then m.withHeap (m.world.heap.set r name .nil) else m

variable {m : Machine} {unit : UnitId} {a : Arena} {name other : String} {mode : BindingMode}

theorem units_declaring : (m.declaring r name mode).world.units = m.world.units := by
  unfold declaring
  split <;> rfl

theorem Evaluates.declaring (hm : m.Evaluates unit a) : (m.declaring r name mode).Evaluates unit a := by
  unfold Machine.declaring
  split <;> exact ⟨hm.current, hm.nodes⟩

theorem Hides.declaring (hm : m.Hides r) : (m.declaring r name mode).Hides r := by
  unfold Machine.declaring
  split
  · exact hm.set .nil r name
  · exact hm

theorem Hides.gains_declaring (hm : m.Hides r) (name : String) (mode : BindingMode) :
    m.world.heap.Gains r (if mode = .recursive then [name] else []) (m.declaring r name mode).world.heap := by
  unfold Machine.declaring
  split
  · exact .set hm.there name .nil
  · exact .refl _

theorem Hides.property?_declaring (hm : m.Hides r) (hother : other ≠ name) :
    (m.declaring r name mode).world.heap.property? r other = m.world.heap.property? r other := by
  unfold Machine.declaring
  split
  · exact (Heap.property?_set ⟨_, Array.getElem?_eq_getElem hm.there⟩ .nil r other).trans (if_neg fun h => hother h.2)
  · rfl

end Machine

/-- Members have been added to a record that stays hidden. -/
structure Machine.Fills (r : RecordId) (made : List Made) (m n : Machine) : Prop where
  /-- The record stays hidden. -/
  hides : n.Hides r
  /-- The nodes of the units. -/
  units : m.world.units.toList <+: n.world.units.toList
  /-- The names of the members are added. -/
  gains : m.world.heap.Gains r (made.map Made.name) n.world.heap
  /-- Each name has the value that it was given last. -/
  values : ∀ name, Made.Settled r name made → n.world.heap.property? r name =
    ((lastGiven (made.map Made.entry) name).map (Value.boundTo r)).or (m.world.heap.property? r name)
  /-- No initialiser gives the record a name. -/
  names : ∀ x ∈ made, ∀ name, x.after.world.heap.has r name ↔ x.before.world.heap.has r name
  /-- An initialiser changes a value only by an assignment. -/
  assigned : ∀ x ∈ made, ∀ name, x.Leaves r name ∨ n.world.Assigns name

theorem Machine.Fills.cons {x : Made} {made : List Made} {l m n : Machine} (hx : Fills r [x] l m) (h : Fills r made m n) :
    Fills r (x :: made) l n where
  hides := h.hides
  units := hx.units.trans h.units
  gains := hx.gains.trans h.gains
  values name hsettled := by
    obtain ⟨hfirst, hlater⟩ := hsettled
    rw [h.values name hlater, List.map_cons, lastGiven_cons]
    cases hlast : lastGiven (made.map Made.entry) name with
    | some v => rfl
    | none =>
      -- The name is given no value later, so it has the one that the first member leaves.
      have hnone : name ∉ made.map Made.name := by
        have hnames : (made.map Made.entry).map Prod.fst = made.map Made.name := by simp [Function.comp_def, Made.entry]
        rw [← hnames, ← isSome_lastGiven, hlast]
        simp
      have hvalue := hx.values name ⟨fun hx => hfirst (by simpa [hnone] using hx), trivial⟩
      rw [hvalue, List.map_singleton, lastGiven_cons]
      rfl
  names y hy := by
    rcases List.mem_cons.1 hy with rfl | hy
    · exact hx.names y List.mem_cons_self
    · exact h.names y hy
  assigned y hy name := by
    rcases List.mem_cons.1 hy with rfl | hy
    · exact (hx.assigned y List.mem_cons_self name).imp_right (World.Assigns.later h.units)
    · exact h.assigned y hy name

namespace Eval

variable {eval : Evaluator} {unit : UnitId} {held : List Value} {ids : List NodeId} {id : NodeId} {m n : Machine}

/-- A node is a member, and its initialiser gives a value. -/
def Initialises (eval : Evaluator) (unit : UnitId) (r : RecordId) (held : List Value) (id : NodeId) (m : Machine)
    (x : Made) : Prop :=
  ∃ mode isFinal initialiser position,
    m.world.node? unit id = some ⟨.binding x.name mode isFinal initialiser, position⟩ ∧
    x.before = m.declaring r x.name mode ∧ (eval initialiser).runFrom held x.before = (.ok x.value, x.after)

/-- Members are made from one machine to another. -/
inductive Makes (eval : Evaluator) (unit : UnitId) (r : RecordId) (held : List Value) :
    List NodeId → Machine → List Made → Machine → Prop
  | nil (m : Machine) : Makes eval unit r held [] m [] m
  | cons {id : NodeId} {ids : List NodeId} {m n : Machine} {x : Made} {made : List Made}
    (first : Initialises eval unit r held id m x) (rest : Makes eval unit r held ids (x.given r) made n) :
    Makes eval unit r held (id :: ids) m (x :: made) n

/-- A sequence that has a value has one at each step. -/
theorem exists_of_bind_ok {α β : Type} {x : Eval α} {k : α → Eval β} {b : β}
    (h : (x >>= k).runFrom held m = (.ok b, n)) :
    ∃ a l, x.runFrom held m = (.ok a, l) ∧ (k a).runFrom held l = (.ok b, n) := by
  rw [runFrom_bind] at h
  rcases hr : x.runFrom held m with ⟨e | a, l⟩ <;> rw [hr] at h
  · cases h
  · exact ⟨a, l, rfl, h⟩

theorem runFrom_declaring (name : String) (mode : BindingMode) :
    (if mode = .recursive then setProperty r name .nil else pure ()).runFrom held m = (.ok (), m.declaring r name mode) := by
  unfold Machine.declaring
  split <;> rfl

section

variable {a : Arena} (he : ∀ id, Restoring (eval id))
include he

/-- The nodes of the unit stay when a member has been made. -/
theorem Initialises.evaluates {x : Made} (hx : Initialises eval unit r held id m x) (hm : m.Evaluates unit a) :
    (x.given r).Evaluates unit a := by
  obtain ⟨mode, isFinal, initialiser, position, -, hbefore, hrun⟩ := hx
  have hafter := (he initialiser held x.before).evaluates (hbefore ▸ hm.declaring)
  rw [hrun] at hafter
  exact ⟨hafter.current, hafter.nodes⟩

/-- Members that are evaluated successfully are made one after the other. -/
theorem makes_of_members (hm : m.Evaluates unit a)
    (h : (members (within unit eval) unit r ids).runFrom held m = (.ok (), n)) :
    ∃ made, Makes eval unit r held ids m made n := by
  induction ids generalizing m with
  | nil =>
    obtain rfl : m = n := congrArg Prod.snd h
    exact ⟨[], .nil m⟩
  | cons id rest ih =>
    rw [SparingNodes.members_cons] at h
    obtain ⟨⟨name, mode, initialiser⟩, l, hparts, h⟩ := exists_of_bind_ok h
    obtain ⟨value, after, hvalue, hrest⟩ := exists_of_bind_ok h
    obtain rfl : m = l := (Looks.memberParts unit id held m).symm.trans (congrArg Prod.snd hparts)
    obtain ⟨isFinal, hkind⟩ := SparingNodes.kind?_of_memberParts hm hparts
    obtain ⟨position, hnode⟩ := Arena.kind?_eq_some.1 hkind
    have hrun : (eval initialiser).runFrom held (m.declaring r name mode) = (.ok value, after) := by
      rw [runFrom_bind, runFrom_declaring] at hvalue
      exact (runFrom_within hm.declaring.current).symm.trans hvalue
    let x : Made := ⟨name, value, m.declaring r name mode, after⟩
    have hx : Initialises eval unit r held id m x :=
      ⟨mode, isFinal, initialiser, position, (hm.node? id).trans hnode, rfl, hrun⟩
    obtain ⟨made, hmade⟩ := ih (hx.evaluates he hm) hrest
    exact ⟨x :: made, .cons hx hmade⟩

/-- Members that can be made one after the other are evaluated successfully. -/
theorem members_of_makes {made : List Made} (h : Makes eval unit r held ids m made n) (hm : m.Evaluates unit a) :
    (members (within unit eval) unit r ids).runFrom held m = (.ok (), n) := by
  induction h with
  | nil m => rfl
  | @cons id rest m n x made first _ ih =>
    have hgiven := first.evaluates he hm
    obtain ⟨mode, isFinal, initialiser, position, hnode, hbefore, hrun⟩ := first
    have hparts : (memberParts unit id).runFrom held m = (.ok (x.name, mode, initialiser), m) := by
      rw [memberParts, nodeOf_bind, runFrom_bind, runFrom_requireUnit hm.current]
      dsimp only
      rw [runFrom_nodeIn_bind, hnode]
      rfl
    have hvalue : ((if mode = .recursive then setProperty r x.name .nil else pure ()) >>= fun _ =>
        within unit eval initialiser).runFrom held m = (.ok x.value, x.after) := by
      rw [runFrom_bind, runFrom_declaring]
      exact (runFrom_within hm.declaring.current).trans (hbefore ▸ hrun)
    rw [SparingNodes.members_cons, bind_of_ok hparts, bind_of_ok hvalue]
    exact ih hgiven

end

/-! ## Filling a record -/

section

variable {a : Arena} (ha : a.Orderly) (he : ∀ id, Restoring (eval id))
  (hb : ∀ id, (∀ name, ¬ a.Binds name id) → Blind r (Machine.Evaluates unit a) (eval id) (Value.Avoids r))
include ha hb

/-- An initialiser is no binding, so it does not get hold of the record. -/
theorem Initialises.fills {x : Made} (hx : Initialises eval unit r held id m x) (hm : m.Hides r)
    (hunit : m.Evaluates unit a) : m.Fills r [x] (x.given r) := by
  obtain ⟨mode, isFinal, initialiser, position, hnode, hbefore, hrun⟩ := hx
  have hno : ∀ name, ¬ a.Binds name initialiser :=
    ha.not_binds ((hunit.node? id).symm.trans hnode) (List.mem_singleton_self _)
  obtain ⟨hafter, hleaves, hvalue⟩ := hb initialiser hno held x.before (hbefore ▸ hm.declaring) (hbefore ▸ hunit.declaring)
  rw [hrun] at hafter hleaves hvalue
  have hgiven := Heap.Gains.set hafter.there x.name (x.value.named x.name)
  refine ⟨hafter.set (hvalue.named x.name) r x.name, ?_, ?_, fun name hsettled => ?_, fun y hy name => ?_, fun y hy name => ?_⟩
  · rw [← Machine.units_declaring, ← hbefore]
    exact hleaves.units
  · have hdeclared := hbefore ▸ hm.gains_declaring x.name mode
    refine ((hdeclared.trans hleaves.record).trans hgiven).congr fun name => ?_
    split <;> simp
  · refine (Heap.property?_set ⟨_, Array.getElem?_eq_getElem hafter.there⟩ _ r name).trans ?_
    rw [List.map_singleton, lastGiven_cons]
    by_cases hname : name = x.entry.1
    · rw [if_pos ⟨rfl, hname⟩, if_pos hname]
      rfl
    · rw [if_neg fun h => hname h.2, if_neg hname]
      have hbefore : x.before.world.heap.property? r name = m.world.heap.property? r name :=
        hbefore ▸ hm.property?_declaring hname
      exact (hsettled.1 fun h => hname (List.mem_singleton.1 h)).trans hbefore
  · obtain rfl := List.mem_singleton.1 hy
    exact (hleaves.record.names name).trans (or_iff_left List.not_mem_nil)
  · obtain rfl := List.mem_singleton.1 hy
    exact hleaves.values name

include he in
/-- A record is filled by its members. -/
theorem Makes.fills {made : List Made} (h : Makes eval unit r held ids m made n) (hm : m.Hides r)
    (hunit : m.Evaluates unit a) : m.Fills r made n := by
  induction h with
  | nil m => exact ⟨hm, List.prefix_rfl, .refl _, fun _ _ => rfl, nofun, nofun⟩
  | cons first rest ih =>
    have hfirst := first.fills ha hb hm hunit
    exact hfirst.cons (ih hfirst.hides (first.evaluates he hunit))

end

end Eval

/-! ## The record in the end -/

namespace Machine

variable {cls : RecordId} {params : List Param} {args : List Value} {records : List RecordId} {made : List Made}
  {m n start : Machine}

/-- A class has made a record of its arguments, of the records that it composes and of its members. -/
structure Constructs (m : Machine) (cls : RecordId) (params : List Param) (args : List Value)
    (records : List RecordId) (made : List Made) (w : World) : Prop where
  /-- There was no such record. -/
  fresh : m.world.heap.get? m.nextRecord = none
  /-- The record is no class. -/
  template : w.heap.template? m.nextRecord = none
  /-- Its parent is the class. -/
  parent : w.heap.parent? m.nextRecord = some cls
  /-- Its names are those of the parameters, of the composed records and of the members. -/
  names : ∀ name, w.heap.has m.nextRecord name ↔
    (name ∈ params.map fun p => p.name) ∨ (∃ q ∈ records, m.world.heap.has q name) ∨ name ∈ made.map Made.name
  /-- Each name has the value that it was given last. -/
  values : ∀ name, Made.Settled m.nextRecord name made → w.heap.property? m.nextRecord name =
    (lastGiven ((params.map fun p => p.name).zip args ++ m.world.heap.entriesOf records ++ made.map Made.entry) name).map
      (Value.boundTo m.nextRecord)
  /-- Functions in it point back at it. -/
  functions : ∀ name f, w.heap.property? m.nextRecord name = some (.function f) →
    f.receiver = some (.stored m.nextRecord)
  /-- No initialiser gives it a name. -/
  initialisers : ∀ x ∈ made, ∀ name, x.after.world.heap.has m.nextRecord name ↔ x.before.world.heap.has m.nextRecord name
  /-- An initialiser changes a value only by an assignment. -/
  assigned : ∀ x ∈ made, ∀ name, x.Leaves m.nextRecord name ∨ w.Assigns name

/-- The arguments and then the properties of the composed records are set in a new record. -/
theorem mergeAll_filled (m : Machine) (cls : RecordId) (params : List Param) (args : List Value)
    (hne : ∀ q ∈ records, q ≠ m.nextRecord) : (m.filled cls params args).mergeAll m.nextRecord records =
      (m.world.heap.newInstance cls).2.setAll m.nextRecord
        ((params.map fun p => p.name).zip args ++ m.world.heap.entriesOf records) := by
  rw [Heap.mergeAll_eq (m.sameBut_filled cls params args) hne, Heap.setAll_append]
  rfl

/-- When the members have been added to what was merged, the record has been made. -/
theorem Fills.constructs (h : start.Fills m.nextRecord made n) (hne : ∀ q ∈ records, q ≠ m.nextRecord)
    (hargs : params.length = args.length)
    (hstart : start.world.heap = (m.filled cls params args).mergeAll m.nextRecord records) :
    m.Constructs cls params args records made n.world := by
  let given := (params.map fun p => p.name).zip args
  let entries := given ++ m.world.heap.entriesOf records
  let new := (m.world.heap.newInstance cls).2
  have hnew : new.get? m.nextRecord = some ⟨none, .empty, some cls⟩ := (m.world.heap.get?_alloc _ _).trans (if_pos rfl)
  have hempty (name : String) : new.property? m.nextRecord name = none := by
    rw [Heap.property?, Heap.properties, hnew]
    rfl
  have hheap : start.world.heap = new.setAll m.nextRecord entries := hstart.trans (m.mergeAll_filled cls params args hne)
  have hthere : m.nextRecord.index < new.size := (Array.getElem?_eq_some_iff.1 hnew).1
  have hgains := (Heap.Gains.setAll hthere entries).trans (hheap ▸ h.gains)
  refine ⟨Array.getElem?_eq_none le_rfl, ?_, ?_, fun name => ?_, fun name hsettled => ?_, fun name f hf => ?_, h.names,
    h.assigned⟩
  · rw [hgains.template, Heap.template?, hnew]
    rfl
  · rw [hgains.parent, Heap.parent?, hnew]
    rfl
  · have hnot : ¬ new.has m.nextRecord name := by
      have hhas : new.has m.nextRecord name = (new.property? m.nextRecord name).isSome := rfl
      rw [hhas, hempty]
      exact Bool.false_ne_true
    have hgiven : given.map Prod.fst = params.map fun p => p.name := List.map_fst_zip (by simp [hargs])
    rw [hgains.names, or_iff_right hnot, List.mem_append, List.map_append, List.mem_append, hgiven,
      Heap.mem_names_entriesOf, or_assoc]
  · have hset := Heap.property?_setAll entries ⟨_, hnew⟩ name
    rw [hempty, Option.or_none] at hset
    rw [h.values name hsettled, hheap, hset, lastGiven_append entries, Option.map_or]
  · refine (hgains.functions name f hf).resolve_left fun hbefore => ?_
    rw [hempty] at hbefore
    cases hbefore

end Machine

/-! ## From the call to the members -/

/-- The machine in which the members of a class are made. -/
def Machine.opening (m : Machine) (t : Template) (r : RecordId) (heap : Heap) : Machine :=
  { m.withHeap heap with unit := t.unit, env := m.env.pushRecord r }

namespace Eval

variable {eval : Evaluator} {held : List Value} {ids : List NodeId} {m n : Machine} {t : Template} {composed : List Label}
  {h : Heap} {v : Value}

/-- Composing that succeeds has found records, and it has merged them. -/
theorem exists_of_compose_ok {labels : List Label} {h : Heap} (ha : m.env.Avoids r) (hs : Heap.SameBut r m.world.heap h)
    (hc : (compose r labels).runFrom held (m.withHeap h) = (.ok (), n)) :
    ∃ records, List.Forall₂ m.Names labels records ∧ n = m.withHeap (h.mergeAll r records) := by
  induction labels generalizing h with
  | nil => exact ⟨[], .nil, (congrArg Prod.snd hc).symm⟩
  | cons label rest ih =>
    cases hvalue : (m.env.lookup m.world.heap label.name).bind Value.record? with
    | none =>
      rw [runFrom_compose_refused ha hs rfl hvalue] at hc
      cases hc
    | some q =>
      obtain ⟨value, hlookup, hq⟩ := Option.bind_eq_some_iff.1 hvalue
      obtain rfl : value = .record q := by
        cases value <;> cases hq
        rfl
      have hnames : List.Forall₂ m.Names [label] [q] := .cons hlookup .nil
      have hrest := (runFrom_compose ha hs hnames rest held).symm.trans hc
      obtain ⟨records, hrecords, hn⟩ := ih (hs.trans (Heap.sameBut_mergeAll h r [q])) hrest
      exact ⟨q :: records, .cons hlookup hrecords, hn⟩

/-- A class that makes a record has merged records, and then it has made members. -/
theorem exists_of_composing_ok (ha : m.env.Avoids r) (hs : Heap.SameBut r m.world.heap h)
    (hc : (composing eval t r composed ids).runFrom held (m.withHeap h) = (.ok v, n)) :
    v = .record r ∧ ∃ records finish, List.Forall₂ m.Names composed records ∧
      (members (within t.unit eval) t.unit r ids).runFrom (.record r :: held) (m.opening t r (h.mergeAll r records)) =
        (.ok (), finish) ∧ n.world = finish.world := by
  obtain ⟨⟨⟩, l, hfilled, hdone⟩ := exists_of_bind_ok hc
  rw [runFrom_holding, runFrom_inUnit] at hfilled
  obtain ⟨hok, hl⟩ := Prod.mk.inj hfilled
  obtain ⟨⟨⟩, merged, hmerged, hrest⟩ := exists_of_bind_ok (Prod.ext hok rfl)
  obtain ⟨records, hrecords, hmerge⟩ := exists_of_compose_ok (m := { m with unit := t.unit }) ha hs hmerged
  rw [hmerge] at hrest
  obtain ⟨hmade, hfinish⟩ := Prod.mk.inj hrest
  refine ⟨(Except.ok.inj (congrArg Prod.fst hdone)).symm, records, _, hrecords, Prod.ext hmade rfl, ?_⟩
  have hn : l = n := congrArg Prod.snd hdone
  rw [← hn, ← hl]
  exact (congrArg Machine.world hfinish).symm

/-- If all composed names stand for records and the members are made then the record is made. -/
theorem composing_of_members {records : List RecordId} {finish : Machine} (ha : m.env.Avoids r)
    (hs : Heap.SameBut r m.world.heap h) (hn : List.Forall₂ m.Names composed records)
    (hmade : (members (within t.unit eval) t.unit r ids).runFrom (.record r :: held) (m.opening t r (h.mergeAll r records)) =
      (.ok (), finish)) :
    ((composing eval t r composed ids).runFrom held (m.withHeap h)).1 = .ok (.record r) := by
  have hmerged : (compose r composed).runFrom (.record r :: held) { m.withHeap h with unit := t.unit } =
      (.ok (), { m.withHeap (h.mergeAll r records) with unit := t.unit }) := by
    have hcompose := runFrom_compose (m := { m with unit := t.unit }) ha hs hn [] (.record r :: held)
    rw [List.append_nil] at hcompose
    exact hcompose
  rw [runFrom_composing_ok hmerged, composing, runFrom_bind, runFrom_holding, runFrom_inUnit]
  have hopened : ((compose r [] >>= fun _ => inRecord r (members (within t.unit eval) t.unit r ids)).runFrom
      (.record r :: held) { m.withHeap (h.mergeAll r records) with unit := t.unit }).1 = .ok () := congrArg Prod.fst hmade
  rw [hopened]
  rfl

end Eval

end DynScript
