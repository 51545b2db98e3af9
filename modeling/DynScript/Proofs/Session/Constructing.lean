import DynScript.Proofs.Run.Constructing
import DynScript.Proofs.Session.Blindness
import DynScript.Proofs.Session.Gating

/-!
# The records that classes make

A class that is called with the wrong number of arguments does nothing. Otherwise it makes a new record, and what this
record has in the end is told by the order in which it is filled: first the parameters, then the composed records, then
the members. No member gets hold of the record before it is there, although it stands open while the initialisers are
evaluated, so these can change in it only what they assign by name.
-/

namespace DynScript

/-! ## Machines in which classes can be called -/

/-- All that stands open in a machine is there, no value that it holds is the record that is made next, and classes refer
to object literals. -/
structure Machine.Ready (m : Machine) : Prop where
  /-- What stands open. -/
  grounded : m.env.Grounded m.world.heap
  /-- The values. -/
  veils : m.Veils m.nextRecord
  /-- The classes. -/
  classes : ∀ cls t, m.world.heap.template? cls = some t → ∃ params composed ids, m.Literal t params composed ids

/-- A sound value is not the next record. -/
theorem Value.Sound.avoids {σ : Sight} {v : Value} (hv : v.Sound σ) : v.Avoids ⟨σ.records⟩ := by
  induction hv with
  | list _ ih => exact .list ih
  | function _ => exact .function _
  | record hr =>
    refine .record ?_
    rintro rfl
    exact lt_irrefl _ hr.1
  | _ => constructor

theorem Machine.Sound.ready {σ : Sight} {unit : UnitId} {m : Machine} (hm : m.Sound σ unit) : m.Ready := by
  have hnext : m.nextRecord = ⟨σ.records⟩ := congrArg RecordId.mk hm.world.heap.size
  refine ⟨hm.grounded, ?_, fun cls t ht => ?_⟩
  · rw [hnext]
    refine ⟨fun q v hv => ?_, fun entry he => ?_, fun frame hf => ?_, fun v hv => (hm.exports v hv).avoids⟩
    · unfold Heap.properties at hv
      cases hg : m.world.heap.get? q with
      | none =>
        rw [hg] at hv
        exact Bindings.avoids_empty _ v hv
      | some data =>
        rw [hg] at hv
        exact ((hm.world.heap.all hg).properties v hv).avoids
    · rintro heq
      exact lt_irrefl _ (heq ▸ (hm.world.cache entry he).1)
    · have hsound := hm.env.frames frame hf
      cases frame with
      | locals names => exact fun v hv => (hsound v hv).avoids
      | record q => trivial
  · obtain ⟨data, hg, ht⟩ := Option.bind_eq_some_iff.1 ht
    obtain ⟨params, composed, ids, hk⟩ := (hm.world.heap.all hg).template t ht
    obtain ⟨position, hn⟩ := hm.world.node? hk
    exact ⟨_, composed, ids, params, position, hn, rfl⟩

/-- What analysis has accepted is a program as the parser makes it. -/
theorem Arena.Accepted.orderly {a : Arena} (ha : a.Accepted) : a.Orderly := by
  obtain ⟨program, ⟨p, role, queue, analysed, hanalyse, -, rfl⟩, rfl⟩ := ha
  exact (Parsed.Makes.analysed hanalyse).orderly

namespace Machine.Ready

variable {m : Machine} {cls q : RecordId} {params : List Param} {args : List Value} {records : List RecordId}
  {t : Template}

/-- A class that is there is not the next record. -/
theorem class_ne (ht : m.world.heap.template? cls = some t) : cls ≠ m.nextRecord := by
  obtain ⟨data, hg, -⟩ := Option.bind_eq_some_iff.1 ht
  rintro rfl
  exact lt_irrefl _ (Array.getElem?_eq_some_iff.1 hg).1

/-- Nor is a record that has a name. -/
theorem named_ne {labels : List Label} (hm : m.Ready) (hn : List.Forall₂ m.Names labels records) :
    ∀ q ∈ records, q ≠ m.nextRecord := by
  induction hn with
  | nil => exact nofun
  | cons hq _ ih =>
    refine List.forall_mem_cons.2 ⟨?_, ih⟩
    cases hm.veils.lookup hq
    assumption

/-- When the members of a class begin to be made, the record is there and no value is the record. -/
theorem hides_opening (hm : m.Ready) (hne : ∀ q ∈ records, q ≠ m.nextRecord) (ha : ∀ v ∈ args, v.Avoids m.nextRecord)
    (t : Template) : (m.opening t m.nextRecord ((m.filled cls params args).mergeAll m.nextRecord records)).Hides m.nextRecord := by
  have hnew : (m.world.heap.newInstance cls).2.Avoids m.nextRecord := hm.veils.heap.alloc none (some cls)
  have hfilled : (m.filled cls params args).Avoids m.nextRecord :=
    hnew.setAll (fun entry he => ha _ (List.of_mem_zip he).2) _
  refine ⟨⟨hfilled.mergeAll records _, hm.veils.modules, fun frame hf => ?_, hm.veils.exports⟩, ?_⟩
  · rcases Array.mem_push.1 hf with hf | rfl
    · exact hm.veils.frames frame hf
    · trivial
  · show m.nextRecord.index < ((m.filled cls params args).mergeAll m.nextRecord records).size
    rw [m.mergeAll_filled cls params args hne, Heap.size_setAll]
    simp [nextRecord, Heap.newInstance, Heap.alloc, Heap.size]

end Machine.Ready

namespace Eval

variable {m : Machine} {cls : RecordId} {t : Template} {params : List Param} {composed : List Label}
  {ids : List NodeId} {args : List Value} {eval : Evaluator}

/-- To call a class is to run its literal. -/
theorem runFrom_callClass (ht : m.world.heap.template? cls = some t) (callSite : Option Position) (held : List Value) :
    (callValue eval (.record cls) args callSite).runFrom held m =
      (instantiate eval cls t args callSite).runFrom (args ++ .record cls :: held) m := by
  show (callRecord eval cls args callSite).runFrom (args ++ .record cls :: held) m = _
  rw [callRecord, runFrom_bind, runFrom_heap]
  dsimp only
  rw [ht]

/-- A wrong number of arguments is noticed before anything is done. -/
theorem runFrom_instantiate_refused (hl : m.Literal t params composed ids) (hargs : params.length ≠ args.length)
    (callSite : Option Position) (held : List Value) :
    (instantiate eval cls t args callSite).runFrom held m =
      (.error (.fault ((Fault.ofCause (.arityMismatch "constructor" params.length args.length)).locatedAt callSite)), m) := by
  obtain ⟨written, position, hnode, rfl⟩ := hl
  have hparts : (templateParts t).runFrom held m = (.ok (written.getD [], composed, ids), m) := by
    rw [templateParts, runFrom_nodeIn_bind, hnode]
    rfl
  rw [instantiate, runFrom_bind, hparts]
  dsimp only
  rw [if_pos hargs]
  rfl

end Eval

/-- Whatever a session does, and whatever is evaluated in it, classes can be called at every moment: watching makes no
difference. In such a machine let a class be called with arguments that are there. If there are not as many as it has
parameters then the call faults and nothing else happens. Otherwise it succeeds if all names that the class composes
stand for records and, once these are merged, the members are made one after the other; and only then, with the new
record as its value. Merging changes neither the class nor what is merged. What has been made is a new record that is no
class, with the class as its parent. It has the names of the parameters, of the composed records and of the members, each
with the value that it was given last in this order, unless an initialiser that was evaluated afterwards has assigned the
name, and functions in it point back at it. -/
theorem instances_are_filled_in_order (imports : Imports) (fuel : Nat) :
    (∀ settings printer host operations,
      let start := Session.new settings printer host
      start.performAll (Eval.watchedWithin Machine.Ready · fuel) operations =
        start.performAll (evalWithin · fuel) operations ∧
      start.performAll (Eval.watchedWithin Machine.Vetted · fuel) operations =
        start.performAll (evalWithin · fuel) operations) ∧
    ∀ m : Machine, m.Ready → m.Vetted → ∀ cls t, m.world.heap.template? cls = some t →
      ∃ params composed ids, m.Literal t params composed ids ∧
        ∀ args callSite held, (∀ v ∈ args, v.Avoids m.nextRecord) →
          let run := (Eval.callValue (evalWithin imports.loader fuel) (.record cls) args callSite).runFrom held m
          let merged (records : List RecordId) := (m.filled cls params args).mergeAll m.nextRecord records
          let fills (records : List RecordId) (made : List Made) (finish : Machine) :=
            List.Forall₂ m.Names composed records ∧ Eval.Makes (evalWithin imports.loader fuel) t.unit m.nextRecord
              (.record m.nextRecord :: (args ++ .record cls :: held)) ids (m.opening t m.nextRecord (merged records)) made
              finish
          (params.length ≠ args.length → run = (.error (.fault ((Fault.ofCause
            (.arityMismatch "constructor" params.length args.length)).locatedAt callSite)), m)) ∧
          (params.length = args.length → ∀ records made finish, fills records made finish →
            run.1 = .ok (.record m.nextRecord)) ∧
          ∀ v, run.1 = .ok v → v = .record m.nextRecord ∧ params.length = args.length ∧
            ∃ records made finish, fills records made finish ∧ run.2.world = finish.world ∧
              (∀ q ∈ cls :: records, (merged records).get? q = m.world.heap.get? q) ∧
              m.Constructs cls params args records made run.2.world := by
  refine ⟨fun settings printer host operations => ⟨?_, ?_⟩, fun m hm hvetted cls t ht => ?_⟩
  · exact Session.performAll_watched (fun hm => hm.ready) settings printer host fuel operations
  · exact Session.performAll_vetted (fun i a ha => by cases ha) fuel operations
  obtain ⟨params, composed, ids, hl⟩ := hm.classes cls t ht
  refine ⟨params, composed, ids, hl, fun args callSite held ha => ?_⟩
  intro run merged fills
  have hrun : run = _ := Eval.runFrom_callClass ht callSite held
  have hrefused (hargs : params.length ≠ args.length) := hrun.trans (Eval.runFrom_instantiate_refused hl hargs callSite _)
  have hcomposing (hargs : params.length = args.length) := hrun.trans (Eval.runFrom_instantiate hl hargs cls callSite)
  have hsame := m.sameBut_filled cls params args
  -- The members belong to a unit that has been accepted, in which an initialiser is no binding.
  obtain ⟨written, position, hnode, -⟩ := id hl
  obtain ⟨a, hunit, -⟩ := Option.bind_eq_some_iff.1 hnode
  have horderly := (hvetted _ _ hunit).orderly
  have heval (id : NodeId) : Eval.Restoring (evalWithin imports.loader fuel id) :=
    Eval.Restoring.congruence.evalWithin Eval.Restoring.nodeIn Eval.Restoring.assignee imports fuel id
  have hopening (heap : Heap) : (m.opening t m.nextRecord heap).Evaluates t.unit a := ⟨rfl, hunit⟩
  refine ⟨hrefused, fun hargs records made finish hfills => ?_, fun v hv => ?_⟩
  · rw [hcomposing hargs]
    exact Eval.composing_of_members hm.grounded.avoids hsame hfills.1 (Eval.members_of_makes heval hfills.2 (hopening _))
  · have hargs : params.length = args.length := by
      by_contra hargs
      rw [hrefused hargs] at hv
      cases hv
    obtain ⟨rfl, records, finish, hn, hmembers, hworld⟩ :=
      Eval.exists_of_composing_ok hm.grounded.avoids hsame ((hcomposing hargs).symm.trans (Prod.ext hv rfl))
    have hne := hm.named_ne hn
    obtain ⟨made, hmade⟩ := Eval.makes_of_members heval (hopening _) hmembers
    have hfilled := hmade.fills horderly heval (Eval.Blind.outside imports horderly fuel) (hm.hides_opening hne ha t)
      (hopening _)
    refine ⟨rfl, hargs, records, made, finish, ⟨hn, hmade⟩, hworld, ?_, hworld ▸ hfilled.constructs hne hargs rfl⟩
    have hmerged := hsame.trans (Heap.sameBut_mergeAll _ m.nextRecord records)
    exact List.forall_mem_cons.2 ⟨hmerged cls (Machine.Ready.class_ne ht), fun q hq => hmerged q (hne q hq)⟩

/-! ## A class in a program -/

/-- A program with a class that composes a record. -/
def kennel : String := "let base = \x7bkind: \"pet\"\x7d; object(name, kind) + base \x7bloud: false\x7d;"

/-- The parameters of the class. -/
def kennelParams : List Param :=
  [⟨⟨"name", some ⟨⟨33, 37⟩, 1, 34⟩⟩, false⟩, ⟨⟨"kind", some ⟨⟨39, 43⟩, 1, 40⟩⟩, false⟩]

/-- The record that the class composes. -/
def kennelBase : Label := ⟨"base", some ⟨⟨47, 51⟩, 1, 48⟩⟩

/-- The arguments of a call. -/
def kennelArgs : List Value := [.string "Rex", .string "cat"]

/-- The records when the program has been evaluated: the one that is composed, and the class. -/
def kennelHeap : Heap := ((Heap.empty.ofEntries [("kind", .string "pet")]).2.newClass ⟨⟨0⟩, ⟨5⟩⟩).2

/-- A machine with these records. -/
def kennelMachine (a : Arena) : Machine :=
  { (Machine.idle ((World.new .silent .empty).addUnit a).2).withHeap kennelHeap with
    env := Environment.new.withScope (Bindings.empty.set "base" (.record ⟨0⟩)) }

theorem compile_kennel : ∃ c unit, compile ⟨"main.blu"⟩ kennel .entry .empty = .ok c ∧ c.result = .ok unit ∧
    unit.program.arena.kind? ⟨3⟩ = some (.literal (.bool false)) ∧
    unit.program.arena.kind? ⟨4⟩ = some (.binding "loud" .plain false ⟨3⟩) ∧
    unit.program.arena.kind? ⟨5⟩ = some (.object (some kennelParams) [kennelBase] [⟨4⟩]) := by
  have hread : (compile ⟨"main.blu"⟩ kennel .entry .empty).toOption.any (fun c => c.result.toOption.any fun unit => decide (
      unit.program.arena.kind? ⟨3⟩ = some (.literal (.bool false)) ∧
      unit.program.arena.kind? ⟨4⟩ = some (.binding "loud" .plain false ⟨3⟩) ∧
      unit.program.arena.kind? ⟨5⟩ = some (.object (some kennelParams) [kennelBase] [⟨4⟩]))) := by
    decide +kernel
  obtain ⟨c, hc, hresult⟩ := exists_of_any hread
  obtain ⟨unit, hu, hdecided⟩ := exists_of_any hresult
  exact ⟨c, unit, hc, hu, of_decide_eq_true hdecided⟩

theorem template?_kennelHeap {cls : RecordId} {t : Template} (ht : kennelHeap.template? cls = some t) :
    t = ⟨⟨0⟩, ⟨5⟩⟩ := by
  obtain ⟨data, hg, ht⟩ := Option.bind_eq_some_iff.1 ht
  obtain ⟨i⟩ := cls
  have hi := (Array.getElem?_eq_some_iff.1 hg).1
  match i, hi with
  | 0, _ =>
    cases hg
    cases ht
  | 1, _ =>
    cases hg
    cases ht
    rfl

theorem ready_kennelMachine {a : Arena} (hk : a.kind? ⟨5⟩ = some (.object (some kennelParams) [kennelBase] [⟨4⟩])) :
    (kennelMachine a).Ready := by
  have hpet : (Heap.empty.ofEntries [("kind", .string "pet")]).2.Avoids ⟨2⟩ :=
    Heap.Avoids.ofEntries (fun _ => Bindings.avoids_empty _) (by simp [Value.Avoids.string])
  have hbase : (Bindings.empty.set "base" (.record ⟨0⟩)).Avoids ⟨2⟩ :=
    (Bindings.avoids_empty _).set (.record (by decide)) "base"
  have hframes : (kennelMachine a).env.frames =
      #[.locals .empty, .locals (Bindings.empty.set "base" (.record ⟨0⟩))] := rfl
  refine ⟨⟨fun q hq => ?_, nofun⟩, ⟨hpet.alloc _ none, nofun, fun frame hf => ?_, Bindings.avoids_empty _⟩, fun cls t ht => ?_⟩
  · simp [hframes] at hq
  · rw [hframes] at hf
    rcases (by simpa using hf : frame = _ ∨ frame = _) with rfl | rfl
    · exact Bindings.avoids_empty _
    · exact hbase
  · obtain rfl := template?_kennelHeap ht
    obtain ⟨position, hnode⟩ := Arena.kind?_eq_some.1 hk
    exact ⟨_, _, _, some kennelParams, position, hnode, rfl⟩

/-- The class makes a record, in which `kind` is that of the composed record and not the argument. -/
theorem composed_kind_replaces_argument : ∃ c unit, compile ⟨"main.blu"⟩ kennel .entry .empty = .ok c ∧
    c.result = .ok unit ∧
      let m := kennelMachine unit.program.arena
      let call (args : List Value) :=
        (Eval.callValue (evalWithin Imports.unserved.loader 9) (.record ⟨1⟩) args none).runFrom [] m
      m.Ready ∧ m.Vetted ∧
        call [] = (.error (.fault ((Fault.ofCause (.arityMismatch "constructor" 2 0)).locatedAt none)), m) ∧
        ∃ n, call kennelArgs = (.ok (.record ⟨2⟩), n) ∧ n.world.heap.parent? ⟨2⟩ = some ⟨1⟩ ∧
          n.world.heap.property? ⟨2⟩ "name" = some (.string "Rex") ∧
          n.world.heap.property? ⟨2⟩ "kind" = some (.string "pet") ∧
          n.world.heap.property? ⟨2⟩ "loud" = some (.bool false) := by
  obtain ⟨c, unit, hc, hu, hinitialiser, hmember, hobject⟩ := compile_kennel
  refine ⟨c, unit, hc, hu, ?_⟩
  intro m call
  have hready : m.Ready := ready_kennelMachine hobject
  have hvetted : m.Vetted := World.EachUnit.addUnit (fun i a ha => by cases ha) ⟨unit.program, compile_accepted hc hu, rfl⟩
  obtain ⟨position, hnode⟩ := Arena.kind?_eq_some.1 hobject
  obtain ⟨position', hnode'⟩ := Arena.kind?_eq_some.1 hmember
  obtain ⟨params, composed, ids, ⟨written, position'', hl, rfl⟩, hcall⟩ :=
    (instances_are_filled_in_order .unserved 9).2 m hready hvetted ⟨1⟩ ⟨⟨0⟩, ⟨5⟩⟩ rfl
  obtain ⟨⟨rfl, rfl, rfl⟩, rfl⟩ :
      (written = some kennelParams ∧ composed = [kennelBase] ∧ ids = [⟨4⟩]) ∧ position'' = position := by
    simpa using hl.symm.trans hnode
  refine ⟨hready, hvetted, (hcall [] none [] nofun).1 (by decide), ?_⟩
  obtain ⟨-, hmakes, hmade⟩ := hcall kennelArgs none [] (by simp [kennelArgs, Value.Avoids.string])
  have hvalue {opened : Machine} (hopened : opened.Evaluates ⟨0⟩ unit.program.arena) (held : List Value) :
      (evalWithin Imports.unserved.loader 9 ⟨3⟩).runFrom held opened = (.ok (.bool false), opened) :=
    Eval.literal_of_ok hopened hinitialiser
  have hlookup : m.Names kennelBase ⟨0⟩ := Environment.lookup_withScope rfl
  let opened := m.opening ⟨⟨0⟩, ⟨5⟩⟩ ⟨2⟩ ((m.filled ⟨1⟩ kennelParams kennelArgs).mergeAll ⟨2⟩ [⟨0⟩])
  have hok := hmakes rfl [⟨0⟩] [⟨"loud", .bool false, opened, opened⟩] _
    ⟨.cons hlookup .nil, .cons ⟨.plain, false, ⟨3⟩, position', hnode', rfl, hvalue ⟨rfl, rfl⟩ _⟩ (.nil _)⟩
  obtain ⟨-, -, records, made, finish, ⟨hnames, htrace⟩, -, -, hconstructs⟩ := hmade _ hok
  cases hnames with
  | @cons _ q _ _ hq hnil =>
    cases hnil
    obtain rfl : q = ⟨0⟩ := Value.record.inj (Option.some.inj (hq.symm.trans hlookup))
    cases htrace with
    | @cons _ _ _ _ x _ first rest =>
      cases rest
      obtain ⟨mode, isFinal, initialiser, position₁, hnode₁, hbefore, hrun⟩ := first
      obtain ⟨⟨hname, rfl, rfl, rfl⟩, rfl⟩ :
          (x.name = "loud" ∧ mode = .plain ∧ isFinal = false ∧ initialiser = ⟨3⟩) ∧ position₁ = position' := by
        simpa using hnode₁.symm.trans hnode'
      obtain ⟨hx, hafter⟩ := Prod.mk.inj (hrun.symm.trans (hvalue (hbefore ▸ ⟨rfl, rfl⟩) _))
      have hleaves (name : String) : ∀ y ∈ [x], y.Leaves m.nextRecord name :=
        List.forall_mem_singleton.2 (by rw [Made.Leaves, hafter])
      have hvalues (name : String) := hconstructs.values name (Made.settled_of_leaves (hleaves name))
      have hentry : x.entry = ("loud", .bool false) := by
        rw [Made.entry, hname, Except.ok.inj hx]
        rfl
      rw [List.map_singleton, hentry] at hvalues
      exact ⟨_, Prod.ext hok rfl, hconstructs.parent, hvalues "name", hvalues "kind", hvalues "loud"⟩

end DynScript
