import Mathlib.Data.Int.Range
import DynScript.Proofs.Number.Truncation
import DynScript.Proofs.Run.Values
import DynScript.Proofs.Session.Places

/-!
# Loops

The bounds of a loop are evaluated once. What its body does afterwards changes neither how often it is evaluated nor
what the counter is each time: `Loops` tells the course of a loop from the integers between the bounds and from what one
evaluation of the body does. Each evaluation of the body begins with what stood open when the loop began, with the
variables of the same names, and with a scope of its own that has the counter only.
-/

namespace DynScript

namespace Machine

variable {m n : Machine} {name : String} {i : Int}

/-- The machine with one scope more, in which the counter of a loop has a value and no other name has one. -/
def counting (m : Machine) (i : Int) : Machine :=
  { m with env := m.env.withScope (Bindings.empty.set "idx" (.number (Float.ofInt i))) }

/-- The machine when the frames are cut back to those of an earlier machine. -/
def cutBackTo (n m : Machine) : Machine := { n with env := n.env.truncate m.env.depth }

/-- The same stands open in two machines, and under the same names. -/
structure SameOpen (m n : Machine) : Prop where
  /-- The calls, the active records, the unit, and how many frames there are. -/
  restored : m.Restored n
  /-- The variables of the frames have the same names. -/
  names : ∀ name i, n.env.HasVariable name i ↔ m.env.HasVariable name i
  /-- The same records stand open. -/
  records : ∀ (i : Nat) (r : RecordId), n.env.frames[i]? = some (.record r) ↔ m.env.frames[i]? = some (.record r)

namespace SameOpen

@[refl] theorem refl (m : Machine) : m.SameOpen m := ⟨.refl m, fun _ _ => .rfl, fun _ _ => .rfl⟩

theorem trans {l : Machine} (h : l.SameOpen m) (k : m.SameOpen n) : l.SameOpen n :=
  ⟨h.restored.trans k.restored, fun name i => (k.names name i).trans (h.names name i),
    fun i r => (k.records i r).trans (h.records i r)⟩

/-- A step that gives no frame a name, so that frames only keep their names. -/
theorem of_tidy (ht : m.Tidy 0 n) (hs : m.Shields n) : m.SameOpen n where
  restored := ht.restored
  names := ht.hasVariable_iff hs.env
  records i r := by
    constructor
    · intro hn
      have hi : i < m.env.frames.size := by
        have hsize : n.env.frames.size = m.env.frames.size := ht.restored.depth
        exact hsize ▸ (Array.getElem?_eq_some_iff.1 hn).1
      obtain ⟨grown, hgrown, hgrows⟩ := hs.env.frames i _ (Array.getElem?_eq_getElem hi)
      obtain rfl := Option.some.inj (hgrown.symm.trans hn)
      rw [Array.getElem?_eq_getElem hi]
      cases hframe : m.env.frames[i] with
      | record q =>
        rw [hframe] at hgrows
        rw [show r = q from hgrows]
      | locals names =>
        rw [hframe] at hgrows
        cases hgrows
    · intro hm
      obtain ⟨grown, hgrown, hgrows⟩ := hs.env.frames i _ hm
      cases grown with
      | record q => rw [hgrown, show q = r from hgrows]
      | locals names => cases hgrows

/-- What has a name where the body of a loop begins: the counter, what had a name as a variable where the loop began, and
the properties of the records that stand open. -/
theorem visible (h : m.SameOpen n) (hb : (n.counting i).env.isBound n.world.heap name) :
    name = "idx" ∨ (∃ j, m.env.HasVariable name j) ∨
      ∃ r, n.world.heap.has r name ∧ (r ∈ m.env.active ∨ ∃ j : Nat, m.env.frames[j]? = some (.record r)) := by
  by_cases hname : name = "idx"
  · exact .inl hname
  · have hnone : (Bindings.empty.set "idx" (.number (Float.ofInt i))).get? name = none := by
      rw [Bindings.get?_set, if_neg hname]
      rfl
    rw [Environment.isBound, counting, Environment.lookup_withScope_outer hnone] at hb
    rcases n.env.finds_or_none n.world.heap name with ⟨j, frame, hfinds⟩ | hnowhere
    · cases frame with
      | locals names =>
        refine .inr (.inl ⟨j, (h.names name j).1 ?_⟩)
        rw [Environment.HasVariable, Environment.variableAt?, hfinds.there]
        exact hfinds.has
      | record r => exact .inr (.inr ⟨r, hfinds.has, .inr ⟨j, (h.records j r).1 hfinds.there⟩⟩)
    · rw [Environment.lookup_of_none hnowhere] at hb
      obtain ⟨v, hv⟩ := Option.isSome_iff_exists.1 hb
      obtain ⟨r, hr, hproperty⟩ := Option.bind_eq_some_iff.1 hv
      have hactive : r ∈ m.env.active := h.restored.active ▸ List.mem_of_mem_head? hr
      exact .inr (.inr ⟨r, Option.isSome_of_eq_some hproperty, .inl hactive⟩)

end SameOpen

end Machine

/-- How a loop goes on from a machine when these integers are left, given what its body does when it is evaluated. It
began in the machine `first`. -/
inductive Loops (first : Machine) (body : Machine → Except Interruption Value × Machine) :
    List Int → Machine → Except Interruption Value × Machine → Prop where
  /-- No integer is left, and the loop is nil. -/
  | done {m : Machine} (hopen : first.SameOpen m) : Loops first body [] m (.ok .nil, m)
  /-- The body is evaluated for the first integer, and then for the others. -/
  | next {m n : Machine} {i : Int} {rest : List Int} {v : Value} {r : Except Interruption Value × Machine}
    (hopen : first.SameOpen m) (hbody : body (m.counting i) = (.ok v, n))
    (hrest : Loops first body rest (n.cutBackTo m) r) : Loops first body (i :: rest) m r
  /-- The body does not end in a value, and the loop ends in the same way. -/
  | stops {m n : Machine} {i : Int} {rest : List Int} {e : Interruption} (hopen : first.SameOpen m)
    (hbody : body (m.counting i) = (.error e, n)) : Loops first body (i :: rest) m (.error e, n.cutBackTo m)

namespace Eval

variable {first m : Machine} {held : List Value} {eval : Evaluator} {bodyId : NodeId} {unit : UnitId} {a : Arena}

/-- One evaluation of the body of a loop. -/
theorem runFrom_iteration (hm : m.unit = unit) (i : Int) :
    (inScope (define "idx" (.number (Float.ofInt i)) >>= fun _ => within unit eval bodyId)).runFrom held m =
      (((eval bodyId).runFrom held (m.counting i)).1,
        ((eval bodyId).runFrom held (m.counting i)).2.cutBackTo m) := by
  have hdefine : (define "idx" (.number (Float.ofInt i))).runFrom held { m with env := m.env.pushScope } =
      (.ok (), m.counting i) :=
    define_of_withScope (show m.env.pushScope = m.env.withScope .empty from rfl)
  have hwithin : (within unit eval bodyId).runFrom held (m.counting i) = (eval bodyId).runFrom held (m.counting i) :=
    runFrom_within hm
  show (afterwards (fun p => { p with env := p.env.truncate m.env.depth })
    (define "idx" (.number (Float.ofInt i)) >>= fun _ => within unit eval bodyId)).runFrom held
      { m with env := m.env.pushScope } = _
  rw [afterwards, runFrom_finishing, bind_of_ok hdefine, hwithin]
  rfl

/-- The integers from one bound up to another. -/
theorem range_cons {i j : Int} (h : i < j) : Int.range i j = i :: Int.range (i + 1) j := by
  have hcount : (j - i).toNat = (j - (i + 1)).toNat + 1 := by omega
  rw [Int.range, hcount, List.range_succ_eq_map, List.map_cons, List.map_map, Int.range]
  refine congrArg₂ List.cons (by simp) (List.map_congr_left fun k _ => ?_)
  simp
  omega

section

variable (imports : Imports) (fuel : Nat)

/-- Whatever is evaluated in a scope of its own gives no frame a name. -/
theorem sameOpen_iteration (bodyId : NodeId) (held : List Value) (m : Machine) (i : Int) :
    m.SameOpen (((evalWithin imports.loader fuel bodyId).runFrom held (m.counting i)).2.cutBackTo m) := by
  have htidy : Tidy (fun _ => True) 1 (evalWithin imports.loader fuel bodyId) := by
    rw [← Manner.evaluator_usual]
    exact .everywhere imports fuel bodyId
  have hshielding : Shielding (evalWithin imports.loader fuel bodyId) := by
    rw [← Manner.evaluator_usual]
    exact .evaluator (Invoking.usual Shielding.loading.toInvoking) imports fuel bodyId
  have hpush : (m.counting i).env.frames = m.env.frames.push
      (.locals (Bindings.empty.set "idx" (.number (Float.ofInt i)))) := rfl
  have hnames : Machine.Tidy 1 { m with env := (m.counting i).env } _ := htidy held (m.counting i) trivial
  have hshields : Machine.Shields { m with env := (m.counting i).env } _ := hshielding held (m.counting i)
  exact .of_tidy (.inFrame hpush rfl hnames) (.inFrame hpush hshields)

/-- The evaluations of the body of a loop, from an integer on. -/
theorem loops_iterations (bodyId : NodeId) (held : List Value) (ha : a.Positioned) (hopen : first.SameOpen m)
    (hm : m.Evaluates unit a) (i j : Int) :
    let r := (iterations (within unit (evalWithin imports.loader fuel)) bodyId (j - i).toNat i).runFrom held m
    Located r.1 ∧ Loops first ((evalWithin imports.loader fuel bodyId).runFrom held) (Int.range i j) m
      (r.1.map fun _ => .nil, r.2) := by
  intro r
  obtain ⟨count, hcount⟩ : ∃ count, (j - i).toNat = count := ⟨_, rfl⟩
  induction count generalizing m i with
  | zero =>
    have hr : r = (.ok (), m) := by
      show Eval.runFrom _ held m = _
      rw [hcount]
      rfl
    have hrange : Int.range i j = [] := by rw [Int.range, hcount, List.range_zero, List.map_nil]
    rw [hr, hrange]
    exact ⟨fun _ hf => (by cases hf), .done hopen⟩
  | succ count ih =>
    have hr : r = _ := congrArg (fun n => (iterations (within unit (evalWithin imports.loader fuel)) bodyId n i).runFrom
      held m) hcount
    rw [iterations, runFrom_bind, runFrom_iteration hm.current] at hr
    have hcounting : (m.counting i).Evaluates unit a := ⟨hm.current, hm.nodes⟩
    have hlocated := located_evalWithin imports.loader fuel bodyId held hcounting ha
    have hsame := sameOpen_iteration imports fuel bodyId held m i
    rw [range_cons (by omega : i < j)]
    rcases hbody : (evalWithin imports.loader fuel bodyId).runFrom held (m.counting i) with ⟨e | v, n⟩ <;>
      rw [hbody] at hr hlocated hsame <;> dsimp only at hr
    · rw [hr]
      refine ⟨fun fault hf => hlocated fault ?_, .stops hopen hbody⟩
      obtain rfl := Except.error.inj hf
      rfl
    · have hcount' : (j - (i + 1)).toNat = count := by omega
      rw [hr, ← hcount']
      obtain ⟨hlocated', hloops⟩ := ih (hopen.trans hsame) (hsame.restored.evaluates hm) (i + 1) hcount'
      exact ⟨hlocated', .next hopen hbody hloops⟩

end

end Eval

/-- In a program as the parser makes it, before or after an analysis, a loop whose bounds are numbers evaluates its body
once for each integer from the first bound up to the second one, in their order. The bounds are cut down to integers of
64 bits: their fractions are left out, what lies outside the range becomes its nearest end, and what is not a number
becomes 0. The body begins each time in a scope of its own that has the counter only, and what stands open around the
scope has the names it had when the loop began, whatever the body has done before: a name that has a value there is the
counter, a variable that was there when the loop began, or a property of a record that stands open. The first evaluation
of the body that does not end in a value ends the loop in the same way; otherwise the loop is nil. -/
theorem loops_count_from_bound_to_bound (p : Parsed) {a : Arena} (ha : p.Makes a) (imports : Imports) (fuel : Nat)
    (held : List Value) {m m₁ m₂ : Machine} (hm : m.Evaluates m.unit a) {id start stop body : NodeId}
    {position : Option Position} (hn : a.get? id = some ⟨.loop start stop body, position⟩) {x y : Float}
    (hstart : (evalWithin imports.loader fuel start).runFrom held m = (.ok (.number x), m₁))
    (hstop : (evalWithin imports.loader fuel stop).runFrom (.number x :: held) m₁ = (.ok (.number y), m₂)) :
    let first := Number.cut (-2 ^ 63) (2 ^ 63 - 1) x
    let last := Number.cut (-2 ^ 63) (2 ^ 63 - 1) y
    (∃ counts : List Int, counts.Pairwise (· < ·) ∧ (∀ i, i ∈ counts ↔ first ≤ i ∧ i < last) ∧
      (∀ i ∈ counts, -2 ^ 63 ≤ i ∧ i < 2 ^ 63) ∧
      Loops m₂ ((evalWithin imports.loader fuel body).runFrom held) counts m₂
        ((evalWithin imports.loader (fuel + 1) id).runFrom held m)) ∧
    ∀ n i name, m₂.SameOpen n → (n.counting i).env.isBound n.world.heap name →
      name = "idx" ∨ (∃ j, m₂.env.HasVariable name j) ∨
        ∃ r, n.world.heap.has r name ∧ (r ∈ m₂.env.active ∨ ∃ j : Nat, m₂.env.frames[j]? = some (.record r)) := by
  intro first last
  have hfirst : Value.integer x = first := Number.integer_eq_cut x
  have hlast : Value.integer y = last := Number.integer_eq_cut y
  rw [← hfirst, ← hlast]
  refine ⟨⟨Int.range (Value.integer x) (Value.integer y), ?_, fun i => Int.mem_range_iff, fun i hi => ?_, ?_⟩,
    fun n i name hopen => hopen.visible⟩
  · exact List.pairwise_map.2 (List.pairwise_lt_range.imp fun hlt => by omega)
  · obtain ⟨hleast, hmost⟩ := Int.mem_range_iff.1 hi
    exact ⟨(Int64.le_toInt _).trans hleast, hmost.trans (Int64.toInt_lt _)⟩
  · have hrestored := (Eval.evaluation_restores imports fuel held m).1 start
    rw [hstart] at hrestored
    have hm₁ := hrestored.evaluates hm
    have hrestored' := (Eval.evaluation_restores imports fuel (.number x :: held) m₁).1 stop
    rw [hstop] at hrestored'
    have hm₂ := hrestored'.evaluates hm₁
    let own := Eval.within m.unit (evalWithin imports.loader fuel)
    have hfirst : (own start).runFrom held m = (.ok (.number x), m₁) :=
      (Eval.runFrom_within hm.current).trans hstart
    have hsecond : (Eval.holding (.number x) (own stop)).runFrom held m₁ = (.ok (.number y), m₂) :=
      (Eval.runFrom_within hm₁.current).trans hstop
    have hoperands : (Eval.operands own start stop).runFrom held m = (.ok (.number x, .number y), m₂) := by
      rw [Eval.operands, Eval.bind_of_ok hfirst, Eval.bind_of_ok hsecond]
      rfl
    obtain ⟨hlocated, hloops⟩ := Eval.loops_iterations imports fuel body held ha.positioned (.refl m₂) hm₂
      (Value.integer x) (Value.integer y)
    generalize hr : (Eval.iterations own body (Value.integer y - Value.integer x).toNat (Value.integer x)).runFrom held
      m₂ = r at hlocated hloops
    have hloop : (Eval.loop own start stop body).runFrom held m = (r.1.map fun _ => .nil, r.2) := by
      rw [Eval.loop, Eval.bind_of_ok hoperands]
      dsimp only
      rw [Eval.runFrom_bind, hr]
      rcases r with ⟨e | u, n⟩ <;> rfl
    -- A fault of the body has its place already, so the loop adds none.
    have hrun : (evalWithin imports.loader (fuel + 1) id).runFrom held m = (r.1.map fun _ => .nil, r.2) := by
      rw [evalWithin, Eval.runFrom_nodeStep, hm.node?, hn]
      refine (Eval.runFrom_locating ?_).trans hloop
      rw [show (Eval.nodeKind own (evalWithin imports.loader fuel) (imports.loader (evalWithin imports.loader fuel)) m.unit
        id ⟨.loop start stop body, position⟩).runFrom held m = _ from hloop]
      rcases r with ⟨e | u, n⟩
      · exact fun fault hf => hlocated fault (by rw [Except.error.inj hf])
      · exact fun fault hf => by cases hf
    rw [hrun]
    exact hloops

/-- A program with a loop whose bounds have fractions. -/
def counter : String := "for 0.5 to 2.9 \x7b print idx \x7d"

theorem compile_counter : ∃ c unit, compile ⟨"main.blu"⟩ counter .entry .empty = .ok c ∧ c.result = .ok unit ∧
    unit.program.arena.kind? ⟨0⟩ = some (.literal (.number (.ofScientific 5 true 1))) ∧
    unit.program.arena.kind? ⟨1⟩ = some (.literal (.number (.ofScientific 29 true 1))) ∧
    unit.program.arena.kind? ⟨5⟩ = some (.loop ⟨0⟩ ⟨1⟩ ⟨4⟩) ∧
    let m : Machine := { unit.machine with world := { unit.machine.world with printer := .empty } }
    ((evalWithin Imports.unserved.loader 9 ⟨5⟩).runFrom [] m).2.world.printer.output = "0\n1\n" := by
  have hread : (compile ⟨"main.blu"⟩ counter .entry .empty).toOption.any (fun c => c.result.toOption.any fun unit =>
      let m : Machine := { unit.machine with world := { unit.machine.world with printer := .empty } }
      decide (
        unit.program.arena.kind? ⟨0⟩ = some (.literal (.number (.ofScientific 5 true 1))) ∧
        unit.program.arena.kind? ⟨1⟩ = some (.literal (.number (.ofScientific 29 true 1))) ∧
        unit.program.arena.kind? ⟨5⟩ = some (.loop ⟨0⟩ ⟨1⟩ ⟨4⟩) ∧
        ((evalWithin Imports.unserved.loader 9 ⟨5⟩).runFrom [] m).2.world.printer.output = "0\n1\n")) := by
    decide +kernel
  obtain ⟨c, hc, hresult⟩ := exists_of_any hread
  obtain ⟨unit, hu, hdecided⟩ := exists_of_any hresult
  exact ⟨c, unit, hc, hu, of_decide_eq_true hdecided⟩

/-- The body is evaluated for 0 and for 1, and prints them. -/
theorem counter_loops : ∃ (p : Parsed) (unit : CompiledUnit), p.Makes unit.program.arena ∧
    unit.program.arena.kind? ⟨5⟩ = some (.loop ⟨0⟩ ⟨1⟩ ⟨4⟩) ∧
    let m : Machine := { unit.machine with world := { unit.machine.world with printer := .empty } }
    let run := (evalWithin Imports.unserved.loader 9 ⟨5⟩).runFrom [] m
    Loops m ((evalWithin Imports.unserved.loader 8 ⟨4⟩).runFrom []) [0, 1] m run ∧
      run.2.world.printer.output = "0\n1\n" := by
  obtain ⟨c, unit, hc, hu, hfirst, hsecond, hloop, hprints⟩ := compile_counter
  obtain ⟨p, analysed, hanalyse, -, hprogram⟩ := analysed_of_compile hc hu
  have hmakes : p.Makes unit.program.arena := hprogram ▸ .analysed hanalyse
  refine ⟨p, unit, hmakes, hloop, ?_⟩
  intro m run
  have hm : m.Evaluates m.unit unit.program.arena := ⟨rfl, rfl⟩
  obtain ⟨position, hn⟩ := Arena.kind?_eq_some.1 hloop
  obtain ⟨⟨counts, hincreasing, hmem, -, hloops⟩, -⟩ := loops_count_from_bound_to_bound p hmakes .unserved 8 [] hm hn
    (Eval.literal_of_ok hm hfirst) (Eval.literal_of_ok hm hsecond)
  have hcuts : Number.cut (-2 ^ 63) (2 ^ 63 - 1) (.ofScientific 5 true 1) = 0 ∧
      Number.cut (-2 ^ 63) (2 ^ 63 - 1) (.ofScientific 29 true 1) = 2 := by
    rw [← Number.integer_eq_cut, ← Number.integer_eq_cut]
    decide +kernel
  have hcounts : counts = [0, 1] := by
    refine hincreasing.eq_of_mem_iff (by decide) fun i => ?_
    rw [hmem, hcuts.1, hcuts.2]
    simp only [List.mem_cons, List.not_mem_nil, or_false]
    omega
  exact ⟨hcounts ▸ hloops, hprints⟩

end DynScript
