import DynScript.Proofs.Analysis.Declared
import DynScript.Proofs.Session.Accepted
import DynScript.Proofs.Tree.Inside

/-!
# Analysis finds names that are not in scope

Where an analysis finds no error in a program of which all functions stand at the top level, every node needs only
names that are known where it stands. The names that analysis has declared are among them, form by form: what a
scope declares is gone when the scope has been closed, and only statements and members declare names that others
may use.
-/

namespace DynScript

/-- What is known of the nodes of a program when analysis has found no error in it. -/
structure Program.Scopable (program : Program) : Prop where
  /-- Children have smaller numbers. -/
  down : ∀ {p c : NodeId}, program.arena.Parent p c → c.index < p.index
  /-- Bindings are statements or members. -/
  operands : ∀ {p : NodeId} {node : Node}, program.arena.get? p = some node → ∀ c ∈ node.kind.operands,
    ∃ kind, program.arena.kind? c = some kind ∧ kind.isOperand
  /-- The nodes can be evaluated. -/
  runnable : program.arena.Runnable
  /-- There are no imports and no classes. -/
  selfContained : program.arena.SelfContained
  /-- No record is opened. -/
  opensNothing : program.arena.OpensNothing
  /-- Functions stand at the top level. -/
  functionsAtTop : program.FunctionsAtTop

theorem Arena.parent_of_kind? {a : Arena} {id i : NodeId} {kind : NodeKind} (hk : a.kind? id = some kind)
    (hi : i ∈ kind.children) : a.Parent id i := by
  obtain ⟨position, hn⟩ := kind?_eq_some.1 hk
  exact ⟨_, hn, hi⟩

namespace Program

variable {program : Program} {globals : List String} {c c' : Context} {id i : NodeId} {kind : NodeKind}

/-- Where a node stands: inside, where there are no functions, or at the top level, where all that is known is known
to the functions that are made. -/
structure Stands (program : Program) (globals : List String) (c : Context) (id : NodeId) : Prop where
  /-- The node is not the block of the program. -/
  below : id.index < program.body.index
  /-- The place. -/
  place : program.Inside id ∨ (∀ name ∈ c.names, name ∈ globals) ∧
    ∀ name isFinal value, program.arena.kind? id = some (.binding name .recursive isFinal value) → name ∈ globals

namespace Scopable

variable (hp : program.Scopable)
include hp

omit hp in
theorem not_recursive_of_isOperand (h : ∃ kind, program.arena.kind? i = some kind ∧ kind.isOperand) :
    ∀ name isFinal value, program.arena.kind? i ≠ some (.binding name .recursive isFinal value) := by
  intro name isFinal value hk
  obtain ⟨kind, hk', hoperand⟩ := h
  obtain rfl := Option.some.inj (hk.symm.trans hk')
  cases hoperand

theorem isOperand (hk : program.arena.kind? id = some kind) (hi : i ∈ kind.operands) :
    ∃ kind, program.arena.kind? i = some kind ∧ kind.isOperand := by
  obtain ⟨position, hn⟩ := Arena.kind?_eq_some.1 hk
  exact hp.operands hn i hi

omit hp in
/-- An operand makes no name known. -/
theorem after_isOperand (h : ∃ kind, program.arena.kind? i = some kind ∧ kind.isOperand) :
    (program.arena.after c i).names = c.names := by
  obtain ⟨kind, hk, hoperand⟩ := h
  simp only [Arena.after, hk, Option.map_some, Option.getD_some]
  cases kind <;> first | rfl | cases hoperand

/-- An operand stands where the node above it does. -/
theorem stands_operand (h : program.Stands globals c id) (hk : program.arena.kind? id = some kind)
    (hi : i ∈ kind.operands)
    (hc : (∀ name ∈ c.names, name ∈ globals) →
      (∀ name isFinal value, kind = .binding name .recursive isFinal value → name ∈ globals) →
        ∀ name ∈ c'.names, name ∈ globals) : program.Stands globals c' i where
  below := (hp.down (Arena.parent_of_kind? hk (NodeKind.mem_children_of_operands hi))).trans h.below
  place := by
    refine h.place.imp (fun hinside => .deeper hinside (Arena.parent_of_kind? hk (NodeKind.mem_children_of_operands hi))) ?_
    rintro ⟨hnames, hrec⟩
    refine ⟨hc hnames fun name isFinal value hkind => hrec name isFinal value (hkind ▸ hk), ?_⟩
    intro name isFinal value hbinding
    exact absurd hbinding (not_recursive_of_isOperand (hp.isOperand hk hi) name isFinal value)

/-- What a node lies around stands inside. -/
theorem stands_enclosed (h : program.Stands globals c id) (hk : program.arena.kind? id = some kind)
    (hi : i ∈ kind.enclosed) : program.Stands globals c' i where
  below := (hp.down (Arena.parent_of_kind? hk (NodeKind.mem_children_of_enclosed hi))).trans h.below
  place := .inl (.enclosed hk (fun heq => lt_irrefl _ (heq ▸ h.below)) hi)

end Scopable

end Program

namespace Analysis

open Program (Stands)

variable {program : Program} {globals : List String} {c : Context} {id : NodeId} {kind : NodeKind}
  {levels : Nat} {visit : NodeId → Analysis Unit}

namespace Checks

/-! ## Visits in order -/

/-- Nodes that make no name known. -/
theorem visitAll {a : Arena} {names : List String} {J : NodeId → Prop} {ids : List NodeId}
    (h : ∀ i ∈ ids, Checks a names (visit i) names fun _ => J i) :
    Checks a names (visitAll visit ids) names fun _ => ∀ i ∈ ids, J i := by
  induction ids with
  | nil => exact pure (by simp)
  | cons id rest ih =>
    refine bind (h id (by simp)) fun _ => ?_
    refine (ih fun i hi => h i (by simp [hi])).right fun _ hrest hid i hi => ?_
    rcases List.mem_cons.1 hi with rfl | hi
    · exact hid
    · exact hrest i hi

/-- Statements, each of which may use the names of those before it. -/
theorem visitStatements {a : Arena} {J : Context → NodeId → Prop} {ids : List NodeId}
    (h : ∀ c, ∀ i ∈ ids, Checks a c.names (visit i) (a.after c i).names fun _ => J c i) :
    Checks a c.names (Analysis.visitAll visit ids) (ids.foldl a.after c).names fun _ => a.Sequence J c ids := by
  induction ids generalizing c with
  | nil => exact pure trivial
  | cons id rest ih =>
    refine bind (h c id (by simp)) fun _ => ?_
    exact (ih fun c i hi => h c i (by simp [hi])).right fun _ hrest hid => ⟨hid, hrest⟩

section

variable (hp : program.Scopable) (hs : program.Stands globals c id) (hk : program.arena.kind? id = some kind)
  (hv : ∀ c id, program.Stands globals c id → Checks program.arena c.names (visit id)
    (program.arena.after c id).names fun _ => program.arena.ScopedWithin globals levels c id)
include hp hs hk hv

/-- An operand in the same context. -/
theorem operand {i : NodeId} (hi : i ∈ kind.operands) : Checks program.arena c.names (visit i) c.names
    fun _ => program.arena.ScopedWithin globals levels c i := by
  have hvisit := hv c i (hp.stands_operand hs hk hi fun hnames _ => hnames)
  rwa [Program.Scopable.after_isOperand (hp.isOperand hk hi)] at hvisit

theorem operands {ids : List NodeId} (hi : ∀ i ∈ ids, i ∈ kind.operands) :
    Checks program.arena c.names (Analysis.visitAll visit ids) c.names
      fun _ => ∀ i ∈ ids, program.arena.ScopedWithin globals levels c i :=
  visitAll fun i hmem => operand hp hs hk hv (hi i hmem)

/-- A node that is lain around, in any context. -/
theorem enclosed {i : NodeId} (hi : i ∈ kind.enclosed) (c : Context) : Checks program.arena c.names (visit i)
    (program.arena.after c i).names fun _ => program.arena.ScopedWithin globals levels c i :=
  hv c i (hp.stands_enclosed hs hk hi)

/-- One that makes no name known. -/
theorem enclosedOperand {i : NodeId} (hi : i ∈ kind.enclosed) (ho : i ∈ kind.operands) (c : Context) :
    Checks program.arena c.names (visit i) c.names
      fun _ => program.arena.ScopedWithin globals levels c i := by
  have hvisit := enclosed hp hs hk hv hi c
  rwa [Program.Scopable.after_isOperand (hp.isOperand hk ho)] at hvisit

/-- Members, each of which may use the names of those before it. -/
theorem visitMembers {members : List NodeId} (hm : ∀ m ∈ members, m ∈ kind.enclosed)
    (hb : ∀ m ∈ members, ∃ kind, program.arena.kind? m = some kind ∧ kind.isBinding) (seen : List String)
    (c : Context) : ∃ names, Checks program.arena c.names (visitObject.visitMembers visit seen members) names
      fun _ => program.arena.Members (program.arena.ScopedWithin globals levels) c members := by
  induction members generalizing seen c with
  | nil => exact ⟨c.names, pure trivial⟩
  | cons member rest ih =>
    obtain ⟨kind', hk', hbinding⟩ := hb member (by simp)
    cases kind' with
    | binding name mode isFinal value =>
      obtain ⟨names, hrest⟩ := ih (fun m hmem => hm m (by simp [hmem])) (fun m hmem => hb m (by simp [hmem]))
        (name :: seen) (c.define name)
      have hmember := enclosed hp hs hk hv (hm member (by simp)) c
      have hafter : (program.arena.after c member).names = (c.define name).names := by
        simp [Arena.after, hk', NodeKind.introduced, Context.defineAll, Context.define]
      rw [hafter] at hmember
      refine ⟨names, node fun ⟨kind', position⟩ hn => ?_⟩
      obtain rfl := Option.some.inj (hk'.symm.trans (Arena.kind?_eq_some.2 ⟨position, hn⟩))
      refine bind (reportIf _ _ _) fun _ => (bind hmember fun _ => ?_).right fun _ h _ => h
      exact hrest.right fun _ hrest hmember => Arena.members_cons hk' hmember hrest
    | _ => cases hbinding

end

/-! ## Forms -/

/-- A label names what is known when it would be an error that it does not. -/
theorem reportLabel {a : Arena} {names : List String} {name : String} {f : Finding}
    (hf : f.severity = .error) (position : Option Position) {after : Analysis Unit}
    (ha : Checks a names after names fun _ => True) :
    Checks a names (do
      Analysis.reportIf (!(← Analysis.isBound name)) f position
      after) names fun _ => name ∈ names := by
  refine bind (isBound name) fun b => ?_
  refine bind (J := fun _ => b = true) ?_ fun _ => ha.right fun _ _ hb hname => hname hb
  exact (reportIf _ _ _).right fun _ hb => by simpa using hb hf

/-- A name that is visited is known. -/
theorem visitIdent {a : Arena} {names : List String} (name : String) (position : Option Position) :
    Checks a names (Analysis.visitIdent name position) names fun _ => name ∈ names := by
  refine bind (isBound name) fun b => (reportIf _ _ _).right fun _ hb hname => hname ?_
  simpa using hb rfl

/-- So are the names that are exported. -/
theorem visitExport {a : Arena} {names : List String} (role : Role) (labels : List Label)
    (position : Option Position) : Checks a names (Analysis.visitExport role labels position) names
      fun _ => ∀ label ∈ labels, label.name ∈ names := by
  refine bind (reportIf _ _ _) fun _ => (forLabels fun label _ again => ?_).right fun _ h _ => h
  exact reportLabel rfl _ ((reportIf _ _ _).right fun _ _ => trivial)

section

variable (hp : program.Scopable) (hs : program.Stands globals c id) (hk : program.arena.kind? id = some kind)
  (hv : ∀ c id, program.Stands globals c id → Checks program.arena c.names (visit id)
    (program.arena.after c id).names fun _ => program.arena.ScopedWithin globals levels c id)
include hp hs hk hv

/-- An object has no parameters, and the names of what it is composed of are known. -/
theorem visitObject {params : Option (List Param)} {composed : List Label} {members : List NodeId}
    (hkind : kind = .object params composed members) (c : Context) :
    ∃ names, Checks program.arena c.names (Analysis.visitObject visit params composed members) names
      fun _ => program.arena.ScopedWithin globals (levels + 1) c id := by
  subst hkind
  obtain ⟨-, hclass⟩ := hp.selfContained.kind? hk
  obtain rfl : params = none := by simpa [NodeKind.isClass] using hclass
  have hbindings : ∀ m ∈ members, ∃ kind, program.arena.kind? m = some kind ∧ kind.isBinding :=
    (hp.runnable id _ hk).demands
  obtain ⟨names, hmembers⟩ := visitMembers hp hs hk hv (fun m hm => hm) hbindings [] c
  refine ⟨names, bind (J := fun _ => True) (pure trivial) fun _ => ?_⟩
  refine bind (J := fun _ => ∀ label ∈ composed, label.name ∈ c.names)
    (forLabels fun source _ again => reportLabel rfl _ ((reportIf _ _ _).right fun _ _ => trivial)) fun _ => ?_
  exact hmembers.right fun _ hmembers hcomposed _ =>
    ⟨_, hk, rfl, fun label hlabel => .inl (hcomposed label hlabel), hmembers⟩

omit hk in
/-- The value of a binding makes no name known. -/
theorem visitValue (hoperand : ∃ kind, program.arena.kind? id = some kind ∧ kind.isOperand) (name : String) :
    Checks program.arena c.names (Analysis.visitValue visit name id) c.names
      fun _ => program.arena.ScopedWithin globals (levels + 1) c id := by
  refine node fun ⟨kind, position⟩ hn => ?_
  have hk := Arena.kind?_eq_some.2 ⟨position, hn⟩
  have hvisit : Checks program.arena c.names (visit id) c.names
      fun _ => program.arena.ScopedWithin globals (levels + 1) c id := by
    have hvisit := hv c id hs
    rw [Program.Scopable.after_isOperand hoperand] at hvisit
    exact hvisit.right fun _ h => h.more levels.le_succ
  cases kind with
  | object params composed members =>
    obtain ⟨names, hobject⟩ := visitObject hp hs hk hv rfl c
    exact hobject.inEnvironment name
  | _ => exact hvisit

/-- A binding makes its name known, to its value too when it is recursive. -/
theorem visitBinding {name : String} {mode : BindingMode} {isFinal : Bool} {value : NodeId}
    (hkind : kind = .binding name mode isFinal value) (position : Option Position) :
    Checks program.arena c.names (Analysis.visitBinding visit name mode isFinal value position)
      (c.define name).names fun _ => program.arena.ScopedWithin globals (levels + 1) (c.forValue name mode) value := by
  subst hkind
  have hvalue := hp.isOperand hk (i := value) (by simp [NodeKind.operands, NodeKind.children])
  have hwarn : Checks program.arena (c.define name).names (do
      let s ← get
      let atTop := s.current = EnvTree.root && s.tree.scopeCount EnvTree.root = 1
      Analysis.reportIf (name = mainName && !isFinal && atTop) .mainNotFinal position) (c.define name).names
      fun _ => True := reading fun s => (reportIf _ _ _).right fun _ _ => trivial
  have hstands : program.Stands globals (c.forValue name mode) value := by
    refine hp.stands_operand hs hk (by simp [NodeKind.operands, NodeKind.children]) fun hnames hrec => ?_
    unfold Context.forValue
    split
    · rename_i hmode
      subst hmode
      intro x hx
      rcases List.mem_cons.1 hx with rfl | hx
      · exact hrec x isFinal value rfl
      · exact hnames x hx
    · exact hnames
  unfold Analysis.visitBinding
  by_cases hmode : mode = .recursive
  · subst hmode
    refine bind (declare _) fun _ => ?_
    refine bind (visitValue hp hstands hv hvalue name) fun _ => hwarn.right fun _ _ h _ => h
  · have hcontext : c.forValue name mode = c := if_neg hmode
    rw [hcontext] at hstands ⊢
    simp only [if_neg hmode]
    refine bind (visitValue hp hstands hv hvalue name) fun _ => ?_
    exact bind (declare _) fun _ => hwarn.right fun _ _ _ h => h

/-- A function knows its parameters and what functions that are made at the top level know. -/
theorem visitFunction {params : List Param} {body : NodeId} (hkind : kind = .function params body) :
    Checks program.arena c.names (Analysis.visitFunction visit params body) c.names
      fun _ => program.arena.Makes globals levels params body := by
  subst hkind
  obtain ⟨hnames, -⟩ := hs.place.resolve_left (hp.functionsAtTop id params body hk)
  have hparams : Checks program.arena c.names (Analysis.forLabels Param.toLabel (fun param again =>
      if again then Analysis.report (.duplicateParameter param.name) param.position
      else Analysis.declare ⟨param.name, param.position, true, false⟩) params)
      (params.map (fun p => p.name) ++ c.names) fun _ => True := by
    refine declaring fun param again names => ?_
    cases again with
    | true => exact error rfl _
    | false => exact declare _
  have hbody (depth : Nat) : Checks program.arena (params.map (fun p => p.name) ++ globals) (visit body)
      (params.map (fun p => p.name) ++ globals) fun _ =>
        program.arena.Body (program.arena.ScopedWithin globals levels)
          ⟨depth, params.map (fun p => p.name) ++ globals⟩ body :=
    (enclosedOperand hp hs hk hv (i := body) (by simp [NodeKind.enclosed])
      (by simp [NodeKind.operands, NodeKind.children]) ⟨depth, params.map (fun p => p.name) ++ globals⟩).right
        fun _ h => h.body
  have hfunction : Checks program.arena (params.map (fun p => p.name) ++ c.names) (visit body)
      (params.map (fun p => p.name) ++ globals) fun _ => program.arena.Makes globals levels params body := by
    refine (forAll hbody).weaken (fun name hname => ?_) (fun _ h => h) fun _ h => h
    rcases List.mem_append.1 hname with hname | hname
    · exact List.mem_append_left _ hname
    · exact List.mem_append_right _ (hnames name hname)
  exact allowingReturn true (inScope (bind hparams fun _ => hfunction.right fun _ h _ => h))

/-- A call needs what its operands need. -/
theorem visitCall {callee : NodeId} {args : List NodeId} (hkind : kind = .call callee args)
    (position : Option Position) :
    Checks program.arena c.names (Analysis.visitCall visit callee args position) c.names
      fun _ => program.arena.ScopedWithin globals levels c callee ∧
        ∀ i ∈ args, program.arena.ScopedWithin globals levels c i := by
  subst hkind
  have hvisits : Checks program.arena c.names (do visit callee; Analysis.visitAll visit args) c.names
      fun _ => program.arena.ScopedWithin globals levels c callee ∧
        ∀ i ∈ args, program.arena.ScopedWithin globals levels c i := by
    refine bind (operand hp hs hk hv (by simp [NodeKind.operands, NodeKind.children])) fun _ => ?_
    have hargs : ∀ i ∈ args, i ∈ (NodeKind.call callee args).operands := by
      simp +contextual [NodeKind.operands, NodeKind.children]
    exact (operands hp hs hk hv hargs).right fun _ hargs hcallee => ⟨hcallee, hargs⟩
  refine node fun n _ => ?_
  obtain ⟨kind, position⟩ := n
  cases kind with
  | object params composed members => exact bind (J := fun _ => True) (error rfl _) fun _ => hvisits.right fun _ h _ => h
  | _ => exact hvisits

/-- A record needs what the values of its fields need. -/
theorem visitRecord {fields : List Field} (hkind : kind = .record fields) :
    Checks program.arena c.names (Analysis.visitRecord visit fields) c.names
      fun _ => ∀ field ∈ fields, program.arena.ScopedWithin globals levels c field.value := by
  subst hkind
  refine forLabels fun field hfield again => bind (reportIf _ _ _) fun _ => ?_
  refine (operand hp hs hk hv ?_).right fun _ h _ => h
  simp only [NodeKind.operands, NodeKind.children]
  exact List.mem_map_of_mem hfield

/-- Inside a loop its name is known. -/
theorem visitLoop {start stop body : NodeId} (hkind : kind = .loop start stop body) :
    Checks program.arena c.names (Analysis.visitLoop visit start stop body) c.names
      fun _ => program.arena.ScopedWithin globals levels c start ∧
        program.arena.ScopedWithin globals levels c stop ∧
        program.arena.ScopedWithin globals levels (c.define "idx") body := by
  subst hkind
  have hbody := enclosedOperand hp hs hk hv (i := body) (by simp [NodeKind.enclosed])
    (by simp [NodeKind.operands, NodeKind.children]) (c.define "idx")
  refine bind (operand hp hs hk hv (by simp [NodeKind.operands, NodeKind.children])) fun _ => ?_
  refine bind (operand hp hs hk hv (by simp [NodeKind.operands, NodeKind.children])) fun _ => ?_
  have hround : Checks program.arena c.names (do
      Analysis.declare ⟨loopName, none, true, false⟩
      visit body) (c.define "idx").names
      fun _ => program.arena.ScopedWithin globals levels (c.define "idx") body :=
    bind (declare _) fun _ => hbody.right fun _ h _ => h
  exact (inScope hround).right fun _ hbody hstop hstart => ⟨hstart, hstop, hbody⟩

/-- A name that gets a value is known, and so is what the record needs that does. -/
theorem visitAssign {target value : NodeId} (hkind : kind = .assign target value) :
    Checks program.arena c.names (Analysis.visitAssign visit target value) c.names
      fun _ => program.arena.ScopedWithin globals levels c value ∧ ∃ kind, program.arena.kind? target = some kind ∧
        match kind with
        | .ident name => c.Bound False name
        | .property owner _ => program.arena.ScopedWithin globals levels c owner
        | _ => True := by
  subst hkind
  have htarget := operand hp hs hk hv (i := target) (by simp [NodeKind.operands, NodeKind.children])
  refine node fun n hn => ?_
  obtain ⟨kind, position⟩ := n
  have hkind := Arena.kind?_eq_some.2 ⟨position, hn⟩
  refine bind (operand hp hs hk hv (i := value) (by simp [NodeKind.operands, NodeKind.children])) fun _ => ?_
  cases kind with
  | ident name =>
    refine bind (lookup? name) fun d => ?_
    cases d with
    | none => exact error rfl _
    | some d => exact (reportIf _ _ _).right fun _ _ hname hvalue => ⟨hvalue, _, hkind, .inl (hname rfl)⟩
  | property owner name =>
    refine htarget.right fun _ htarget hvalue => ⟨hvalue, _, hkind, ?_⟩
    obtain ⟨kind, hk', hfits⟩ := htarget.fits
    obtain rfl := Option.some.inj (hkind.symm.trans hk')
    exact hfits
  | _ => exact htarget.right fun _ _ hvalue => ⟨hvalue, _, hkind, trivial⟩

/-- A return needs what its value needs. -/
theorem visitReturn {value : Option NodeId} (hkind : kind = .returns value) (position : Option Position) :
    Checks program.arena c.names (Analysis.visitReturn visit value position) c.names
      fun _ => ∀ i ∈ value, program.arena.ScopedWithin globals levels c i := by
  subst hkind
  refine reading fun s => bind (reportIf _ _ _) fun _ => ?_
  cases value with
  | none => exact pure fun _ i hi => absurd hi (Option.not_mem_none i)
  | some value =>
    refine (operand hp hs hk hv (i := value) (by simp [NodeKind.operands, NodeKind.children])).right ?_
    rintro _ h - i hi
    obtain rfl := Option.some.inj hi
    exact h

omit hk in
/-- A node needs what its form needs. -/
theorem visitNode (role : Role) : Checks program.arena c.names (Analysis.visitNode role visit id)
    (program.arena.after c id).names fun _ => program.arena.ScopedWithin globals (levels + 2) c id := by
  refine node fun ⟨kind, position⟩ hn => ?_
  have hk := Arena.kind?_eq_some.2 ⟨position, hn⟩
  have hall {ids : List NodeId} (hi : ∀ i ∈ ids, i ∈ kind.operands) := operands hp hs hk hv hi
  have hone {i : NodeId} (hi : i ∈ kind.operands) := operand hp hs hk hv hi
  have hform {x : Analysis Unit} {J : Unit → Prop} (hx : Checks program.arena c.names x c.names J)
      (hintroduced : kind.introduced = [])
      (hj : J () → kind.Fits program.arena False (fun _ => program.arena.Makes globals levels)
        (program.arena.ScopedWithin globals levels) c) :
      Checks program.arena c.names x (program.arena.after c id).names
        fun _ => program.arena.ScopedWithin globals (levels + 2) c id := by
    have hafter : (program.arena.after c id).names = c.names := by
      simp [Arena.after, hk, hintroduced, Context.defineAll]
    rw [hafter]
    refine hx.right fun _ h => ?_
    have hscoped : program.arena.ScopedWithin globals (levels + 1) c id := ⟨kind, hk, hj h⟩
    exact hscoped.more (Nat.le_succ _)
  cases kind with
  | block items =>
    refine hform (inScope (visitStatements fun c i hi => enclosed hp hs hk hv hi c)) rfl fun h => h
  | binding name mode isFinal value =>
    have hafter : (program.arena.after c id).names = (c.define name).names := by
      simp [Arena.after, hk, NodeKind.introduced, Context.defineAll, Context.define]
    rw [hafter]
    exact (visitBinding hp hs hk hv rfl position).right fun _ h => ⟨_, hk, h⟩
  | function params body => exact hform (visitFunction hp hs hk hv rfl) rfl fun h => h
  | call callee args => exact hform (visitCall hp hs hk hv rfl position) rfl fun h => h
  | ident name => exact hform (visitIdent name position) rfl .inl
  | literal value => exact hform (pure (J := fun _ => True) trivial) rfl fun h => h
  | list items | print items => exact hform (hall fun i hi => hi) rfl fun h => h
  | record fields => exact hform (visitRecord hp hs hk hv rfl) rfl fun h => h
  | property target name | len target | negate target | clone target =>
    exact hform (hone (by simp [NodeKind.operands, NodeKind.children])) rfl fun h => h
  | loop start stop body => exact hform (visitLoop hp hs hk hv rfl) rfl fun h => h
  | conditional condition thenBranch elseBranch =>
    have hchildren : ∀ i ∈ condition :: thenBranch :: elseBranch.toList,
        i ∈ (NodeKind.conditional condition thenBranch elseBranch).operands := fun i hi => hi
    refine hform (hall hchildren) rfl fun h => ?_
    refine ⟨h _ (by simp), h _ (by simp), fun branch hbranch => h branch ?_⟩
    obtain rfl := Option.mem_def.1 hbranch
    simp
  | assign target value => exact hform (visitAssign hp hs hk hv rfl) rfl fun h => h
  | index lhs rhs | logical _ lhs rhs | equality _ lhs rhs | comparison _ lhs rhs | arithmetic _ lhs rhs
  | prepend lhs rhs =>
    refine hform (x := Analysis.visitAll visit [lhs, rhs]) (hall fun i hi => hi) rfl fun h => ?_
    exact ⟨h lhs (by simp), h rhs (by simp)⟩
  | pipe lhs rhs desugared =>
    obtain rfl : desugared = true := (hp.runnable id _ hk).demands
    exact hform (hone (i := rhs) (by simp [NodeKind.operands, NodeKind.children])) rfl fun h _ => h
  | object params composed members =>
    obtain ⟨names, hobject⟩ := visitObject hp hs hk hv rfl c
    refine hform (inScope hobject) rfl fun h => ?_
    obtain ⟨kind, hk', hfits⟩ := Arena.scopedWithin_succ.1 h
    obtain rfl := Option.some.inj (hk.symm.trans hk')
    exact hfits
  | envOpen target body => cases hp.opensNothing.kind? hk
  | imports root path => cases (hp.selfContained.kind? hk).1
  | exports labels => exact hform (visitExport role labels position) rfl fun h label hl => .inl (h label hl)
  | returns value =>
    exact hform (visitReturn hp hs hk hv rfl position) rfl fun h => h

end


/-! ## Trees and programs -/

/-- A tree needs what its nodes need. -/
theorem visitWithin (hp : program.Scopable) (role : Role) (levels : Nat) (hs : program.Stands globals c id) :
    Checks program.arena c.names (Analysis.visitWithin role levels id) (program.arena.after c id).names
      fun _ => program.arena.ScopedWithin globals (2 * levels) c id := by
  induction levels generalizing c id with
  | zero =>
    intro s _ b s' hrun
    cases hrun
  | succ levels ih => exact visitNode hp hs (fun c id hs => ih hs) role

/-- A statement is scoped, and so are the functions that it makes. -/
theorem visitStatement (hp : program.Scopable) (role : Role) (levels : Nat)
    (hid : id.index < program.body.index) :
    Checks program.arena c.names (Analysis.visitWithin role levels id) (program.arena.after c id).names
      fun _ => program.arena.ScopedWithin (program.arena.visible c id).names (2 * levels) c id := by
  refine visitWithin hp role levels ⟨hid, .inr ⟨fun name hname => Arena.mem_visible hname, ?_⟩⟩
  intro name isFinal value hk
  simp [Arena.visible, hk, Context.forValue, Context.define]

/-- The statements of a program are scoped. -/
theorem visitProgram (hp : program.Scopable) (role : Role) {items : List NodeId}
    (hk : program.arena.kind? program.body = some (.block items)) :
    Checks program.arena c.names (Analysis.visitProgram role program.body)
      (items.foldl program.arena.after c).names fun _ => ∃ levels, program.arena.ScopedAtTop levels c items := by
  have hitems (levels : Nat) : Checks program.arena c.names
      (Analysis.visitAll (Analysis.visitWithin role levels) items) (items.foldl program.arena.after c).names
      fun _ => ∃ levels, program.arena.ScopedAtTop levels c items := by
    refine (visitStatements fun c i hi => visitStatement hp role levels ?_).right fun _ h => ⟨_, h⟩
    exact hp.down (Arena.parent_of_kind? hk (by simpa [NodeKind.children] using hi))
  intro s hs b s' hrun
  rw [visitProgram_eq] at hrun
  have hnode : Checks program.arena c.names (Analysis.node program.body >>= fun n =>
      Analysis.visitAll (Analysis.visitWithin role (s.arena.size + 1)) (topItems program.body n))
      (items.foldl program.arena.after c).names fun _ => ∃ levels, program.arena.ScopedAtTop levels c items := by
    refine node fun n hn => ?_
    obtain ⟨kind, position⟩ := n
    obtain rfl := Option.some.inj (hk.symm.trans (Arena.kind?_eq_some.2 ⟨position, hn⟩))
    exact hitems _
  exact hnode s hs b s' hrun

end Checks

end Analysis

namespace Arena.Desugars

variable {a settled : Arena} (hd : a.Desugars settled)
include hd

/-- No imports and no classes come about. -/
theorem selfContained (h : a.SelfContained) : settled.SelfContained := by
  refine hd.forall_nodes (T := fun kind => kind.isImport = false ∧ kind.isClass = false) (fun kind hj => ?_) h
  cases kind <;> first | exact ⟨rfl, rfl⟩ | cases hj

/-- Nor does a node that opens a record. -/
theorem opensNothing (h : a.OpensNothing) : settled.OpensNothing := by
  refine hd.forall_nodes (T := fun kind => kind.isOpening = false) (fun kind hj => ?_) h
  cases kind <;> first | rfl | cases hj

end Arena.Desugars

/-- Before anything is visited only the name of the host is known. -/
theorem AnalysisState.knows_initialState (a : Arena) (queue : Queue) :
    (Analysis.initialState a queue).Knows [Analysis.hostName] := by
  have htree : Analysis.initialTree =
      ⟨#[⟨Analysis.rootName, none, [], [⟨[⟨Analysis.hostName, none, true, false⟩]⟩]⟩]⟩ := rfl
  have hparent (e : EnvId) : Analysis.initialTree.parent? e = none := by
    obtain ⟨_ | i⟩ := e <;> rfl
  refine ⟨fun name hd => ?_, Nat.zero_lt_one, fun x p hp => ?_⟩
  · cases hd with
    | @here _ _ scope hscope hfound =>
      obtain rfl : scope = ⟨[⟨Analysis.hostName, none, true, false⟩]⟩ := List.mem_singleton.1 hscope
      by_contra hne
      have hother : Analysis.hostName ≠ name := by simpa [eq_comm] using hne
      simp [Scope.find?, hother] at hfound
    | around hp => cases (hparent _).symm.trans hp
  · cases (hparent x).symm.trans hp

/-- Where analysis has found no error in a program, its statements are scoped. -/
theorem Numbered.scoped (p : Numbered) {role : Role} {queue : Queue} {analysed : Analysed}
    (h : DynScript.analyse p.program role queue = .ok analysed) (hfailed : analysed.failed = false)
    (hs : p.program.arena.SelfContained) (ho : p.program.arena.OpensNothing) (ht : p.program.FunctionsAtTop) :
    ∃ levels items, analysed.program.arena.kind? analysed.program.body = some (.block items) ∧
      analysed.program.arena.ScopedAtTop levels ⟨0, [Analysis.hostName]⟩ items := by
  obtain ⟨settled, found, hforest, hdesugars, hvetted, hpass⟩ := analyse_settles p.laid role
  obtain rfl := Except.ok.inj (h.symm.trans (hpass queue).1)
  have herrors : found.errors = 0 := by simpa [Analysed.failed] using hfailed
  obtain ⟨items, position, hn⟩ := p.laid.exists_block
  have hk : settled.kind? p.program.body = some (.block items) :=
    Arena.kind?_eq_some.2 ⟨position, hdesugars.outline.get?_of_not_joint hn rfl⟩
  have hp : Program.Scopable ⟨settled, p.program.body⟩ :=
    { down := hforest.down
      operands := fun hn c hc => hdesugars.operands p.laid hn hc
      runnable := p.laid.runnable hforest hdesugars hvetted herrors
      selfContained := hdesugars.selfContained hs
      opensNothing := hdesugars.opensNothing ho
      functionsAtTop := hdesugars.functionsAtTop p.laid ht }
  -- The second pass finds no error either, and it leaves the nodes as they are.
  have hsecond := (hpass queue).2
  unfold DynScript.analyse at hsecond
  cases hrun : (Analysis.visitProgram role p.program.body).run (Analysis.initialState settled queue) with
  | error defect =>
    rw [hrun] at hsecond
    cases hsecond
  | ok result =>
    rw [hrun] at hsecond
    have hchecks := Analysis.Checks.visitProgram (c := ⟨0, [Analysis.hostName]⟩) hp role hk
    obtain ⟨-, -, hright⟩ := hchecks (Analysis.initialState settled queue) rfl result.1 result.2 hrun
    have hzero : result.2.errors = 0 := (congrArg Analysed.errors (Except.ok.inj hsecond)).trans herrors
    have hclean : (Analysis.initialState settled queue).Clean result.2 :=
      ⟨hzero, p.fits (hpass queue).1 (.inr rfl) hrun⟩
    obtain ⟨-, -, levels, hscoped⟩ := hright hclean (AnalysisState.knows_initialState settled queue)
    exact ⟨levels, items, hk, hscoped⟩

end DynScript
