import DynScript.Proofs.Analysis.Declared
import DynScript.Proofs.Session.Accepted
import DynScript.Proofs.Tree.Returns

/-!
# Analysis finds stray returns

Where an analysis finds no error, no return strays from a node that was visited while returns were not allowed. The
visits are followed once more over the nodes that an analysis has left, on which it has nothing to change.
-/

namespace DynScript

namespace Analysis

variable {α β : Type} {a : Arena} {allowed : Bool} {P Q : Prop}

/-- A step over these nodes that is made where returns are allowed, or where they are not, takes no error back and
leaves the nodes and the permission. If it finds no error then `P` holds. -/
def Vets (a : Arena) (allowed : Bool) (x : Analysis α) (P : Prop) : Prop :=
  ∀ s : AnalysisState, s.arena = a → s.inFunction = allowed → ∀ b s', x s = .ok (b, s') →
    s.errors ≤ s'.errors ∧ s'.arena = a ∧ s'.inFunction = allowed ∧ (s'.errors = s.errors → P)

/-- Nothing strays from a node where returns are not allowed. -/
def Clear (a : Arena) (allowed : Bool) (id : NodeId) : Prop := allowed = false → ¬ a.Strays id

namespace Vets

theorem imp {x : Analysis α} (hx : Vets a allowed x P) (h : P → Q) : Vets a allowed x Q := by
  intro s ha hf b s' hrun
  obtain ⟨hle, ha', hf', hp⟩ := hx s ha hf b s' hrun
  exact ⟨hle, ha', hf', fun herrors => h (hp herrors)⟩

theorem nothing {x : Analysis α} (hx : Vets a allowed x P) : Vets a allowed x True := hx.imp fun _ => trivial

theorem bind {x : Analysis α} {k : α → Analysis β} (hx : Vets a allowed x P) (hk : ∀ b, Vets a allowed (k b) Q) :
    Vets a allowed (x >>= k) (P ∧ Q) := by
  intro s ha hf r s' hrun
  simp only [Bind.bind, StateT.bind, Except.bind] at hrun
  split at hrun
  · cases hrun
  · rename_i v hv
    obtain ⟨hle, ha', hf', hp⟩ := hx s ha hf v.1 v.2 hv
    obtain ⟨hle', ha'', hf'', hq⟩ := hk v.1 v.2 ha' hf' r s' hrun
    exact ⟨hle.trans hle', ha'', hf'', fun herrors => ⟨hp (by omega), hq (by omega)⟩⟩

/-- Nothing is learned of the first step. -/
theorem first {x : Analysis α} {k : α → Analysis β} (hx : Vets a allowed x P) (hk : ∀ b, Vets a allowed (k b) Q) :
    Vets a allowed (x >>= k) Q :=
  (bind hx hk).imp And.right

/-- Nothing is learned of the last step. -/
theorem last {x : Analysis α} {k : α → Analysis β} (hx : Vets a allowed x P) (hk : ∀ b, Vets a allowed (k b) Q) :
    Vets a allowed (x >>= k) P :=
  (bind hx hk).imp And.left

/-- A change that has nothing to do with the nodes, the permission and the errors. -/
theorem modify {f : AnalysisState → AnalysisState} (ha : ∀ s, (f s).arena = s.arena := by exact fun _ => rfl)
    (hf : ∀ s, (f s).inFunction = s.inFunction := by exact fun _ => rfl)
    (he : ∀ s, (f s).errors = s.errors := by exact fun _ => rfl) : Vets a allowed (modify f) True := by
  intro s harena hallowed b s' hrun
  cases hrun
  exact ⟨(he s).ge, (ha s).trans harena, (hf s).trans hallowed, fun _ => trivial⟩

theorem pure (b : α) : Vets a allowed (Pure.pure b) True := by
  intro s ha hf b' s' hrun
  cases hrun
  exact ⟨le_rfl, ha, hf, fun _ => trivial⟩

theorem modifyTree (f : EnvTree → EnvId → EnvTree) : Vets a allowed (Analysis.modifyTree f) True := modify

theorem reading {k : AnalysisState → Analysis α} (hk : ∀ s, s.inFunction = allowed → Vets a allowed (k s) P) :
    Vets a allowed (get >>= k) P :=
  fun s ha hf b s' hrun => hk s hf s ha hf b s' hrun

theorem node {id : NodeId} {k : Node → Analysis α} (hk : ∀ n, a.get? id = some n → Vets a allowed (k n) P) :
    Vets a allowed (Analysis.node id >>= k) P := by
  intro s ha hf b s' hrun
  obtain ⟨n, hn, hrest⟩ := node_ok hrun
  exact hk n (ha ▸ hn) s ha hf b s' hrest

/-! ### Findings and names -/

/-- After an error it does not matter what is right. -/
theorem report (f : Finding) (position : Option Position) :
    Vets a allowed (Analysis.report f position) (f.severity ≠ .error) := by
  intro s ha hf b s' hrun
  cases hrun
  refine ⟨?_, ha, hf, fun herrors hsevere => ?_⟩
  · show s.errors ≤ if f.severity = .error then s.errors + 1 else s.errors
    split <;> omega
  · have hmore : (if f.severity = .error then s.errors + 1 else s.errors) = s.errors := herrors
    rw [if_pos hsevere] at hmore
    omega

theorem reportIf (p : Bool) (f : Finding) (position : Option Position) :
    Vets a allowed (Analysis.reportIf p f position) (f.severity = .error → p = false) := by
  cases p with
  | false => exact (pure ()).imp fun _ _ => rfl
  | true => exact (report f position).imp fun h hf => absurd hf h

theorem lookup? (name : String) : Vets a allowed (Analysis.lookup? name) True :=
  reading fun _ _ => reading fun _ _ => pure _

theorem isBound (name : String) : Vets a allowed (Analysis.isBound name) True :=
  first (lookup? name) fun _ => pure _

theorem declare (d : Declaration) : Vets a allowed (declare d) True := by
  refine reading fun s _ => reading fun s' _ => ?_
  split
  · exact modify
  · exact (report _ _).nothing

theorem inScope {x : Analysis Unit} (hx : Vets a allowed x P) : Vets a allowed (inScope x) P :=
  first (modifyTree _) fun _ => last hx fun _ => modifyTree _

theorem inEnvironment {x : Analysis Unit} (name : String) (hx : Vets a allowed x P) :
    Vets a allowed (inEnvironment name x) P :=
  reading fun _ _ => first modify fun _ => last hx fun _ => modify

/-- The permission is back afterwards. -/
theorem allowingReturn {x : Analysis Unit} (inner : Bool) (hx : Vets a inner x P) :
    Vets a allowed (allowingReturn inner x) P := by
  intro s ha hf b s' hrun
  have hallowing : Analysis.allowingReturn inner x s = (x { s with inFunction := inner } >>= fun r =>
      .ok ((), { r.2 with inFunction := s.inFunction })) := rfl
  rw [hallowing] at hrun
  cases hr : x { s with inFunction := inner } with
  | error defect =>
    rw [hr] at hrun
    cases hrun
  | ok r =>
    rw [hr] at hrun
    cases hrun
    obtain ⟨hle, ha', -, hp⟩ := hx { s with inFunction := inner } ha rfl r.1 r.2 hr
    exact ⟨hle, ha', hf, hp⟩

theorem forLabels {ι : Type} {label : ι → Label} {visit : ι → Bool → Analysis Unit} {J : ι → Prop}
    (h : ∀ item again, Vets a allowed (visit item again) (J item)) (items : List ι) :
    Vets a allowed (Analysis.forLabels label visit items) (∀ item ∈ items, J item) := by
  have hgo (seen : List String) : Vets a allowed (Analysis.forLabels.go label visit seen items)
      (∀ item ∈ items, J item) := by
    induction items generalizing seen with
    | nil => exact (pure ()).imp fun _ => by simp
    | cons item rest ih => exact (bind (h item _) fun _ => ih _).imp List.forall_mem_cons.2
  exact hgo []

/-! ### Visits -/

section visits

variable {visit : NodeId → Analysis Unit} (hv : ∀ allowed id, Vets a allowed (visit id) (Clear a allowed id))

section
include hv

theorem visitAll (ids : List NodeId) : Vets a allowed (visitAll visit ids) (∀ id ∈ ids, Clear a allowed id) := by
  induction ids with
  | nil => exact (pure ()).imp fun _ => by simp
  | cons id rest ih => exact (bind (hv allowed id) fun _ => ih).imp List.forall_mem_cons.2

theorem visitObject (params : Option (List Param)) (composed : List Label) (members : List NodeId) :
    Vets a allowed (visitObject visit params composed members) (∀ m ∈ members, Clear a allowed m) := by
  have hmembers (seen : List String) : Vets a allowed (visitObject.visitMembers visit seen members)
      (∀ m ∈ members, Clear a allowed m) := by
    induction members generalizing seen with
    | nil => exact (pure ()).imp fun _ => by simp
    | cons member rest ih =>
      refine node fun n _ => ?_
      split
      · refine first (reportIf _ _ _) fun _ => ?_
        exact (bind (hv allowed member) fun _ => ih _).imp List.forall_mem_cons.2
      · intro s _ _ b s' hrun
        cases hrun
  refine first (forLabels (J := fun _ => True) (fun param again => ?_) _) fun _ => ?_
  · split
    · exact (report _ _).nothing
    · exact declare _
  refine first (forLabels (J := fun _ => True) (fun source again => ?_) _) fun _ => hmembers []
  exact first (isBound _) fun _ => first (reportIf _ _ _) fun _ => (reportIf _ _ _).nothing

theorem visitValue (name : String) (value : NodeId) :
    Vets a allowed (visitValue visit name value) (Clear a allowed value) := by
  refine node fun ⟨kind, position⟩ hn => ?_
  split
  · rename_i params composed members hkind
    obtain rfl : kind = .object params composed members := hkind
    refine (inEnvironment name (visitObject hv _ _ _)).imp fun h hallowed => ?_
    exact Arena.not_strays (Arena.kind?_eq_some.2 ⟨position, hn⟩) (by simp) fun _ c hc => h c hc hallowed
  · exact hv allowed value

theorem visitBinding (name : String) (mode : BindingMode) (isFinal : Bool) (value : NodeId)
    (position : Option Position) :
    Vets a allowed (visitBinding visit name mode isFinal value position) (Clear a allowed value) := by
  have hmain (main : AnalysisState → Bool) : Vets a allowed
      (get >>= fun s => Analysis.reportIf (main s) .mainNotFinal position) True :=
    reading fun s _ => (reportIf _ _ _).nothing
  dsimp only [Analysis.visitBinding]
  split
  · exact first (declare _) fun _ => last (visitValue hv name value) fun _ => hmain _
  · exact last (visitValue hv name value) fun _ => first (declare _) fun _ => hmain _

theorem visitFunction (params : List Param) (body : NodeId) :
    Vets a allowed (visitFunction visit params body) True := by
  refine allowingReturn true (inScope (first (forLabels (J := fun _ => True) (fun param again => ?_) _) fun _ => ?_))
  · split
    · exact (report _ _).nothing
    · exact declare _
  · exact (hv true body).imp fun _ => trivial

theorem visitCall (callee : NodeId) (args : List NodeId) (position : Option Position) :
    Vets a allowed (visitCall visit callee args position) (∀ c ∈ callee :: args, Clear a allowed c) := by
  refine node fun n _ => ?_
  have hrest : Vets a allowed (visit callee >>= fun _ => Analysis.visitAll visit args)
      (∀ c ∈ callee :: args, Clear a allowed c) :=
    (bind (hv allowed callee) fun _ => visitAll hv args).imp List.forall_mem_cons.2
  split
  · exact first (report _ _) fun _ => hrest
  · exact hrest

theorem visitRecord (fields : List Field) :
    Vets a allowed (visitRecord visit fields) (∀ c ∈ fields.map Field.value, Clear a allowed c) :=
  (forLabels (fun field _ => first (reportIf _ _ _) fun _ => hv allowed field.value) fields).imp
    List.forall_mem_map.2

theorem visitLoop (start stop body : NodeId) :
    Vets a allowed (visitLoop visit start stop body) (∀ c ∈ [start, stop, body], Clear a allowed c) := by
  refine (bind (hv allowed start) fun _ => bind (hv allowed stop) fun _ =>
    inScope (first (declare _) fun _ => hv allowed body)).imp ?_
  rintro ⟨hstart, hstop, hbody⟩
  simp only [List.forall_mem_cons]
  exact ⟨hstart, hstop, hbody, by simp⟩

theorem visitAssign (target value : NodeId) :
    Vets a allowed (visitAssign visit target value) (∀ c ∈ [target, value], Clear a allowed c) := by
  refine node fun ⟨kind, position⟩ hn => (bind (Q := Clear a allowed target) (hv allowed value) fun _ => ?_).imp ?_
  · split
    · rename_i name hkind
      obtain rfl : kind = .ident name := hkind
      have hclear : Clear a allowed target := fun _ =>
        Arena.not_strays (Arena.kind?_eq_some.2 ⟨position, hn⟩) nofun fun _ c hc => by cases hc
      refine first (lookup? name) fun d => ?_
      split
      · exact (report _ _).imp fun _ => hclear
      · exact (reportIf _ _ _).imp fun _ => hclear
    · exact hv allowed target
  · rintro ⟨hvalue, htarget⟩
    simp only [List.forall_mem_cons]
    exact ⟨htarget, hvalue, by simp⟩

/-- Inside a record that stands open no return is allowed, whatever is allowed around it. -/
theorem visitEnvOpen (target body : NodeId) :
    Vets a allowed (visitEnvOpen visit target body) (∀ c ∈ [target, body], Clear a allowed c) := by
  refine (allowingReturn (P := Clear a false target ∧ Clear a false body) false ?_).imp ?_
  · refine reading fun s _ => first (modifyTree _) fun _ => bind (hv false target) fun _ => node fun n _ => ?_
    split
    · exact first (modifyTree _) fun _ => last (hv false body) fun _ => modifyTree _
    · exact last (hv false body) fun _ => modifyTree _
  · rintro ⟨htarget, hbody⟩
    simp only [List.forall_mem_cons]
    exact ⟨fun _ => htarget rfl, fun _ => hbody rfl, by simp⟩

/-- A return where none is allowed is found. -/
theorem visitReturn (value : Option NodeId) (position : Option Position) :
    Vets a allowed (visitReturn visit value position) (allowed = true) := by
  refine reading fun s hs => last ((reportIf _ _ _).imp fun h => ?_) (Q := True) fun _ => ?_
  · simpa [hs] using h rfl
  · cases value with
    | none => exact pure ()
    | some value => exact (hv allowed value).imp fun _ => trivial

end

theorem visitExport (role : Role) (names : List Label) (position : Option Position) :
    Vets a allowed (visitExport role names position) True := by
  refine first (reportIf _ _ _) fun _ => (forLabels (J := fun _ => True) (fun label again => ?_) _).imp fun _ => trivial
  exact first (isBound _) fun _ => first (reportIf _ _ _) fun _ => (reportIf _ _ _).nothing

include hv in
/-- Nothing strays from a node that is visited where returns are not allowed. -/
theorem visitNode (ha : a.Runnable) (role : Role) (id : NodeId) :
    Vets a allowed (visitNode role visit id) (Clear a allowed id) := by
  refine node fun ⟨kind, position⟩ hn => ?_
  have hk : a.kind? id = some kind := Arena.kind?_eq_some.2 ⟨position, hn⟩
  -- It is enough to look at the nodes below, unless the node is a return or puts their evaluation off.
  have hbelow {x : Analysis Unit} (hx : Vets a allowed x (∀ c ∈ kind.children, Clear a allowed c))
      (hr : ∀ value, kind ≠ .returns value) : Vets a allowed x (Clear a allowed id) :=
    hx.imp fun h hallowed => Arena.not_strays hk hr fun _ c hc => h c hc hallowed
  have hleaf (hr : ∀ value, kind ≠ .returns value) (hc : kind.isDeferred = false → kind.children = []) :
      Clear a allowed id := fun _ => Arena.not_strays hk hr fun hd c hmem => by simp [hc hd] at hmem
  have hone {c : NodeId} (hc : kind.children = [c]) : Vets a allowed (visit c) (∀ c ∈ kind.children, Clear a allowed c) :=
    (hv allowed c).imp fun h => by simpa [hc] using h
  cases kind with
  | block items => exact hbelow (inScope (visitAll hv items)) (by simp)
  | binding name mode isFinal value =>
    refine hbelow ((visitBinding hv name mode isFinal value position).imp fun h => ?_) (by simp)
    simpa [NodeKind.children] using h
  | function params body => exact (visitFunction hv params body).imp fun _ => hleaf (by simp) (by simp [NodeKind.isDeferred])
  | call callee args => exact hbelow (visitCall hv callee args position) (by simp)
  | ident name => exact first (isBound _) fun _ => (reportIf _ _ _).imp fun _ => hleaf (by simp) fun _ => rfl
  | literal value => exact (pure ()).imp fun _ => hleaf (by simp) fun _ => rfl
  | list items => exact hbelow (visitAll hv items) (by simp)
  | record fields => exact hbelow (visitRecord hv fields) (by simp)
  | index target i => exact hbelow (visitAll hv _) (by simp)
  | property target name => exact hbelow (hone rfl) (by simp)
  | len operand => exact hbelow (hone rfl) (by simp)
  | loop start stop body => exact hbelow (visitLoop hv start stop body) (by simp)
  | conditional condition thenBranch elseBranch => exact hbelow (visitAll hv _) (by simp)
  | assign target value => exact hbelow (visitAssign hv target value) (by simp)
  | logical op lhs rhs => exact hbelow (visitAll hv _) (by simp)
  | equality op lhs rhs => exact hbelow (visitAll hv _) (by simp)
  | comparison op lhs rhs => exact hbelow (visitAll hv _) (by simp)
  | arithmetic op lhs rhs => exact hbelow (visitAll hv _) (by simp)
  | negate operand => exact hbelow (hone rfl) (by simp)
  | prepend item rest => exact hbelow (visitAll hv _) (by simp)
  | pipe lhs rhs desugared =>
    obtain rfl : desugared = true := (ha id _ hk).demands
    exact hbelow (hone rfl) (by simp)
  | object params composed members => exact hbelow (inScope (visitObject hv params composed members)) (by simp)
  | clone operand => exact hbelow (hone rfl) (by simp)
  | envOpen target body => exact hbelow (visitEnvOpen hv target body) (by simp)
  | imports root path => exact (pure ()).imp fun _ => hleaf (by simp) fun _ => rfl
  | exports names => exact (visitExport role names position).imp fun _ => hleaf (by simp) fun _ => rfl
  | print args => exact hbelow (visitAll hv args) (by simp)
  | returns value => exact (visitReturn hv value position).imp fun h hallowed => by simp [h] at hallowed

end visits

/-- Nothing strays from a tree that is visited where returns are not allowed. -/
theorem visitWithin (ha : a.Runnable) (role : Role) (levels : Nat) (id : NodeId) :
    Vets a allowed (visitWithin role levels id) (Clear a allowed id) := by
  induction levels generalizing allowed id with
  | zero =>
    intro s _ _ b s' hrun
    cases hrun
  | succ levels ih => exact visitNode (fun _ id => ih id) ha role id

end Vets

end Analysis

/-- Where analysis has found no error in a program, no return strays from its statements. -/
theorem Parsed.not_strays (p : Parsed) {role : Role} {queue : Queue} {analysed : Analysed}
    (h : DynScript.analyse p.program role queue = .ok analysed) (hfailed : analysed.failed = false) :
    ∃ items, analysed.program.arena.kind? analysed.program.body = some (.block items) ∧
      ∀ id ∈ items, ¬ analysed.program.arena.Strays id := by
  obtain ⟨settled, found, hforest, hdesugars, hvetted, hpass⟩ := analyse_settles p.laid role
  obtain rfl := Except.ok.inj (h.symm.trans (hpass queue).1)
  have herrors : found.errors = 0 := by simpa [Analysed.failed] using hfailed
  have hrunnable : settled.Runnable := p.laid.runnable hforest hdesugars hvetted herrors
  obtain ⟨items, position, hn⟩ := p.laid.exists_block
  have hn' : settled.get? p.program.body = some ⟨.block items, position⟩ :=
    hdesugars.outline.get?_of_not_joint hn rfl
  refine ⟨items, Arena.kind?_eq_some.2 ⟨position, hn'⟩, fun id hid => ?_⟩
  -- The second pass finds no error either, and it leaves the nodes as they are.
  have hsecond := (hpass queue).2
  unfold DynScript.analyse at hsecond
  cases hrun : (Analysis.visitProgram role p.program.body).run (Analysis.initialState settled queue) with
  | error defect =>
    rw [hrun] at hsecond
    cases hsecond
  | ok result =>
    rw [hrun] at hsecond
    have hzero : result.2.errors = 0 := (congrArg Analysed.errors (Except.ok.inj hsecond)).trans herrors
    have hvets : Analysis.Vets settled false (Analysis.node p.program.body >>= fun n =>
        Analysis.visitAll (Analysis.visitWithin role (settled.size + 1)) (Analysis.topItems p.program.body n))
        (∀ id ∈ items, Analysis.Clear settled false id) := by
      refine .node fun n hnode => ?_
      obtain rfl := Option.some.inj (hn'.symm.trans hnode)
      exact .visitAll (fun _ id => .visitWithin hrunnable role _ id) items
    rw [StateT.run, Analysis.visitProgram_eq] at hrun
    obtain ⟨-, -, -, hclear⟩ := hvets (Analysis.initialState settled queue) rfl rfl result.1 result.2 hrun
    exact hclear hzero id hid rfl

end DynScript
