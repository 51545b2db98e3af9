import DynScript.Proofs.Analysis.Replay
import DynScript.Session.Unit

/-!
# Accepted units

A unit that parsing and analysis have accepted is ready to run: the nodes that a node refers to are there and
stand where their kind may stand, all pipes have been desugared, and no record literal has two fields of one
name.
-/

namespace DynScript

/-- What evaluation needs of a node besides the nodes right below it, when `look` tells what nodes are. -/
def NodeKind.Demands (look : NodeId → Option NodeKind) : NodeKind → Prop
  | .pipe _ _ desugared => desugared = true
  | .assign target _ => ∃ kind, look target = some kind ∧ Grammar.isAssignable kind
  | .object _ _ members => ∀ m ∈ members, ∃ kind, look m = some kind ∧ kind.isBinding
  | .record fields => (fields.map fun f => f.name).Nodup
  | _ => True

/-- A node can be evaluated, when `look` tells what nodes are. -/
structure NodeKind.Fit (look : NodeId → Option NodeKind) (kind : NodeKind) : Prop where
  /-- The nodes right below it are there. -/
  children : ∀ c ∈ kind.children, ∃ kind', look c = some kind'
  /-- They are what they have to be. -/
  demands : kind.Demands look

/-- All nodes of an arena can be evaluated. -/
def Arena.Runnable (a : Arena) : Prop := ∀ id kind, a.kind? id = some kind → kind.Fit a.kind?

/-- A result that passes a test is a value. -/
theorem exists_of_any {ε α : Type} {e : Except ε α} {test : α → Bool} (h : e.toOption.any test) :
    ∃ a, e = .ok a ∧ test a := by
  cases e with
  | error => cases h
  | ok a => exact ⟨a, rfl, h⟩

namespace Found

/-- Where no error was found, nothing was found whose code only errors have. -/
theorem not_has_of_errors {found : Found} (h : found.errors = 0) {code : Code}
    (hc : ∀ finding : Finding, finding.code = code → finding.severity = .error) : ¬ found.Has code := by
  rintro ⟨entry, hmem, hcode⟩
  have hpos : 0 < found.errors :=
    List.countP_pos_iff.2 ⟨entry, hmem, decide_eq_true (hc entry.1 hcode)⟩
  omega

end Found

namespace Arena

variable {a settled : Arena} {roots : List Root} {found : Found}

/-- A node of a kind that is neither a call nor a pipe is the same after some pipes have been desugared. -/
theorem Desugars.exists_kind? (hd : a.Desugars settled) {test : NodeKind → Bool}
    (htest : ∀ kind, test kind → kind.isJoint = false) {id : NodeId}
    (h : ∃ kind, a.kind? id = some kind ∧ test kind) : ∃ kind, settled.kind? id = some kind ∧ test kind := by
  obtain ⟨kind, hk, ht⟩ := h
  obtain ⟨position, hn⟩ := kind?_eq_some.1 hk
  exact ⟨kind, kind?_eq_some.2 ⟨position, hd.outline.get?_of_not_joint hn (htest kind ht)⟩, ht⟩

/-- What is left of the nodes of a program when analysis has found no error in it can run. -/
theorem Laid.runnable (ha : a.Laid roots) (hf : settled.IsForest) (hd : a.Desugars settled)
    (hv : settled.Vetted (fun x => x.index < settled.size) found) (he : found.errors = 0) :
    settled.Runnable := by
  intro id kind hk
  obtain ⟨position, hn⟩ := kind?_eq_some.1 hk
  refine ⟨fun c hc => ?_, ?_⟩
  · obtain ⟨node, hc⟩ := exists_get? (hf.lt_size ⟨_, hn, hc⟩)
    exact ⟨node.kind, kind?_eq_some.2 ⟨node.position, hc⟩⟩
  · have hpipe : ¬ found.Has .pipeIntoNonCall :=
      Found.not_has_of_errors he fun finding hcode => by cases finding <;> first | rfl | cases hcode
    have hfield : ¬ found.Has .duplicateField :=
      Found.not_has_of_errors he fun finding hcode => by cases finding <;> first | rfl | cases hcode
    have hfound := hv hpipe id (lt_size_of_get? hn) _ hn
    obtain ⟨node, hn', ho⟩ := hd.outline.symm.get? hn
    have hproper := ha.proper _ _ hn'
    cases kind with
    | pipe lhs rhs desugared =>
      cases desugared with
      | true => rfl
      | false => exact absurd (hfound .pipeIntoNonCall (by simp [NodeKind.owed])) hpipe
    | record fields =>
      show (fields.map fun f => f.name).Nodup
      by_contra hdup
      exact hfield (hfound .duplicateField (by simp [NodeKind.owed, hdup]))
    | assign target value =>
      obtain rfl := Node.eq_of_outline ho rfl
      refine hd.exists_kind? (fun kind htest => ?_) hproper
      cases kind <;> first | rfl | cases htest
    | object params composed members =>
      obtain rfl := Node.eq_of_outline ho rfl
      intro m hm
      refine hd.exists_kind? (fun kind htest => ?_) (hproper m hm)
      cases kind <;> first | rfl | cases htest
    | _ => trivial

end Arena

/-- Analysing a parsed program never meets a defect, and a program without errors can run afterwards. -/
theorem Parsed.analyse (p : Parsed) (role : Role) (queue : Queue) : ∃ analysed,
    analyse p.program role queue = .ok analysed ∧
      (analysed.failed = false → analysed.program.arena.Runnable ∧
        ∃ kind, analysed.program.arena.kind? analysed.program.body = some kind) := by
  obtain ⟨settled, found, hforest, hdesugars, hvetted, hpass⟩ := analyse_settles p.laid role
  refine ⟨_, (hpass queue).1, fun hfailed => ?_⟩
  have herrors : found.errors = 0 := by simpa [Analysed.failed] using hfailed
  obtain ⟨items, position, hn⟩ := p.laid.exists_block
  exact ⟨p.laid.runnable hforest hdesugars hvetted herrors, _,
    Arena.kind?_eq_some.2 ⟨position, hdesugars.outline.get?_of_not_joint hn rfl⟩⟩

namespace CompiledUnit

/-- A unit whose nodes can be evaluated. -/
structure Runnable (unit : CompiledUnit) : Prop where
  /-- The nodes can run. -/
  arena : unit.program.arena.Runnable
  /-- The block of the unit is there. -/
  body : ∃ kind, unit.program.arena.kind? unit.program.body = some kind

end CompiledUnit

/-- A unit that has been accepted: what is left of its nodes after an analysis without errors. -/
def Program.Accepted (program : Program) : Prop :=
  ∃ (p : Parsed) (role : Role) (queue : Queue) (analysed : Analysed),
    DynScript.analyse p.program role queue = .ok analysed ∧ analysed.failed = false ∧ analysed.program = program

/-- A unit is what analysis has left of the nodes that were parsed, when it has found no error. -/
theorem analysed_of_compile {path : Path} {source : String} {role : Role} {queue : Queue} {c : Compilation}
    {unit : CompiledUnit} (hc : compile path source role queue = .ok c) (hu : c.result = .ok unit) :
    ∃ (p : Parsed) (analysed : Analysed),
      analyse p.program role queue = .ok analysed ∧ analysed.failed = false ∧ analysed.program = unit.program := by
  unfold compile at hc
  cases hparse : parseSource source with
  | error e =>
    rw [hparse] at hc
    cases hc
    cases hu
  | ok program =>
    rw [hparse] at hc
    dsimp only at hc
    cases hanalyse : analyse program role queue with
    | error d =>
      rw [hanalyse] at hc
      cases hc
    | ok analysed =>
      rw [hanalyse] at hc
      dsimp only at hc
      split at hc
      · cases hc
        cases hu
      · rename_i hfailed
        cases hc
        cases hu
        exact ⟨⟨source, program, hparse⟩, analysed, hanalyse, Bool.eq_false_iff.2 hfailed, rfl⟩

theorem compile_accepted {path : Path} {source : String} {role : Role} {queue : Queue} {c : Compilation}
    {unit : CompiledUnit} (hc : compile path source role queue = .ok c) (hu : c.result = .ok unit) :
    unit.program.Accepted := by
  obtain ⟨p, analysed, hanalyse, hfailed, hprogram⟩ := analysed_of_compile hc hu
  exact ⟨p, role, queue, analysed, hanalyse, hfailed, hprogram⟩

theorem compileFile_accepted {disk : Disk} {path : Path} {role : Role} {c : Compilation} {unit : CompiledUnit}
    (hc : compileFile disk path role = .ok c) (hu : c.result = .ok unit) : unit.program.Accepted := by
  unfold compileFile at hc
  cases hread : disk.read path with
  | error e =>
    rw [hread] at hc
    cases hc
    cases hu
  | ok source =>
    rw [hread] at hc
    exact compile_accepted hc hu

/-- Compiling never meets a defect, and a unit that is accepted can run. -/
theorem compile_runnable (path : Path) (source : String) (role : Role) (queue : Queue) : ∃ c,
    compile path source role queue = .ok c ∧ ∀ unit, c.result = .ok unit → unit.Runnable := by
  unfold compile
  cases hparse : parseSource source with
  | error e => exact ⟨_, rfl, by simp⟩
  | ok program =>
    obtain ⟨analysed, hanalyse, hrun⟩ := Parsed.analyse ⟨source, program, hparse⟩ role queue
    simp only [hanalyse]
    cases hfailed : analysed.failed with
    | true => exact ⟨_, rfl, by simp⟩
    | false =>
      refine ⟨_, rfl, fun unit hunit => ?_⟩
      obtain ⟨harena, hbody⟩ := hrun hfailed
      obtain rfl := Except.ok.inj hunit
      exact ⟨harena, hbody⟩

/-- So it is when the text is read from a file. -/
theorem compileFile_runnable (disk : Disk) (path : Path) (role : Role) : ∃ c,
    compileFile disk path role = .ok c ∧ ∀ unit, c.result = .ok unit → unit.Runnable := by
  unfold compileFile
  cases disk.read path with
  | error e => exact ⟨_, rfl, by simp⟩
  | ok source => exact compile_runnable path source role .empty

end DynScript
