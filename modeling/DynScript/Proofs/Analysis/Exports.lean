import DynScript.Proofs.Analysis.Lexical

/-!
# What analysis says of exports

The visit of an export statement reports every name that is declared nowhere and every name that the statement has
listed before. It looks names up where the statement stands, and it knows nothing of other export statements.
-/

namespace DynScript

namespace AnalysisState

/-- The state after some findings. -/
def reporting (s : AnalysisState) (found : Found) : AnalysisState :=
  { s with queue := s.queue.pushAll found, errors := s.errors + found.errors }

theorem reporting_append (s : AnalysisState) (found more : Found) :
    s.reporting (found ++ more) = (s.reporting found).reporting more := by
  simp only [reporting, Queue.pushAll_append, Found.errors_append, Nat.add_assoc]

end AnalysisState

namespace Analysis

variable {role : Role} {labels : List Label} {position : Option Position} {s s' : AnalysisState}

/-- A finding if it is one. -/
def foundIf (p : Bool) (f : Finding) (position : Option Position) : Found := if p then [(f, position)] else []

theorem reportIf_eq (p : Bool) (f : Finding) (position : Option Position) (s : AnalysisState) :
    reportIf p f position s = .ok ((), s.reporting (foundIf p f position)) := by
  cases p with
  | false => rfl
  | true => cases f <;> rfl

/-- What is found in labels that are exported, when the names `seen` stand before them. -/
def exported (bound : String → Bool) (seen : List String) : List Label → Found
  | [] => []
  | label :: rest =>
    foundIf (!bound label.name) (.unknownExport label.name) label.position ++
      foundIf (seen.contains label.name) (.duplicateExport label.name) label.position ++
        exported bound (label.name :: seen) rest

/-- A name that is declared nowhere is found. -/
theorem mem_exported_of_unbound {bound : String → Bool} {label : Label} (h : label ∈ labels)
    (hb : bound label.name = false) (seen : List String) :
    (.unknownExport label.name, label.position) ∈ exported bound seen labels := by
  induction labels generalizing seen with
  | nil => cases h
  | cons first rest ih =>
    rw [exported, List.mem_append, List.mem_append]
    rcases List.mem_cons.1 h with rfl | h
    · left; left
      simp [foundIf, hb]
    · exact .inr (ih h _)

/-- So is a name that stands there again. -/
theorem mem_exported_of_again {bound : String → Bool} {before after : List Label} {label : Label}
    {seen : List String} (h : label.name ∈ seen ∨ label.name ∈ before.map Label.name) :
    (.duplicateExport label.name, label.position) ∈ exported bound seen (before ++ label :: after) := by
  induction before generalizing seen with
  | nil =>
    have hseen : label.name ∈ seen := by simpa using h
    rw [List.nil_append, exported, List.mem_append, List.mem_append]
    left; right
    simp [foundIf, hseen]
  | cons first rest ih =>
    rw [List.cons_append, exported, List.mem_append]
    right
    apply ih
    rw [List.map_cons, List.mem_cons] at h
    rw [List.mem_cons]
    tauto

/-- Whether names are declared where an analysis stands. -/
def bound (s : AnalysisState) (name : String) : Bool := s.tree.isBound s.current name

/-- The visit of an export statement, which is allowed in a module only. -/
theorem visitExport_eq (role : Role) (labels : List Label) (position : Option Position) (s : AnalysisState) :
    visitExport role labels position s = .ok ((), s.reporting (foundIf (role = .entry) .exportFromEntry position ++
      exported (bound s) [] labels)) := by
  have hgo (seen : List String) (t : AnalysisState) (ht : bound t = bound s) : forLabels.go id (fun label again => do
        reportIf (!(← isBound label.name)) (.unknownExport label.name) label.position
        reportIf again (.duplicateExport label.name) label.position) seen labels t =
      .ok ((), t.reporting (exported (bound s) seen labels)) := by
    -- Reports leave the scopes alone, so every label is looked up where the statement began.
    induction labels generalizing seen t with
    | nil => rfl
    | cons label rest ih =>
      have hbound : isBound label.name t = .ok (bound t label.name, t) := rfl
      rw [forLabels.go, exported, AnalysisState.reporting_append, AnalysisState.reporting_append, ← ht]
      rw [bind_eq ((bind_eq hbound).trans ((bind_eq (reportIf_eq ..)).trans (reportIf_eq ..)))]
      rw [ht]
      exact ih _ _ ht
  unfold visitExport
  rw [bind_eq (reportIf_eq ..), AnalysisState.reporting_append]
  exact hgo [] _ rfl

/-- What an export statement has been visited with is among what has been found. -/
theorem exported_of_visited {a : Arena} {found : Found} {o : Outlook} {id : NodeId}
    (h : Visited a role found o id) (hn : a.get? id = some ⟨.exports labels, position⟩) :
    ∃ s : AnalysisState, s.Sees o ∧ ∀ entry ∈ exported (bound s) [] labels,
      ∃ other ∈ found, other.1.toDiagnostic other.2 = entry.1.toDiagnostic entry.2 := by
  obtain ⟨levels, s, s', own, rfl, hs, -, hrun, hq, -, hsub⟩ := h
  refine ⟨s, hs, fun entry hentry => ?_⟩
  rw [visitNode, Replays.node_bind hn] at hrun
  obtain ⟨-, rfl⟩ := Prod.mk.inj (Except.ok.inj ((visitExport_eq role labels position s).symm.trans hrun))
  have hsame := Queue.map_toDiagnostic_congr (q := s.queue) hq
  have hmem : entry.1.toDiagnostic entry.2 ∈ own.map fun entry => entry.1.toDiagnostic entry.2 := by
    rw [← hsame]
    exact List.mem_map_of_mem (List.mem_append_right _ hentry)
  obtain ⟨other, hother, heq⟩ := List.mem_map.1 hmem
  exact ⟨other, hsub.subset hother, heq⟩

end Analysis

open Analysis

/-- Names are exported that differ when every name is one that is not exported before. -/
theorem nodup_of_forall_append {labels : List Label}
    (h : ∀ before label after, labels = before ++ label :: after → label.name ∉ before.map Label.name) :
    (labels.map Label.name).Nodup := by
  induction labels using List.reverseRecOn with
  | nil => exact List.nodup_nil
  | append_singleton before label ih =>
    rw [List.map_append, List.map_singleton, List.nodup_append]
    refine ⟨ih fun before' label' after hbefore => h before' label' (after ++ [label]) ?_, List.nodup_singleton _, ?_⟩
    · rw [hbefore, List.append_assoc, List.cons_append]
    · rintro name hname other hother rfl
      obtain rfl := List.mem_singleton.1 hother
      exact h before label [] rfl hname

/-- Unless a pipe leads into something that is not a call, every export statement stands somewhere, and what its visit
finds there is reported. A unit that is accepted has no error reported. -/
theorem Numbered.exports_visited (p : Numbered) {role : Role} {queue : Queue} {analysed : Analysed}
    (h : DynScript.analyse p.program role queue = .ok analysed) :
    ∃ emitted, analysed.queue.toList = queue.toList ++ emitted ∧
      (analysed.failed = false → ∀ d ∈ emitted, d.severity ≠ .error ∧ d.code ≠ .pipeIntoNonCall) ∧
      ((∀ d ∈ emitted, d.code ≠ .pipeIntoNonCall) → ∀ id labels,
        analysed.program.arena.kind? id = some (.exports labels) →
          (∃ o, analysed.program.StandsIn topOutlook o id) ∧
          ∀ o, analysed.program.StandsIn topOutlook o id → ∃ s : AnalysisState, s.Sees o ∧
            ∀ entry ∈ exported (bound s) [] labels, entry.1.toDiagnostic entry.2 ∈ emitted) := by
  obtain ⟨found, hq, he, hsurveyed⟩ := p.surveyed h
  refine ⟨found.map fun entry => entry.1.toDiagnostic entry.2, ?_, fun hfailed d hd => ?_, ?_⟩
  · rw [hq, Queue.toList_pushAll]
  · obtain ⟨⟨finding, position⟩, hentry, rfl⟩ := List.mem_map.1 hd
    have hmild : finding.severity ≠ .error := by
      intro hsevere
      have hpos : 0 < found.errors := List.countP_pos_iff.2 ⟨_, hentry, decide_eq_true hsevere⟩
      have hzero : analysed.errors = 0 := by simpa [Analysed.failed] using hfailed
      omega
    refine ⟨hmild, fun hcode => hmild ?_⟩
    cases finding <;> first | rfl | cases hcode
  · intro hpipe id labels hk
    obtain ⟨position, hn⟩ := Arena.kind?_eq_some.1 hk
    have hlacks : ¬ found.Has .pipeIntoNonCall := by
      rintro ⟨entry, hentry, hcode⟩
      exact hpipe _ (List.mem_map_of_mem hentry) hcode
    have hprogram := hsurveyed hlacks
    refine ⟨hprogram.stands hn ?_ (by simp), fun o hstands => ?_⟩
    · rintro rfl
      obtain ⟨items, hblock⟩ := hprogram.block
      cases hk.symm.trans hblock
    · obtain ⟨s, hs, hall⟩ := exported_of_visited (hprogram.visited hstands hn rfl) hn
      refine ⟨s, hs, fun entry hentry => ?_⟩
      obtain ⟨other, hother, hsame⟩ := hall entry hentry
      exact hsame ▸ List.mem_map_of_mem hother

/-- Unless a pipe leads into something that is not a call, every name that an export statement lists again is
reported, wherever the statement stands. So no export statement of a unit that is accepted lists a name twice. -/
theorem repeated_exports_are_reported (p : Numbered) {role : Role} {queue : Queue} {analysed : Analysed}
    (h : DynScript.analyse p.program role queue = .ok analysed) :
    ∃ emitted, analysed.queue.toList = queue.toList ++ emitted ∧
      ((∀ d ∈ emitted, d.code ≠ .pipeIntoNonCall) → ∀ id before label after,
        analysed.program.arena.kind? id = some (.exports (before ++ label :: after)) →
          label.name ∈ before.map Label.name →
            (Finding.duplicateExport label.name).toDiagnostic label.position ∈ emitted) ∧
      (analysed.failed = false → ∀ id labels, analysed.program.arena.kind? id = some (.exports labels) →
        (labels.map Label.name).Nodup) := by
  obtain ⟨emitted, hq, haccepted, hvisited⟩ := p.exports_visited h
  have hreported (hpipe : ∀ d ∈ emitted, d.code ≠ .pipeIntoNonCall) (id : NodeId) (before : List Label)
      (label : Label) (after : List Label)
      (hk : analysed.program.arena.kind? id = some (.exports (before ++ label :: after)))
      (hagain : label.name ∈ before.map Label.name) :
      (Finding.duplicateExport label.name).toDiagnostic label.position ∈ emitted := by
    obtain ⟨⟨o, hstands⟩, hall⟩ := hvisited hpipe id _ hk
    obtain ⟨s, -, hfound⟩ := hall o hstands
    exact hfound _ (mem_exported_of_again (.inr hagain))
  refine ⟨emitted, hq, hreported, fun hfailed id labels hk => ?_⟩
  have hpipe : ∀ d ∈ emitted, d.code ≠ .pipeIntoNonCall := fun d hd => (haccepted hfailed d hd).2
  apply nodup_of_forall_append
  rintro before label after rfl hagain
  exact (haccepted hfailed _ (hreported hpipe id before label after hk hagain)).1 rfl

/-- A name that a statement exports twice. -/
theorem repeated_export_is_reported : ∃ (p : Numbered) (analysed : Analysed),
    p.source = "let a = nil; export a, a;" ∧ DynScript.analyse p.program .module .empty = .ok analysed ∧
      (Finding.duplicateExport "a").toDiagnostic (some ⟨⟨23, 24⟩, 1, 24⟩) ∈ analysed.queue.toList := by
  have hread : (parseSource "let a = nil; export a, a;").toOption.any (fun program =>
      decide (program.arena.size ≤ UInt32.size) && (DynScript.analyse program .module .empty).toOption.any fun analysed =>
        decide (∀ d ∈ analysed.queue.toList, d.code ≠ .pipeIntoNonCall) &&
          decide (analysed.program.arena.kind? ⟨2⟩ =
            some (.exports ([⟨"a", some ⟨⟨20, 21⟩, 1, 21⟩⟩] ++ ⟨"a", some ⟨⟨23, 24⟩, 1, 24⟩⟩ :: [])))) := by decide +kernel
  obtain ⟨program, hreads, hboth⟩ := exists_of_any hread
  obtain ⟨hnumbers, hanalyses⟩ := Bool.and_eq_true_iff.1 hboth
  obtain ⟨analysed, hanalyse, hdecided⟩ := exists_of_any hanalyses
  rw [Bool.and_eq_true, decide_eq_true_eq, decide_eq_true_eq] at hdecided
  obtain ⟨emitted, hq, hreported, -⟩ := repeated_exports_are_reported ⟨⟨_, program, hreads⟩, of_decide_eq_true hnumbers⟩ hanalyse
  refine ⟨⟨⟨_, program, hreads⟩, of_decide_eq_true hnumbers⟩, analysed, rfl, hanalyse, ?_⟩
  rw [hq] at hdecided ⊢
  exact hreported hdecided.1 _ _ _ _ hdecided.2 (by decide)

/-- A name is declared where a statement of a program stands: in the scopes around it, as far as these are known. At
the top level it is the name of the host or that of a binding that stands before. -/
structure Program.Resolves (program : Program) (id : NodeId) (name : String) : Prop where
  /-- The statement stands somewhere. -/
  stands : ∃ o, program.StandsIn topOutlook o id
  /-- The name is declared there. -/
  declared : ∀ scopes, program.StandsIn topOutlook (some scopes) id → (Scope.inForce? scopes name).isSome
  /-- At the top level a statement before declares it. -/
  atTop : ∀ before after, program.arena.kind? program.body = some (.block (before ++ id :: after)) →
    name = hostName ∨ ∃ b ∈ before, ∃ mode isFinal value,
      program.arena.kind? b = some (.binding name mode isFinal value)

/-- At the top level only the host and earlier bindings are declared. -/
theorem Program.resolves_of_declared {program : Program} {id : NodeId} {name : String}
    (hs : ∃ o, program.StandsIn topOutlook o id)
    (hd : ∀ scopes, program.StandsIn topOutlook (some scopes) id → (Scope.inForce? scopes name).isSome) :
    program.Resolves id name := by
  refine ⟨hs, hd, fun before after hbody => ?_⟩
  have htop : program.StandsIn topOutlook (before.foldl program.arena.past topOutlook) id :=
    ⟨_, id, _, hbody, Arena.inRow_append before after, .here⟩
  have hsome (o : Outlook) (ids : List NodeId) (ho : o.isSome) : (ids.foldl program.arena.past o).isSome := by
    induction ids generalizing o with
    | nil => exact ho
    | cons i rest ih =>
      apply ih
      unfold Arena.past
      split
      · simpa [Outlook.declare] using ho
      · exact ho
  obtain ⟨scopes, hscopes⟩ := Option.isSome_iff_exists.1 (hsome topOutlook before rfl)
  rcases Arena.inForce?_foldl_past hscopes (hd scopes (hscopes ▸ htop)) with ⟨outer, houter, hhost⟩ | hbinding
  · left
    obtain rfl := Option.some.inj houter
    by_contra hne
    have hother : hostName ≠ name := Ne.symm hne
    simp [Scope.inForce?, Scope.find?, hother] at hhost
  · exact .inr hbinding

/-- Unless a pipe leads into something that is not a call, every name that an export statement lists is declared where
the statement stands, or it is reported. So every name that a unit exports that is accepted is declared there. -/
theorem exports_resolve_where_they_stand (p : Numbered) {role : Role} {queue : Queue} {analysed : Analysed}
    (h : DynScript.analyse p.program role queue = .ok analysed) :
    ∃ emitted, analysed.queue.toList = queue.toList ++ emitted ∧
      ((∀ d ∈ emitted, d.code ≠ .pipeIntoNonCall) → ∀ id labels,
        analysed.program.arena.kind? id = some (.exports labels) → ∀ label ∈ labels,
          analysed.program.Resolves id label.name ∨
            (Finding.unknownExport label.name).toDiagnostic label.position ∈ emitted) ∧
      (analysed.failed = false → ∀ id labels, analysed.program.arena.kind? id = some (.exports labels) →
        ∀ label ∈ labels, analysed.program.Resolves id label.name) := by
  obtain ⟨emitted, hq, haccepted, hvisited⟩ := p.exports_visited h
  have hreported (hpipe : ∀ d ∈ emitted, d.code ≠ .pipeIntoNonCall) (id : NodeId) (labels : List Label)
      (hk : analysed.program.arena.kind? id = some (.exports labels)) (label : Label) (hlabel : label ∈ labels) :
      analysed.program.Resolves id label.name ∨
        (Finding.unknownExport label.name).toDiagnostic label.position ∈ emitted := by
    obtain ⟨hstands, hall⟩ := hvisited hpipe id labels hk
    by_cases hd : ∀ scopes, analysed.program.StandsIn topOutlook (some scopes) id →
        (Scope.inForce? scopes label.name).isSome
    · exact .inl (Program.resolves_of_declared hstands hd)
    · right
      obtain ⟨scopes, hscopes⟩ := not_forall.1 hd
      obtain ⟨hscopes, hnone⟩ := Classical.not_imp.1 hscopes
      obtain ⟨s, hs, hfound⟩ := hall _ hscopes
      apply hfound (.unknownExport label.name, label.position)
      apply mem_exported_of_unbound hlabel
      rw [bound, EnvTree.isBound, hs.lookup?]
      simpa using hnone
  refine ⟨emitted, hq, hreported, fun hfailed id labels hk label hlabel => ?_⟩
  have hpipe : ∀ d ∈ emitted, d.code ≠ .pipeIntoNonCall := fun d hd => (haccepted hfailed d hd).2
  refine (hreported hpipe id labels hk label hlabel).resolve_right fun hmem => ?_
  exact (haccepted hfailed _ hmem).1 rfl

/-- The parameter of a function, which its body exports. -/
theorem export_of_parameter_resolves : ∃ (p : Numbered) (analysed : Analysed),
    p.source = "let f = fun(a) { export a };" ∧ DynScript.analyse p.program .module .empty = .ok analysed ∧
      analysed.failed = false ∧ analysed.program.Resolves ⟨0⟩ "a" := by
  have hread : (parseSource "let f = fun(a) { export a };").toOption.any (fun program =>
      decide (program.arena.size ≤ UInt32.size) && (DynScript.analyse program .module .empty).toOption.any fun analysed =>
        decide (analysed.failed = false) && decide (analysed.program.arena.kind? ⟨0⟩ =
          some (.exports [⟨"a", some ⟨⟨24, 25⟩, 1, 25⟩⟩]))) := by decide +kernel
  obtain ⟨program, hreads, hboth⟩ := exists_of_any hread
  obtain ⟨hnumbers, hanalyses⟩ := Bool.and_eq_true_iff.1 hboth
  obtain ⟨analysed, hanalyse, hdecided⟩ := exists_of_any hanalyses
  rw [Bool.and_eq_true, decide_eq_true_eq, decide_eq_true_eq] at hdecided
  obtain ⟨emitted, -, -, hresolves⟩ := exports_resolve_where_they_stand ⟨⟨_, program, hreads⟩, of_decide_eq_true hnumbers⟩ hanalyse
  exact ⟨⟨⟨_, program, hreads⟩, of_decide_eq_true hnumbers⟩, analysed, rfl, hanalyse, hdecided.1,
    hresolves hdecided.1 _ _ hdecided.2 _ (List.mem_singleton_self _)⟩

end DynScript
