import DynScript.Proofs.Analysis.Declared
import DynScript.Proofs.Analysis.Walk
import DynScript.Proofs.Tree.Settling

/-!
# Steps go one way

A step of an analysis adds arguments to calls, marks pipes and makes environments, and takes nothing back.
`Analysis.Grows` says this of a step and `Analysis.Stays` that it leaves the nodes as they are and makes no environment.
-/

namespace DynScript

namespace Analysis

variable {α β : Type}

/-- A step leaves the nodes and makes no environment. -/
def Stays (x : Analysis α) : Prop :=
  ∀ s v s', x s = .ok (v, s') → s'.arena = s.arena ∧ s'.tree.size = s.tree.size

namespace Stays

/-- A step that has nothing to do with the nodes. -/
theorem idle {x : Analysis α} (hx : Idle x) : Stays x := by
  intro s v s' hrun
  obtain ⟨w, tree, current, inFunction, hsize, h⟩ := hx s
  obtain ⟨-, rfl⟩ := Prod.mk.inj (Except.ok.inj ((h s.arena s.queue).symm.trans hrun))
  exact ⟨rfl, hsize⟩

theorem report (f : Finding) (position : Option Position) : Stays (Analysis.report f position) := by
  intro s v s' hrun
  cases hrun
  exact ⟨rfl, rfl⟩

theorem reportIf (p : Bool) (f : Finding) (position : Option Position) :
    Stays (Analysis.reportIf p f position) := by
  cases p with
  | false => exact idle (.pure ())
  | true => exact report f position

theorem declare (d : Declaration) : Stays (declare d) := by
  intro s v s' hrun
  rw [declare_eq] at hrun
  split at hrun
  · rename_i tree hdefine
    cases hrun
    exact ⟨rfl, EnvTree.size_define hdefine⟩
  · exact report _ _ s v s' hrun

end Stays

/-- A step goes one way with the nodes and with the environments. -/
def Grows (x : Analysis α) : Prop :=
  ∀ s v s', x s = .ok (v, s') → s.arena.Onward s'.arena ∧ s.tree.size ≤ s'.tree.size

theorem Stays.grows {x : Analysis α} (hx : Stays x) : Grows x := by
  intro s v s' hrun
  obtain ⟨harena, hsize⟩ := hx s v s' hrun
  rw [harena]
  exact ⟨.refl _, hsize.ge⟩

namespace Grows

variable {x : Analysis α} {k : α → Analysis β}

theorem idle (hx : Idle x) : Grows x := (Stays.idle hx).grows

theorem bind (hx : Grows x) (hk : ∀ v, Grows (k v)) : Grows (x >>= k) := by
  intro s r s' hrun
  obtain ⟨⟨v, t⟩, hv, hrest⟩ := bind_ok hrun
  obtain ⟨hfirst, hsize⟩ := hx s v t hv
  obtain ⟨hsecond, hsize'⟩ := hk v t r s' hrest
  exact ⟨hfirst.trans hsecond, hsize.trans hsize'⟩

theorem reading {k : AnalysisState → Analysis α} (hk : ∀ s, Grows (k s)) : Grows (get >>= k) :=
  fun s v s' hrun => hk s s v s' hrun

theorem node {id : NodeId} {k : Node → Analysis α} (hk : ∀ n, Grows (k n)) : Grows (Analysis.node id >>= k) := by
  intro s v s' hrun
  obtain ⟨n, -, hrest⟩ := node_ok hrun
  exact hk n s v s' hrest

/-- A step that does not come to its end. -/
theorem throwing (d : Defect) : Grows (throw d : Analysis α) := by
  intro s v s' hrun
  cases hrun

/-- A change of the state. -/
theorem changing {f : AnalysisState → AnalysisState}
    (hf : ∀ s : AnalysisState, s.arena.Onward (f s).arena ∧ s.tree.size ≤ (f s).tree.size) :
    Grows (modify f : Analysis Unit) := by
  intro s v s' hrun
  cases hrun
  exact hf s

theorem modifyScopes (f : EnvTree → EnvId → List Scope → List Scope) :
    Grows (Analysis.modifyTree fun tree current => tree.modifyScopes current (f tree current)) :=
  idle (.modifyScopes f)

theorem report (f : Finding) (position : Option Position) : Grows (Analysis.report f position) :=
  (Stays.report f position).grows

theorem reportIf (p : Bool) (f : Finding) (position : Option Position) :
    Grows (Analysis.reportIf p f position) :=
  (Stays.reportIf p f position).grows

theorem isBound (name : String) : Grows (Analysis.isBound name) := idle (.isBound name)

theorem declare (d : Declaration) : Grows (declare d) := (Stays.declare d).grows

theorem inScope {x : Analysis Unit} (hx : Grows x) : Grows (inScope x) :=
  (modifyScopes _).bind fun _ => hx.bind fun _ => modifyScopes _

theorem inEnvironment {x : Analysis Unit} (name : String) (hx : Grows x) : Grows (inEnvironment name x) := by
  intro s v s' hrun
  obtain ⟨t, ht, rfl⟩ := inEnvironment_ok hrun
  obtain ⟨honward, hsize⟩ := hx _ _ t ht
  rw [s.size_entered name] at hsize
  exact ⟨honward, (Nat.le_succ _).trans hsize⟩

theorem allowingReturn {x : Analysis Unit} (allowed : Bool) (hx : Grows x) : Grows (allowingReturn allowed x) := by
  intro s v s' hrun
  obtain ⟨t, ht, rfl⟩ := allowingReturn_ok hrun
  exact hx { s with inFunction := allowed } () t ht

theorem forLabelsGo {ι : Type} {label : ι → Label} {visit : ι → Bool → Analysis Unit}
    (h : ∀ item again, Grows (visit item again)) (seen : List String) (items : List ι) :
    Grows (Analysis.forLabels.go label visit seen items) := by
  induction items generalizing seen with
  | nil => exact idle (.pure ())
  | cons item rest ih => exact (h _ _).bind fun _ => ih _

theorem forLabels {ι : Type} {label : ι → Label} {visit : ι → Bool → Analysis Unit}
    (h : ∀ item again, Grows (visit item again)) (items : List ι) :
    Grows (Analysis.forLabels label visit items) :=
  forLabelsGo h [] items

variable {visit : NodeId → Analysis Unit} (hv : ∀ c, Grows (visit c))
include hv

theorem visitAll (ids : List NodeId) : Grows (visitAll visit ids) := by
  induction ids with
  | nil => exact idle (.pure ())
  | cons id rest ih => exact (hv id).bind fun _ => ih

theorem visitMembers (seen : List String) (members : List NodeId) :
    Grows (visitObject.visitMembers visit seen members) := by
  induction members generalizing seen with
  | nil => exact idle (.pure ())
  | cons member rest ih =>
    refine node fun n => ?_
    split
    · exact (reportIf _ _ _).bind fun _ => (hv _).bind fun _ => ih _
    · exact throwing _

theorem visitObject (params : Option (List Param)) (composed : List Label) (members : List NodeId) :
    Grows (visitObject visit params composed members) := by
  refine (forLabels (fun param again => ?_) _).bind fun _ => (forLabels (fun source again => ?_) _).bind fun _ =>
    visitMembers hv _ _
  · split
    · exact report _ _
    · exact declare _
  · exact (isBound _).bind fun _ => (reportIf _ _ _).bind fun _ => reportIf _ _ _

theorem visitValue (name : String) (value : NodeId) : Grows (visitValue visit name value) := by
  refine node fun n => ?_
  split
  · exact inEnvironment _ (visitObject hv _ _ _)
  · exact hv value

theorem visitBinding (name : String) (mode : BindingMode) (isFinal : Bool) (value : NodeId)
    (position : Option Position) : Grows (visitBinding visit name mode isFinal value position) := by
  have hmain (main : AnalysisState → Bool) :
      Grows (get >>= fun s => Analysis.reportIf (main s) .mainNotFinal position) := reading fun _ => reportIf _ _ _
  dsimp only [Analysis.visitBinding]
  split
  · exact (declare _).bind fun _ => (visitValue hv _ _).bind fun _ => hmain _
  · exact (visitValue hv _ _).bind fun _ => (declare _).bind fun _ => hmain _

theorem visitFunction (params : List Param) (body : NodeId) : Grows (visitFunction visit params body) := by
  refine allowingReturn true (inScope ((forLabels (fun param again => ?_) _).bind fun _ => hv body))
  split
  · exact report _ _
  · exact declare _

theorem visitCall (callee : NodeId) (args : List NodeId) (position : Option Position) :
    Grows (visitCall visit callee args position) := by
  refine node fun n => ?_
  split
  · exact (report _ _).bind fun _ => (hv _).bind fun _ => visitAll hv _
  · exact (hv _).bind fun _ => visitAll hv _

theorem visitRecord (fields : List Field) : Grows (visitRecord visit fields) := by
  refine forLabels (fun field again => ?_) fields
  exact (reportIf _ _ _).bind fun _ => hv field.value

theorem visitLoop (start stop body : NodeId) : Grows (visitLoop visit start stop body) :=
  (hv start).bind fun _ => (hv stop).bind fun _ => inScope ((declare _).bind fun _ => hv body)

/-- What is done about the target of an assignment. -/
theorem assigning (target : NodeId) (n : Node) : Grows (match n.kind with
    | .ident name => Analysis.lookup? name >>= fun d => match d with
      | none => Analysis.report (.unknownAssignment name) n.position
      | some d => Analysis.reportIf (!d.isMutable) (.immutableAssignment name) n.position
    | _ => visit target) := by
  split
  · refine (idle (.lookup? _)).bind fun d => ?_
    split
    · exact report _ _
    · exact reportIf _ _ _
  · exact hv target

theorem visitAssign (target value : NodeId) : Grows (visitAssign visit target value) :=
  node fun n => (hv value).bind fun _ => assigning hv target n

theorem visitPipe (id lhs rhs : NodeId) (mark : Bool) : Grows (visitPipe visit id lhs rhs mark) := by
  unfold Analysis.visitPipe
  split
  · exact hv rhs
  · refine node fun n => reading fun s => ?_
    split
    · exact (hv lhs).bind fun _ => report _ _
    · refine (changing fun s => ?_).bind fun _ => hv rhs
      exact ⟨(Arena.Onward.appendArgument _ _ _).trans (.markDesugared _ _), le_rfl⟩

theorem visitEnvOpen (target body : NodeId) : Grows (visitEnvOpen visit target body) := by
  have hclose (saved : Nat) : Grows (visit body >>= fun _ =>
      Analysis.modifyTree fun tree current => tree.truncateScopes current saved) :=
    (hv body).bind fun _ => modifyScopes _
  refine allowingReturn false <| reading fun _ => (modifyScopes _).bind fun _ => (hv target).bind fun _ =>
    node fun n => ?_
  split
  · exact (idle (.bringing _)).bind fun _ => hclose _
  · exact (idle (.pure ())).bind fun _ => hclose _

omit hv in
theorem visitExport (role : Role) (names : List Label) (position : Option Position) :
    Grows (visitExport role names position) :=
  (reportIf _ _ _).bind fun _ => forLabels (fun _ _ =>
    (isBound _).bind fun _ => (reportIf _ _ _).bind fun _ => reportIf _ _ _) names

theorem visitReturn (value : Option NodeId) (position : Option Position) :
    Grows (visitReturn visit value position) := by
  refine reading fun s => (reportIf _ _ _).bind fun _ => ?_
  split
  · exact hv _
  · exact idle (.pure ())

theorem visitNode (role : Role) (id : NodeId) : Grows (visitNode role visit id) := by
  refine node fun ⟨kind, position⟩ => ?_
  cases kind with
  | block items => exact inScope (visitAll hv items)
  | binding name mode isFinal value => exact visitBinding hv name mode isFinal value position
  | function params body => exact visitFunction hv params body
  | call callee args => exact visitCall hv callee args position
  | ident name => exact (isBound name).bind fun _ => reportIf _ _ _
  | literal _ | imports _ _ => exact idle (.pure ())
  | record fields => exact visitRecord hv fields
  | property target _ | len target | negate target | clone target => exact hv target
  | loop start stop body => exact visitLoop hv start stop body
  | assign target value => exact visitAssign hv target value
  | pipe lhs rhs mark => exact visitPipe hv id lhs rhs mark
  | object params composed members => exact inScope (visitObject hv params composed members)
  | envOpen target body => exact visitEnvOpen hv target body
  | exports names => exact visitExport role names position
  | returns value => exact visitReturn hv value position
  | _ => exact visitAll hv _

omit hv in
theorem visitWithin (role : Role) (levels : Nat) (id : NodeId) : Grows (visitWithin role levels id) := by
  induction levels generalizing id with
  | zero => exact throwing _
  | succ levels ih => exact visitNode ih role id

end Grows

end Analysis

end DynScript
