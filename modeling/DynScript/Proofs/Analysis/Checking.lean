import DynScript.Proofs.Analysis.Places
import DynScript.Proofs.Tree.Inside

/-!
# Analysis as a checker

What the analysis of a program emits is what `Program.check` lists, although the analysis keeps a tree of
environments and changes the nodes while it walks through them. The nodes are out of the way once the unit is
settled: another analysis finds the same and ends with the nodes with which it began, so it has them all along.
-/

namespace DynScript

namespace Analysis

variable {a b : Arena} {p p' p'' : Place} {found found' : Found}

/-- The visit of a node finds what the checker lists for it, wherever it is made. -/
def Follows (a b : Arena) (visit : NodeId → Analysis Unit) (check : Place → NodeId → Found) (id : NodeId) : Prop :=
  ∀ p, Finds b p (visit id) () (p.past a id) (check p id)

/-- A node that declares nothing is visited without leaving the place. -/
theorem Follows.operand {visit : NodeId → Analysis Unit} {check : Place → NodeId → Found} {c : NodeId}
    (h : Follows a b visit check c) (hab : a.SameOutline b)
    (hc : ∃ kind, b.kind? c = some kind ∧ kind.isOperand) (p : Place) : Finds b p (visit c) () p (check p c) := by
  have hplace : p.past a c = p := by rw [← Place.past_of_sameOutline hab, Place.past_isOperand hc]
  have hvisit := h p
  rwa [hplace] at hvisit

namespace Finds

variable {visit : NodeId → Analysis Unit} {check : Place → NodeId → Found} {i : NodeId} {position : Option Position}
  (hg : ∀ c, Grows (visit c))
include hg

theorem visitAll {ids : List NodeId} (h : ∀ c ∈ ids, ∀ p, Finds b p (visit c) () p (check p c)) :
    Finds b p (visitAll visit ids) () p (ids.flatMap (check p)) := by
  induction ids with
  | nil => exact pure ()
  | cons c rest ih =>
    obtain ⟨hc, hrest⟩ := List.forall_mem_cons.1 h
    exact bind (hg c) (fun _ => .visitAll hg rest) (hc p) (ih hrest)

/-- Statements, each in the scope of those before it. -/
theorem visitStatements {ids : List NodeId} (h : ∀ c ∈ ids, Follows a b visit check c) :
    Finds b p (Analysis.visitAll visit ids) () (ids.foldl (Place.past a) p) (Checker.statements a check p ids) := by
  induction ids generalizing p with
  | nil => exact pure ()
  | cons c rest ih =>
    obtain ⟨hc, hrest⟩ := List.forall_mem_cons.1 h
    exact bind (hg c) (fun _ => .visitAll hg rest) (hc p) (ih hrest)

theorem visitMembers (hab : a.SameOutline b) {members : List NodeId}
    (h : ∀ c ∈ members, Follows a b visit check c) (seen : List String) :
    Finds b p (visitObject.visitMembers visit seen members) () (members.foldl (Place.past a) p)
      (Checker.members a check seen p members) := by
  induction members generalizing p seen with
  | nil => exact pure ()
  | cons member rest ih =>
    obtain ⟨hmember, hrest⟩ := List.forall_mem_cons.1 h
    refine node fun ⟨kind, position⟩ hn => ?_
    dsimp only
    split
    · rename_i name mode isFinal value
      rw [Checker.members, hab.symm.get?_of_not_joint hn rfl]
      dsimp only
      rw [List.append_assoc]
      exact afterIf _ _ _ (bind (hg member) (fun _ => .visitMembers hg _ rest) (hmember p) (ih hrest _))
    · intro s _ _ w s' hrun
      cases hrun

/-- An object, in the scope that has been opened for it. -/
theorem visitObject (hab : a.SameOutline b) {params : Option (List Param)} {composed : List Label}
    {members : List NodeId} (hn : b.get? i = some ⟨.object params composed members, position⟩)
    (h : ∀ c ∈ members, Follows a b visit check c) :
    ∃ p', Finds b p.opened (visitObject visit params composed members) () p'
      (Checker.object a check p (params.getD []) composed members) := by
  have hmutable : ∀ q ∈ params.getD [], q.ofClass.isMutable → b.Mutates q.name := by
    intro q hq hm
    refine ⟨_, Array.mem_of_getElem? hn, List.mem_map_of_mem ?_⟩
    exact List.mem_filter.2 ⟨hq, hm⟩
  have hparams := forParams (p := p.opened) Param.ofClass (fun q => .duplicateConstructorParameter q.name)
    (fun _ => rfl) (fun _ => rfl) hmutable fun _ => rfl
  have hsource (label : Label) (again : Bool) : Grows (do
      Analysis.reportIf (!(← Analysis.isBound label.name)) (.unknownComposition label.name) label.position
      Analysis.reportIf again (.duplicateComposition label.name) label.position) :=
    (Grows.isBound _).bind fun _ => (Grows.reportIf _ _ _).bind fun _ => .reportIf _ _ _
  have hcomposed (p : Place) : Finds b p (Analysis.forLabels id (fun label again => do
      Analysis.reportIf (!(← Analysis.isBound label.name)) (.unknownComposition label.name) label.position
      Analysis.reportIf again (.duplicateComposition label.name) label.position) composed) () p
      ((Checker.withRepeats id [] composed).flatMap fun r => Checker.source p r.1 r.2) :=
    forLabels hsource fun label _ again => isBound (afterIf _ _ _ (reportIf _ _ _))
  have hmembers (p : Place) := visitMembers (p := p) hg hab h []
  have hparam (q : Param) (again : Bool) : Grows (if again then
      Analysis.report (.duplicateConstructorParameter q.name) q.position else Analysis.declare q.ofClass) := by
    split
    · exact .report _ _
    · exact .declare _
  rw [Checker.object, List.append_assoc]
  refine ⟨_, bind (.forLabels hparam _) (fun _ => ?_) hparams
    (bind (.forLabels hsource _) (fun _ => .visitMembers hg _ _) (hcomposed _) (hmembers _))⟩
  exact (Grows.forLabels hsource _).bind fun _ => .visitMembers hg _ _

/-- The value of a binding, also when it is an object, which is not visited as a node. -/
theorem visitValue (hab : a.SameOutline b) {name : String} {value : NodeId} (check' : Place → NodeId → Found)
    (hvalue : ∀ p, Finds b p (visit value) () p (check p value))
    (hobject : ∀ params composed members position, b.get? value = some ⟨.object params composed members, position⟩ →
      (∀ c ∈ members, Follows a b visit check' c) ∧
        ∀ p, check p value = Checker.object a check' p (params.getD []) composed members) :
    Finds b p (visitValue visit name value) () p (check p value) := by
  refine node fun ⟨kind, position⟩ hn => ?_
  dsimp only
  split
  · rename_i params composed members
    obtain ⟨hmembers, hcheck⟩ := hobject _ _ _ _ hn
    obtain ⟨p', hvisit⟩ := visitObject (p := p) hg hab hn hmembers
    rw [hcheck]
    exact inEnvironment name (.visitObject hg params composed members) hvisit
  · exact hvalue p

/-- A binding, whose name is declared after the value unless it is recursive. -/
theorem visitBinding {name : String} {mode : BindingMode} {isFinal : Bool} {value : NodeId}
    (hn : b.get? i = some ⟨.binding name mode isFinal value, position⟩)
    (hvalue : ∀ p, Finds b p (Analysis.visitValue visit name value) () p (check p value)) :
    Finds b p (visitBinding visit name mode isFinal value position) ()
      (p.declare ⟨name, position, isFinal, mode = .mutable⟩)
      (Checker.binding check p name mode isFinal value position) := by
  have hdeclare (p : Place) : Finds b p (Analysis.declare ⟨name, position, isFinal, mode = .mutable⟩) ()
      (p.declare ⟨name, position, isFinal, mode = .mutable⟩)
      (Checker.declared p ⟨name, position, isFinal, mode = .mutable⟩) := by
    refine declare fun hmode => ?_
    obtain rfl := of_decide_eq_true hmode
    exact ⟨_, Array.mem_of_getElem? hn, List.mem_singleton_self name⟩
  have hmain (p : Place) : Finds b p (get >>= fun s => Analysis.reportIf (name = mainName && !isFinal &&
      (s.current = EnvTree.root && s.tree.scopeCount EnvTree.root = 1)) .mainNotFinal position) () p
      (foundIf (name = mainName && !isFinal && p.isTop) .mainNotFinal position) := by
    refine reading fun s _ hs => ?_
    rw [hs.isTop]
    exact reportIf _ _ _
  have hgrows : Grows (get >>= fun s : AnalysisState => Analysis.reportIf (name = mainName && !isFinal &&
      (s.current = EnvTree.root && s.tree.scopeCount EnvTree.root = 1)) .mainNotFinal position) :=
    .reading fun _ => .reportIf _ _ _
  dsimp only [Analysis.visitBinding, Checker.binding]
  split
  · rw [List.append_assoc]
    exact (hdeclare p).after (.declare _) (bind (.visitValue hg _ _) (fun _ => hgrows) (hvalue _) (hmain _))
  · rw [List.append_assoc]
    exact bind (.visitValue hg _ _) (fun _ => (Grows.declare _).bind fun _ => hgrows) (hvalue p)
      ((hdeclare p).after (.declare _) (hmain _))

theorem visitFunction (params : List Param) {body : NodeId}
    (hbody : ∀ p, Finds b p (visit body) () p (check p body)) :
    Finds b p (visitFunction visit params body) () p (Checker.function check p params body) := by
  have hmutable : ∀ q ∈ params, q.ofFunction.isMutable → b.Mutates q.name := fun _ _ => nofun
  have hparams := forParams (p := p.returning.opened) Param.ofFunction (fun q => .duplicateParameter q.name)
    (fun _ => rfl) (fun _ => rfl) hmutable fun _ => rfl
  have hparam (q : Param) (again : Bool) : Grows (if again then
      Analysis.report (.duplicateParameter q.name) q.position else Analysis.declare q.ofFunction) := by
    split
    · exact .report _ _
    · exact .declare _
  exact allowingReturn (inScope (bind (.forLabels hparam _) (fun _ => hg body) hparams (hbody _)))

theorem visitCall (hab : a.SameOutline b) {callee : NodeId} {args : List NodeId}
    (hargs : ∀ c ∈ callee :: (args ++ (a.pipedInto? i).toList), ∀ p, Finds b p (visit c) () p (check p c)) :
    Finds b p (visitCall visit callee (args ++ (a.pipedInto? i).toList) position) () p
      (Checker.call a check p i callee args position) := by
  have hrest : Finds b p (visit callee >>= fun _ => Analysis.visitAll visit (args ++ (a.pipedInto? i).toList)) () p
      ((callee :: (args ++ (a.pipedInto? i).toList)).flatMap (check p)) := visitAll hg hargs
  refine node fun ⟨kind, q⟩ hn => ?_
  obtain ⟨⟨kind', q'⟩, hn', ho⟩ := hab.symm.get? hn
  have hobject : ((a.kind? callee).map NodeKind.isObject).getD false = kind.isObject := by
    have hkind : kind'.isObject = kind.isObject := by
      rcases Node.alike_of_outline ho with heq | ⟨hj, hj'⟩
      · rw [(Node.mk.inj heq).1]
      · cases kind <;> cases hj <;> cases kind' <;> cases hj' <;> rfl
    rw [Arena.kind?, hn', ← hkind]
    rfl
  rw [Checker.call, hobject]
  dsimp only
  split
  · exact afterIf true _ _ hrest
  · rename_i hno
    cases kind with
    | object params composed members => exact (hno params composed members rfl).elim
    | _ => exact hrest

theorem visitRecord {fields : List Field}
    (hfields : ∀ field ∈ fields, ∀ p, Finds b p (visit field.value) () p (check p field.value)) :
    Finds b p (visitRecord visit fields) () p (Checker.record check p fields) :=
  forLabels (fun field _ => (Grows.reportIf _ _ _).bind fun _ => hg field.value)
    fun field hfield _ => afterIf _ _ _ (hfields field hfield p)

theorem visitLoop {start stop body : NodeId}
    (h : ∀ c ∈ [start, stop, body], ∀ p, Finds b p (visit c) () p (check p c)) :
    Finds b p (visitLoop visit start stop body) () p (Checker.loop check p start stop body) := by
  have hround : Finds b p (Analysis.inScope (Analysis.declare ⟨loopName, none, true, false⟩ >>= fun _ => visit body))
      () p (check (p.opened.declare ⟨loopName, none, true, false⟩) body) := by
    have hindex : (⟨loopName, none, true, false⟩ : Declaration).isMutable → b.Mutates loopName := nofun
    exact inScope ((declare hindex).after (.declare _) (h body (by simp) _))
  rw [Checker.loop, List.append_assoc]
  refine bind (hg start) (fun _ => (hg stop).bind fun _ => ?_) (h start (by simp) p)
    (bind (hg stop) (fun _ => ?_) (h stop (by simp) p) hround)
  all_goals exact .inScope ((Grows.declare _).bind fun _ => hg body)

theorem visitAssign (hab : a.SameOutline b) {target value : NodeId}
    (h : ∀ c ∈ [target, value], ∀ p, Finds b p (visit c) () p (check p c)) :
    Finds b p (visitAssign visit target value) () p (Checker.assign a check p target value) := by
  refine node fun ⟨kind, q⟩ hn =>
    bind (hg value) (fun _ => .assigning hg target ⟨kind, q⟩) (h value (by simp) p) ?_
  dsimp only
  split
  · rename_i name
    rw [hab.symm.get?_of_not_joint hn rfl]
    show Finds b p _ () p (Checker.assigned p name q)
    refine lookup? ?_
    unfold Checker.assigned
    cases p.inForce? name with
    | none => exact report _ _
    | some d => exact reportIf _ _ _
  · rename_i hno
    split
    · rename_i name q' hn'
      obtain rfl := (Node.mk.inj (Option.some.inj (hn.symm.trans (hab.get?_of_not_joint hn' rfl)))).1
      exact (hno name rfl).elim
    · exact h target (by simp) p

omit hg in
theorem visitReturn {value : Option NodeId}
    (h : ∀ c ∈ value.toList, ∀ p, Finds b p (visit c) () p (check p c)) :
    Finds b p (visitReturn visit value position) () p
      (foundIf (!p.inFunction) .returnOutsideFunction position ++ value.toList.flatMap (check p)) := by
  refine reading fun s _ hs => ?_
  rw [hs.inFunction]
  refine afterIf _ _ _ ?_
  cases value with
  | none => exact pure ()
  | some value =>
    rw [Option.toList_some, List.flatMap_singleton]
    exact h value (by simp) p

omit hg in
theorem visitExport (role : Role) (names : List Label) :
    Finds b p (visitExport role names position) () p
      (foundIf (role = .entry) .exportFromEntry position ++ exported p.isBound [] names) := by
  refine reporting fun s hs => ?_
  have hbound : bound s = p.isBound := funext fun name => congrArg Option.isSome (hs.lookup? name)
  rw [visitExport_eq, hbound]

/-- A pipe that leads into no call. -/
theorem visitPipe_nonCall (hab : a.SameOutline b) {lhs rhs : NodeId} (hcall : pipeCall? a rhs = none)
    (hlhs : ∀ p, Finds b p (visit lhs) () p (check p lhs)) :
    Finds b p (visitPipe visit i lhs rhs false) () p (Checker.pipe a check p lhs rhs) := by
  refine node fun n hn => reading fun s ha _ => ?_
  obtain ⟨n', hn', ho⟩ := hab.symm.get? hn
  have hposition : a.position? rhs = n.position := by
    rw [Arena.position?, hn']
    exact Node.position_outline ho
  rw [ha, hab.pipeCall?, hcall, Checker.pipe, hcall, hposition]
  exact bind (hg lhs) (fun _ => .report _ _) (hlhs p) (report _ _)

/-- A pipe that leads into a call is marked, since its visit marks it. -/
theorem visitPipe_call {lhs rhs call : NodeId} (hn : b.kind? i = some (.pipe lhs rhs false))
    (hcall : pipeCall? b rhs = some call) : Finds b p (visitPipe visit i lhs rhs false) () p found := by
  refine node fun n _ => reading fun s ha _ => ?_
  rw [ha, hcall]
  intro s ha _ w s' hrun ha'
  subst ha
  have hmarks : s.arena.Onward (markDesugared (appendArgument s.arena call lhs) i) :=
    (Arena.Onward.appendArgument _ _ _).trans (.markDesugared _ _)
  have hgrows := (hg rhs { s with arena := markDesugared (appendArgument s.arena call lhs) i } w s' hrun).1
  rw [ha'.arena] at hgrows
  -- What comes after the mark and before the nodes that were there is those nodes, but the mark is not there.
  have hsame : markDesugared (appendArgument s.arena call lhs) i = s.arena := hmarks.antisymm hgrows
  have hmarked := Arena.kind?_markDesugared (Arena.kind?_appendArgument call lhs hn)
  rw [hsame, hn] at hmarked
  cases hmarked

/-- A node that is neither a call nor a pipe. -/
theorem visitNode (hab : a.SameOutline b) {role : Role} {kind : NodeKind} (hn : a.get? i = some ⟨kind, position⟩)
    (hjoint : kind.isJoint = false) (hopening : kind.isOpening = false)
    (hchild : ∀ c ∈ kind.children, Follows a b visit check c)
    (hoperand : ∀ c ∈ kind.operands, ∀ p, Finds b p (visit c) () p (check p c))
    (hvalue : ∀ name, ∀ c ∈ kind.operands, ∀ p, Finds b p (Analysis.visitValue visit name c) () p (check p c)) :
    Finds b p (visitNode role visit i) () (p.past a i) (Checker.node a role check p i ⟨kind, position⟩) := by
  have hn' : b.get? i = some ⟨kind, position⟩ := hab.get?_of_not_joint hn hjoint
  refine node fun m hm => ?_
  obtain rfl := Option.some.inj (hn'.symm.trans hm)
  have hform {x : Analysis Unit} {found : Found} (hx : Finds b p x () p found) (hoperand : kind.isOperand) :
      Finds b p x () (p.past a i) found := by
    rwa [Place.past_isOperand ⟨kind, Arena.kind?_eq_some.2 ⟨_, hn⟩, hoperand⟩]
  have hall (hc : kind.operands = kind.children) :
      Finds b p (Analysis.visitAll visit kind.children) () p (kind.children.flatMap (check p)) :=
    visitAll hg (hc ▸ hoperand)
  have hone {c : NodeId} (hc : kind.operands = [c]) :
      Finds b p (visit c) () p ([c].flatMap (check p)) := by
    rw [List.flatMap_singleton]
    exact hoperand c (by simp [hc]) p
  cases kind with
  | block items => exact hform (inScope (visitStatements hg hchild)) rfl
  | binding name mode isFinal value =>
    have hpast : p.past a i = p.declare ⟨name, position, isFinal, mode = .mutable⟩ := by
      rw [Place.past, Arena.adds_binding hn, Place.declare]
    rw [hpast]
    exact visitBinding hg hn' (hvalue name value (by simp [NodeKind.operands, NodeKind.children]))
  | function params body =>
    exact hform (visitFunction hg params (hoperand body (by simp [NodeKind.operands, NodeKind.children]))) rfl
  | call callee args => cases hjoint
  | ident name => exact hform (isBound (reportIf _ _ _)) rfl
  | literal value => exact hform (pure ()) rfl
  | list items => exact hform (hall rfl) rfl
  | record fields =>
    exact hform (visitRecord hg fun field hfield => hoperand _ (List.mem_map_of_mem hfield)) rfl
  | index target i => exact hform (hall rfl) rfl
  | property target name => exact hform (hone rfl) rfl
  | len operand => exact hform (hone rfl) rfl
  | loop start stop body => exact hform (visitLoop hg hoperand) rfl
  | conditional condition thenBranch elseBranch => exact hform (hall rfl) rfl
  | assign target value => exact hform (visitAssign hg hab hoperand) rfl
  | logical op lhs rhs => exact hform (hall rfl) rfl
  | equality op lhs rhs => exact hform (hall rfl) rfl
  | comparison op lhs rhs => exact hform (hall rfl) rfl
  | arithmetic op lhs rhs => exact hform (hall rfl) rfl
  | negate operand => exact hform (hone rfl) rfl
  | prepend item rest => exact hform (hall rfl) rfl
  | pipe lhs rhs mark => cases hjoint
  | object params composed members =>
    obtain ⟨p', hobject⟩ := visitObject (p := p) hg hab hn' hchild
    exact hform (inScope hobject) rfl
  | clone operand => exact hform (hone rfl) rfl
  | envOpen target body => cases hopening
  | imports root path => exact hform (pure ()) rfl
  | exports names => exact hform (visitExport role names) rfl
  | print args => exact hform (hall rfl) rfl
  | returns value => exact hform (visitReturn hoperand) rfl

end Finds

section nodes

variable {roots : List Root} {role : Role} {i : NodeId}
  (ha : a.Laid roots) (hab : a.Desugars b) (hb : b.IsForest) (hopens : a.OpensNothing)
include ha hab hb

section visit

variable {visit : NodeId → Analysis Unit} {check : Place → NodeId → Found} {position : Option Position}
  (hg : ∀ c, Grows (visit c)) (hv : ∀ c, b.Clear c → Follows a b visit check c)
include hg hv

omit hg in
/-- The nodes below one are reached past marked pipes only, unless the node leads into a call itself. -/
theorem follows_operand {node : Node} (hn : b.get? i = some node) (hclear : b.Clear i)
    (hpipe : ∀ lhs rhs call, node.kind = .pipe lhs rhs false → pipeCall? b rhs ≠ some call) :
    ∀ c ∈ node.kind.operands, ∀ p, Finds b p (visit c) () p (check p c) := fun c hc =>
  (hv c (hclear.child hb hn hpipe (NodeKind.mem_children_of_operands hc))).operand hab.outline
    (hab.operands ha hn hc)

theorem follows_call {callee : NodeId} {args : List NodeId} (hn : a.get? i = some ⟨.call callee args, position⟩)
    (hclear : b.Clear i) (p : Place) :
    Finds b p (visitNode role visit i) () p (Checker.node a role check p i ⟨.call callee args, position⟩) := by
  obtain ⟨n, hn', ho⟩ := hab.outline.get? hn
  obtain ⟨q, hq⟩ := Arena.kind?_eq_some.1 (hclear.call ha hab hb (Arena.kind?_eq_some.2 ⟨_, hn⟩))
  obtain rfl := Option.some.inj (hn'.symm.trans hq)
  obtain rfl : q = position := Node.position_outline ho
  refine Finds.node fun m hm => ?_
  obtain rfl := Option.some.inj (hn'.symm.trans hm)
  exact Finds.visitCall hg hab.outline (follows_operand ha hab hb hv hn' hclear nofun)

theorem follows_pipe {lhs rhs : NodeId} {mark : Bool} (hn : a.get? i = some ⟨.pipe lhs rhs mark, position⟩)
    (hclear : b.Clear i) (p : Place) :
    Finds b p (visitNode role visit i) () p (Checker.node a role check p i ⟨.pipe lhs rhs mark, position⟩) := by
  obtain rfl := ha.pipe_fresh hn
  obtain ⟨n, hn', ho⟩ := hab.outline.get? hn
  obtain ⟨mark, rfl⟩ := Node.pipe_of_outline ho rfl
  have hk : a.kind? i = some (.pipe lhs rhs false) := Arena.kind?_eq_some.2 ⟨_, hn⟩
  have hk' : b.kind? i = some (.pipe lhs rhs mark) := Arena.kind?_eq_some.2 ⟨_, hn'⟩
  refine Finds.node fun m hm => ?_
  obtain rfl := Option.some.inj (hn'.symm.trans hm)
  cases mark with
  | true =>
    obtain ⟨call, hcall⟩ := hab.leads i lhs rhs ⟨hk, hk'⟩
    dsimp only [Checker.node, Checker.pipe]
    rw [hcall]
    exact follows_operand ha hab hb hv hn' hclear nofun rhs (by simp [NodeKind.operands, NodeKind.children]) p
  | false =>
    cases hcall : pipeCall? a rhs with
    | some call => exact Finds.visitPipe_call hg hk' ((hab.outline.pipeCall? rhs).trans hcall)
    | none =>
      have hno : ∀ lhs' rhs' call, (NodeKind.pipe lhs rhs false) = .pipe lhs' rhs' false →
          pipeCall? b rhs' ≠ some call := by
        rintro lhs' rhs' call heq hcall'
        obtain ⟨-, rfl, -⟩ := NodeKind.pipe.inj heq
        rw [hab.outline.pipeCall?, hcall] at hcall'
        cases hcall'
      exact Finds.visitPipe_nonCall hg hab.outline hcall
        (follows_operand ha hab hb hv hn' hclear hno lhs (by simp [NodeKind.operands, NodeKind.children]))

end visit

include hopens in
/-- The visit of a node finds what the checker lists for it and for the tree below it. A visit goes straight into an
object that is bound, so there are twice as many levels in the checker. -/
theorem follows_visitWithin {levels levels' : Nat} (hl : 2 * levels ≤ levels') (hclear : b.Clear i) :
    Follows a b (visitWithin role levels) (Checker.within a role levels') i := by
  induction levels generalizing levels' i with
  | zero =>
    intro p s _ _ w s' hrun
    cases hrun
  | succ levels ih =>
    obtain ⟨l, rfl⟩ : ∃ l, levels' = l + 2 := ⟨levels' - 2, by omega⟩
    intro p
    cases hn : a.get? i with
    | none =>
      refine Finds.node fun m hm => ?_
      obtain ⟨n, hn', -⟩ := hab.outline.symm.get? hm
      rw [hn] at hn'
      cases hn'
    | some node =>
      obtain ⟨kind, position⟩ := node
      have hg := Grows.visitWithin role levels
      have hv (c : NodeId) (hc : b.Clear c) : Follows a b (visitWithin role levels) (Checker.within a role (l + 1)) c :=
        ih (by omega) hc
      have hcheck : Checker.within a role (l + 2) p i =
          Checker.node a role (Checker.within a role (l + 1)) p i ⟨kind, position⟩ := by
        rw [Checker.within, hn]
        rfl
      rw [hcheck]
      have hpast (hoperand : kind.isOperand) : p.past a i = p :=
        Place.past_isOperand ⟨kind, Arena.kind?_eq_some.2 ⟨_, hn⟩, hoperand⟩ p
      cases hjoint : kind.isJoint with
      | true =>
        rw [hpast (by cases kind <;> first | rfl | cases hjoint)]
        cases kind with
        | call callee args => exact follows_call ha hab hb hg hv hn hclear p
        | pipe lhs rhs mark => exact follows_pipe ha hab hb hg hv hn hclear p
        | _ => cases hjoint
      | false =>
        have hn' : b.get? i = some ⟨kind, position⟩ := hab.outline.get?_of_not_joint hn hjoint
        have hpipe : ∀ lhs rhs call, kind = .pipe lhs rhs false → pipeCall? b rhs ≠ some call := by
          rintro lhs rhs call rfl
          cases hjoint
        have hbelow (c : NodeId) (hc : c ∈ kind.children) : b.Clear c := hclear.child hb hn' hpipe hc
        have hoperand := follows_operand ha hab hb hv hn' hclear hpipe
        refine Finds.visitNode hg hab.outline hn hjoint (hopens.kind? (Arena.kind?_eq_some.2 ⟨_, hn⟩))
          (fun c hc => hv c (hbelow c hc)) hoperand fun name c hc p => ?_
        refine Finds.visitValue hg hab.outline (Checker.within a role l) (hoperand c hc)
          fun params composed members q hobject => ⟨?_, fun p => ?_⟩
        · have hc' := hbelow c (NodeKind.mem_children_of_operands hc)
          exact fun m hm => ih (by omega) (hc'.child hb hobject nofun hm)
        · rw [Checker.within, hab.outline.symm.get?_of_not_joint hobject rfl]
          rfl

end nodes

end Analysis

open Analysis

/-- No pipe stands above a statement of a program. -/
theorem Arena.Laid.clear_statement {a b : Arena} {body i : NodeId} {items : List NodeId} {position : Option Position}
    (ha : a.Laid [⟨body, NodeKind.isBlock⟩]) (hab : a.Desugars b) (hb : b.IsForest)
    (hn : b.get? body = some ⟨.block items, position⟩) (hi : i ∈ items) : b.Clear i := by
  have hbody : b.Clear body := by
    intro p lhs rhs call hp _ hbelow
    obtain ⟨q, hq⟩ := Arena.kind?_eq_some.1 hp
    have hlt : p.index < a.size := hab.outline.size_eq ▸ Arena.lt_size_of_get? hq
    have hle : p.index ≤ body.index := ha.toIsForest.index_le (ha.below_root hlt)
    have hge : body.index ≤ p.index := hb.index_le hbelow
    obtain ⟨i⟩ := p
    obtain ⟨j⟩ := body
    exact congrArg NodeId.mk (Nat.le_antisymm hle hge)
  exact hbody.child hb hn nofun hi

/-- An analysis begins at the top of a unit. -/
theorem AnalysisState.At.initial (a : Arena) (queue : Queue) : (initialState a queue).At .top :=
  ⟨sees_initialState a queue, rfl, fun hroot => absurd rfl hroot, show initialTree.size ≤ UInt32.size by decide⟩

/-- Analysing a parsed program in which no record is opened emits what the checker lists, in that order, and counts
the errors of that. -/
theorem analyse_emits_what_is_checked (p : Numbered) (hopens : p.program.arena.OpensNothing) (role : Role)
    (queue : Queue) : ∃ analysed, analyse p.program role queue = .ok analysed ∧
      analysed.queue.toList = queue.toList ++ (p.program.check role).map (fun entry => entry.1.toDiagnostic entry.2) ∧
      analysed.errors = (p.program.check role).errors := by
  obtain ⟨settled, found, hforest, hdesugars, -, hpass⟩ := analyse_settles p.laid role
  refine ⟨_, (hpass queue).1, ?_⟩
  obtain ⟨items, position, hn⟩ := p.laid.exists_block
  have hn' : settled.get? p.program.body = some ⟨.block items, position⟩ :=
    hdesugars.outline.get?_of_not_joint hn rfl
  -- The second pass finds the same, and it leaves the nodes as they are.
  have hsecond := (hpass queue).2
  unfold DynScript.analyse at hsecond
  cases hrun : (visitProgram role p.program.body).run (initialState settled queue) with
  | error defect =>
    rw [hrun] at hsecond
    cases hsecond
  | ok result =>
    rw [hrun] at hsecond
    have hend := Except.ok.inj hsecond
    have harena : result.2.arena = settled := congrArg (fun analysed => analysed.program.arena) hend
    have hqueue : result.2.queue = queue.pushAll found := congrArg Analysed.queue hend
    have herrors : result.2.errors = found.errors := congrArg Analysed.errors hend
    have hroom : result.2.tree.size ≤ UInt32.size := p.fits (hpass queue).1 (.inr rfl) hrun
    rw [StateT.run, visitProgram_eq] at hrun
    have hfinds : Finds settled .top (Analysis.node p.program.body >>= fun n =>
        visitAll (visitWithin role (settled.size + 1)) (topItems p.program.body n)) ()
        (items.foldl (Place.past p.program.arena) .top) (p.program.check role) := by
      refine .node fun n hbody => ?_
      obtain rfl := Option.some.inj (hn'.symm.trans hbody)
      rw [Program.check, Arena.kind?, hn]
      refine .visitStatements (.visitWithin role _) fun i hi => ?_
      exact follows_visitWithin p.laid hdesugars hforest hopens (by rw [hdesugars.outline.size_eq]; omega)
        (p.laid.clear_statement hdesugars hforest hn' hi)
    obtain ⟨-, -, -, -, hq, he⟩ := hfinds (initialState settled queue) rfl (.initial settled queue)
      result.1 result.2 hrun ⟨harena, hroom⟩
    refine ⟨?_, herrors.symm.trans (he.trans (Nat.zero_add _))⟩
    show (queue.pushAll found).toList = _
    rw [← hqueue, hq, Queue.toList_pushAll]
    rfl

/-- A repeated parameter, a name that is declared nowhere, a return at the top and a pipe into a name. -/
theorem checked_program_emits : ∃ (p : Numbered) (analysed : Analysed),
    p.source = "let f = fun(a, a) { return g; }; 1 |> f(2); return 1 |> f;" ∧ p.program.arena.OpensNothing ∧
      analyse p.program .entry .empty = .ok analysed ∧ analysed.queue.toList =
        [(Finding.duplicateParameter "a").toDiagnostic (some ⟨⟨15, 16⟩, 1, 16⟩),
          (Finding.unknownIdentifier "g").toDiagnostic (some ⟨⟨27, 28⟩, 1, 28⟩),
          Finding.returnOutsideFunction.toDiagnostic (some ⟨⟨44, 50⟩, 1, 45⟩),
          Finding.pipeIntoNonCall.toDiagnostic (some ⟨⟨56, 57⟩, 1, 57⟩)] := by
  have hsource : (parseSource "let f = fun(a, a) { return g; }; 1 |> f(2); return 1 |> f;").toOption.any (fun program =>
      decide (program.arena.size ≤ UInt32.size ∧ program.arena.OpensNothing) && decide ((program.check .entry).map
        (fun entry => entry.1.toDiagnostic entry.2) =
          [(Finding.duplicateParameter "a").toDiagnostic (some ⟨⟨15, 16⟩, 1, 16⟩),
            (Finding.unknownIdentifier "g").toDiagnostic (some ⟨⟨27, 28⟩, 1, 28⟩),
            Finding.returnOutsideFunction.toDiagnostic (some ⟨⟨44, 50⟩, 1, 45⟩),
            Finding.pipeIntoNonCall.toDiagnostic (some ⟨⟨56, 57⟩, 1, 57⟩)])) := by decide +kernel
  obtain ⟨program, hreads, hdecided⟩ := exists_of_any hsource
  rw [Bool.and_eq_true, decide_eq_true_eq, decide_eq_true_eq] at hdecided
  obtain ⟨analysed, hanalyse, hemitted, -⟩ :=
    analyse_emits_what_is_checked ⟨⟨_, program, hreads⟩, hdecided.1.1⟩ hdecided.1.2 .entry .empty
  refine ⟨⟨⟨_, program, hreads⟩, hdecided.1.1⟩, analysed, rfl, hdecided.1.2, hanalyse, ?_⟩
  rw [hemitted, hdecided.2]
  rfl

end DynScript
