import DynScript.Proofs.Grammar.Layout

/-!
# Productions and programs

Every production of the grammar makes one tree of nodes, so the nodes of a program are laid out as
`Arena.Laid` says, with the block of the program as the only root.
-/

namespace DynScript

namespace Grammar

open DynScript.Parser (Builds)

variable {g : Grammar}

/-! ## Productions -/

/-- Every production puts one root. -/
def Sound (g : Grammar) : Prop := ∀ nonterminal, Builds [] (g.read nonterminal) fun id => [nonterminal.root id]

section productions

variable (hg : g.Sound)
include hg

theorem builds_statementsUntilBrace : Builds [] g.statementsUntilBrace fun ids => ids.map .any := by
  refine builds_repeating (q := fun items : Array NodeId => items.toList.map .any) (fun items => ?_) #[]
  refine .quietly (.eat _) fun closed => ?_
  split
  · exact .pure rfl
  refine .quietly (.eat _) fun empty => ?_
  split
  · exact .pure rfl
  refine .quietly .cursor fun cursor => ?_
  split
  · exact .failExpecting _ _
  · exact .after (hg _) fun id => .pure (by simp [Progress.roots])

theorem builds_block : Builds [] g.block fun id => [⟨id, NodeKind.isBlock⟩] := by
  refine .quietly (.expectSymbol _) fun opening => .bind (builds_statementsUntilBrace hg) fun ids => ?_
  exact .allocWith (by simp [NodeKind.children, Function.comp_def]) rfl (fun _ _ => trivial) (.inl rfl)

omit hg in
theorem builds_labels : Builds [] g.labels fun _ => [] := by
  refine builds_repeating (q := fun _ => []) (fun names => ?_) #[]
  refine .quietly .kind fun kind => ?_
  split
  · exact .quietly .expectLabel fun _ => .pure rfl
  · exact .pure rfl

omit hg in
theorem quiet_bindingMode : Parser.Quiet bindingMode := by
  refine Parser.Quiet.bind (.eat _) fun isMutable => ?_
  split
  · exact .pure _
  refine Parser.Quiet.bind (.eat _) fun isRecursive => ?_
  split <;> exact .pure _

theorem builds_binding : Builds [] g.binding fun id => [⟨id, NodeKind.isBinding⟩] := by
  refine .quietly (.expectKeyword _) fun _ => .quietly (.eat _) fun isFinal => ?_
  refine .quietly quiet_bindingMode fun mode => .quietly .expectLabel fun name => ?_
  refine .passing builds_labels fun labels => .quietly (.expectSymbol _) fun _ => ?_
  have hbinding (value : NodeId) :
      Builds [.operand value] (Parser.alloc (.binding name.name mode isFinal value) name.position)
        fun id => [⟨id, NodeKind.isBinding⟩] :=
    .alloc rfl rfl (by simp) fun _ => trivial
  dsimp only
  split
  · exact (hg _).bind hbinding
  · exact (builds_block hg).bind fun _ => .bind (.alloc rfl rfl (by simp) fun _ => trivial) hbinding

theorem builds_list : Builds [] g.list fun id => [.operand id] := by
  refine .quietly (.expectSymbol _) fun opening => .bind (builds_closedBy _ (hg _)) fun items => ?_
  rw [← List.map_eq_flatMap]
  exact .alloc (by simp [NodeKind.children, Function.comp_def]) rfl (by simp) fun _ => trivial

theorem builds_field : Builds [] g.field fun field => [.operand field.value] :=
  .quietly .expectLabel fun _ => .quietly (.expectSymbol _) fun _ => (hg _).bind fun _ => .pure rfl

theorem builds_record : Builds [] g.record fun id => [.operand id] := by
  refine .quietly (.expectSymbol _) fun opening => ?_
  refine .bind (builds_closedBy _ (builds_field hg)) fun fields => ?_
  rw [← List.map_eq_flatMap]
  exact .alloc (by simp [NodeKind.children, Function.comp_def]) rfl (by simp) fun _ => trivial

omit hg in
theorem builds_params (allowMutable : Bool) : Builds [] (g.params allowMutable) fun _ => [] := by
  refine .quietly (.expectSymbol _) fun _ => ?_
  refine builds_closedBy_nothing _ ?_
  dsimp only
  split
  · exact .quietly (.eat _) fun _ => .quietly .expectLabel fun _ => .pure rfl
  · exact .quietly (.pure _) fun _ => .quietly .expectLabel fun _ => .pure rfl

theorem builds_function : Builds [] g.function fun id => [.operand id] := by
  refine .quietly (.expectKeyword _) fun opening => .quietly (.check _) fun found => ?_
  have hfunction (params : List Param) : Builds [] (do
      Parser.node (.function params (← g.block)) opening) fun id => [.operand id] :=
    (builds_block hg).bind fun _ => .alloc rfl rfl (by simp) fun _ => trivial
  dsimp only
  split
  · exact .passing (builds_params _) hfunction
  · exact hfunction _

theorem builds_member : Builds [] g.member fun id => [⟨id, NodeKind.isBinding⟩] := by
  refine .quietly (.check _) fun found => ?_
  split
  · exact builds_binding hg
  · exact (builds_field hg).bind fun field => .alloc rfl rfl (by simp) fun _ => trivial

theorem builds_members : Builds [] g.members fun ids => ids.map (⟨·, NodeKind.isBinding⟩) := by
  refine builds_repeating (q := fun items : Array NodeId => items.toList.map (⟨·, NodeKind.isBinding⟩))
    (fun items => ?_) #[]
  refine .quietly (.eat _) fun closed => ?_
  split
  · exact .pure rfl
  refine .quietly (.eat _) fun comma => ?_
  split
  · exact .pure rfl
  refine .quietly (.eat _) fun semicolon => ?_
  split
  · exact .pure rfl
  · exact .after (builds_member hg) fun id => .pure (by simp [Progress.roots])

omit hg in
theorem builds_composed : Builds [] g.composed fun _ => [] := by
  refine builds_repeating (q := fun _ => []) (fun names => ?_) #[]
  refine .quietly (.eat _) fun plus => ?_
  split
  · exact .quietly .expectLabel fun _ => .pure rfl
  · exact .pure rfl

theorem builds_object : Builds [] g.object fun id => [.operand id] := by
  refine .quietly (.expectKeyword _) fun opening => .quietly (.check _) fun found => ?_
  have hobject (params : Option (List Param)) : Builds [] (do
      let composed ← g.composed
      let _ ← Parser.expectSymbol .leftBrace
      Parser.node (.object params composed (← g.members)) opening) fun id => [.operand id] := by
    refine .passing builds_composed fun composed => .quietly (.expectSymbol _) fun _ => ?_
    refine .bind (builds_members hg) fun members => ?_
    refine .allocWith (by simp [NodeKind.children, Function.comp_def]) rfl (fun a h m hm => ?_) (.inl rfl)
    exact h ⟨m, NodeKind.isBinding⟩ (List.mem_map_of_mem hm)
  dsimp only
  split
  · exact .passing (.bind (builds_params _) fun _ => .pure rfl) hobject
  · exact hobject _

omit hg in
theorem quiet_importRoot : Parser.Quiet importRoot := by
  refine Parser.Quiet.cursor.bind fun cursor => ?_
  split
  · split
    · exact Parser.Quiet.advance.bind fun _ => .pure _
    · exact Parser.Quiet.advance.bind fun _ => .pure _
    · exact .pure _
  · exact .pure _

omit hg in
theorem builds_importForm : Builds [] g.importForm fun id => [.operand id] := by
  refine .quietly (.expectKeyword _) fun opening => .quietly quiet_importRoot fun root => ?_
  refine .passing (builds_repeating (q := fun _ => []) (fun names => ?_) #[]) fun path =>
    .alloc rfl rfl (by simp) fun _ => trivial
  refine .quietly .expectLabel fun _ => .quietly (.eat _) fun more => ?_
  split <;> exact .pure rfl

theorem builds_elseBranch : Builds [] g.elseBranch fun branch => branch.toList.map .operand := by
  refine .quietly (.eat _) fun found => ?_
  split
  · refine .quietly (.check _) fun again => ?_
    split
    · exact (hg _).bind fun _ => .pure rfl
    · exact (builds_block hg).operand.bind fun _ => .pure rfl
  · exact .pure rfl

theorem builds_conditional : Builds [] g.conditional fun id => [.operand id] := by
  refine .quietly (.expectKeyword _) fun opening => (hg _).bind fun condition => ?_
  refine .quietly (.expectKeyword _) fun _ => .after (builds_block hg).operand fun thenBranch => ?_
  refine .after (builds_elseBranch hg) fun elseBranch => ?_
  exact .alloc (by simp [NodeKind.children, Function.comp_def]) rfl (by simp) fun _ => trivial

theorem builds_loop : Builds [] g.loop fun id => [.operand id] := by
  refine .quietly (.expectKeyword _) fun opening => (hg _).bind fun start => ?_
  refine .quietly (.expectKeyword _) fun _ => .after (hg _) fun stop => ?_
  exact .after (builds_block hg).operand fun body => .alloc rfl rfl (by simp) fun _ => trivial

theorem builds_primary : Builds [] g.primary fun id => [.operand id] := by
  refine .quietly .kind fun kind => ?_
  split
  · exact .quietly .advance fun _ => .alloc rfl rfl (by simp) fun _ => trivial
  · refine .quietly .advance fun _ => (hg _).bind fun inner => ?_
    exact .quietly (.expectSymbol _) fun _ => .pure rfl
  · exact builds_list hg
  · exact builds_record hg
  · exact builds_function hg
  · exact builds_object hg
  · exact builds_importForm
  · exact builds_conditional hg
  · exact builds_loop hg
  · split
    · exact .quietly .advance fun _ => .alloc rfl rfl (by simp) fun _ => trivial
    · exact .fail _ _

theorem builds_arguments : Builds [] g.arguments fun ids => ids.map .operand := by
  refine .quietly (.eat _) fun closed => ?_
  split
  · exact .pure rfl
  · refine .bind (builds_commaSeparated (hg _)) fun args => .quietly (.expectSymbol _) fun _ => ?_
    exact .pure List.map_eq_flatMap

theorem builds_postfixed : Builds [] g.postfixed fun id => [.operand id] := by
  refine .bind (builds_primary hg) fun first => ?_
  refine builds_repeating (q := fun target => [.operand target]) (fun target => ?_) first
  refine .quietly .position fun opening => .quietly .kind fun kind => ?_
  split
  · refine .quietly .advance fun _ => .after (builds_arguments hg) fun args => ?_
    refine .bind (.alloc ?_ rfl (by simp) fun _ => rfl) fun _ => .pure rfl
    simp [NodeKind.children, Function.comp_def]
  · refine .quietly .advance fun _ => .after (hg _) fun index => .quietly (.expectSymbol _) fun _ => ?_
    exact .bind (.alloc rfl rfl (by simp) fun _ => trivial) fun _ => .pure rfl
  · refine .quietly .advance fun _ => .quietly .expectLabel fun label => ?_
    exact .bind (.alloc rfl rfl (by simp) fun _ => trivial) fun _ => .pure rfl
  · refine .quietly .advance fun _ => .after (builds_statementsUntilBrace hg) fun items => ?_
    have hbody : Builds (items.map .any) (Parser.node (.block items) opening) fun id => [.operand id] :=
      .allocWith (by simp [NodeKind.children, Function.comp_def]) rfl (fun _ _ => trivial) (.inl rfl)
    refine .bind (hbody.frame [.operand target]) fun body => ?_
    exact .bind (.alloc rfl rfl (by simp) fun _ => trivial) fun _ => .pure rfl
  · exact .pure rfl

/-! ### Operators -/

omit hg in
/-- An operator takes its operands, and what it needs of them is nothing. -/
theorem build?_spec {tier : Tier} {token : TokenKind} {build : NodeId → NodeId → NodeKind}
    (h : tier.build? token = some build) (lhs rhs : NodeId) :
    (build lhs rhs).children = [lhs, rhs] ∧ (build lhs rhs).isOperand ∧
      ∀ (a : Arena) position, a.Proper ⟨build lhs rhs, position⟩ := by
  unfold Tier.build? at h
  split at h <;> first | (obtain rfl := Option.some.inj h; exact ⟨rfl, rfl, fun _ _ => trivial⟩) | cases h

omit hg in
theorem unary?_spec {token : TokenKind} {build : NodeId → NodeKind} (h : unary? token = some build)
    (operand : NodeId) :
    (build operand).children = [operand] ∧ (build operand).isOperand ∧
      ∀ (a : Arena) position, a.Proper ⟨build operand, position⟩ := by
  unfold unary? at h
  split at h <;> first | (obtain rfl := Option.some.inj h; exact ⟨rfl, rfl, fun _ _ => trivial⟩) | cases h

section operand

variable {operand : Parser NodeId} (ho : Builds [] operand fun id => [.operand id])
include ho

theorem builds_binary (tiers : List Tier) : Builds [] (g.binary operand tiers) fun id => [.operand id] := by
  induction tiers with
  | nil => exact ho
  | cons tier tighter ih =>
    refine ih.bind fun first => ?_
    refine builds_repeating (q := fun lhs => [.operand lhs]) (fun lhs => ?_) first
    refine .quietly .kind fun kind => ?_
    split
    · exact .pure rfl
    · rename_i build hbuild
      have hnode (rhs : NodeId) (position : Position) :
          Builds [.operand lhs, .operand rhs] (Parser.node (build lhs rhs) position) fun id => [.operand id] :=
        let ⟨hchildren, hoperand, hproper⟩ := build?_spec hbuild lhs rhs
        .alloc hchildren.symm hoperand (by simp) fun a => hproper a _
      refine .quietly .advance fun operator => ?_
      split
      · exact .after (hg _) fun rhs => .bind (hnode rhs _) fun _ => .pure rfl
      · exact .after ih fun rhs => .bind (hnode rhs _) fun _ => .pure rfl

theorem builds_unary : Builds [] (g.unary operand) fun id => [.operand id] := by
  refine .quietly .kind fun kind => ?_
  split
  · exact ho
  · rename_i build hbuild
    refine .quietly .advance fun operator => (hg _).bind fun id => ?_
    obtain ⟨hchildren, hoperand, hproper⟩ := unary?_spec hbuild id
    exact .alloc hchildren.symm hoperand (by simp) fun a => hproper a _

theorem builds_pipe : Builds [] (g.pipe operand) fun id => [.operand id] := by
  refine .bind (builds_binary hg ho _) fun lhs => .quietly (.check _) fun found => ?_
  split
  · refine .quietly .advance fun operator => .after (hg _) fun rhs => ?_
    exact .alloc rfl rfl (by simp) fun _ => rfl
  · exact .pure rfl

/-- What stands left of an assignment is checked before its right side is read. -/
theorem builds_assignment : Builds [] (g.assignment operand) fun id => [.operand id] := by
  refine .bind (builds_pipe hg ho) fun target => .quietly (.check _) fun found => ?_
  split
  · have hvalue : Builds [⟨target, isAssignable⟩] (do
        let operator ← Parser.advance
        let value ← g.read .expression
        Parser.node (.assign target value) operator.position) fun id => [.operand id] := by
      refine .quietly .advance fun operator => .after (hg _) fun value => ?_
      refine .allocWith rfl rfl (fun a h => h ⟨target, isAssignable⟩ (by simp)) (.inr fun r hr kind hk => ?_)
      rcases List.mem_cons.1 hr with rfl | hr
      · cases kind <;> first | rfl | cases hk
      · obtain rfl := List.mem_singleton.1 hr
        exact hk
    intro s roots id s' hs h
    replace h : (if (s.arena.kind? target).any isAssignable then _ else _ : Parser NodeId) s =
      .ok (id, s') := h
    split at h
    · rename_i hassign
      obtain ⟨kind, hk, htest⟩ : ∃ kind, s.arena.kind? target = some kind ∧ isAssignable kind := by
        simpa [Option.any_eq_true] using hassign
      exact hvalue s roots id s' (hs.learn hk htest) h
    · cases h
  · exact .pure rfl

end operand

/-! ### Statements -/

omit hg in
theorem quiet_atStatementEnd : Parser.Quiet atStatementEnd := by
  refine Parser.Quiet.kind.bind fun kind => ?_
  split <;> exact .pure _

omit hg in
theorem quiet_statementEnd : Parser.Quiet statementEnd := by
  refine (Parser.Quiet.eat _).bind fun semicolon => ?_
  split
  · exact .pure _
  refine Parser.Quiet.cursor.bind fun cursor => ?_
  split
  · exact .pure _
  refine (Parser.Quiet.check _).bind fun closing => ?_
  split
  · exact .pure _
  refine Parser.Quiet.cursor.bind fun cursor => ?_
  split
  · exact .pure _
  · exact .failExpecting _

theorem builds_printStatement : Builds [] g.printStatement fun id => [.operand id] := by
  refine .quietly (.expectKeyword _) fun opening => .quietly quiet_atStatementEnd fun ended => ?_
  have hprint (args : List NodeId) :
      Builds (args.map .operand) (Parser.node (.print args) opening) fun id => [.operand id] :=
    .alloc (by simp [NodeKind.children, Function.comp_def]) rfl (by simp) fun _ => trivial
  dsimp only
  split
  · exact .bind (q := fun args : List NodeId => args.map .operand) (.pure rfl) hprint
  · refine .bind (builds_commaSeparated (hg _)) fun args => ?_
    rw [← List.map_eq_flatMap]
    exact hprint args

theorem builds_returnStatement : Builds [] g.returnStatement fun id => [.operand id] := by
  refine .quietly (.expectKeyword _) fun opening => .quietly quiet_atStatementEnd fun ended => ?_
  have hreturn (value : Option NodeId) :
      Builds (value.toList.map .operand) (Parser.node (.returns value) opening) fun id => [.operand id] :=
    .alloc (by simp [NodeKind.children, Function.comp_def]) rfl (by simp) fun _ => trivial
  dsimp only
  split
  · exact .bind (q := fun value : Option NodeId => value.toList.map .operand) (.pure rfl) hreturn
  · refine .bind (q := fun value : Option NodeId => value.toList.map .operand) ?_ hreturn
    exact (hg .expression).bind fun id => .pure rfl

omit hg in
theorem builds_exportStatement : Builds [] g.exportStatement fun id => [.operand id] := by
  refine .quietly (.expectKeyword _) fun opening => ?_
  refine .passing ?_ fun names => .alloc rfl rfl (by simp) fun _ => trivial
  exact builds_commaSeparated_nothing (.ofQuiet .expectLabel)

theorem builds_statement : Builds [] g.statement fun id => [.any id] := by
  have hend (id : NodeId) : Builds [.any id] (do statementEnd; return id) fun id => [.any id] :=
    .quietly quiet_statementEnd fun _ => .pure rfl
  refine .quietly .kind fun kind => ?_
  dsimp only
  split
  · exact .bind (builds_binding hg).statement hend
  · exact .bind (builds_printStatement hg).statement hend
  · exact .bind (builds_returnStatement hg).statement hend
  · exact .bind builds_exportStatement.statement hend
  · exact .bind (builds_block hg).statement hend
  · exact .bind (hg .expression).statement hend

/-! ## Programs -/

theorem builds_produce (nonterminal : Nonterminal) :
    Builds [] (g.produce nonterminal) fun id => [nonterminal.root id] := by
  have hunary := builds_unary hg (builds_postfixed hg)
  cases nonterminal with
  | statement => exact builds_statement hg
  | expression => exact builds_assignment hg hunary
  | pipe => exact builds_pipe hg hunary
  | prepend => exact builds_binary hg hunary _
  | unary => exact hunary
  | conditional => exact builds_conditional hg

theorem builds_unit : Builds [] g.unit fun id => [⟨id, NodeKind.isBlock⟩] := by
  refine .quietly .position fun opening => .bind (q := fun ids => ids.map .any) ?_ fun items => ?_
  · refine builds_repeating (q := fun items : Array NodeId => items.toList.map .any) (fun items => ?_) #[]
    refine .quietly .cursor fun cursor => ?_
    split
    · exact .pure rfl
    refine .quietly (.eat _) fun empty => ?_
    split
    · exact .pure rfl
    · exact .after (hg _) fun id => .pure (by simp [Progress.roots])
  · exact .allocWith (by simp [NodeKind.children, Function.comp_def]) rfl (fun _ _ => trivial) (.inl rfl)

end productions

/-- Every production of the grammar, down to any depth, puts one root. -/
theorem sound_ofDepth (limit depth : Nat) : (ofDepth limit depth).Sound := by
  induction depth with
  | zero => exact fun _ => .fail _ _
  | succ depth ih => exact fun nonterminal => builds_produce ih nonterminal

end Grammar

/-- The nodes of a program are laid out below its block. -/
theorem laid_of_parse {tokens : List Lexeme} {program : Program} (h : parse tokens = .ok program) :
    program.arena.Laid [⟨program.body, NodeKind.isBlock⟩] := by
  unfold parse at h
  simp only at h
  split at h
  · rename_i body s hs
    obtain rfl := Except.ok.inj h
    exact Grammar.builds_unit (Grammar.sound_ofDepth _ _) _ [] _ _ Arena.laid_empty hs
  · cases h

/-- So it is for every source text that is a program. -/
theorem laid_of_parseSource {source : String} {program : Program} (h : parseSource source = .ok program) :
    program.arena.Laid [⟨program.body, NodeKind.isBlock⟩] := by
  unfold parseSource at h
  split at h
  · cases h
  · split at h
    · cases h
    · obtain rfl := Except.ok.inj h
      exact laid_of_parse ‹_›

/-- A program and a text that it was read from. -/
structure Parsed where
  /-- The text. -/
  source : String
  /-- The program. -/
  program : Program
  /-- Reading the text gives the program. -/
  reads : parseSource source = .ok program

theorem Parsed.laid (p : Parsed) : p.program.arena.Laid [⟨p.program.body, NodeKind.isBlock⟩] :=
  laid_of_parseSource p.reads

/-- A program with a number of 32 bits for each of its nodes. The reader gives up when there are more, and there is a
number for each environment that the analysis makes when there is one for each node. -/
structure Numbered extends Parsed where
  /-- There are numbers enough. -/
  numbers : program.arena.size ≤ UInt32.size

/-- All nodes stand below the only root. -/
theorem Arena.Laid.below_root {a : Arena} {root : Root} (h : a.Laid [root]) {id : NodeId}
    (hid : id.index < a.size) :
    a.Below root.id id := by
  induction hn : a.size - id.index using Nat.strong_induction_on generalizing id with
  | _ n ih =>
    rcases h.covered id hid with hr | ⟨p, hp⟩
    · obtain rfl : id = root.id := by simpa using hr
      exact .refl
    · have hps : p.index < a.size := by
        obtain ⟨node, hnode, _⟩ := hp
        exact Arena.lt_size_of_get? hnode
      have hlt := h.toIsForest.down hp
      exact (ih (a.size - p.index) (by omega) hps rfl).tail hp

end DynScript
