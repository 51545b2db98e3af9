import DynScript.Proofs.Syntax.Prompt

/-!
# Forms are prompt

Every form of the grammar is prompt when what it reads one level deeper is (`Parser.PromptBelow`). The words that are
known for it are the shortest ones that complete it.
-/

namespace DynScript

namespace Parser

/-- What is read one level deeper is prompt. -/
structure PromptBelow (bound : Nat) : Prop where
  operand : ∀ {nonterminal : Nonterminal} {level : Nat}, nonterminal.level? = some level →
    Prompt bound 1 1 (fun _ => True) (Ends 1) (some [.identifier "x"]) fun g => g.read nonterminal
  conditional : Prompt bound 1 1 (fun _ => True) (Ends 1) none fun g => g.read .conditional
  statement : Prompt bound 2 1 (fun _ => True) (fun _ => True) none fun g => g.read .statement

namespace PromptBelow

variable {bound b c : Nat} {first : TokenKind → Prop} (h : PromptBelow bound)
include h

theorem readOperand {nonterminal : Nonterminal} {level : Nat} (hlevel : nonterminal.level? = some level)
    (hb : 1 ≤ b) :
    Prompt bound b 1 first (Ends 1) (some [.identifier "x"]) fun g => g.read nonterminal :=
  (h.operand hlevel).deeper hb

theorem expression (hb : 1 ≤ b) :
    Prompt bound b 1 first (Ends 1) (some [.identifier "x"]) fun g => g.read .expression :=
  h.readOperand rfl hb

/-- Where the body of a function may stand, too, braces are read as an empty record. -/
theorem record (hb : 1 ≤ b) :
    Prompt bound b 1 first (Ends 1) (some [.symbol .leftBrace, .symbol .rightBrace]) fun g => g.read .expression := by
  refine (h.expression hb).forget.withWords ⟨by simp, by simp, fun g hg => ?_⟩
  have hreads := hg.understands.expression (e := .record []) ?_ .empty
  · exact hreads.weaken (fun _ hword => hword) fun _ _ _ _ => trivial
  · show 2 < _
    rw [List.length_cons]
    omega

theorem readConditional (hb : 1 ≤ b) :
    Prompt bound b 1 first (Ends 1) none fun g => g.read .conditional :=
  h.conditional.deeper hb

theorem readStatement (hb : 2 ≤ b) :
    Prompt bound b 1 first (fun _ => True) none fun g => g.read .statement :=
  h.statement.deeper hb

end PromptBelow

end Parser

namespace Grammar

open DynScript.Parser

variable {bound b c : Nat} {first stop : TokenKind → Prop}

instance : Nonempty BindingMode := ⟨.plain⟩

instance : Nonempty Label := ⟨⟨"x", none⟩⟩

instance : Nonempty Param := ⟨⟨⟨"x", none⟩, false⟩⟩

instance : Nonempty Field := ⟨⟨⟨"x", none⟩, ⟨0⟩⟩⟩

/-- What stands before a token that ends every expression. -/
theorem heads_ends {word : TokenKind} {words : List TokenKind} (hword : word.grip = 0) :
    ∀ next, Heads stop (word :: words) next → Ends 1 next := by
  rintro _ rfl
  exact Nat.lt_of_le_of_lt hword.le Nat.zero_lt_one

/-! ## Lists -/

section lists

variable {α : Type} {item : Grammar → Parser α} {close : Symbol} {u : TokenKind → Prop} {w : List TokenKind}

theorem prompt_closedBy [Nonempty α] (hitem : ∀ b', b ≤ b' → Prompt bound b' 1 (fun _ => True) u none item)
    (hends : u (.symbol close)) (hclose : close ≠ .comma) :
    Prompt bound b 0 first stop (some [.symbol close]) fun g => g.closedBy close (item g) := by
  have hcomma (word : TokenKind) (hword : word = .symbol close) : word ≠ .symbol .comma := by
    rintro rfl
    exact hclose (TokenKind.symbol.inj hword).symm
  refine .bind (u := (· = .symbol close)) (.repeating (w := []) ⟨nofun,
    fun items g _ => .if_check_yes (fun _ hword => hword) (Reads.pure fun _ _ => ⟨_, rfl, trivial⟩),
    fun b' hb' next hnext items => ?_⟩) (fun items => .expectSymbol fun _ => .pure) (fun _ hword => hword) rfl
  simp only [checkSymbol, eatSymbol, bind_assoc, ite_bind, pure_bind]
  refine .if_check Prompt.pure.forget (.bind (hitem b' hb') (fun v => .if_eat (hnext _ (by omega) _) .pure ?_ nofun) ?_ rfl)
    nofun
  · rintro _ ⟨⟩
    exact hcomma
  · rintro _ rfl
    exact hends

theorem prompt_commaSeparated [Nonempty α] (hitem : ∀ b', b ≤ b' → Prompt bound b' 1 (fun _ => True) u (some w) item)
    (hstop : ∀ word, stop word → u word ∧ word ≠ .symbol .comma) :
    Prompt bound b 0 first stop (some w) fun g => g.commaSeparated (item g) := by
  have hdefault := (hitem b le_rfl).default w rfl
  refine .repeating ⟨hdefault.inside, fun items g hg => ?_, fun b' hb' next hnext items => ?_⟩
  · refine (hdefault.reads g hg).andLook (fun word hword => (hstop word hword).1) fun v _ _ _ => ?_
    exact .if_eat_no (fun word hword => (hstop word hword).2) (Reads.pure fun _ _ => ⟨_, rfl, trivial⟩)
  · simp only [eatSymbol, bind_assoc, ite_bind, pure_bind]
    refine .bind (hitem b' hb').forget (fun v => .if_eat (hnext _ (by omega) _) .pure ?_ nofun)
      (fun word hword => (hstop word hword).1) rfl
    rintro _ ⟨⟩ word hword
    exact (hstop word hword).2

end lists

/-! ## Imports -/

/-- Other words than the two before a path are no directory. -/
theorem importRoot_relative {s : ParseState} (hbase : s.cursor.kind.identifier? ≠ some "base")
    (hstd : s.cursor.kind.identifier? ≠ some "std") : importRoot s = .ok (.relative, s) := by
  rw [importRoot, Parser.bind_of_ok (rfl : Parser.cursor s = .ok (s.cursor, s))]
  generalize s.cursor.kind.identifier? = word at hbase hstd
  by_cases hpeek : s.cursor.peek.identifier?.isSome
  · rw [if_pos hpeek]
    split
    · exact absurd rfl hbase
    · exact absurd rfl hstd
    · rfl
  · rw [if_neg hpeek]
    rfl

/-- A name that may be a directory is one if another name follows it. -/
def rooted {α : Type} (root : ImportRoot) (label : Label) (k : ImportRoot → Label → Parser α) : Parser α := do
  match (← Parser.kind).identifier? with
  | some _ => k root (← Parser.expectLabel)
  | none => k .relative label

/-- The token after a name tells whether the name is a directory, so that it does not matter that it is looked at
before the name is passed. -/
theorem importRoot_expectLabel {α : Type} (k : ImportRoot → Label → Parser α) :
    (importRoot >>= fun root => Parser.expectLabel >>= fun label => k root label) = Parser.expectLabel >>= fun label =>
      if label.name = "base" then rooted .base label k
      else if label.name = "std" then rooted .std label k
      else k .relative label := by
  funext s
  obtain ⟨⟨p, ⟨word, position⟩, upcoming⟩, a⟩ := s
  cases word with
  | identifier name =>
    show (importRoot >>= _) _ = (if name = "base" then _ else _ : Parser α) _
    by_cases hbase : name = "base"
    · subst hbase
      rw [if_pos rfl]
      cases upcoming with
      | nil => rfl
      | cons next rest =>
        obtain ⟨word, position'⟩ := next
        cases word <;> rfl
    · rw [if_neg hbase]
      by_cases hstd : name = "std"
      · subst hstd
        rw [if_pos rfl]
        cases upcoming with
        | nil => rfl
        | cons next rest =>
          obtain ⟨word, position'⟩ := next
          cases word <;> rfl
      · rw [if_neg hstd]
        have hroot := importRoot_relative (s := ⟨⟨p, ⟨.identifier name, position⟩, upcoming⟩, a⟩)
          (fun h => hbase (Option.some.inj h)) fun h => hstd (Option.some.inj h)
        exact bind_of_ok hroot
  | _ => refine bind_of_ok (importRoot_relative ?_ ?_) <;> exact nofun

theorem prompt_rooted {α : Type} {root : ImportRoot} {label : Label} {k : ImportRoot → Label → Grammar → Parser α}
    (hk : ∀ b', b ≤ b' → ∀ root label, Prompt bound b' 0 (fun _ => True) stop (some []) (k root label))
    (hstop : ∀ word, stop word → word.identifier? = none) :
    Prompt bound b 0 first stop (some []) fun g => rooted root label fun root label => k root label g := by
  have hnone := hk b le_rfl .relative label
  refine .withWords (.kind fun word _ => ?_) ⟨nofun, le_rfl, fun g hg => .kind fun word hword => ?_⟩
  · cases word.identifier? with
    | none => exact hnone.forget.deeper le_rfl
    | some name => exact (Prompt.expectLabel fun label => hk _ (by omega) root label).forget
  · rw [hstop word hword]
    exact ((hnone.default [] rfl).reads g hg).weaken (fun _ hnext => hnext.1) fun _ _ _ _ => trivial

/-- A name of a path, and whether another one follows. -/
def pathRound (names : Array String) : Parser (Progress (Array String) (List String)) := do
  let names := names.push (← Parser.expectLabel).name
  if ← Parser.eatSymbol .dot then return .more names else return .done names.toList

/-- What comes after the first name of a path. -/
def pathTail (opening : Position) (root : ImportRoot) (label : Label) (g : Grammar) : Parser NodeId := do
  if ← Parser.eatSymbol .dot then
    Parser.node (.imports root (← rounds pathRound (g.limit - 1) #[label.name])) opening
  else Parser.node (.imports root [label.name]) opening

theorem importForm_eq {g : Grammar} (hg : 0 < g.limit) : g.importForm =
    Parser.expectKeyword .imports >>= fun opening => Parser.expectLabel >>= fun label =>
      if label.name = "base" then rooted .base label fun root label => pathTail opening root label g
      else if label.name = "std" then rooted .std label fun root label => pathTail opening root label g
      else pathTail opening .relative label g := by
  have hrepeating : g.repeating #[] pathRound = Parser.expectLabel >>= fun label =>
      Parser.eatSymbol .dot >>= fun found =>
        if found then rounds pathRound (g.limit - 1) #[label.name] else pure [label.name] := by
    obtain ⟨n, hn⟩ : ∃ n, g.limit = n + 1 := ⟨g.limit - 1, by omega⟩
    rw [repeating, hn, rounds, pathRound]
    simp only [bind_assoc, ite_bind, pure_bind]
    rfl
  simp only [← importRoot_expectLabel]
  show (Parser.expectKeyword .imports >>= fun opening => importRoot >>= fun root =>
    g.repeating #[] pathRound >>= fun path => Parser.node (.imports root path) opening) = _
  simp only [hrepeating, bind_assoc, ite_bind, pure_bind]
  rfl

theorem prompt_pathRound : PromptRound bound b (fun word => word ≠ .symbol .dot ∧ word.identifier? = none)
    [.identifier "x"] fun _ => pathRound := by
  refine ⟨by simp, fun names g _ => .expectLabel fun label _ => ?_, fun b' hb' next hnext names => ?_⟩
  · exact .if_eat_no (fun word hword => hword.1) (Reads.pure fun _ _ => ⟨_, rfl, trivial⟩)
  · simp only [pathRound, eatSymbol, bind_assoc, ite_bind, pure_bind]
    refine (Prompt.expectLabel fun label => .if_eat (hnext _ (by omega) _) .pure ?_ ?_).forget
    · rintro _ ⟨⟩ word hword
      exact hword.1
    · exact nofun

theorem prompt_pathTail {opening : Position} {root : ImportRoot} {label : Label} :
    Prompt bound b 0 first (fun word => word ≠ .symbol .dot ∧ word.identifier? = none) (some [])
      (pathTail opening root label) := by
  refine .if_eat (.bind (.rounds prompt_pathRound (by omega)) (fun path => .alloc_last) (fun _ hword => hword) rfl)
    .alloc_last ?_ nofun
  rintro _ ⟨⟩ word hword
  exact hword.1

theorem prompt_importForm : Prompt bound b 1 first (fun word => word ≠ .symbol .dot ∧ word.identifier? = none)
    (some [.keyword .imports, .identifier "x"]) importForm := by
  refine Prompt.congr (.expectKeyword fun opening => .expectLabel fun label => ?_) fun g hg => importForm_eq hg.limit.2
  have hrooted (root : ImportRoot) : Prompt bound (b + 2 + 2) 0 (fun _ => True)
      (fun word => word ≠ .symbol .dot ∧ word.identifier? = none) (some [])
      fun g => rooted root label fun root label => pathTail opening root label g :=
    prompt_rooted (fun _ _ _ _ => prompt_pathTail) fun _ hword => hword.2
  split
  · exact hrooted .base
  · split
    · exact hrooted .std
    · exact prompt_pathTail

/-! ## Blocks -/

variable (h : PromptBelow bound)
include h

theorem prompt_statementsUntilBrace (hb : 2 ≤ b) :
    Prompt bound b 0 first stop (some [.symbol .rightBrace]) statementsUntilBrace := by
  refine .repeating ⟨by simp, fun items g _ => .if_eat_yes (by simp) (Reads.pure fun _ _ => ⟨_, rfl, trivial⟩),
    fun b' hb' next hnext items => ?_⟩
  simp only [eatSymbol, bind_assoc, ite_bind, pure_bind, failExpecting, fail_bind]
  refine .if_eat .pure ?_ (by simp) (by simp)
  refine .if_eat (hnext _ (by omega) items) ?_ (by simp) (by simp)
  refine .if_atEnd (.kind fun _ _ => .fail (by simp)) ?_ (by simp)
  exact .bind (h.readStatement (by omega)) (fun id => hnext _ (by omega) _) (fun _ _ => trivial) rfl

theorem prompt_block : Prompt bound b 1 first stop (some [.symbol .leftBrace, .symbol .rightBrace]) block :=
  .expectSymbol fun _ => .bind (prompt_statementsUntilBrace h (by omega)) (fun _ => .alloc_last) (fun _ _ => trivial) rfl

/-! ## Bindings -/

omit h in
theorem prompt_labels : Prompt bound b 0 first (fun word => word.identifier? = none) (some []) labels := by
  refine .repeating ⟨nofun, fun names g _ => .kind fun word hword => ?_, fun b' _ next hnext names => ?_⟩
  · have hnone : word.identifier? = none := hword
    rw [hnone]
    exact Reads.pure fun _ _ => ⟨_, rfl, trivial⟩
  · simp only [bind_assoc]
    refine .kind fun word _ => ?_
    cases hword : word.identifier? with
    | none => exact Prompt.pure.forget
    | some name =>
      simp only [bind_assoc, pure_bind]
      exact (Prompt.expectLabel fun label => hnext _ (by omega) _).forget

omit h in
theorem prompt_bindingMode : Prompt bound b 0 first (fun word => ∀ k, word ≠ .keyword k) (some [])
    fun _ => bindingMode := by
  refine .if_eat .pure (.if_eat .pure .pure ?_ nofun) ?_ nofun
  · rintro _ ⟨⟩ word hword
    exact hword _
  · rintro _ ⟨⟩ word hword
    exact hword _

theorem prompt_binding : Prompt bound b 1 first (Ends 1)
    (some [.keyword .define, .identifier "x", .symbol .bind, .symbol .leftBrace, .symbol .rightBrace]) binding := by
  refine .expectKeyword fun _ => .eat_any (fun isFinal => ?_) ?_ nofun
  · refine .bind prompt_bindingMode (fun mode => .expectLabel fun name => ?_) ?_ rfl
    · refine .bind prompt_labels (fun params => .expectSymbol fun _ => ?_) ?_ rfl
      · cases params with
        | nil => exact .bind (h.record (by omega)) (fun value => .alloc_last) (fun _ hword => hword) rfl
        | cons param params =>
          exact .bind (prompt_block h) (fun body => .alloc fun value => .alloc_last) (fun _ _ => trivial) rfl
      · rintro _ rfl
        rfl
    · rintro _ rfl
      exact nofun
  · rintro _ rfl
    exact nofun

/-! ## Literals of lists and records -/

theorem prompt_list : Prompt bound b 1 first stop (some [.symbol .leftBracket, .symbol .rightBracket]) list :=
  .expectSymbol fun _ => .bind (prompt_closedBy (fun b' hb' => (h.expression (by omega)).forget) Nat.zero_lt_one nofun)
    (fun items => .alloc_last) (fun _ _ => trivial) rfl

theorem prompt_field : Prompt bound b 1 first (Ends 1)
    (some [.identifier "x", .symbol .colon, .identifier "x"]) field :=
  .expectLabel fun label => .expectSymbol fun _ =>
    .bind (h.expression (by omega)) (fun value => .pure) (fun _ hword => hword) rfl

theorem prompt_record : Prompt bound b 1 first stop (some [.symbol .leftBrace, .symbol .rightBrace]) record :=
  .expectSymbol fun _ => .bind (prompt_closedBy (fun _ _ => (prompt_field h).forget) Nat.zero_lt_one nofun)
    (fun _ => .alloc_last) (fun _ _ => trivial) rfl

/-! ## Functions and objects -/

omit h in
theorem prompt_params {allowMutable : Bool} : Prompt bound b 1 first stop
    (some [.symbol .leftParen, .symbol .rightParen]) fun g => g.params allowMutable := by
  refine .expectSymbol fun _ => prompt_closedBy (u := fun _ => True) (fun b' hb' => ?_) trivial nofun
  cases allowMutable with
  | false =>
    simp only [Bool.false_eq_true, if_false, pure_bind]
    exact (Prompt.expectLabel fun label => .pure).forget
  | true =>
    simp only [if_true, eatKeyword]
    refine (Prompt.eat_any (fun isMutable => .expectLabel fun label => .pure) (fun _ hword => hword ▸ nofun) ?_).forget
    exact nofun

theorem prompt_function : Prompt bound b 1 first stop
    (some [.keyword .func, .symbol .leftBrace, .symbol .rightBrace]) function := by
  refine .expectKeyword fun opening => ?_
  have hbody (params : List Param) (b' : Nat) : Prompt bound b' 0 (fun _ => True) stop
      (some [.symbol .leftBrace, .symbol .rightBrace])
      fun g => g.block >>= fun body => Parser.node (.function params body) opening :=
    .bind (prompt_block h) (fun body => .alloc_last) (fun _ _ => trivial) rfl
  refine .check ?_ ?_ ?_
  · exact (Prompt.bind prompt_params (fun params => hbody params _) (fun _ _ => trivial) rfl).forget
  · simp only [Bool.false_eq_true, if_false, pure_bind]
    exact hbody [] _
  · rintro _ ⟨⟩ _ rfl
    exact nofun

theorem prompt_member : Prompt bound b 1 first (Ends 1)
    (some [.identifier "x", .symbol .colon, .identifier "x"]) member := by
  refine .if_check (prompt_binding h).forget
    (.bind (prompt_field h) (fun field => .alloc_last) (fun _ hword => hword) rfl) ?_
  rintro _ ⟨⟩ _ rfl
  exact nofun

theorem prompt_members : Prompt bound b 0 first stop (some [.symbol .rightBrace]) members := by
  refine .repeating ⟨by simp, fun items g _ => .if_eat_yes (by simp) (Reads.pure fun _ _ => ⟨_, rfl, trivial⟩),
    fun b' hb' next hnext items => ?_⟩
  simp only [eatSymbol, bind_assoc, ite_bind, pure_bind]
  refine .if_eat .pure ?_ nofun nofun
  refine .if_eat (hnext _ (by omega) items) ?_ nofun nofun
  refine .if_eat (hnext _ (by omega) items) ?_ nofun nofun
  exact .bind (prompt_member h).forget (fun id => hnext _ (by omega) _) (heads_ends rfl) rfl

omit h in
theorem prompt_composed : Prompt bound b 0 first (· ≠ .symbol .plus) (some []) composed := by
  refine .repeating ⟨nofun, fun items g _ => .if_eat_no (fun _ hword => hword)
    (Reads.pure fun _ _ => ⟨_, rfl, trivial⟩), fun b' hb' next hnext items => ?_⟩
  simp only [eatSymbol, bind_assoc, ite_bind, pure_bind]
  exact .if_eat (.expectLabel fun label => hnext _ (by omega) _) Prompt.pure.forget nofun nofun

theorem prompt_object : Prompt bound b 1 first stop
    (some [.keyword .object, .symbol .leftBrace, .symbol .rightBrace]) object := by
  refine .expectKeyword fun opening => ?_
  have hbody (params : Option (List Param)) (b' : Nat) : Prompt bound b' 0 (fun _ => True) stop
      (some [.symbol .leftBrace, .symbol .rightBrace]) (fun g => do
        let composed ← g.composed
        let _ ← Parser.expectSymbol .leftBrace
        Parser.node (.object params composed (← g.members)) opening) := by
    refine .bind prompt_composed (fun composed => .expectSymbol fun _ => ?_) ?_ rfl
    · exact .bind (prompt_members h) (fun members => .alloc_last) (fun _ _ => trivial) rfl
    · rintro _ rfl
      exact nofun
  refine .check ?_ ?_ ?_
  · simp only [if_true, map_eq_pure_bind, bind_assoc, pure_bind]
    exact (Prompt.bind prompt_params (fun params => hbody (some params) _) (fun _ _ => trivial) rfl).forget
  · simp only [Bool.false_eq_true, if_false, pure_bind]
    exact hbody none _
  · rintro _ ⟨⟩ _ rfl
    exact nofun

/-! ## Conditionals and loops -/

theorem prompt_elseBranch : Prompt bound b 0 first (Ends 1) (some []) elseBranch := by
  refine .if_eat (.if_check (.bind (h.readConditional (by omega)) (fun _ => .pure) (fun _ hword => hword) rfl)
    (.bind (prompt_block h) (fun _ => .pure) (fun _ _ => trivial) rfl) ?_) .pure ?_ nofun
  · rintro _ ⟨⟩ _ rfl
    exact nofun
  · rintro _ ⟨⟩ word hword
    exact hword.ne (by decide)

theorem prompt_conditional : Prompt bound b 1 first (Ends 1)
    (some [.keyword .cond, .identifier "x", .keyword .thenBranch, .symbol .leftBrace, .symbol .rightBrace])
    conditional := by
  refine .expectKeyword fun _ =>
    .bind (h.expression (by omega)) (fun condition => .expectKeyword fun _ => ?_) (heads_ends rfl) rfl
  refine .bind (prompt_block h) (fun thenBranch => ?_) (fun _ _ => trivial) rfl
  exact .bind (prompt_elseBranch h) (fun otherwise => .alloc_last) (fun _ hword => hword) rfl

theorem prompt_loop : Prompt bound b 1 first stop
    (some [.keyword .loop, .identifier "x", .keyword .upTo, .identifier "x", .symbol .leftBrace, .symbol .rightBrace])
    loop := by
  refine .expectKeyword fun _ =>
    .bind (h.expression (by omega)) (fun start => .expectKeyword fun _ => ?_) (heads_ends rfl) rfl
  refine .bind (h.expression (by omega)) (fun last => ?_) (heads_ends rfl) rfl
  exact .bind (prompt_block h) (fun body => .alloc_last) (fun _ _ => trivial) rfl

end Grammar

end DynScript
