import DynScript.Proofs.Syntax.PromptForms

/-!
# Syntax errors stand at the first token that no program goes on with

Operators, statements and units are prompt as well, at every depth. So the error of a list of tokens that is no program
depends on nothing after the token that it names, and what stands before that token is the beginning of a program.
-/

namespace DynScript

namespace Grammar

open DynScript.Parser

variable {bound b c : Nat} {first stop : TokenKind → Prop} (h : PromptBelow bound)
include h

/-! ## Operands -/

omit h in
/-- What ends every expression goes on with no path. -/
theorem ends_path {word : TokenKind} (hword : Ends 1 word) : word ≠ .symbol .dot ∧ word.identifier? = none := by
  refine ⟨hword.ne (by decide), ?_⟩
  cases word with
  | identifier name => exact absurd hword (by show ¬ 12 < 1; decide)
  | _ => rfl

theorem prompt_primary : Prompt bound b 1 first (Ends 1) (some [.identifier "x"]) primary := by
  refine .withWords (.kind fun word _ => ?_) ⟨by simp, by simp, fun g _ => .kind_cons ?_⟩
  · cases word with
    | identifier name => exact .pass (fun lexeme => .alloc_last) nofun
    | symbol symbol =>
      cases symbol with
      | leftParen =>
        exact .pass (fun _ => .bind (h.expression (by omega)) (fun inner => .expectSymbol fun _ => .pure) (heads_ends rfl) rfl)
          nofun
      | leftBracket => exact (prompt_list h).forget
      | leftBrace => exact (prompt_record h).forget
      | _ => exact .fail nofun
    | keyword keyword =>
      cases keyword with
      | func => exact (prompt_function h).forget
      | object => exact (prompt_object h).forget
      | imports => exact prompt_importForm.forget.weaken le_rfl le_rfl (fun _ h => h) fun _ => ends_path
      | cond => exact (prompt_conditional h).forget
      | loop => exact (prompt_loop h).forget
      | yes | no | nil => exact .pass (fun lexeme => .alloc_last) nofun
      | _ => exact .fail nofun
    | number x => exact .pass (fun lexeme => .alloc_last) nofun
    | string x => exact .pass (fun lexeme => .alloc_last) nofun
    | endOfFile => exact .fail nofun
  · exact .advance nofun fun lexeme => Reads.alloc fun _ _ _ _ => trivial

theorem prompt_expressions (hb : 1 ≤ b) :
    Prompt bound b 0 first (fun word => Ends 1 word ∧ word ≠ .symbol .comma) (some [.identifier "x"])
      fun g => g.commaSeparated (g.read .expression) :=
  prompt_commaSeparated (fun b' hb' => h.expression (by omega)) fun _ hword => hword

theorem prompt_arguments (hb : 1 ≤ b) :
    Prompt bound b 0 first stop (some [.symbol .rightParen]) arguments := by
  refine .withWords
    (.if_eat .pure (.bind (prompt_expressions h (by omega)).forget (fun args => .expectSymbol fun _ => .pure) ?_ rfl)
      nofun nofun)
    ⟨by simp, by simp, fun g _ => .if_eat_yes nofun (Reads.pure fun _ _ => trivial)⟩
  rintro _ rfl
  exact ⟨Nat.zero_lt_one, nofun⟩

theorem prompt_postfixRound : PromptRound bound b (Ends 1) [] postfixRound := by
  refine ⟨nofun, fun target g _ => ?_, fun b' _ next hnext target => ?_⟩
  · exact (reads_postfixRound fun _ _ => trivial).weaken (fun _ hword => hword.mono (by omega)) fun _ _ _ hv => hv
  · simp only [postfixRound, bind_assoc]
    refine .position fun opening => .kind fun word _ => ?_
    cases word with
    | symbol symbol =>
      cases symbol with
      | leftParen =>
        simp only [bind_assoc, pure_bind]
        exact .pass (fun _ => .bind (prompt_arguments h (by omega)) (fun args => .alloc fun id => hnext _ (by omega) id)
          (fun _ _ => trivial) rfl) nofun
      | leftBracket =>
        simp only [bind_assoc, pure_bind]
        exact .pass (fun _ => .bind (h.expression (by omega)) (fun index => .expectSymbol fun _ => .alloc fun id =>
          hnext _ (by omega) id) (heads_ends rfl) rfl) nofun
      | dot =>
        simp only [bind_assoc, pure_bind]
        exact .pass (fun _ => .expectLabel fun label => .alloc fun id => hnext _ (by omega) id) nofun
      | dotBrace =>
        simp only [bind_assoc, pure_bind]
        exact .pass (fun _ => .bind (prompt_statementsUntilBrace h (by omega)) (fun body => .alloc fun block =>
          .alloc fun id => hnext _ (by omega) id) (fun _ _ => trivial) rfl) nofun
      | _ =>
        simp only [pure_bind]
        exact Prompt.pure.forget
    | _ =>
      simp only [pure_bind]
      exact Prompt.pure.forget

theorem prompt_postfixed : Prompt bound b 1 first (Ends 1) (some [.identifier "x"]) postfixed :=
  .bind (prompt_primary h) (fun _ => .repeating (prompt_postfixRound h)) (fun _ hword => hword) rfl

/-! ## Operators -/

omit h in
/-- A name is read at every level. -/
theorem defaults_reader {level : Nat} (h1 : 1 ≤ level) (h11 : level ≤ 11) :
    Defaults b 1 (Ends 1) [.identifier "x"] fun g => g.reader level := by
  refine ⟨by simp, by simp, fun g hg => ?_⟩
  rw [List.length_singleton] at hg
  have hlimit := hg.limit.1
  have hwrite : (Syntax.Expression.name "x").writeAt level = [.identifier "x"] := Syntax.Expression.writeAt_of_le h11
  have hread := (known (hg.mono (m := 5) (by omega)).understands (by omega) (.name "x")).reads h1 h11 le_rfl
    (by rw [hwrite, List.length_singleton]; omega) .empty
  rw [hwrite] at hread
  exact hread.weaken (fun _ hword => hword.mono h1) fun _ _ _ _ => trivial

omit h in
theorem ne_endOfFile_of_unary {word : TokenKind} (hword : unary? word ≠ none) : word ≠ .endOfFile := by
  rintro rfl
  exact hword rfl

theorem prompt_unary : Prompt bound b 1 first (Ends 1) (some [.identifier "x"]) fun g => g.reader 10 := by
  refine .withWords (.kind fun word _ => ?_) (defaults_reader (by omega) (by omega))
  cases hunary : unary? word with
  | none => exact (prompt_postfixed h).forget
  | some build =>
    refine .pass (fun operator =>
      .bind (h.readOperand rfl (by omega)) (fun operand => .alloc_last) (fun _ hword => hword) rfl) ?_
    exact ne_endOfFile_of_unary (hunary ▸ nofun)

section tiers

omit h in
theorem binary_tighter (g : Grammar) (tier : Tier) :
    g.binary (g.unary g.postfixed) tier.tighter = g.reader (tier.level + 1) := by
  cases tier <;> rfl

variable {tier : Tier} (hr : ∀ {b : Nat} {first : TokenKind → Prop},
  Prompt bound b 1 first (Ends 1) (some [.identifier "x"]) fun g => g.reader (tier.level + 1))

include hr in
theorem prompt_tierRound : PromptRound bound b (Ends 1) [] fun g => g.tierRound tier := by
  refine ⟨nofun, fun lhs g _ => ?_, fun b' _ next hnext lhs => ?_⟩
  · refine (reads_tierRound fun _ _ => trivial).weaken (fun _ hword => hword.mono ?_) fun _ _ _ hv => hv
    have hlevel := tier.level_bounds
    omega
  · simp only [tierRound, bind_assoc]
    refine .kind fun word _ => ?_
    cases hbuild : tier.build? word with
    | none =>
      simp only [pure_bind]
      exact Prompt.pure.forget
    | some build =>
      simp only [bind_assoc, ite_bind, pure_bind]
      have hword : word ≠ .endOfFile := by
        rintro rfl
        cases tier <;> cases hbuild
      refine .pass (w := [.identifier "x"]) (fun operator => ?_) hword
      by_cases htier : tier = .prepending
      · simp only [if_pos htier]
        exact .bind (h.readOperand rfl (by omega)) (fun rhs => .alloc fun id => .pure) (fun _ hword => hword) rfl
      · simp only [if_neg htier, binary_tighter]
        exact .bind hr (fun rhs => .alloc fun id => hnext _ (by omega) id) (fun _ hword => hword) rfl

include hr in
theorem prompt_tier : Prompt bound b 1 first (Ends 1) (some [.identifier "x"]) fun g => g.reader tier.level := by
  simp only [reader_tier]
  exact .bind hr (fun first => .repeating (prompt_tierRound h hr)) (fun _ hword => hword) rfl

end tiers

theorem prompt_pipe (hr : Prompt bound b 1 first (Ends 1) (some [.identifier "x"]) fun g => g.reader 3) :
    Prompt bound b 1 first (Ends 1) (some [.identifier "x"]) fun g => g.reader 2 := by
  refine .bind hr (fun lhs => .if_check ?_ .pure ?_) (fun _ hword => hword) rfl
  · exact .pass (fun operator =>
      .bind (h.readOperand rfl (by omega)) (fun rhs => .alloc_last) (fun _ hword => hword) rfl) nofun
  · rintro _ ⟨⟩ word hword
    exact hword.ne (by decide)

theorem prompt_assignment (hr : Prompt bound b 1 first (Ends 1) (some [.identifier "x"]) fun g => g.reader 2) :
    Prompt bound b 1 first (Ends 1) (some [.identifier "x"]) fun g => g.reader 1 := by
  refine .bind hr (fun target => .if_check ?_ .pure ?_) (fun _ hword => hword) rfl
  · refine .look (y := fun _ a _ g => if (a.kind? target).any isAssignable then
      Parser.advance >>= fun operator => g.read .expression >>= fun value =>
        Parser.node (.assign target value) operator.position
      else Parser.fail .invalidAssignTarget) (fun _ _ _ _ _ => rfl) fun _ a token htoken => ?_
    have hword : token.kind ≠ .endOfFile := by
      rw [show token.kind = .symbol .assign from htoken]
      exact nofun
    cases (a.kind? target).any isAssignable with
    | true =>
      exact .pass (fun operator =>
        .bind (h.expression (by omega)) (fun value => .alloc_last) (fun _ hword => hword) rfl) hword
    | false => exact .fail nofun
  · rintro _ ⟨⟩ word hword
    exact hword.ne (by decide)

/-- An expression of any level. -/
theorem prompt_reader {level : Nat} (h1 : 1 ≤ level) (h11 : level ≤ 11) :
    Prompt bound b 1 first (Ends 1) (some [.identifier "x"]) fun g => g.reader level := by
  have hgo (n : Nat) : ∀ level, 1 ≤ level → level + n = 11 → ∀ {b : Nat} {first : TokenKind → Prop},
      Prompt bound b 1 first (Ends 1) (some [.identifier "x"]) fun g => g.reader level := by
    induction n with
    | zero =>
      rintro _ - rfl b first
      exact prompt_postfixed h
    | succ n ih =>
      intro level h1 hn b first
      have hr {b : Nat} {first : TokenKind → Prop} : Prompt bound b 1 first (Ends 1) (some [.identifier "x"])
        fun g => g.reader (level + 1) := ih (level + 1) (by omega) (by omega)
      obtain rfl | rfl | ⟨tier, rfl⟩ | rfl : level = 1 ∨ level = 2 ∨ (∃ tier : Tier, tier.level = level) ∨ level = 10 := by
        by_cases h2 : level ≤ 2
        · omega
        · by_cases h9 : level ≤ 9
          · exact .inr (.inr (.inl (exists_tier (by omega) h9)))
          · omega
      · exact prompt_assignment h hr
      · exact prompt_pipe h hr
      · exact prompt_tier h hr
      · exact prompt_unary h
  exact hgo (11 - level) level h1 (by omega)

/-! ## Statements -/

omit h in
/-- Whether there is room for an operand. -/
theorem prompt_atStatementEnd {α : Type} {k : Bool → Grammar → Parser α}
    (hyes : Prompt bound b c (fun _ => True) (· = .symbol .semicolon) (some []) (k true))
    (hno : Prompt bound b c (fun _ => True) (· = .symbol .semicolon) none (k false)) :
    Prompt bound b c first (· = .symbol .semicolon) (some []) fun g => atStatementEnd >>= fun atEnd => k atEnd g := by
  have hdefault := hyes.default [] rfl
  refine .withWords ?_ ⟨nofun, hdefault.enough, fun g hg =>
    turns_atStatementEnd_yes (fun _ hword => hword) (hdefault.reads g hg)⟩
  simp only [atStatementEnd, bind_assoc]
  refine .kind fun word _ => ?_
  cases word with
  | symbol symbol =>
    cases symbol with
    | semicolon | rightBrace => exact hyes.forget.deeper le_rfl
    | _ => exact hno.deeper le_rfl
  | endOfFile => exact hyes.forget.deeper le_rfl
  | _ => exact hno.deeper le_rfl

theorem prompt_printStatement : Prompt bound b 1 first (· = .symbol .semicolon) none printStatement := by
  refine (Prompt.expectKeyword fun opening => prompt_atStatementEnd .alloc_last ?_).forget
  refine (Prompt.bind (prompt_expressions h (by omega)) (fun args => .alloc_last) ?_ rfl).forget
  rintro _ rfl
  exact ⟨Nat.zero_lt_one, nofun⟩

theorem prompt_returnStatement : Prompt bound b 1 first (· = .symbol .semicolon) none returnStatement := by
  refine (Prompt.expectKeyword fun opening => prompt_atStatementEnd .alloc_last ?_).forget
  simp only [Bool.false_eq_true, if_false, map_eq_pure_bind, bind_assoc, pure_bind]
  refine (Prompt.bind (h.expression (by omega)) (fun value => .alloc_last) ?_ rfl).forget
  rintro _ rfl
  exact Nat.zero_lt_one

omit h in
theorem prompt_expectLabel : Prompt bound b 1 first stop (some [.identifier "x"]) fun _ => Parser.expectLabel := by
  have hlabel : Prompt bound b 1 first stop (some [.identifier "x"]) fun _ => Parser.expectLabel >>= pure :=
    .expectLabel fun label => .pure
  simpa only [bind_pure] using hlabel

omit h in
theorem prompt_exportStatement : Prompt bound b 1 first (· = .symbol .semicolon) none exportStatement := by
  refine (Prompt.expectKeyword fun opening => .bind (prompt_commaSeparated (u := fun _ => True)
    (fun b' _ => prompt_expectLabel) fun word hword => ⟨trivial, hword⟩) (fun labels => .alloc_last) ?_ rfl).forget
  rintro _ rfl
  exact nofun

omit h in
theorem prompt_statementEnd : Prompt bound b 0 first stop (some [.symbol .semicolon]) fun _ => statementEnd := by
  refine .withWords (.if_eat .pure ?_ nofun nofun)
    ⟨by simp, by simp, fun g _ => .if_eat_yes nofun (Reads.pure fun _ _ => trivial)⟩
  refine .look (y := fun p _ _ _ => if p = some (.symbol .rightBrace) then pure () else
    Parser.checkSymbol .rightBrace >>= fun found => if found then pure () else
      Parser.cursor >>= fun cursor => if cursor.atEnd then pure () else Parser.failExpecting (.symbol .semicolon))
    (fun _ _ _ _ _ => rfl) fun p _ _ _ => ?_
  split
  · exact Prompt.pure.forget
  · exact .if_check Prompt.pure.forget (.if_atEnd Prompt.pure.forget (.kind fun _ _ => .fail nofun) nofun) nofun

theorem prompt_statement (hb : 1 ≤ b) : Prompt bound b 1 first stop none statement := by
  have hended {x : Grammar → Parser NodeId} {first ends : TokenKind → Prop} (hx : Prompt bound b 1 first ends none x)
      (hends : ends (.symbol .semicolon)) :
      Prompt bound b 1 first stop none fun g => x g >>= fun stmt => statementEnd >>= fun _ => pure stmt := by
    refine .bind hx (fun stmt => .bind prompt_statementEnd (fun _ => .pure) (fun _ _ => trivial) rfl) ?_ rfl
    rintro _ rfl
    exact hends
  have hexpression (word : TokenKind) : Prompt bound b 1 (· = word) stop none
      fun g => g.read .expression >>= fun stmt => statementEnd >>= fun _ => pure stmt :=
    hended (h.expression hb).forget Nat.zero_lt_one
  refine .kind fun word _ => ?_
  cases word with
  | keyword keyword =>
    cases keyword with
    | define => exact hended (prompt_binding h).forget Nat.zero_lt_one
    | print => exact hended (prompt_printStatement h) rfl
    | ret => exact hended (prompt_returnStatement h) rfl
    | exports => exact hended prompt_exportStatement rfl
    | _ => exact hexpression _
  | symbol symbol =>
    cases symbol with
    | leftBrace =>
      have hblock : Prompt bound b 1 (· = .symbol .leftBrace) (fun _ => True) _ block := prompt_block h
      exact hended hblock.forget trivial
    | _ => exact hexpression _
  | _ => exact hexpression _

/-! ## Every depth -/

omit h in
/-- A name is read one level deeper. -/
theorem defaults_read {nonterminal : Nonterminal} {level : Nat} (hlevel : nonterminal.level? = some level) :
    Defaults b 1 (Ends 1) [.identifier "x"] fun g => g.read nonterminal := by
  have hbounds : 1 ≤ level ∧ level ≤ 11 := by
    cases nonterminal with
    | statement | conditional => cases hlevel
    | _ =>
      obtain rfl := Option.some.inj hlevel
      exact ⟨by omega, by omega⟩
  have hwrite : (Syntax.Expression.name "x").writeAt level = [.identifier "x"] :=
    Syntax.Expression.writeAt_of_le hbounds.2
  refine ⟨by simp, by simp, fun g hg => ?_⟩
  rw [List.length_singleton] at hg
  have hread := hg.understands.operand hlevel le_rfl (.name "x") (by rw [hwrite, List.length_singleton]; omega) .empty
  rw [hwrite] at hread
  exact hread.weaken (fun _ hword => hword.mono hbounds.1) fun _ _ _ _ => trivial

omit h in
/-- What is read one level deeper is prompt, however many tokens there are. -/
theorem promptBelow (bound : Nat) : PromptBelow bound := by
  induction bound with
  | zero => exact ⟨fun hlevel => ⟨fun _ _ _ _ _ _ hle => absurd hle (by omega), fun w hw =>
      Option.some.inj hw ▸ defaults_read hlevel⟩, ⟨fun _ _ _ _ _ _ hle => absurd hle (by omega), nofun⟩,
      ⟨fun _ _ _ _ _ _ hle => absurd hle (by omega), nofun⟩⟩
  | succ bound h =>
    constructor
    case operand =>
      intro nonterminal level hlevel
      refine .withWords (.read (b := 0) ?_) (defaults_read hlevel)
      have hreader {first : TokenKind → Prop} (level : Nat) (h1 : 1 ≤ level) (h11 : level ≤ 11) :
          Prompt bound 0 1 first (Ends 1) none fun g => g.reader level := (prompt_reader h h1 h11).forget
      cases nonterminal with
      | expression => exact hreader 1 (by omega) (by omega)
      | pipe => exact hreader 2 (by omega) (by omega)
      | prepend => exact hreader 7 (by omega) (by omega)
      | unary => exact hreader 10 (by omega) (by omega)
      | statement => cases hlevel
      | conditional => cases hlevel
    case conditional => exact .read (prompt_conditional h).forget
    case statement => exact .read (prompt_statement h le_rfl)

/-! ## Units -/

omit h in
theorem prompt_unit : Prompt bound 2 0 first (· = .endOfFile) (some []) unit := by
  refine .position fun opening => .bind (.repeating (w := []) ⟨by simp, fun items g _ => ?_, fun b' _ next hnext items => ?_⟩)
    (fun items => .alloc_last) (fun _ hword => hword) rfl
  · exact .if_atEnd_yes (fun _ hword => hword) (Reads.pure fun _ _ => ⟨_, rfl, trivial⟩)
  · simp only [eatSymbol, bind_assoc, ite_bind, pure_bind]
    refine .if_atEnd Prompt.pure.forget (.if_eat (hnext _ (by omega) items) ?_ (by simp) (by simp)) (by simp)
    exact .bind ((promptBelow bound).readStatement (by omega)) (fun id => hnext _ (by omega) _) (fun _ _ => trivial) rfl

end Grammar

/-- Parsing tells what the grammar says from the first token on. -/
theorem parse_eq (tokens : List Lexeme) : parse tokens =
    match (Grammar.ofDepth (2 * tokens.length + 2) (2 * tokens.length + 2)).unit (.before none .empty tokens) with
    | .ok (body, s) => .ok ⟨s.arena, body⟩
    | .error e => .error e := by
  cases tokens <;> rfl

/-- The grammar of a list of tokens reaches beyond every one of them. -/
theorem Grammar.reaches_parse (passed rest : List Lexeme) (token : Lexeme) :
    (ofDepth (2 * (passed ++ token :: rest).length + 2) (2 * (passed ++ token :: rest).length + 2)).Reaches
      (2 * passed.length + 2) := by
  refine ⟨_, _, rfl, ?_, le_rfl, by omega⟩
  rw [List.length_append]
  omega

/-- Reading a unit stops at one of its tokens. -/
theorem stops_unit {tokens : List Lexeme} (h : Terminated tokens) :
    ∃ passed token rest r, tokens = passed ++ token :: rest ∧
      Parser.Stops 2 0 (· = .endOfFile) Grammar.unit none .empty passed token r := by
  obtain ⟨first, rest, rfl⟩ := List.exists_cons_of_ne_nil h.ne_nil
  have hunit : Parser.Prompt (2 * (rest.length + 1) + 2) 2 0 (fun _ => True) (· = .endOfFile) (some []) Grammar.unit :=
    Grammar.prompt_unit
  exact hunit.stops none .empty first rest h trivial le_rfl

/-- What is read of a unit by some grammar that reaches far is read by parsing. -/
theorem exists_parse {tokens : List Lexeme} (h : Terminated tokens) {m : Nat}
    (hrun : ∀ g : Grammar, g.Reaches m → ∃ v s, g.unit (.before none .empty tokens) = .ok (v, s)) :
    ∃ p, parse tokens = .ok p := by
  obtain ⟨passed, token, rest, r, rfl, hstops⟩ := stops_unit h
  -- One grammar that reaches far enough for both.
  have hfar : (Grammar.ofDepth (m + 2 * passed.length + 2) (m + 2 * passed.length + 2)).Reaches
      (m + 2 * passed.length + 2) := ⟨_, _, rfl, le_rfl, le_rfl, by omega⟩
  obtain ⟨v, s, hok⟩ := hrun _ (hfar.mono (by omega))
  rw [hstops.runs _ (hfar.mono (by omega)) rest] at hok
  rw [parse_eq, hstops.runs _ (Grammar.reaches_parse passed rest token) rest]
  cases r with
  | ok v a => exact ⟨_, rfl⟩
  | error cause => cases hok

/-- A syntax error names the first token at which the tokens can no longer be completed to a program: whatever comes
after that token the error is the same, and what stands before it is the beginning of a program. -/
theorem parse_error_at_first_hopeless_token {tokens : List Lexeme} (hts : Terminated tokens) {e : ParseError}
    (he : parse tokens = .error e) :
    ∃ passed token rest, tokens = passed ++ token :: rest ∧ e.position = token.position ∧
      (∀ rest', parse (passed ++ token :: rest') = .error e) ∧
      ∃ more, Terminated (passed ++ more) ∧ ∃ p, parse (passed ++ more) = .ok p := by
  obtain ⟨passed, token, rest, r, rfl, hstops⟩ := stops_unit hts
  have hrun (rest' : List Lexeme) := hstops.runs _ (Grammar.reaches_parse passed rest' token) rest'
  have hparse := parse_eq (passed ++ token :: rest)
  rw [hrun, he] at hparse
  cases r with
  | ok v a => cases hparse
  | error cause =>
    obtain rfl := Except.error.inj hparse
    refine ⟨passed, token, rest, rfl, rfl, fun rest' => by rw [parse_eq, hrun]; rfl, ?_⟩
    obtain rfl | hne := eq_or_ne passed []
    · exact ⟨[⟨.endOfFile, token.position⟩], .last rfl, _, rfl⟩
    · obtain ⟨words, m, hwords, hcompletes⟩ := hstops.completes hne
      -- The words stand at any position.
      let standing (word : TokenKind) : Lexeme := ⟨word, token.position⟩
      have hmore : ((words ++ [TokenKind.endOfFile]).map standing).map Lexeme.kind = words ++ [.endOfFile] := by
        rw [List.map_map]
        exact List.map_id _
      have hends : Terminated ((words ++ [TokenKind.endOfFile]).map standing) := by
        rw [List.map_append]
        refine .append (fun t ht => ?_) (.last rfl)
        obtain ⟨word, hword, rfl⟩ := List.mem_map.1 ht
        intro h
        exact hwords (h ▸ hword)
      have hwhole := Terminated.append hts.split.1 hends
      refine ⟨_, hwhole, exists_parse hwhole (m := m) fun g hg => ?_⟩
      obtain ⟨v, s, hok, -⟩ := hcompletes g hg _ _ [] hmore rfl
      exact ⟨v, s, hok⟩

/-- Reading `x + ;`, which no expression can come after the plus sign of. -/
theorem parse_error_at_semicolon_without_operand :
    Terminated (([.identifier "x", .symbol .plus, .symbol .semicolon, .endOfFile] : List TokenKind).map
      (⟨·, ⟨⟨0, 0⟩, 1, 1⟩⟩)) ∧ ∃ e passed token rest,
        parse (([.identifier "x", .symbol .plus, .symbol .semicolon, .endOfFile] : List TokenKind).map
          (⟨·, ⟨⟨0, 0⟩, 1, 1⟩⟩)) = .error e ∧
        ([.identifier "x", .symbol .plus, .symbol .semicolon, .endOfFile] : List TokenKind).map
          (⟨·, ⟨⟨0, 0⟩, 1, 1⟩⟩) = passed ++ token :: rest ∧ e.position = token.position ∧
        (∀ rest', parse (passed ++ token :: rest') = .error e) ∧
        ∃ more, Terminated (passed ++ more) ∧ ∃ p, parse (passed ++ more) = .ok p := by
  have hts : Terminated (([.identifier "x", .symbol .plus, .symbol .semicolon, .endOfFile] : List TokenKind).map
      (⟨·, ⟨⟨0, 0⟩, 1, 1⟩⟩)) := .cons nofun (.cons nofun (.cons nofun (.last rfl)))
  obtain ⟨e, he⟩ : ∃ e, parse (([.identifier "x", .symbol .plus, .symbol .semicolon, .endOfFile] : List TokenKind).map
      (⟨·, ⟨⟨0, 0⟩, 1, 1⟩⟩)) = .error e := ⟨_, rfl⟩
  obtain ⟨passed, token, rest, hsplit, hposition, hfails, hcompletes⟩ := parse_error_at_first_hopeless_token hts he
  exact ⟨hts, e, passed, token, rest, he, hsplit, hposition, hfails, hcompletes⟩

end DynScript
