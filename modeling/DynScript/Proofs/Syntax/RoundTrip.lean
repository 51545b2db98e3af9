import DynScript.Proofs.Syntax.Expressions
import DynScript.Proofs.Syntax.Unique

/-!
# Reading what has been written

Reading the tokens of a unit that has been written out gives a program that shows the statements, and no others. The
grammar understands at every depth what is written in fewer tokens than that, so it understands whole units at the depth
to which they are read.
-/

namespace DynScript

open Syntax

namespace Grammar

open DynScript.Parser

variable {g : Grammar} {n : Nat} {a : Arena} {stop : TokenKind → Prop}

/-! ## Statements -/

theorem reads_statementEnd : Reads a statementEnd [.symbol .semicolon] stop fun _ _ => True :=
  .if_eat_yes nofun (Reads.pure fun _ _ => trivial)

/-- A statement and its semicolon. -/
theorem reads_ended {x : Parser NodeId} {words : List TokenKind} {ends : TokenKind → Prop}
    {post : Arena → NodeId → Prop}
    (h : Reads a x words ends post) (hsemicolon : ends (.symbol .semicolon)) :
    Reads a (x >>= fun stmt => statementEnd >>= fun _ => pure stmt) (words ++ [.symbol .semicolon]) stop post := by
  refine Reads.andThen h ?_ fun id b _ hid => ?_
  · rintro word rfl
    exact hsemicolon
  · refine Reads.andLook reads_statementEnd (fun _ hword => hword) fun _ c hc _ => ?_
    exact Reads.pure fun d hd => hid d (hc.trans hd)

/-- At the end of a statement. -/
theorem turns_atStatementEnd_yes {α β : Type} {words : List TokenKind} {k : Bool → Parser β} {y : α → Parser β}
    {post : Arena → α → Prop} (hend : ∀ word, Heads stop words word → word = .symbol .semicolon)
    (h : Turns a (k true) words stop y post) : Turns a (atStatementEnd >>= k) words stop y post := by
  unfold atStatementEnd
  rw [bind_assoc]
  refine .kind fun word hword => ?_
  rw [hend word hword]
  exact Turns.weaken h (fun _ hnext => hnext.1) fun _ _ _ hv => hv

/-- Before an expression. -/
theorem turns_atStatementEnd_no {α β : Type} {words : List TokenKind} {k : Bool → Parser β} {y : α → Parser β}
    {post : Arena → α → Prop} (hstart : Starts (fun word => word.opens) words)
    (h : Turns a (k false) words stop y post) : Turns a (atStatementEnd >>= k) words stop y post := by
  unfold atStatementEnd
  rw [bind_assoc]
  refine .kind fun word hword => ?_
  have hopens : word.opens := hstart.heads hword
  have hrest : Turns a (k false) words (fun next => stop next ∧ Heads stop words word) y post :=
    h.weaken (fun _ hnext => hnext.1) fun _ _ _ hv => hv
  split
  · cases hopens
  · cases hopens
  · cases hopens
  · rw [pure_bind]
    exact hrest

section statements

variable (hg : g.Understands n) (hn : n < g.limit)

include hg hn in
theorem reads_printStatement {args : List Expression} (h : (commas (Expression.writeEach args)).length < n) :
    Reads a g.printStatement (.keyword .print :: commas (Expression.writeEach args)) (· = .symbol .semicolon)
      fun b id => (Statement.print args).At b id := by
  refine .expectKeyword fun opening => ?_
  cases args with
  | nil =>
    refine turns_atStatementEnd_yes (fun _ hword => hword) ?_
    simp only [if_true, pure_bind]
    exact Reads.alloc fun id b _ hid => ⟨[], hid, rfl⟩
  | cons e rest =>
    refine turns_atStatementEnd_no (starts_commas e rest) ?_
    simp only [Bool.false_eq_true, if_false]
    refine Reads.andLook (reads_expressions hg (List.cons_ne_nil e rest) h hn.le) ?_ fun ids b _ hids => ?_
    · rintro word rfl
      exact ⟨Nat.zero_lt_one, nofun⟩
    · exact Reads.alloc fun id c hc hid => ⟨ids, hid, hids c hc⟩

theorem reads_returnStatement_nothing :
    Reads a g.returnStatement [.keyword .ret] (· = .symbol .semicolon) fun b id => Statement.returns.At b id := by
  refine .expectKeyword fun opening => turns_atStatementEnd_yes (fun _ hword => hword) ?_
  simp only [if_true, pure_bind]
  exact Reads.alloc fun id b _ hid => hid

include hg in
theorem reads_returnStatement {value : Expression} (h : value.write.length < n) :
    Reads a g.returnStatement (.keyword .ret :: value.write) (· = .symbol .semicolon)
      fun b id => (Statement.returnsValue value).At b id := by
  refine .expectKeyword fun opening => turns_atStatementEnd_no value.starts_opens ?_
  simp only [Bool.false_eq_true, if_false, map_eq_pure_bind, bind_assoc, pure_bind]
  refine Reads.andLook (hg.expression h a) ?_ fun i b _ hi => ?_
  · rintro word rfl
    exact Nat.zero_lt_one
  · exact Reads.alloc fun id c hc hid => ⟨i, hid, hi c hc⟩

include hn in
theorem reads_exportStatement {first : String} {more : List String}
    (h : (commas ((first :: more).map fun name => [.identifier name])).length < n) :
    Reads a g.exportStatement (.keyword .exports :: commas ((first :: more).map fun name => [.identifier name]))
      (· = .symbol .semicolon) fun b id => (Statement.exports first more).At b id := by
  have hitem (name : String) (_ : name ∈ first :: more) (b : Arena) (_ : a.Keeps b) :
      Reads b Parser.expectLabel [.identifier name] (fun _ => True) fun _ label => label.name = name := by
    rw [← bind_pure Parser.expectLabel]
    exact .expectLabel fun label hlabel => Reads.pure fun _ _ => hlabel
  refine .expectKeyword fun opening => ?_
  refine Reads.andLook (reads_commaSeparated (List.cons_ne_nil first more) (h.trans hn) hitem trivial
    fun word hword => ⟨trivial, hword⟩) ?_ fun labels b _ hlabels => ?_
  · rintro word rfl
    exact nofun
  · exact Reads.alloc fun id c hc hid => ⟨labels, hid, map_eq_of_forall₂ (hlabels c hc)⟩

include hg in
/-- A statement that is an expression. -/
theorem reads_expressionStatement {value : Expression} (h : (Statement.expression value).write.length ≤ n) :
    Reads a g.statement (Statement.expression value).write stop fun b id => (Statement.expression value).At b id := by
  rw [Statement.write] at h ⊢
  rw [List.length_append, List.length_singleton] at h
  obtain ⟨wanted, hwanted, hwords⟩ : ∃ wanted, 1 ≤ wanted ∧
      parenthesized (value.write.head? = some (.symbol .leftBrace)) value.write = value.writeAt wanted := by
    cases hbrace : decide (value.write.head? = some (.symbol .leftBrace)) with
    | true => exact ⟨12, by omega, (Expression.writeAt_of_lt (Nat.lt_succ_of_le value.level_bounds.2)).symm⟩
    | false => exact ⟨1, le_rfl, value.writeAt_one.symm⟩
  have hstart : Starts (fun word => word.opens ∧ word ≠ .symbol .leftBrace)
      (parenthesized (value.write.head? = some (.symbol .leftBrace)) value.write) := by
    refine parenthesized_starts ⟨rfl, nofun⟩ fun hbrace => ?_
    obtain ⟨first, rest, heq, hfirst⟩ := value.starts_opens
    rw [heq]
    refine .cons ⟨hfirst, ?_⟩
    rintro rfl
    rw [heq] at hbrace
    exact of_decide_eq_false hbrace rfl
  rw [hwords] at h hstart ⊢
  refine .kind fun word hword => ?_
  obtain ⟨hopens, hne⟩ := (hstart.append _).heads hword
  have hvalue : Reads a (g.read .expression) (value.writeAt wanted) (Ends 1) fun b id => value.At b id :=
    hg.operand rfl hwanted value (by omega) a
  split
  · cases hopens
  · cases hopens
  · cases hopens
  · cases hopens
  · exact absurd rfl hne
  · exact reads_ended hvalue Nat.zero_lt_one

include hg hn in
theorem reads_statement {st : Statement} (h : st.write.length ≤ n) :
    Reads a g.statement st.write stop fun b id => st.At b id := by
  cases st with
  | binding name mode isFinal value =>
    rw [Statement.write] at h ⊢
    simp only [List.length_append, List.length_cons] at h
    exact .kind_cons (reads_ended (reads_binding hg hn (by omega)) Nat.zero_lt_one)
  | print args =>
    rw [Statement.write] at h ⊢
    simp only [List.length_append, List.length_cons] at h
    exact .kind_cons (reads_ended (reads_printStatement hg hn (by omega)) rfl)
  | returns => exact .kind_cons (reads_ended reads_returnStatement_nothing rfl)
  | returnsValue value =>
    rw [Statement.write] at h ⊢
    simp only [List.length_append, List.length_cons] at h
    exact .kind_cons (reads_ended (reads_returnStatement hg (by omega)) rfl)
  | exports first more =>
    rw [Statement.write] at h ⊢
    simp only [List.length_append, List.length_cons] at h
    exact .kind_cons (reads_ended (reads_exportStatement hn (by omega)) rfl)
  | block body =>
    rw [Statement.write] at h ⊢
    simp only [List.length_append, List.length_cons, braced] at h
    have hblock : Reads a g.block (braced (Statement.writeAll body)) (fun _ => True) _ := reads_block hg hn (by omega)
    exact .kind_cons (reads_ended hblock trivial)
  | expression value => exact reads_expressionStatement hg h

end statements

/-! ## Every depth -/

/-- The grammar understands at every depth what is written in fewer tokens than that. -/
theorem understands_ofDepth {limit depth : Nat} (h : depth ≤ limit) : (ofDepth limit depth).Understands depth := by
  induction depth with
  | zero => exact ⟨fun _ _ _ h => absurd h (Nat.not_lt_zero _), fun _ _ _ h => absurd h (Nat.not_lt_zero _),
      fun _ h => absurd h (Nat.not_lt_zero _)⟩
  | succ depth ih =>
    have hg := ih (by omega)
    have hn : depth < (ofDepth limit depth).limit := by
      cases depth <;> exact h
    constructor
    case operand =>
      intro nonterminal level wanted hlevel hwanted e hlength a
      have hread {level : Nat} (h1 : 1 ≤ level) (h11 : level ≤ 11) (hwanted : level ≤ wanted) :=
        (known hg hn e).reads h1 h11 hwanted (Nat.le_of_lt_succ hlength) a
      cases nonterminal with
      | expression => obtain rfl := Option.some.inj hlevel; exact hread (by omega) (by omega) hwanted
      | pipe => obtain rfl := Option.some.inj hlevel; exact hread (by omega) (by omega) hwanted
      | prepend => obtain rfl := Option.some.inj hlevel; exact hread (by omega) (by omega) hwanted
      | unary => obtain rfl := Option.some.inj hlevel; exact hread (by omega) (by omega) hwanted
      | statement => cases hlevel
      | conditional => cases hlevel
    case conditional =>
      intro condition body otherwise hlength a
      exact reads_conditional hg hn (Nat.le_of_lt_succ hlength)
    case statement =>
      intro st hlength a
      exact reads_statement hg hn (Nat.le_of_lt_succ hlength)

/-! ## Units -/

/-- The statements of a unit, through the end of the file. -/
theorem reads_unit {body : List Statement} (hg : g.Understands n) (h : (Statement.writeAll body).length < n)
    (hn : n ≤ g.limit) :
    Reads a g.unit (Statement.writeAll body) (· = .endOfFile)
      fun b id => ∃ ids, b.kind? id = some (.block ids) ∧ Statement.EachAt b body ids := by
  have hfew : body.length ≤ (Statement.writeAll body).length := by
    rw [Statement.writeAll_eq]
    exact length_le_flatMap fun st _ => st.starts.ne_nil
  have hshort (st : Statement) (hst : st ∈ body) : st.write.length < n := (Statement.length_le_writeAll hst).trans_lt h
  have hread : Reads a (g.repeating #[] fun items => do
      if (← Parser.cursor).atEnd then return .done items.toList
      else if ← Parser.eatSymbol .semicolon then return .more items
      else return .more (items.push (← g.read .statement)))
      (Statement.writeAll body) (· = .endOfFile) fun b ids => Statement.EachAt b body ids := by
    rw [Statement.writeAll_eq, ← List.append_nil (body.flatMap _)]
    refine (reads_rounds_items (fun c (st : Statement) id => st.At c id)
      (fun _ items ids => ids = items.toList) (by omega) ?_ ?_ #[]).weaken (fun _ hw => hw) ?_
    · intro st hst b hb acc
      refine .if_atEnd_no (fun w hw => (st.starts.heads hw).2.2) ?_
      refine .if_eat_no (fun w hw => (st.starts.heads hw).2.1) ?_
      refine Reads.andLook (hg.statement st (hshort st hst) b) (fun _ hword => hword) fun id c _ hid => ?_
      exact Reads.pure fun d hd => ⟨id, rfl, hid d hd⟩
    · exact fun b hb items => .if_atEnd_yes (fun _ hw => hw) (Reads.pure fun c _ => ⟨_, rfl, rfl⟩)
    · rintro c ids - ⟨items, shown, rfl, hshown, rfl⟩
      exact Statement.eachAt_of_forall₂ hshown
  refine .position fun opening => ?_
  refine Reads.andLook hread (fun _ hword => hword) fun ids b _ hids => ?_
  exact Reads.alloc fun id c hc hid => ⟨ids, hid, hids c hc⟩

end Grammar

/-- Reading the tokens of statements that have been written out gives a program that shows these statements and no
others. -/
theorem parse_written {tokens : List Lexeme} {body : List Statement}
    (h : tokens.map Lexeme.kind = Statement.writeAll body ++ [.endOfFile]) :
    ∃ p, parse tokens = .ok p ∧ p.Shows body ∧ ∀ other, p.Shows other → other = body := by
  have hlength : tokens.length = (Statement.writeAll body).length + 1 := by
    rw [← List.length_map Lexeme.kind, h, List.length_append, List.length_singleton]
  have hahead : (ParseState.mk (.ofList tokens) .empty).ahead = Statement.writeAll body ++ [.endOfFile] := by
    cases tokens with
    | nil => cases hlength
    | cons first rest => exact h
  have hlimit : (Grammar.ofDepth (2 * tokens.length + 2) (2 * tokens.length + 2)).limit = 2 * tokens.length + 2 := rfl
  have hunit : Parser.Reads .empty (Grammar.ofDepth (2 * tokens.length + 2) (2 * tokens.length + 2)).unit
      (Statement.writeAll body) (· = .endOfFile) _ :=
    Grammar.reads_unit (Grammar.understands_ofDepth le_rfl) (by omega) (by omega)
  obtain ⟨id, s, hrun, -, -, hshows⟩ := hunit _ _ [] (.refl _) hahead rfl
  have hp : Program.Shows ⟨s.arena, id⟩ body := hshows s.arena (.refl _)
  refine ⟨⟨s.arena, id⟩, ?_, hp, fun other hother => Program.shows_unique hother hp⟩
  unfold parse
  simp only [hrun]
  rfl

/-- Reading `x - (y - z); ({});`. -/
theorem parse_written_subtraction :
    ∃ p, parse (([.identifier "x", .symbol .minus, .symbol .leftParen, .identifier "y", .symbol .minus,
        .identifier "z", .symbol .rightParen, .symbol .semicolon, .symbol .leftParen, .symbol .leftBrace,
        .symbol .rightBrace, .symbol .rightParen, .symbol .semicolon, .endOfFile] : List TokenKind).map
          (⟨·, ⟨⟨0, 0⟩, 1, 1⟩⟩)) = .ok p ∧
      p.Shows [.expression (.binary (.arithmetic .subtract) (.name "x")
        (.binary (.arithmetic .subtract) (.name "y") (.name "z"))), .expression (.record [])] := by
  have h : (([.identifier "x", .symbol .minus, .symbol .leftParen, .identifier "y", .symbol .minus,
      .identifier "z", .symbol .rightParen, .symbol .semicolon, .symbol .leftParen, .symbol .leftBrace,
      .symbol .rightBrace, .symbol .rightParen, .symbol .semicolon, .endOfFile] : List TokenKind).map
        (fun kind => (⟨kind, ⟨⟨0, 0⟩, 1, 1⟩⟩ : Lexeme))).map Lexeme.kind =
      Statement.writeAll [.expression (.binary (.arithmetic .subtract) (.name "x")
        (.binary (.arithmetic .subtract) (.name "y") (.name "z"))), .expression (.record [])] ++ [.endOfFile] := by rfl
  obtain ⟨p, hp, hshows, -⟩ := parse_written h
  exact ⟨p, hp, hshows⟩

end DynScript
