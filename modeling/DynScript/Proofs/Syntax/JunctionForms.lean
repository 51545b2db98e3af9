import DynScript.Proofs.Syntax.Junction
import DynScript.Proofs.Syntax.PromptForms

/-!
# Productions alone and amid others

Every production does the same alone and amid others, if what it reads one level deeper does (`Junction.Below`). What
ends with a closing symbol does so whatever comes next, since it does not look at the next token; an expression does so
if the statement has to end there.
-/

namespace DynScript

namespace Grammar

/-- What comes after the name of a binding and its parameters. -/
def bindingTail (g : Grammar) (isFinal : Bool) (mode : BindingMode) (name : Label) (labels : List Label) :
    Parser NodeId := do
  let params := labels.map fun label => (⟨label, false⟩ : Param)
  let _ ← Parser.expectSymbol .bind
  let value ←
    if params.isEmpty then g.read .expression
    else Parser.alloc (.function params (← g.block)) name.position
  Parser.alloc (.binding name.name mode isFinal value) name.position

theorem binding_eq (g : Grammar) : g.binding = Parser.expectKeyword .define >>= fun _ =>
    Parser.eatKeyword .final >>= fun isFinal => bindingMode >>= fun mode => Parser.expectLabel >>= fun name =>
      g.labels >>= g.bindingTail isFinal mode name := rfl

/-- A statement without its end. -/
def statementBody (g : Grammar) : Parser NodeId := do
  match ← Parser.kind with
  | .keyword .define => g.binding
  | .keyword .print => g.printStatement
  | .keyword .ret => g.returnStatement
  | .keyword .exports => g.exportStatement
  | .symbol .leftBrace => g.block
  | _ => g.read .expression

theorem statement_eq (g : Grammar) :
    g.statement = g.statementBody >>= fun stmt => statementEnd >>= fun _ => Pure.pure stmt := by
  unfold statement statementBody
  rw [bind_assoc]
  congr
  funext word
  cases word with
  | keyword keyword => cases keyword <;> rfl
  | symbol symbol => cases symbol <;> rfl
  | _ => rfl

/-- What comes after the first name of an import, by the token after that name. -/
def importTail (g : Grammar) (opening : Position) (label : Label) (word : TokenKind) : Parser NodeId :=
  match word.identifier? with
  | none => pathTail opening .relative label g
  | some _ =>
    if label.name = "base" then Parser.expectLabel >>= fun label => pathTail opening .base label g
    else if label.name = "std" then Parser.expectLabel >>= fun label => pathTail opening .std label g
    else pathTail opening .relative label g

theorem importForm_kind {g : Grammar} (hg : 0 < g.limit) : g.importForm =
    Parser.expectKeyword .imports >>= fun opening => Parser.expectLabel >>= fun label =>
      Parser.kind >>= g.importTail opening label := by
  rw [importForm_eq hg]
  congr! 4 with opening label
  funext s
  show _ = g.importTail opening label s.cursor.kind s
  have hkind : Parser.kind s = .ok (s.cursor.kind, s) := rfl
  unfold importTail
  by_cases hbase : label.name = "base"
  · simp only [if_pos hbase]
    rw [rooted, Parser.bind_of_ok hkind]
    cases s.cursor.kind.identifier? <;> rfl
  · by_cases hstd : label.name = "std"
    · simp only [if_neg hbase, if_pos hstd]
      rw [rooted, Parser.bind_of_ok hkind]
      cases s.cursor.kind.identifier? <;> rfl
    · simp only [if_neg hbase, if_neg hstd]
      cases s.cursor.kind.identifier? <;> rfl

/-- How a statement ends, by the tokens before and under the cursor. -/
theorem statementEnd_run (s : ParseState) : statementEnd s =
    if s.cursor.kind = .symbol .semicolon then (Parser.advance >>= fun _ => pure ()) s
    else if s.cursor.previous = some (.symbol .rightBrace) ∨ s.cursor.kind = .symbol .rightBrace ∨
      s.cursor.kind = .endOfFile then .ok ((), s)
    else Parser.failExpecting (.symbol .semicolon) s := by
  unfold statementEnd Parser.eatSymbol
  rw [Parser.eat_bind]
  show (if decide (s.cursor.kind = .symbol .semicolon) then _ else _ : Parser Unit) s = _
  by_cases hsemicolon : s.cursor.kind = .symbol .semicolon
  · rw [decide_eq_true hsemicolon, if_pos rfl, if_pos hsemicolon]
    rfl
  rw [decide_eq_false hsemicolon, if_neg Bool.false_ne_true, if_neg Bool.false_ne_true, if_neg hsemicolon]
  show (if s.cursor.previous = some (.symbol .rightBrace) then _ else _ : Parser Unit) s = _
  by_cases hp : s.cursor.previous = some (.symbol .rightBrace)
  · rw [if_pos hp, if_pos (.inl hp)]
    rfl
  rw [if_neg hp]
  show (if decide (s.cursor.kind = .symbol .rightBrace) then _ else _ : Parser Unit) s = _
  by_cases hbrace : s.cursor.kind = .symbol .rightBrace
  · rw [decide_eq_true hbrace, if_pos rfl, if_pos (.inr (.inl hbrace))]
    rfl
  rw [decide_eq_false hbrace, if_neg Bool.false_ne_true]
  show (if decide (s.cursor.kind = .endOfFile) then _ else _ : Parser Unit) s = _
  by_cases hend : s.cursor.kind = .endOfFile
  · rw [decide_eq_true hend, if_pos rfl, if_pos (.inr (.inr hend))]
    rfl
  rw [decide_eq_false hend, if_neg Bool.false_ne_true, if_neg (not_or.2 ⟨hp, not_or.2 ⟨hbrace, hend⟩⟩)]

/-- A semicolon is passed. -/
theorem statementEnd_semicolon {p : Option TokenKind} {a : Arena} {t : Lexeme} {tokens : List Lexeme}
    (ht : t.kind = .symbol .semicolon) (hne : tokens ≠ []) :
    statementEnd (.before p a (t :: tokens)) = .ok ((), .before (some t.kind) a tokens) := by
  have hend : t.kind ≠ .endOfFile := by
    rw [ht]
    simp
  exact (statementEnd_run _).trans ((if_pos ht).trans (ParseState.advance_before hend hne _))

/-- Where none is needed nothing is passed. -/
theorem statementEnd_none {s : ParseState} (hsemicolon : s.cursor.kind ≠ .symbol .semicolon)
    (h : s.cursor.previous = some (.symbol .rightBrace) ∨ s.cursor.kind = .symbol .rightBrace ∨
      s.cursor.kind = .endOfFile) : statementEnd s = .ok ((), s) :=
  (statementEnd_run s).trans ((if_neg hsemicolon).trans (if_pos h))

theorem statementEnd_endOfFile {s : ParseState} (hs : s.cursor.kind = .endOfFile) : statementEnd s = .ok ((), s) :=
  statementEnd_none (by rw [hs]; simp) (.inr (.inr hs))

end Grammar

namespace Junction

open DynScript.Parser Grammar

variable {α β γ γ' : Type} {J : Junction} {loose needs : Prop} {g g' : Grammar} {f : α → β}

/-! ## The end of a statement -/

section ended

variable {x y : Parser NodeId} {p q : Option TokenKind} {a : Arena} {w : List Lexeme} {s : ParseState}
  {ws : List TokenKind}

/-- Inside the words a statement that ends alone ends amid others. -/
theorem statementEnd_cons {t : Lexeme} (hw : J.Inside p (t :: w))
    (hrun : statementEnd (J.alone p a (t :: w)) = .ok ((), s)) :
    ∃ p' w', s = J.alone p' a w' ∧ J.Inside p' w' ∧ w'.length ≤ w.length + 1 ∧
      statementEnd (J.amid p a (t :: w)) = .ok ((), J.amid p' a w') := by
  by_cases hsemicolon : t.kind = .symbol .semicolon
  · have halone : statementEnd (J.alone p a (t :: w)) = .ok ((), J.alone (some t.kind) a w) :=
      statementEnd_semicolon hsemicolon (List.append_ne_nil_of_right_ne_nil w (List.cons_ne_nil _ _))
    cases halone.symm.trans hrun
    exact ⟨_, w, rfl, hw.tail, Nat.le_succ _,
      statementEnd_semicolon hsemicolon (List.append_ne_nil_of_right_ne_nil w (List.cons_ne_nil _ _))⟩
  · replace hrun := ((statementEnd_run (J.alone p a (t :: w))).trans (if_neg hsemicolon)).symm.trans hrun
    split at hrun
    · rename_i hnone
      cases hrun
      exact ⟨p, t :: w, rfl, hw, le_rfl, statementEnd_none hsemicolon hnone⟩
    · cases hrun

/-- A statement and its end, of which the end may be a semicolon after the words. -/
theorem ended (h : J.Agree loose True ws J.move x y) :
    J.Agree True True ws J.move (x >>= fun stmt => statementEnd >>= fun _ => Pure.pure stmt)
      (y >>= fun stmt => statementEnd >>= fun _ => Pure.pure stmt) where
  runs p q a w v s hw hws hrun := by
    obtain ⟨u, t, hu, hend⟩ := exists_of_bind hrun
    obtain ⟨⟨⟩, t', ht', hv⟩ := exists_of_bind hend
    obtain ⟨rfl, rfl⟩ : u = v ∧ t' = s := by
      cases hv
      exact ⟨rfl, rfl⟩
    cases h.runs p q a w u t hw hws hu with
    | beyond _ ht =>
      cases (statementEnd_endOfFile ht).symm.trans ht'
      exact .beyond trivial ht
    | same ht hw₁ hle hsettled hy =>
      subst ht
      obtain rfl := hsettled (.inr trivial)
      rename_i w₁
      cases w₁ with
      | nil =>
        cases (statementEnd_endOfFile rfl).symm.trans ht'
        exact .beyond trivial rfl
      | cons first w₁ =>
        obtain ⟨p', w', rfl, hw', hle', hamid⟩ := statementEnd_cons hw₁ ht'
        exact .same rfl hw' (hle'.trans hle) (fun _ => rfl) (by rw [bind_of_ok hy, bind_of_ok hamid]; rfl)
  ends s v s' hs hws hrun := by
    obtain ⟨u, t, hu, -⟩ := exists_of_bind hrun
    exact absurd trivial (h.ends s u t hs hws hu).1

/-- A statement can end where the words end. -/
structure Ends (J : Junction) : Prop where
  /-- A semicolon is not the last token. -/
  more : J.next.kind = .symbol .semicolon → J.rest ≠ []
  /-- The file ends, or there is a semicolon, or none is needed. -/
  ends : J.next.kind = .endOfFile ∨ J.next.kind = .symbol .semicolon ∨ J.last = some (.symbol .rightBrace)

/-- What is left after the words: all of it, or all but a semicolon. -/
def Left (J : Junction) (w tokens : List Lexeme) : Prop :=
  tokens = J.next :: J.rest ∨ w = [] ∧ J.next.kind = .symbol .semicolon ∧ tokens = J.rest

/-- Where the words end a statement ends. -/
theorem Ends.statementEnd_nil (h : J.Ends) (hw : J.Inside p []) :
    ∃ p' tokens, statementEnd (J.amid p a []) = .ok ((), .before p' (J.base.append a) tokens) ∧ J.Left [] tokens := by
  by_cases hend : J.next.kind = .endOfFile
  · exact ⟨p, _, statementEnd_endOfFile hend, .inl rfl⟩
  by_cases hsemicolon : J.next.kind = .symbol .semicolon
  · exact ⟨_, J.rest, statementEnd_semicolon hsemicolon (h.more hsemicolon), .inr ⟨rfl, hsemicolon, rfl⟩⟩
  · have hbrace : p = some (.symbol .rightBrace) := hw.last.trans ((h.ends.resolve_left hend).resolve_left hsemicolon)
    exact ⟨p, _, statementEnd_none hsemicolon (.inl hbrace), .inl rfl⟩

/-- A statement that does the same alone and amid others, also where the words end, and its end. -/
theorem Agree.statement (h : J.Agree False True ws J.move x y) (hends : J.Ends) {id : NodeId} (hw : J.Inside p w)
    (hws : ws <+: (J.alone p a w).ahead)
    (hrun : (x >>= fun stmt => statementEnd >>= fun _ => Pure.pure stmt) (J.alone p a w) = .ok (id, s)) :
    ∃ p' q' a' w' tokens, s = J.alone p' a' w' ∧ J.Inside p' w' ∧ w'.length ≤ w.length ∧
      (y >>= fun stmt => statementEnd >>= fun _ => Pure.pure stmt) (J.amid q a w) =
        .ok (J.move id, .before q' (J.base.append a') (w' ++ tokens)) ∧ J.Left w' tokens := by
  obtain ⟨u, t, hu, hend⟩ := exists_of_bind hrun
  obtain ⟨⟨⟩, t', ht', hv⟩ := exists_of_bind hend
  obtain ⟨rfl, rfl⟩ : u = id ∧ t' = s := by
    cases hv
    exact ⟨rfl, rfl⟩
  cases h.runs p q a w u t hw hws hu with
  | beyond hloose => exact absurd hloose id
  | same ht hw₁ hle hsettled hy =>
    subst ht
    obtain rfl := hsettled (.inr trivial)
    rename_i a₁ w₁
    cases w₁ with
    | nil =>
      cases (statementEnd_endOfFile rfl).symm.trans ht'
      obtain ⟨p', tokens, hamid, hleft⟩ := hends.statementEnd_nil (a := a₁) hw₁
      exact ⟨_, p', a₁, [], tokens, rfl, hw₁, Nat.zero_le _, by rw [bind_of_ok hy, bind_of_ok hamid]; rfl, hleft⟩
    | cons first w₁ =>
      obtain ⟨p', w', rfl, hw', hle', hamid⟩ := statementEnd_cons hw₁ ht'
      exact ⟨p', p', a₁, w', _, rfl, hw', hle'.trans hle, by rw [bind_of_ok hy, bind_of_ok hamid]; rfl, .inl rfl⟩

end ended

/-! ## One level deeper -/

/-- What is read one level deeper is the same alone and amid others. An expression may go on at the end of the words if
it does not have to end there, and a statement may pass a semicolon. -/
structure Below (J : Junction) (g g' : Grammar) : Prop where
  pos : 0 < g.limit
  limit : g.limit ≤ g'.limit
  operand : ∀ nonterminal ≠ Nonterminal.statement,
    J.Agree (¬ J.Clear) True [] J.move (g.read nonterminal) (g'.read nonterminal)
  statement : J.Agree True True [] J.move (g.read .statement) (g'.read .statement)

namespace Below

variable (h : J.Below g g')
include h

theorem expression : J.Agree (¬ J.Clear) True [] J.move (g.read .expression) (g'.read .expression) :=
  h.operand .expression (by simp)

/-- Amid others a repetition may take more rounds. -/
theorem repeating {round : γ → Parser (Progress γ α)} {round' : γ' → Parser (Progress γ' β)} {u : γ → γ'}
    (hround : ∀ (next : γ → Parser α) (next' : γ' → Parser β),
      (∀ v, J.Agree loose needs [] f (next v) (next' (u v))) → ∀ v, J.Agree loose needs [] f
        (round v >>= fun | .more v => next v | .done z => Pure.pure z)
        (round' (u v) >>= fun | .more v => next' v | .done z => Pure.pure z)) {v : γ} {v' : γ'} (hv : u v = v') :
    J.Agree loose needs [] f (g.repeating v round) (g'.repeating v' round') := by
  rw [← hv]
  exact .rounds hround h.limit v

/-! ## Items -/

/-- What is read through a closing symbol needs that symbol. -/
theorem closedBy {item : Parser α} {item' : Parser β} {F : List α → List β} {close : Symbol}
    (hitem : J.Agree True False [] f item item') (hF : ∀ items, F items = items.map f) :
    J.Agree False True [] F (g.closedBy close item) (g'.closedBy close item') := by
  have hloop : J.Agree True False [] (Array.map f) (g.repeating #[] fun items => do
      if ← Parser.checkSymbol close then return .done items
      let items := items.push (← item)
      if ← Parser.eatSymbol .comma then return .more items else return .done items) (g'.repeating #[] fun items => do
      if ← Parser.checkSymbol close then return .done items
      let items := items.push (← item')
      if ← Parser.eatSymbol .comma then return .more items else return .done items) := by
    refine h.repeating (u := Array.map f) (fun next next' hnext items => ?_) Array.map_empty
    simp only [checkSymbol, eatSymbol, bind_assoc, ite_bind, pure_bind]
    refine .if_check (by simp) (.pure rfl) (.andThen hitem (fun v => ?_) id) (.inl trivial)
    rw [← Array.map_push]
    exact .if_eat (by simp) (hnext _) (.pure rfl) (.inl trivial)
  refine .closing hloop fun items => .expectSymbol fun _ => .pure ?_
  rw [hF, Array.toList_map]

theorem commaSeparated {item : Parser α} {item' : Parser β} {F : List α → List β}
    (hitem : J.Agree loose True [] f item item') (hF : ∀ items, F items = items.map f)
    (hcomma : loose ∨ J.next.kind ≠ .symbol .comma) :
    J.Agree loose True [] F (g.commaSeparated item) (g'.commaSeparated item') := by
  refine h.repeating (u := Array.map f) (fun next next' hnext items => ?_) Array.map_empty
  simp only [eatSymbol, bind_assoc, ite_bind, pure_bind]
  refine .andThen hitem (fun v => ?_) id
  rw [← Array.map_push]
  exact .if_eat (by simp) (hnext _).forget (.pure (by rw [hF, Array.toList_map])) (hcomma.imp_right .inr)

/-! ## Blocks -/

theorem statementsUntilBrace :
    J.Agree False True [] (List.map J.move) g.statementsUntilBrace g'.statementsUntilBrace := by
  refine h.repeating (u := Array.map J.move) (fun next next' hnext items => ?_) Array.map_empty
  simp only [eatSymbol, bind_assoc, ite_bind, pure_bind, Parser.failExpecting, fail_bind]
  refine .if_eat (by simp) (.pure (by simp)) ?_ (.inr (.inl trivial))
  refine .if_eat (by simp) (hnext items).forget ?_ (.inr (.inl trivial))
  refine .if_atEnd (.of_fails fun _ _ => Agree.kind_fail_ne) (.closing h.statement fun id => ?_)
    (.inr fun _ _ => Agree.kind_fail_ne)
  rw [← Array.map_push]
  exact hnext _

theorem block : J.Agree False True [] J.move g.block g'.block :=
  .expectSymbol fun _ => .andThen h.statementsUntilBrace.forget (fun _ => .alloc_last) id

/-! ## Bindings -/

theorem labels : J.Agree True False [] id g.labels g'.labels := by
  refine h.repeating (u := id) (fun next next' hnext names => ?_) rfl
  simp only [bind_assoc]
  refine .kind (fun word => ?_) (.inl trivial)
  cases word.identifier? with
  | none => exact .pure rfl
  | some name =>
    simp only [bind_assoc, pure_bind]
    exact (Agree.expectLabel fun label => hnext _).anywhere

omit h in
theorem bindingMode : J.Agree True False [] id Grammar.bindingMode Grammar.bindingMode :=
  .if_eat (by simp) (.pure rfl) (.if_eat (by simp) (.pure rfl) (.pure rfl) (.inl trivial)) (.inl trivial)

/-- A function with parameters ends with its body. -/
theorem bindingTail_function {isFinal : Bool} {mode : BindingMode} {name : Label} {labels : List Label}
    (hne : labels ≠ []) : J.Agree False True [] J.move (g.bindingTail isFinal mode name labels)
      (g'.bindingTail isFinal mode name labels) := by
  obtain ⟨label, rest, rfl⟩ := List.exists_cons_of_ne_nil hne
  exact .expectSymbol fun _ => .andThen h.block.forget (fun _ => .alloc fun _ => .alloc_last) id

theorem bindingTail {isFinal : Bool} {mode : BindingMode} {name : Label} {labels : List Label} :
    J.Agree (¬ J.Clear) True [] J.move (g.bindingTail isFinal mode name labels)
      (g'.bindingTail isFinal mode name labels) := by
  cases labels with
  | nil => exact .expectSymbol fun _ => .andThen h.expression.forget (fun _ => .alloc_last) id
  | cons label rest => exact (h.bindingTail_function (List.cons_ne_nil label rest)).weaken False.elim id

theorem binding : J.Agree (¬ J.Clear) True [] J.move g.binding g'.binding := by
  rw [binding_eq, binding_eq]
  have hnamed (isFinal : Bool) : J.Agree (¬ J.Clear) True [] J.move
      (Grammar.bindingMode >>= fun mode => Parser.expectLabel >>= fun name =>
        g.labels >>= g.bindingTail isFinal mode name)
      (Grammar.bindingMode >>= fun mode => Parser.expectLabel >>= fun name =>
        g'.labels >>= g'.bindingTail isFinal mode name) :=
    .closing bindingMode fun _ => .expectLabel fun _ => .closing h.labels fun _ => h.bindingTail
  exact .expectKeyword fun _ => .forget (.eat (by simp) (hnamed true).forget (hnamed false) (.inr (.inl trivial)))

theorem list : J.Agree False True [] J.move g.list g'.list :=
  .expectSymbol fun _ => .andThen (h.closedBy h.expression.relax fun _ => rfl).forget (fun _ => .alloc_last) id

theorem field : J.Agree (¬ J.Clear) True [] (Field.moved J.base.size) g.field g'.field :=
  .expectLabel fun _ => .expectSymbol fun _ => .andThen h.expression.forget (fun _ => .pure rfl) id

theorem record : J.Agree False True [] J.move g.record g'.record :=
  .expectSymbol fun _ => .andThen (h.closedBy h.field.relax fun _ => rfl).forget (fun _ => .alloc_last) id

theorem params (allowMutable : Bool) : J.Agree False True [] id (g.params allowMutable) (g'.params allowMutable) := by
  have hlabel (isMutable : Bool) : J.Agree True False [] id
      (Parser.expectLabel >>= fun label => pure (⟨label, isMutable⟩ : Param))
      (Parser.expectLabel >>= fun label => pure (⟨label, isMutable⟩ : Param)) :=
    .expectLabel fun _ => .pure rfl
  refine .expectSymbol fun _ => (h.closedBy ?_ fun items => (List.map_id items).symm).forget
  cases allowMutable with
  | true => exact .eat (by simp) (hlabel true) (hlabel false) (.inl trivial)
  | false => exact hlabel false

theorem function : J.Agree False True [] J.move g.function g'.function := by
  have hbody (params : List Param) (opening : Position) : J.Agree False True [] J.move
      (g.block >>= fun body => Parser.node (.function params body) opening)
      (g'.block >>= fun body => Parser.node (.function params body) opening) :=
    .andThen h.block (fun _ => .alloc_last) id
  refine .expectKeyword fun opening => .forget (.if_check (by simp) ?_ (hbody [] opening) (.inr (.inl trivial)))
  exact (Agree.closing (h.params false) fun params => hbody params opening).anywhere

theorem member : J.Agree (¬ J.Clear) True [] J.move g.member g'.member :=
  .if_check (by simp) h.binding.anywhere (.andThen h.field (fun _ => .alloc_last) id) (.inr (.inl trivial))

theorem members : J.Agree False True [] (List.map J.move) g.members g'.members := by
  refine h.repeating (u := Array.map J.move) (fun next next' hnext items => ?_) Array.map_empty
  simp only [eatSymbol, bind_assoc, ite_bind, pure_bind]
  refine .if_eat (by simp) (.pure (by simp)) ?_ (.inr (.inl trivial))
  refine .if_eat (by simp) (hnext items).forget ?_ (.inr (.inl trivial))
  refine .if_eat (by simp) (hnext items).forget (.closing h.member fun id => ?_) (.inr (.inl trivial))
  rw [← Array.map_push]
  exact hnext _

theorem composed : J.Agree True False [] id g.composed g'.composed := by
  refine h.repeating (u := id) (fun next next' hnext names => ?_) rfl
  simp only [eatSymbol, bind_assoc, ite_bind, pure_bind]
  exact .if_eat (by simp) (.expectLabel fun label => hnext _) (.pure rfl) (.inl trivial)

theorem object : J.Agree False True [] J.move g.object g'.object := by
  have hbody (params : Option (List Param)) (opening : Position) : J.Agree False True [] J.move
      (g.composed >>= fun composed => Parser.expectSymbol .leftBrace >>= fun _ => g.members >>= fun members =>
        Parser.node (.object params composed members) opening)
      (g'.composed >>= fun composed => Parser.expectSymbol .leftBrace >>= fun _ => g'.members >>= fun members =>
        Parser.node (.object params composed members) opening) :=
    .closing h.composed fun _ => .expectSymbol fun _ => .andThen h.members.forget (fun _ => .alloc_last) id
  refine .expectKeyword fun opening => .forget (.if_check (by simp) ?_ (hbody none opening) (.inr (.inl trivial)))
  simp only [map_eq_pure_bind, bind_assoc, pure_bind]
  exact (Agree.closing (h.params true) fun params => hbody (some params) opening).anywhere

/-! ## Conditionals and loops -/

theorem elseBranch : J.Agree (¬ J.Clear) False [] (Option.map J.move) g.elseBranch g'.elseBranch := by
  refine .if_eat (by simp) ?_ (.pure rfl) ((J.next_ne rfl).imp_right .inr)
  refine .forget (.if_check (by simp) ?_ ?_ (.inr (.inl trivial)))
  · have hread : J.Agree (¬ J.Clear) True [] (Option.map J.move) (g.read .conditional >>= fun id => pure (some id))
      (g'.read .conditional >>= fun id => pure (some id)) :=
      .andThen (h.operand .conditional (by simp)) (fun _ => .pure rfl) id
    exact hread.anywhere
  · exact .andThen h.block (fun _ => .pure rfl) False.elim

theorem conditional : J.Agree (¬ J.Clear) True [] J.move g.conditional g'.conditional :=
  .expectKeyword fun _ => .closing h.expression fun _ => .expectKeyword fun _ => .andThen h.block.forget
    (fun _ => .andThen h.elseBranch (fun _ => .alloc_last) id) False.elim

theorem loop : J.Agree False True [] J.move g.loop g'.loop :=
  .expectKeyword fun _ => .closing h.expression fun _ => .expectKeyword fun _ => .closing h.expression fun _ =>
    .andThen h.block (fun _ => .alloc_last) id

/-! ## Imports -/

theorem pathTail {opening : Position} {root : ImportRoot} {label : Label} : J.Agree (¬ J.Clear) False [] J.move
    (Grammar.pathTail opening root label g) (Grammar.pathTail opening root label g') := by
  have hpath : J.Agree (¬ J.Clear) False [] id (rounds pathRound (g.limit - 1) #[label.name])
      (rounds pathRound (g'.limit - 1) #[label.name]) := by
    refine .rounds (u := id) (fun next next' hnext names => ?_) (Nat.sub_le_sub_right h.limit 1) _
    simp only [pathRound, eatSymbol, bind_assoc, ite_bind, pure_bind]
    exact .expectLabel fun _ => .if_eat (by simp) (hnext _) (.pure rfl) ((J.next_ne rfl).imp_right .inr)
  exact .if_eat (by simp) (.andThen hpath (fun _ => .alloc_last) id) .alloc_last ((J.next_ne rfl).imp_right .inr)

theorem importForm : J.Agree (¬ J.Clear) True [] J.move g.importForm g'.importForm := by
  rw [importForm_kind h.pos, importForm_kind (h.pos.trans_le h.limit)]
  refine .expectKeyword fun opening => .expectLabel_kind (fun label word => ?_) id fun _ => rfl
  unfold importTail
  cases word.identifier? with
  | none => exact h.pathTail.anywhere
  | some name =>
    dsimp only
    split
    · exact (Agree.expectLabel fun _ => h.pathTail).anywhere
    · split
      · exact (Agree.expectLabel fun _ => h.pathTail).anywhere
      · exact h.pathTail.anywhere

/-! ## Expressions -/

theorem primary : J.Agree (¬ J.Clear) True [] J.move g.primary g'.primary := by
  have hclosed {x y : Parser NodeId} {word : TokenKind} (hx : J.Agree False True [] J.move x y) :
      J.Agree (¬ J.Clear) True [word] J.move x y :=
    (hx.weaken False.elim id).anywhere
  refine .kind (fun word => ?_) (.inr (.inl trivial))
  cases word with
  | identifier name => exact .pass (by simp) fun _ => .alloc_last
  | number x => exact .pass (by simp) fun _ => .alloc_last
  | string x => exact .pass (by simp) fun _ => .alloc_last
  | endOfFile => exact .fail
  | symbol symbol =>
    cases symbol with
    | leftParen => exact .pass (by simp) fun _ => .closing h.expression fun _ => .expectSymbol fun _ => .pure rfl
    | leftBracket => exact hclosed h.list
    | leftBrace => exact hclosed h.record
    | _ => exact .fail
  | keyword keyword =>
    cases keyword with
    | func => exact hclosed h.function
    | object => exact hclosed h.object
    | imports => exact h.importForm.anywhere
    | cond => exact h.conditional.anywhere
    | loop => exact hclosed h.loop
    | yes | no | nil => exact .pass (by simp) fun _ => .alloc_last
    | _ => exact .fail

theorem arguments : J.Agree False True [] (List.map J.move) g.arguments g'.arguments :=
  .if_eat (by simp) (.pure rfl) (.closing (h.commaSeparated h.expression (fun _ => rfl) (J.next_ne rfl)) fun _ =>
    .expectSymbol fun _ => .pure rfl) (.inr (.inl trivial))

theorem postfixed : J.Agree (¬ J.Clear) True [] J.move g.postfixed g'.postfixed := by
  rw [postfixed_eq, postfixed_eq]
  refine .andThen h.primary (fun target => .rounds (fun next next' hnext target => ?_) h.limit _) id
  simp only [postfixRound, bind_assoc]
  refine .position fun opening => .kind_clear (fun word => ?_) fun word hword => ?_
  · cases word with
    | symbol symbol =>
      cases symbol with
      | leftParen =>
        simp only [bind_assoc, pure_bind]
        exact .pass (by simp) fun _ => .andThen h.arguments.forget (fun _ => .alloc fun id => hnext id) False.elim
      | leftBracket =>
        simp only [bind_assoc, pure_bind]
        exact .pass (by simp) fun _ => .closing h.expression fun _ => .expectSymbol fun _ => .alloc fun id => hnext id
      | dot =>
        simp only [bind_assoc, pure_bind]
        exact .pass (by simp) fun _ => .expectLabel fun _ => .alloc fun id => hnext id
      | dotBrace =>
        simp only [bind_assoc, pure_bind]
        exact .pass (by simp) fun _ => .andThen h.statementsUntilBrace.forget
          (fun _ => .alloc fun _ => .alloc fun id => hnext id) False.elim
      | _ => exact .pure rfl
    | _ => exact .pure rfl
  · cases word with
    | symbol symbol => cases symbol <;> first | rfl | cases hword
    | _ => rfl

/-! ## Operators -/

omit h in
/-- What continues nothing is no operator. -/
theorem build_eq_none {tier : Tier} {word : TokenKind} (hword : word.continues = false) : tier.build? word = none := by
  cases word with
  | symbol symbol => cases tier <;> cases symbol <;> first | rfl | cases hword
  | keyword keyword => cases tier <;> cases keyword <;> first | rfl | cases hword
  | _ => cases tier <;> rfl

omit h in
/-- The node of an operator names its operands. -/
theorem build_moved {tier : Tier} {word : TokenKind} {build : NodeId → NodeId → NodeKind}
    (hbuild : tier.build? word = some build) (lhs rhs : NodeId) :
    build (J.move lhs) (J.move rhs) = (build lhs rhs).moved J.base.size := by
  unfold Tier.build? at hbuild
  split at hbuild <;> cases hbuild <;> rfl

omit h in
theorem unary_moved {word : TokenKind} {build : NodeId → NodeKind} (hbuild : unary? word = some build)
    (operand : NodeId) : build (J.move operand) = (build operand).moved J.base.size := by
  unfold unary? at hbuild
  split at hbuild <;> cases hbuild <;> rfl

section operand

variable {operand operand' : Parser NodeId} (ho : J.Agree (¬ J.Clear) True [] J.move operand operand')
include ho

theorem binary (tiers : List Tier) :
    J.Agree (¬ J.Clear) True [] J.move (g.binary operand tiers) (g'.binary operand' tiers) := by
  induction tiers with
  | nil => exact ho
  | cons tier tighter ih =>
    refine .andThen ih (fun lhs => h.repeating (u := J.move) (fun next next' hnext lhs => ?_) rfl) id
    simp only [bind_assoc]
    refine .kind_clear (fun word => ?_) fun word hword => ?_
    · cases hbuild : tier.build? word with
      | none => exact .pure rfl
      | some build =>
        have hword : word ≠ .endOfFile := by
          rintro rfl
          cases tier <;> cases hbuild
        simp only [bind_assoc, ite_bind, pure_bind]
        refine .pass hword fun operator => ?_
        split
        · refine .andThen (h.operand .prepend (by simp)).forget (fun rhs => ?_) id
          rw [build_moved hbuild]
          exact .alloc fun _ => .pure rfl
        · refine .andThen ih.forget (fun rhs => ?_) id
          rw [build_moved hbuild]
          exact .alloc fun id => hnext id
    · rw [build_eq_none hword]
      cases tier <;> rfl

theorem unary : J.Agree (¬ J.Clear) True [] J.move (g.unary operand) (g'.unary operand') := by
  refine .kind (fun word => ?_) (.inr (.inl trivial))
  cases hbuild : unary? word with
  | none => exact ho.anywhere
  | some build =>
    refine .pass ?_ fun operator => .andThen (h.operand .unary (by simp)).forget (fun i => ?_) id
    · rintro rfl
      cases hbuild
    · rw [unary_moved hbuild]
      exact .alloc_last

theorem pipe : J.Agree (¬ J.Clear) True [] J.move (g.pipe operand) (g'.pipe operand') :=
  .andThen (h.binary ho _) (fun _ => .if_check (by simp)
    (.pass (by simp) fun _ => .andThen (h.operand .pipe (by simp)).forget (fun _ => .alloc_last) id) (.pure rfl)
    ((J.next_ne rfl).imp_right .inr)) id

theorem assignment : J.Agree (¬ J.Clear) True [] J.move (g.assignment operand) (g'.assignment operand') :=
  .andThen (h.pipe ho) (fun _ => .if_check (by simp)
    (.if_assignable (.pass (by simp) fun _ => .andThen h.expression.forget (fun _ => .alloc_last) id))
    (.pure rfl) ((J.next_ne rfl).imp_right .inr)) id

end operand

/-! ## Statements -/

theorem printStatement : J.Agree (¬ J.Clear) True [] J.move g.printStatement g'.printStatement := by
  unfold Grammar.printStatement atStatementEnd
  simp only [bind_assoc]
  refine .expectKeyword_kind (fun opening word => ?_) id fun _ => rfl
  have hargs : J.Agree (¬ J.Clear) False [word] J.move
      (g.commaSeparated (g.read .expression) >>= fun args => Parser.node (.print args) opening)
      (g'.commaSeparated (g'.read .expression) >>= fun args => Parser.node (.print args) opening) :=
    .anywhere (.andThen (h.commaSeparated h.expression (fun _ => rfl) (J.next_ne rfl)).forget (fun _ => .alloc_last) id)
  have hnone : J.Agree (¬ J.Clear) False [word] J.move (Parser.node (.print []) opening)
      (Parser.node (.print []) opening) := .alloc_last
  split
  · exact hnone
  · exact hnone
  · exact hnone
  · exact hargs

theorem returnStatement : J.Agree (¬ J.Clear) True [] J.move g.returnStatement g'.returnStatement := by
  unfold Grammar.returnStatement atStatementEnd
  simp only [bind_assoc]
  refine .expectKeyword_kind (fun opening word => ?_) id fun _ => rfl
  have hvalue : J.Agree (¬ J.Clear) False [word] J.move
      (g.read .expression >>= fun value => Parser.node (.returns (some value)) opening)
      (g'.read .expression >>= fun value => Parser.node (.returns (some value)) opening) :=
    (Agree.andThen h.expression (fun _ => .alloc_last) id).forget.anywhere
  have hnone : J.Agree (¬ J.Clear) False [word] J.move (Parser.node (.returns none) opening)
      (Parser.node (.returns none) opening) := .alloc_last
  split
  · exact hnone
  · exact hnone
  · exact hnone
  · simp only [map_eq_pure_bind, bind_assoc, pure_bind]
    exact hvalue

theorem exportStatement : J.Agree (¬ J.Clear) True [] J.move g.exportStatement g'.exportStatement := by
  have hlabel : J.Agree (¬ J.Clear) True [] id (Parser.expectLabel >>= pure) (Parser.expectLabel >>= pure) :=
    .expectLabel fun _ => .pure rfl
  rw [bind_pure] at hlabel
  have hlabels := h.commaSeparated hlabel (fun items => (List.map_id items).symm) (J.next_ne rfl)
  exact .expectKeyword fun _ => .andThen hlabels.forget (fun _ => .alloc_last) id

theorem statementBody : J.Agree (¬ J.Clear) True [] J.move g.statementBody g'.statementBody := by
  refine .kind (fun word => ?_) (.inr (.inl trivial))
  split
  · exact h.binding.anywhere
  · exact h.printStatement.anywhere
  · exact h.returnStatement.anywhere
  · exact h.exportStatement.anywhere
  · exact (h.block.weaken False.elim id).anywhere
  · exact h.expression.anywhere

theorem produce_statement : J.Agree True True [] J.move g.statement g'.statement := by
  rw [statement_eq, statement_eq]
  exact ended (h.statementBody.weaken (fun _ => trivial) id)

theorem produce_operand (nonterminal : Nonterminal) (hne : nonterminal ≠ .statement) :
    J.Agree (¬ J.Clear) True [] J.move (g.produce nonterminal) (g'.produce nonterminal) := by
  have hunary := h.unary h.postfixed
  cases nonterminal with
  | statement => exact absurd rfl hne
  | expression => exact h.assignment hunary
  | pipe => exact h.pipe hunary
  | prepend => exact h.binary hunary _
  | unary => exact hunary
  | conditional => exact h.conditional

end Below

/-- At every depth productions do the same alone and amid others, where the grammar goes deeper and repeats more
often. -/
theorem below_ofDepth {limit limit' depth depth' : Nat} (hpos : 0 < limit) (hlimit : limit ≤ limit')
    (hdepth : depth ≤ depth') : J.Below (ofDepth limit depth) (ofDepth limit' depth') := by
  induction depth generalizing depth' with
  | zero => exact ⟨hpos, by rw [limit_ofDepth, limit_ofDepth]; exact hlimit, fun _ _ => .fail, .fail⟩
  | succ depth ih =>
    obtain ⟨depth', rfl⟩ : ∃ d, depth' = d + 1 := ⟨depth' - 1, by omega⟩
    have hbelow := ih (Nat.le_of_succ_le_succ hdepth)
    exact ⟨hpos, hlimit, hbelow.produce_operand, hbelow.produce_statement⟩

end Junction

end DynScript
