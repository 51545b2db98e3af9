import DynScript.Proofs.Grammar.Productions
import DynScript.Proofs.Syntax.CorrectPrefix
import DynScript.Proofs.Syntax.JunctionForms

/-!
# Statements in a row

Statements that are programs by themselves (`Sentence`), written one after the other, are read as these statements, if
each of them ends before the next one begins (`Sentence.Leads`): with a semicolon, or with the brace of a block, or with
another brace if the next one does not begin with a token that goes on with an expression.
-/

namespace DynScript

open Syntax DynScript.Parser

/-- The words that a block or a function with parameters begins with. Such a statement ends with its block. -/
inductive Enclosing : List TokenKind → Prop where
  | block : Enclosing [.symbol .leftBrace]
  | function (isFinal : Bool) (mode : BindingMode) (name param : String) :
    Enclosing (.keyword .define :: (if isFinal then [.keyword .final] else []) ++ modeWords mode ++
      [.identifier name, .identifier param])

namespace Grammar

variable {α γ : Type} {g : Grammar} {p : Option TokenKind} {a : Arena} {t : Lexeme} {tokens : List Lexeme}
  {s s' : ParseState} {items : Array NodeId} {ids : List NodeId} {n : Nat}

/-! ## Repetitions -/

/-- A repetition ends with no less than it begins with if no round loses anything. -/
theorem rounds_grow {round : γ → Parser (Progress γ α)} {size : γ → Nat} {size' : α → Nat}
    (hmore : ∀ v s v' s', round v s = .ok (.more v', s') → size v ≤ size v')
    (hdone : ∀ v s z s', round v s = .ok (.done z, s') → size v ≤ size' z) {v : γ} {z : α}
    (hrun : rounds round n v s = .ok (z, s')) : size v ≤ size' z := by
  induction n generalizing v s with
  | zero => cases hrun
  | succ n ih =>
    obtain ⟨r, t, hround, hrest⟩ := exists_of_bind hrun
    cases r with
    | more v' => exact (hmore v s v' t hround).trans (ih hrest)
    | done z' =>
      cases hrest
      exact hdone v s z s' hround

/-- A round of reading names. -/
def labelsRound (names : Array Label) : Parser (Progress (Array Label) (List Label)) := do
  match (← Parser.kind).identifier? with
  | some _ => return .more (names.push (← Parser.expectLabel))
  | none => return .done names.toList

theorem labels_eq (g : Grammar) : g.labels = g.repeating #[] labelsRound := rfl

/-- A round adds a name, or there is none. -/
theorem labelsRound_ok {names : Array Label} {r : Progress (Array Label) (List Label)}
    (h : labelsRound names s = .ok (r, s')) :
    (∃ label, r = .more (names.push label)) ∨ s.cursor.kind.identifier? = none ∧ r = .done names.toList := by
  rw [labelsRound, Parser.bind_of_ok (rfl : Parser.kind s = .ok (s.cursor.kind, s))] at h
  cases hname : s.cursor.kind.identifier? with
  | none =>
    rw [hname] at h
    cases h
    exact .inr ⟨rfl, rfl⟩
  | some name =>
    rw [hname] at h
    obtain ⟨label, t, -, hr⟩ := exists_of_bind h
    cases hr
    exact .inl ⟨label, rfl⟩

/-- An identifier that comes next is read. -/
theorem labels_ne_nil {name : String} {labels : List Label} (hs : s.cursor.kind = .identifier name)
    (hrun : g.labels s = .ok (labels, s')) : labels ≠ [] := by
  rw [labels_eq, repeating] at hrun
  cases hlimit : g.limit with
  | zero =>
    rw [hlimit] at hrun
    cases hrun
  | succ n =>
    rw [hlimit] at hrun
    obtain ⟨r, t, hfirst, hrest⟩ := exists_of_bind hrun
    obtain ⟨label, rfl⟩ | ⟨hnone, -⟩ := labelsRound_ok hfirst
    · have hgrow : (#[].push label).size ≤ labels.length := by
        refine rounds_grow (fun names s names' s' h => ?_) (fun names s z s' h => ?_) hrest
        · obtain ⟨label, ⟨⟩⟩ | ⟨-, ⟨⟩⟩ := labelsRound_ok h
          rw [Array.size_push]
          exact Nat.le_succ _
        · obtain ⟨label, ⟨⟩⟩ | ⟨-, ⟨⟩⟩ := labelsRound_ok h
          exact Array.length_toList.ge
      rintro rfl
      cases hgrow
    · rw [hs] at hnone
      cases hnone

/-! ## The rounds of a unit -/

/-- A round of reading a unit. -/
def unitRound (g : Grammar) (items : Array NodeId) : Parser (Progress (Array NodeId) (List NodeId)) := do
  if (← Parser.cursor).atEnd then return .done items.toList
  else if ← Parser.eatSymbol .semicolon then return .more items
  else return .more (items.push (← g.read .statement))

theorem unit_eq (g : Grammar) : g.unit = Parser.position >>= fun opening =>
    g.repeating #[] g.unitRound >>= fun items => Parser.node (.block items) opening := rfl

/-- A round, by the token under the cursor. -/
theorem unitRound_run (g : Grammar) (items : Array NodeId) (s : ParseState) : g.unitRound items s =
    if s.cursor.kind = .endOfFile then .ok (.done items.toList, s)
    else if s.cursor.kind = .symbol .semicolon then (Parser.advance >>= fun _ => pure (.more items)) s
    else (g.read .statement >>= fun id => pure (.more (items.push id))) s := by
  unfold unitRound Parser.eatSymbol
  simp only [Parser.eat_bind]
  show (if decide (s.cursor.kind = .endOfFile) then _ else _ : Parser _) s = _
  by_cases hend : s.cursor.kind = .endOfFile
  · rw [decide_eq_true hend, if_pos rfl, if_pos hend]
    rfl
  rw [decide_eq_false hend, if_neg Bool.false_ne_true, if_neg hend]
  show (if decide (s.cursor.kind = .symbol .semicolon) then _ else _ : Parser _) s = _
  by_cases hsemicolon : s.cursor.kind = .symbol .semicolon
  · rw [decide_eq_true hsemicolon, if_pos rfl, if_pos hsemicolon]
    rfl
  · rw [decide_eq_false hsemicolon, if_neg Bool.false_ne_true, if_neg Bool.false_ne_true, if_neg hsemicolon]

theorem rounds_unit_end (hs : s.cursor.kind = .endOfFile) :
    rounds g.unitRound (n + 1) items s = .ok (items.toList, s) :=
  Parser.bind_of_ok ((g.unitRound_run items s).trans (if_pos hs))

theorem rounds_unit_semicolon (ht : t.kind = .symbol .semicolon) (hne : tokens ≠ []) :
    rounds g.unitRound (n + 1) items (.before p a (t :: tokens)) =
      rounds g.unitRound n items (.before (some t.kind) a tokens) := by
  have hend : t.kind ≠ .endOfFile := by
    rw [ht]
    simp
  have hround : g.unitRound items (.before p a (t :: tokens)) = .ok (.more items, .before (some t.kind) a tokens) :=
    (g.unitRound_run items _).trans ((if_neg hend).trans ((if_pos ht).trans (ParseState.advance_before hend hne _)))
  exact Parser.bind_of_ok hround

/-- A round that reads a statement. -/
theorem unitRound_statement (hend : s.cursor.kind ≠ .endOfFile) (hsemicolon : s.cursor.kind ≠ .symbol .semicolon) :
    g.unitRound items s = (g.read .statement >>= fun id => pure (.more (items.push id))) s :=
  (g.unitRound_run items s).trans ((if_neg hend).trans (if_neg hsemicolon))

theorem rounds_unit_statement {id : NodeId} (hend : s.cursor.kind ≠ .endOfFile)
    (hsemicolon : s.cursor.kind ≠ .symbol .semicolon) (hrun : g.read .statement s = .ok (id, s')) :
    rounds g.unitRound (n + 1) items s = rounds g.unitRound n (items.push id) s' := by
  have hround : g.unitRound items s = .ok (.more (items.push id), s') :=
    (unitRound_statement hend hsemicolon).trans (Parser.bind_of_ok hrun)
  exact Parser.bind_of_ok hround

/-- A round that goes on before a statement has read it. -/
theorem exists_statement_of_rounds (hend : s.cursor.kind ≠ .endOfFile)
    (hsemicolon : s.cursor.kind ≠ .symbol .semicolon) (hrun : rounds g.unitRound n items s = .ok (ids, s')) :
    ∃ m id t, g.read .statement s = .ok (id, t) ∧ rounds g.unitRound m (items.push id) t = .ok (ids, s') := by
  cases n with
  | zero => cases hrun
  | succ n =>
    obtain ⟨r, t, hround, hrest⟩ := exists_of_bind hrun
    obtain ⟨id, t', hread, hr⟩ := exists_of_bind ((unitRound_statement hend hsemicolon).symm.trans hround)
    cases hr
    exact ⟨n, id, t, hread, hrest⟩

theorem size_le_of_rounds (hrun : rounds g.unitRound n items s = .ok (ids, s')) : items.size ≤ ids.length := by
  have hround (items : Array NodeId) (s s' : ParseState) (r : Progress (Array NodeId) (List NodeId))
      (h : g.unitRound items s = .ok (r, s')) :
      r = .done items.toList ∨ r = .more items ∨ ∃ id, r = .more (items.push id) := by
    rw [unitRound_run] at h
    split at h
    · cases h
      exact .inl rfl
    split at h
    · obtain ⟨_, t, -, hr⟩ := exists_of_bind h
      cases hr
      exact .inr (.inl rfl)
    · obtain ⟨id, t, -, hr⟩ := exists_of_bind h
      cases hr
      exact .inr (.inr ⟨id, rfl⟩)
  refine rounds_grow (fun items s items' s' h => ?_) (fun items s ids s' h => ?_) hrun
  · obtain ⟨⟨⟩⟩ | ⟨⟨⟩⟩ | ⟨id, ⟨⟩⟩ := hround _ _ _ _ h
    · exact le_rfl
    · rw [Array.size_push]
      exact Nat.le_succ _
  · obtain ⟨⟨⟩⟩ | ⟨⟨⟩⟩ | ⟨id, ⟨⟩⟩ := hround _ _ _ _ h
    exact Array.length_toList.ge

/-- Semicolons are passed. -/
theorem rounds_unit_semicolons (items : Array NodeId) {w : List Lexeme}
    (hw : ∀ t ∈ w, t.kind = .symbol .semicolon) (hne : tokens ≠ []) :
    ∃ q, ∀ n, rounds g.unitRound (n + w.length) items (.before p a (w ++ tokens)) =
      rounds g.unitRound n items (.before q a tokens) := by
  induction w generalizing p with
  | nil => exact ⟨p, fun _ => rfl⟩
  | cons t w ih =>
    obtain ⟨ht, hrest⟩ := List.forall_mem_cons.1 hw
    obtain ⟨q, hq⟩ := ih (p := some t.kind) hrest
    exact ⟨q, fun n => (rounds_unit_semicolon ht (List.append_ne_nil_of_right_ne_nil w hne)).trans (hq n)⟩

/-! ## What begins no statement -/

/-- A parser fails when a word comes next. -/
def Rejects (word : TokenKind) (x : Parser α) : Prop := ∀ s r, s.cursor.kind = word → x s ≠ .ok r

theorem Rejects.bind {word : TokenKind} {x : Parser γ} {k : γ → Parser α} (h : Rejects word x) :
    Rejects word (x >>= k) := by
  rintro s ⟨v, t⟩ hs hrun
  obtain ⟨u, t, hu, -⟩ := exists_of_bind hrun
  exact h s (u, t) hs hu

theorem Rejects.kind {word : TokenKind} {k : TokenKind → Parser α} (h : Rejects word (k word)) :
    Rejects word (Parser.kind >>= k) := by
  rintro s r rfl hrun
  exact h s r rfl hrun

theorem Rejects.fail {word : TokenKind} {cause : ParseError.Cause} : Rejects word (Parser.fail cause : Parser α) :=
  fun _ _ _ hrun => by cases hrun

section rejects

variable {word : TokenKind} (hcontinues : word.continues) (hopens : word.opens = false)
include hcontinues hopens

/-- What goes on with an expression and opens none is rejected by everything that an expression can begin with. -/
theorem rejects_primary : Rejects word g.primary := by
  refine .kind ?_
  cases word with
  | symbol symbol => cases symbol <;> first | exact .fail | cases hopens
  | keyword keyword => cases keyword <;> first | exact .fail | cases hcontinues
  | _ => cases hcontinues

theorem rejects_unary : Rejects word (g.unary g.postfixed) := by
  have hunary : unary? word = none := by
    cases word with
    | symbol symbol => cases symbol <;> first | rfl | cases hopens
    | keyword keyword => cases keyword <;> first | rfl | cases hopens
    | _ => rfl
  refine .kind ?_
  rw [hunary]
  exact .bind (rejects_primary hcontinues hopens)

theorem rejects_binary (tiers : List Tier) : Rejects word (g.binary (g.unary g.postfixed) tiers) := by
  induction tiers with
  | nil => exact rejects_unary hcontinues hopens
  | cons tier tighter ih => exact .bind ih

theorem rejects_statement (limit depth : Nat) : Rejects word (ofDepth limit depth).statement := by
  have hexpression : Rejects word ((ofDepth limit depth).read .expression) := by
    cases depth with
    | zero => exact .fail
    | succ depth => exact .bind (.bind (rejects_binary hcontinues hopens tiers))
  refine .kind ?_
  cases word with
  | symbol symbol => cases symbol <;> first | exact .bind hexpression | cases hopens
  | keyword keyword => cases keyword <;> first | exact .bind hexpression | cases hcontinues
  | _ => cases hcontinues

end rejects

end Grammar

/-! ## Blocks and functions with parameters -/

namespace Junction.Below

open Grammar

variable {J : Junction} {g g' : Grammar} (h : J.Below g g')
include h

/-- A function with parameters, from its name on. -/
theorem function_named {isFinal : Bool} {mode : BindingMode} {name param : String} :
    J.Agree False True [.identifier name, .identifier param] J.move
      (Parser.expectLabel >>= fun label => g.labels >>= g.bindingTail isFinal mode label)
      (Parser.expectLabel >>= fun label => g'.labels >>= g'.bindingTail isFinal mode label) := by
  refine .expectLabel_known fun label => .bind h.labels.anywhere (fun labels hlabels => ?_) (fun _ => .inr trivial) .inl
  obtain ⟨s, s', hs, hrun⟩ := hlabels
  exact h.bindingTail_function (labels_ne_nil (List.cons_prefix_cons.1 hs).1.symm hrun)

/-- A function with parameters, from its mode on. -/
theorem function_mode {isFinal : Bool} (mode : BindingMode) {name param : String} :
    J.Agree False True (modeWords mode ++ [.identifier name, .identifier param]) J.move
      (Grammar.bindingMode >>= fun mode => Parser.expectLabel >>= fun label =>
        g.labels >>= g.bindingTail isFinal mode label)
      (Grammar.bindingMode >>= fun mode => Parser.expectLabel >>= fun label =>
        g'.labels >>= g'.bindingTail isFinal mode label) := by
  unfold Grammar.bindingMode
  simp only [eatKeyword, bind_assoc, ite_bind, pure_bind]
  cases mode with
  | plain => exact .eat_known (by simp) (by simp) fun _ => .eat_known (by simp) (by simp) fun _ => h.function_named
  | mutable => exact .eat_known (by simp) (fun _ => h.function_named.forget) fun hne => absurd rfl hne
  | recursive =>
    refine .eat_known (by simp) (by simp) fun _ => ?_
    exact .eat_known (by simp) (fun _ => h.function_named.forget) fun hne => absurd rfl hne

/-- What ends with its block does so whatever comes next. -/
theorem enclosed {ws : List TokenKind} (hws : Enclosing ws) :
    J.Agree False True ws J.move g.statementBody g'.statementBody := by
  cases hws with
  | block => exact .kind_known (by simp) h.block.anywhere
  | function isFinal mode name param =>
    refine .kind_known (by simp) ?_
    show J.Agree False True _ J.move g.binding g'.binding
    rw [binding_eq, binding_eq]
    refine .expectKeyword_known fun _ => ?_
    cases isFinal with
    | true => exact .eat_known (by simp) (fun _ => (h.function_mode mode).forget) fun hne => absurd rfl hne
    | false =>
      cases mode with
      | plain => exact .forget (.eat_known (by simp) (by simp) fun _ => h.function_mode .plain)
      | mutable => exact .forget (.eat_known (by simp) (by simp) fun _ => h.function_mode .mutable)
      | recursive => exact .forget (.eat_known (by simp) (by simp) fun _ => h.function_mode .recursive)

end Junction.Below

/-! ## Units alone and amid others -/

theorem lastKind_eq {p : Option TokenKind} {w : List Lexeme} (h : w ≠ []) :
    lastKind p w = (w.map Lexeme.kind).getLast? := by
  obtain ⟨w, t, rfl⟩ := (List.eq_nil_or_concat w).resolve_left h
  simp [lastKind]

namespace Junction

open Grammar

variable {J : Junction} {g : Grammar} {p : Option TokenKind} {a : Arena} {w : List Lexeme} {s : ParseState}

/-- If the words are read to the end without a statement they are semicolons. -/
theorem semicolons_of_rounds {items : Array NodeId} {ids : List NodeId} {n : Nat} (hw : J.Inside p w)
    (hrun : rounds g.unitRound n items (J.alone p a w) = .ok (ids, s)) (hsize : ids.length ≤ items.size) :
    ids = items.toList ∧ s.arena = a ∧ ∀ t ∈ w, t.kind = .symbol .semicolon := by
  induction w generalizing p n with
  | nil =>
    cases n with
    | zero => cases hrun
    | succ n =>
      cases (rounds_unit_end (s := J.alone p a []) rfl).symm.trans hrun
      exact ⟨rfl, rfl, List.forall_mem_nil _⟩
  | cons t w ih =>
    have hend : t.kind ≠ .endOfFile := hw.inside t List.mem_cons_self
    by_cases hsemicolon : t.kind = .symbol .semicolon
    · cases n with
      | zero => cases hrun
      | succ n =>
        have hpass : rounds g.unitRound (n + 1) items (J.alone p a (t :: w)) =
            rounds g.unitRound n items (J.alone (some t.kind) a w) :=
          rounds_unit_semicolon hsemicolon (List.append_ne_nil_of_right_ne_nil w (List.cons_ne_nil _ _))
        obtain ⟨hids, harena, hrest⟩ := ih hw.tail (hpass.symm.trans hrun)
        exact ⟨hids, harena, List.forall_mem_cons.2 ⟨hsemicolon, hrest⟩⟩
    · obtain ⟨m, id, u, -, hrest⟩ := exists_statement_of_rounds (s := J.alone p a (t :: w)) hend hsemicolon hrun
      have hgrow := size_le_of_rounds hrest
      rw [Array.size_push] at hgrow
      omega

end Junction

/-! ## Sentences -/

/-- A statement in words, which is a program by itself. -/
structure Sentence where
  /-- The words of the statement. -/
  words : List TokenKind
  /-- What the words say. -/
  statement : Statement
  /-- A semicolon comes after the words. -/
  separated : Bool
  /-- The words are inside a file. -/
  inside : .endOfFile ∉ words
  /-- No statement begins with a semicolon. -/
  starts : words.head? ≠ some (.symbol .semicolon)
  /-- Wherever they stand, the words alone are read as the statement. -/
  alone : ∀ tokens : List Lexeme, tokens.map Lexeme.kind = words ++ [.endOfFile] →
    ∃ p, parse tokens = .ok p ∧ p.Shows [statement]

namespace Sentence

/-- The words, with the semicolon. -/
def write (s : Sentence) : List TokenKind := s.words ++ if s.separated then [.symbol .semicolon] else []

/-- A statement ends with its block. -/
def Enclosed (s : Sentence) : Prop := ∃ opening, Enclosing opening ∧ opening <+: s.words

/-- Another statement may come after one: there is a semicolon between them, or the first one ends with a brace that
is the end of its block, or one that is before a token that goes on with no expression. -/
def Leads (s t : Sentence) : Prop :=
  s.separated ∨ s.words.getLast? = some (.symbol .rightBrace) ∧ (s.Enclosed ∨
    ∀ word ∈ t.words.head?, word ≠ .symbol .leftParen ∧ word ≠ .symbol .leftBracket ∧ word ≠ .symbol .minus)

variable {w : List Lexeme}

open Grammar

/-- The words alone are read in some rounds, which make one node and all that is below it. -/
theorem exists_rounds (s : Sentence) (hwords : w.map Lexeme.kind = s.words) (stop : Lexeme)
    (hstop : stop.kind = .endOfFile) {limit : Nat} (hlimit : limit = 2 * (w.length + 1) + 2) :
    ∃ id st b, rounds (ofDepth limit limit).unitRound limit #[] (.before none .empty (w ++ [stop])) = .ok ([id], st) ∧
      st.arena.Keeps b ∧ b.IsForest ∧ id.index < st.arena.size ∧ s.statement.At b id := by
  have hlength : (w ++ [stop]).length = w.length + 1 := List.length_append
  obtain ⟨program, hparse, ids, hbody, hshows⟩ := s.alone (w ++ [stop]) (by rw [List.map_append, hwords, ← hstop]; rfl)
  have hforest := (laid_of_parse hparse).toIsForest
  obtain ⟨id, more, rfl, hstatement, rfl⟩ := hshows
  rw [parse_eq, hlength, ← hlimit] at hparse
  split at hparse
  · rename_i body st hrun
    cases hparse
    rw [unit_eq] at hrun
    obtain ⟨opening, t, ⟨⟩, hrest⟩ := exists_of_bind hrun
    obtain ⟨items, st, hitems, ⟨⟩⟩ := exists_of_bind hrest
    obtain rfl : items = [id] := by
      have hkind {position : Option Position} :
          (st.arena.alloc ⟨.block items, position⟩).2.kind? ⟨st.arena.size⟩ = some (.block items) :=
        Arena.kind?_eq_some.2 ⟨position, by rw [Arena.get?_alloc, if_pos rfl]⟩
      exact NodeKind.block.inj (Option.some.inj (hkind.symm.trans hbody))
    have hchild : id.index < st.arena.size := by
      obtain ⟨node, hnode, hkind⟩ := Option.map_eq_some_iff.1 hbody
      exact hforest.down (p := ⟨st.arena.size⟩) ⟨node, hnode, by rw [hkind]; exact .head _⟩
    rw [repeating, limit_ofDepth] at hitems
    exact ⟨id, st, _, hitems, Arena.Keeps.alloc st.arena _, hforest, hchild, hstatement⟩
  · cases hparse

/-- Amid others the words are read in some rounds as the statement, with a semicolon after them or without. -/
theorem reads (s : Sentence) {J : Junction} (hwords : w.map Lexeme.kind = s.words) (hlast : J.last = s.words.getLast?)
    (hends : J.Ends) (hclear : J.Clear ∨ s.Enclosed) (q : Option TokenKind) (items : Array NodeId) {limit : Nat}
    (hlimit : 2 * (w.length + 1) + 2 ≤ limit) :
    ∃ id a q' tokens k, k ≤ w.length + 1 ∧
      (tokens = J.next :: J.rest ∨ J.next.kind = .symbol .semicolon ∧ tokens = J.rest) ∧
      s.statement.At (J.base.append a) id ∧ ∀ n,
        rounds (ofDepth limit limit).unitRound (n + k) items (.before q J.base (w ++ J.next :: J.rest)) =
          rounds (ofDepth limit limit).unitRound n (items.push id) (.before q' (J.base.append a) tokens) := by
  obtain ⟨limit, rfl⟩ : ∃ l, limit = l + 1 := ⟨limit - 1, by omega⟩
  obtain ⟨id, st, b, hrun, hkeeps, hforest, hid, hstatement⟩ := s.exists_rounds hwords J.stop rfl rfl
  cases w with
  | nil => cases hrun
  | cons t w =>
    have hinside : J.Inside none (t :: w) := by
      refine ⟨fun u hu hkind => s.inside ?_, ?_⟩
      · rw [← hwords, ← hkind]
        exact List.mem_map_of_mem hu
      · rw [hlast, ← hwords]
        exact lastKind_eq (List.cons_ne_nil t w)
    have hend : t.kind ≠ .endOfFile := hinside.inside t List.mem_cons_self
    have hsemicolon : t.kind ≠ .symbol .semicolon := fun h => s.starts (by rw [← hwords, ← h]; rfl)
    -- The first round reads the statement, and what is left of the words is semicolons.
    obtain ⟨m, id', u, hread, hrest⟩ := exists_statement_of_rounds
      (s := J.alone none .empty (t :: w)) hend hsemicolon hrun
    have hbelow : J.Below (ofDepth (2 * ((t :: w).length + 1) + 2) (2 * ((t :: w).length + 1) + 1))
        (ofDepth (limit + 1) limit) := Junction.below_ofDepth (Nat.succ_pos _) hlimit (Nat.le_of_succ_le_succ hlimit)
    obtain ⟨ws, hws, hagree⟩ : ∃ ws, ws <+: (J.alone none .empty (t :: w)).ahead ∧ J.Agree False True ws J.move
        (ofDepth (2 * ((t :: w).length + 1) + 2) (2 * ((t :: w).length + 1) + 1)).statementBody
        (ofDepth (limit + 1) limit).statementBody := by
      rcases hclear with hclear | ⟨opening, hopening, hprefix⟩
      · exact ⟨[], List.nil_prefix, hbelow.statementBody.weaken (fun hnot => hnot hclear) fun h => h⟩
      · refine ⟨opening, ?_, hbelow.enclosed hopening⟩
        rw [J.ahead_alone, hwords]
        exact hprefix.trans (List.prefix_append _ _)
    replace hread := (congrFun (statement_eq _) _).symm.trans hread
    obtain ⟨p', q', a', w', tokens, rfl, hw', hle, hstep, hleft⟩ := hagree.statement (q := q) hends hinside hws hread
    obtain ⟨hids, harena, hsemicolons⟩ := Junction.semicolons_of_rounds hw' hrest (by simp)
    obtain rfl : id = id' := by simpa using hids
    have hne : tokens ≠ [] := by
      rcases hleft with rfl | ⟨-, hnext, rfl⟩
      · exact List.cons_ne_nil _ _
      · exact hends.more hnext
    obtain ⟨q'', hskip⟩ := rounds_unit_semicolons (g := ofDepth (limit + 1) (limit + 1)) (p := q')
      (a := J.base.append a') (items.push (J.move id)) hsemicolons hne
    refine ⟨J.move id, a', q'', tokens, w'.length + 1, by omega, hleft.imp_right And.right, ?_, fun n => ?_⟩
    · rw [← harena]
      have hshown : Statement.EachAt b [s.statement] [id] := ⟨id, [], rfl, hstatement, rfl⟩
      obtain ⟨_, _, ⟨⟩, hmoved, -⟩ := Statement.EachAt.append J.base hforest hkeeps (by simpa using hid) hshown
      exact hmoved
    · have hstart : J.amid q .empty (t :: w) = .before q J.base (t :: w ++ J.next :: J.rest) := by
        rw [Junction.amid, J.base.append_empty]
      rw [← hstart, ← hskip n]
      exact rounds_unit_statement (s := J.amid q .empty (t :: w)) hend hsemicolon
        ((congrFun (statement_eq _) _).trans hstep)

/-! ### One after the other -/

variable {s : Sentence}

theorem words_ne_nil (s : Sentence) : s.words ≠ [] := by
  intro hnil
  obtain ⟨id, st, b, hrun, -⟩ :=
    s.exists_rounds (w := []) (by rw [hnil]; rfl) ⟨.endOfFile, ⟨0, 0⟩, 1, 1⟩ rfl rfl
  cases hrun

/-- A statement begins with no token that goes on with an expression and opens none. -/
theorem opens_of_continues {word : TokenKind} (hword : s.words.head? = some word) (hcontinues : word.continues) :
    word.opens := by
  by_contra hopens
  obtain ⟨more, hwords⟩ : ∃ more, s.words = word :: more := by
    cases hs : s.words with
    | nil => exact absurd hs s.words_ne_nil
    | cons first more =>
      rw [hs] at hword
      cases hword
      exact ⟨more, rfl⟩
  -- The words stand at any position.
  let standing (word : TokenKind) : Lexeme := ⟨word, ⟨0, 0⟩, 1, 1⟩
  have hstanding : (s.words.map standing).map Lexeme.kind = s.words := by
    rw [List.map_map]
    exact List.map_id _
  obtain ⟨id, st, b, hrun, -⟩ := s.exists_rounds hstanding (standing .endOfFile) rfl rfl
  rw [hwords] at hrun
  have hend : word ≠ .endOfFile := by
    rintro rfl
    cases hcontinues
  have hsemicolon : word ≠ .symbol .semicolon := by
    rintro rfl
    cases hcontinues
  obtain ⟨m, id', t, hread, -⟩ := exists_statement_of_rounds
    (s := .before none .empty (standing word :: (more.map standing ++ [standing .endOfFile]))) hend hsemicolon hrun
  exact rejects_statement hcontinues (Bool.eq_false_of_not_eq_true hopens) _ _ _ _ rfl hread

/-- What goes on with an expression and opens one, too. -/
theorem eq_of_continues_of_opens {word : TokenKind} (hcontinues : word.continues) (hopens : word.opens) :
    word = .symbol .leftParen ∨ word = .symbol .leftBracket ∨ word = .symbol .minus := by
  cases word with
  | symbol symbol => cases symbol <;> revert hcontinues hopens <;> decide
  | keyword keyword => cases keyword <;> revert hcontinues hopens <;> decide
  | _ => cases hcontinues

/-- Before another statement a statement has to end, or it is enclosed. -/
theorem clear_of_leads {t : Sentence} (hleads : s.Leads t) (hseparated : ¬ s.separated) {J : Junction}
    (hlast : J.last = s.words.getLast?) (hnext : t.words.head? = some J.next.kind) : J.Clear ∨ s.Enclosed := by
  obtain ⟨hbrace, henclosed | hfirst⟩ := hleads.resolve_left hseparated
  · exact .inr henclosed
  · refine .inl (.inr (.inr ⟨hlast.trans hbrace, Bool.eq_false_of_not_eq_true fun hcontinues => ?_⟩))
    obtain ⟨hparen, hbracket, hminus⟩ := hfirst _ hnext
    rcases eq_of_continues_of_opens hcontinues (t.opens_of_continues hnext hcontinues) with h | h | h
    · exact hparen h
    · exact hbracket h
    · exact hminus h

/-- The first one of some statements is read. -/
theorem reads_first (s : Sentence) {following : List Sentence} (hleads : ∀ t ∈ following.head?, s.Leads t)
    {tokens : List Lexeme}
    (htokens : tokens.map Lexeme.kind = s.write ++ (following.flatMap write ++ [.endOfFile])) {limit : Nat}
    (hlimit : 2 * tokens.length + 2 ≤ limit) (base : Arena) (p : Option TokenKind) (items : Array NodeId) {n : Nat}
    (hn : 2 * tokens.length ≤ n) :
    ∃ id a q left m, left.map Lexeme.kind = following.flatMap write ++ [.endOfFile] ∧ left.length ≤ tokens.length ∧
      2 * left.length ≤ m ∧ s.statement.At (base.append a) id ∧
      rounds (ofDepth limit limit).unitRound n items (.before p base tokens) =
        rounds (ofDepth limit limit).unitRound m (items.push id) (.before q (base.append a) left) := by
  rw [write, List.append_assoc] at htokens
  obtain ⟨w, r, rfl, hwords, hr⟩ := List.map_eq_append_iff.1 htokens
  -- The words take a round more than there are words at most, and the semicolon takes one at most.
  rw [List.length_append] at hlimit hn ⊢
  cases hseparated : s.separated with
  | true =>
    rw [hseparated] at hr
    obtain ⟨next, more, rfl, hnext, hmore⟩ := List.map_eq_cons_iff.1 hr
    rw [List.length_cons] at hlimit hn ⊢
    have hlimit' : 2 * (w.length + 1) + 2 ≤ limit := by omega
    have hne : more ≠ [] := by
      rintro rfl
      exact List.append_ne_nil_of_right_ne_nil _ (List.cons_ne_nil _ _) hmore.symm
    obtain ⟨id, a, q, left, k, hk, hleft, hstatement, hrun⟩ :=
      s.reads (J := ⟨base, next, more, s.words.getLast?⟩) hwords rfl ⟨fun _ => hne, .inr (.inl hnext)⟩
        (.inl (.inr (.inl hnext))) p items hlimit'
    rcases hleft with rfl | ⟨-, rfl⟩
    · -- The semicolon is left for another round.
      obtain ⟨m, rfl⟩ : ∃ m, n = m + 1 + k := ⟨n - 1 - k, by omega⟩
      refine ⟨id, a, some next.kind, more, m, hmore, by omega, by omega, hstatement, ?_⟩
      rw [hrun, rounds_unit_semicolon hnext hne]
    · obtain ⟨m, rfl⟩ : ∃ m, n = m + k := ⟨n - k, by omega⟩
      exact ⟨id, a, q, left, m, hmore, by omega, by omega, hstatement, hrun m⟩
  | false =>
    rw [hseparated, if_neg Bool.false_ne_true, List.nil_append] at hr
    have hpos : 0 < w.length := by
      rw [← List.length_map Lexeme.kind, hwords]
      exact List.length_pos_iff.2 s.words_ne_nil
    obtain ⟨next, more, rfl⟩ : ∃ next more, r = next :: more := by
      refine List.exists_cons_of_ne_nil ?_
      rintro rfl
      exact List.append_ne_nil_of_right_ne_nil _ (List.cons_ne_nil _ _) hr.symm
    have hlimit' : 2 * (w.length + 1) + 2 ≤ limit := by
      rw [List.length_cons] at hlimit
      omega
    obtain ⟨hnext, hends, hclear⟩ : next.kind ≠ .symbol .semicolon ∧
        (next.kind = .endOfFile ∨ s.words.getLast? = some (.symbol .rightBrace)) ∧
        (Junction.Clear ⟨base, next, more, s.words.getLast?⟩ ∨ s.Enclosed) := by
      cases following with
      | nil =>
        have hend : next.kind = .endOfFile := (List.cons.inj hr).1
        exact ⟨by rw [hend]; simp, .inl hend, .inl (.inl hend)⟩
      | cons t rest =>
        have hleads' := hleads t rfl
        have hfirst : t.words.head? = some next.kind := by
          obtain ⟨first, others, hfirst⟩ := List.exists_cons_of_ne_nil t.words_ne_nil
          rw [List.flatMap_cons, write, hfirst] at hr
          rw [hfirst, (List.cons.inj hr).1]
          rfl
        have hseparated' : ¬ s.separated := by
          rw [hseparated]
          exact Bool.false_ne_true
        exact ⟨fun h => t.starts (by rw [hfirst, h]), .inr (hleads'.resolve_left hseparated').1,
          clear_of_leads hleads' hseparated' (J := ⟨base, next, more, s.words.getLast?⟩) rfl hfirst⟩
    obtain ⟨id, a, q, left, k, hk, hleft, hstatement, hrun⟩ :=
      s.reads (J := ⟨base, next, more, s.words.getLast?⟩) hwords rfl
        ⟨fun h => absurd h hnext, hends.imp_right .inr⟩ hclear p items hlimit'
    obtain rfl := hleft.resolve_right fun h => hnext h.1
    obtain ⟨m, rfl⟩ : ∃ m, n = m + k := ⟨n - k, by omega⟩
    exact ⟨id, a, q, _, m, hr, by omega, by omega, hstatement, hrun m⟩

/-- Statements of which each leads to the next one are read one after the other. -/
theorem reads_all {sentences : List Sentence} (hleads : sentences.IsChain Leads) {tokens : List Lexeme}
    (htokens : tokens.map Lexeme.kind = sentences.flatMap write ++ [.endOfFile]) {limit : Nat}
    (hlimit : 2 * tokens.length + 2 ≤ limit) (base : Arena) (p : Option TokenKind) (items : Array NodeId) {n : Nat}
    (hn : 2 * tokens.length ≤ n) :
    ∃ ids st, rounds (ofDepth limit limit).unitRound n items (.before p base tokens) = .ok (items.toList ++ ids, st) ∧
      base.Keeps st.arena ∧ Statement.EachAt st.arena (sentences.map statement) ids := by
  induction sentences generalizing tokens base p items n with
  | nil =>
    obtain ⟨last, rfl, hlast⟩ := List.map_eq_singleton_iff.1 htokens
    obtain ⟨n, rfl⟩ : ∃ m, n = m + 1 := ⟨n - 1, by simp at hn; omega⟩
    refine ⟨[], .before p base [last], ?_, .refl base, rfl⟩
    rw [List.append_nil]
    exact rounds_unit_end hlast
  | cons s following ih =>
    rw [List.flatMap_cons, List.append_assoc] at htokens
    obtain ⟨hfirst, hrest⟩ := List.isChain_cons.1 hleads
    obtain ⟨id, a, q, left, m, hleft, hle, hm, hstatement, hrun⟩ :=
      s.reads_first hfirst htokens hlimit base p items hn
    obtain ⟨ids, st, hruns, hkeeps, hstatements⟩ := ih hrest hleft (by omega) (base.append a) q (items.push id) hm
    refine ⟨id :: ids, st, ?_, (base.keeps_append a).trans hkeeps, id, ids, rfl, ?_, hstatements⟩
    · rw [hrun, hruns, Array.toList_push, List.append_assoc]
      rfl
    · have hshown : Statement.EachAt (base.append a) [s.statement] [id] := ⟨id, [], rfl, hstatement, rfl⟩
      obtain ⟨_, _, ⟨⟩, hkept, -⟩ := hshown.keeps hkeeps
      exact hkept

end Sentence

/-- Statements that are written one after the other, each of which leads to the next one, are read as these statements
and no others. -/
theorem parse_sentences {sentences : List Sentence} (hleads : sentences.IsChain Sentence.Leads) {tokens : List Lexeme}
    (htokens : tokens.map Lexeme.kind = sentences.flatMap Sentence.write ++ [.endOfFile]) :
    ∃ p, parse tokens = .ok p ∧ p.Shows (sentences.map Sentence.statement) ∧
      ∀ other, p.Shows other → other = sentences.map Sentence.statement := by
  obtain ⟨ids, st, hrun, -, hstatements⟩ := Sentence.reads_all hleads htokens le_rfl .empty none #[]
    (n := 2 * tokens.length + 2) (Nat.le_add_right _ 2)
  let node : Node := ⟨.block ids, some (ParseState.before none .empty tokens).cursor.position⟩
  have hunit : (Grammar.ofDepth (2 * tokens.length + 2) (2 * tokens.length + 2)).unit (.before none .empty tokens) =
      .ok (⟨st.arena.size⟩, { st with arena := (st.arena.alloc node).2 }) := by
    rw [Grammar.unit_eq]
    refine Eq.trans ?_ (bind_of_ok (k := fun items => Parser.node (.block items) _) hrun)
    rw [Grammar.repeating, Grammar.limit_ofDepth]
    rfl
  have hshows : Program.Shows ⟨(st.arena.alloc node).2, ⟨st.arena.size⟩⟩ (sentences.map Sentence.statement) :=
    ⟨ids, Arena.kind?_eq_some.2 ⟨node.position, by rw [Arena.get?_alloc, if_pos rfl]⟩, hstatements.keeps (.alloc _ _)⟩
  refine ⟨_, ?_, hshows, fun other hother => Program.shows_unique hother hshows⟩
  rw [parse_eq, hunit]

namespace Sentence

/-- The statement `if true then {}`. -/
def emptyConditional : Sentence where
  words := [.keyword .cond, .keyword .yes, .keyword .thenBranch, .symbol .leftBrace, .symbol .rightBrace]
  statement := .expression (.conditional (.literal (.bool true)) [] .none)
  separated := false
  inside := by decide
  starts := by decide
  alone
    | [⟨.keyword .cond, _⟩, ⟨.keyword .yes, _⟩, ⟨.keyword .thenBranch, _⟩, ⟨.symbol .leftBrace, _⟩,
        ⟨.symbol .rightBrace, _⟩, ⟨.endOfFile, _⟩], rfl =>
      ⟨_, rfl, _, rfl, _, _, rfl, ⟨_, _, _, _, rfl, rfl, rfl, rfl, rfl⟩, rfl⟩

/-- The statement `{}`. -/
def emptyBlock : Sentence where
  words := [.symbol .leftBrace, .symbol .rightBrace]
  statement := .block []
  separated := false
  inside := by decide
  starts := by decide
  alone
    | [⟨.symbol .leftBrace, _⟩, ⟨.symbol .rightBrace, _⟩, ⟨.endOfFile, _⟩], rfl =>
      ⟨_, rfl, _, rfl, _, _, rfl, ⟨_, rfl, rfl⟩, rfl⟩

/-- The statement `-x` and a semicolon. -/
def negation : Sentence where
  words := [.symbol .minus, .identifier "x"]
  statement := .expression (.unary .negate (.name "x"))
  separated := true
  inside := by decide
  starts := by decide
  alone
    | [⟨.symbol .minus, _⟩, ⟨.identifier _, _⟩, ⟨.endOfFile, _⟩], rfl =>
      ⟨_, rfl, _, rfl, _, _, rfl, ⟨_, rfl, rfl⟩, rfl⟩

end Sentence

/-- Reading `if true then {} {} -x;`, where the block ends before the minus sign. -/
theorem parse_sentences_block_negation :
    [Sentence.emptyConditional, .emptyBlock, .negation].IsChain Sentence.Leads ∧
      ∃ p, parse (([Sentence.emptyConditional, .emptyBlock, .negation].flatMap Sentence.write ++
          [TokenKind.endOfFile]).map (⟨·, ⟨⟨0, 0⟩, 1, 1⟩⟩)) = .ok p ∧
        p.Shows [Sentence.emptyConditional.statement, Sentence.emptyBlock.statement, Sentence.negation.statement] := by
  have hleads : [Sentence.emptyConditional, .emptyBlock, .negation].IsChain Sentence.Leads := by
    refine .cons_cons (.inr ⟨rfl, .inr ?_⟩) (.cons_cons (.inr ⟨rfl, .inl ⟨_, .block, [_], rfl⟩⟩) (.singleton _))
    rintro _ ⟨⟩
    decide
  have htokens : (([Sentence.emptyConditional, .emptyBlock, .negation].flatMap Sentence.write ++
      [TokenKind.endOfFile]).map fun word => (⟨word, ⟨⟨0, 0⟩, 1, 1⟩⟩ : Lexeme)).map Lexeme.kind = _ :=
    (List.map_map ..).trans (List.map_id _)
  obtain ⟨p, hp, hshows, -⟩ := parse_sentences hleads htokens
  exact ⟨hleads, p, hp, hshows⟩

/-- A brace at the end of every statement that has no semicolon is not enough: `if true then {} -x;` is a
subtraction. -/
theorem not_parse_of_rightBrace :
    ¬ ∀ (sentences : List Sentence) (tokens : List Lexeme),
      (∀ s ∈ sentences, s.separated ∨ s.words.getLast? = some (.symbol .rightBrace)) →
      tokens.map Lexeme.kind = sentences.flatMap Sentence.write ++ [.endOfFile] →
      ∃ p, parse tokens = .ok p ∧ p.Shows (sentences.map Sentence.statement) := by
  intro h
  obtain ⟨p, hp, hshows⟩ := h [.emptyConditional, .negation]
    (([Sentence.emptyConditional, .negation].flatMap Sentence.write ++ [TokenKind.endOfFile]).map
      (⟨·, ⟨⟨0, 0⟩, 1, 1⟩⟩))
    (List.forall_mem_cons.2 ⟨.inr rfl, List.forall_mem_cons.2 ⟨.inl rfl, nofun⟩⟩) rfl
  obtain ⟨p', hp', hsubtraction⟩ : ∃ p', parse (([Sentence.emptyConditional, .negation].flatMap Sentence.write ++
      [TokenKind.endOfFile]).map (⟨·, ⟨⟨0, 0⟩, 1, 1⟩⟩)) = .ok p' ∧
      p'.Shows [.expression (.binary (.arithmetic .subtract) (.conditional (.literal (.bool true)) [] .none)
        (.name "x"))] :=
    ⟨_, rfl, _, rfl, _, _, rfl, ⟨_, _, rfl, ⟨_, _, _, _, rfl, rfl, rfl, rfl, rfl⟩, rfl⟩, rfl⟩
  cases hp.symm.trans hp'
  cases Program.shows_unique hshows hsubtraction

end DynScript
