import DynScript.Proofs.Syntax.Operators

/-!
# Reading forms

Every form of the grammar reads the tokens that are written for it, when the grammar understands what it reads one
level deeper (`Grammar.Understands`).
-/

namespace DynScript

open Syntax

/-- The level of the expressions of a nonterminal. -/
def Nonterminal.level? : Nonterminal → Option Nat
  | expression => some 1
  | pipe => some 2
  | prepend => some 7
  | unary => some 10
  | statement | conditional => none

namespace Grammar

open DynScript.Parser

/-- What is written in fewer than some number of tokens is read one level deeper. -/
structure Understands (g : Grammar) (n : Nat) : Prop where
  /-- An expression of a level, or one that is written for a tighter level. -/
  operand : ∀ {nonterminal : Nonterminal} {level wanted : Nat}, nonterminal.level? = some level → level ≤ wanted →
    ∀ e : Expression, (e.writeAt wanted).length < n →
      ∀ a, Reads a (g.read nonterminal) (e.writeAt wanted) (Ends level) fun b id => e.At b id
  /-- A conditional. -/
  conditional : ∀ condition body otherwise, (Expression.conditional condition body otherwise).write.length < n →
    ∀ a, Reads a (g.read .conditional) (Expression.conditional condition body otherwise).write
      (· ≠ .keyword .elseBranch) fun b id => (Expression.conditional condition body otherwise).At b id
  /-- A statement. -/
  statement : ∀ st : Statement, st.write.length < n →
    ∀ a, Reads a (g.read .statement) st.write (fun _ => True) fun b id => st.At b id

end Grammar

/-! ## Lists -/

namespace Syntax

theorem writeEach_eq (items : List Expression) : Expression.writeEach items = items.map Expression.write := by
  induction items with
  | nil => rfl
  | cons e rest ih => rw [Expression.writeEach, ih, List.map_cons]

theorem Entry.writeEach_eq (fields : List Entry) : Entry.writeEach fields = fields.map Entry.write := by
  induction fields with
  | nil => rfl
  | cons entry rest ih => rw [Entry.writeEach, ih, List.map_cons]

theorem eachAt_of_forall₂ {a : Arena} {items : List Expression} {ids : List NodeId}
    (h : List.Forall₂ (fun e id => e.At a id) items ids) : Expression.EachAt a items ids := by
  induction h with
  | nil => rfl
  | cons h _ ih => exact ⟨_, _, rfl, h, ih⟩

theorem Entry.eachAt_of_forall₂ {a : Arena} {fields : List Entry} {shown : List Field}
    (h : List.Forall₂ (fun entry field => entry.At a field) fields shown) : Entry.EachAt a fields shown := by
  induction h with
  | nil => rfl
  | cons h _ ih => exact ⟨_, _, rfl, h, ih⟩

theorem Statement.writeAll_eq (body : List Statement) : Statement.writeAll body = body.flatMap Statement.write := by
  induction body with
  | nil => rfl
  | cons st rest ih => rw [Statement.writeAll, ih, List.flatMap_cons]

theorem Statement.eachAt_of_forall₂ {a : Arena} {body : List Statement} {ids : List NodeId}
    (h : List.Forall₂ (fun st id => st.At a id) body ids) : Statement.EachAt a body ids := by
  induction h with
  | nil => rfl
  | cons h _ ih => exact ⟨_, _, rfl, h, ih⟩

/-- A statement is no longer than the statements that it is one of. -/
theorem Statement.length_le_writeAll {body : List Statement} {st : Statement} (h : st ∈ body) :
    st.write.length ≤ (Statement.writeAll body).length := by
  rw [writeAll_eq, List.length_flatMap]
  exact List.single_le_sum (by simp) _ (List.mem_map_of_mem h)

/-- Items that are each what is made of another one. -/
theorem map_eq_of_forall₂ {α β : Type} {f : α → β} {xs : List β} {vs : List α}
    (h : List.Forall₂ (fun x v => f v = x) xs vs) : vs.map f = xs := by
  induction h with
  | nil => rfl
  | cons h _ ih => rw [List.map_cons, h, ih]

theorem length_le_commas {items : List (List TokenKind)} {item : List TokenKind} (h : item ∈ items) :
    item.length ≤ (commas items).length := by
  induction items with
  | nil => cases h
  | cons first rest ih =>
    cases rest with
    | nil =>
      obtain rfl := List.mem_singleton.1 h
      exact le_rfl
    | cons next rest =>
      rw [Grammar.commas_cons_cons, List.length_append, List.length_cons]
      rcases List.mem_cons.1 h with rfl | h
      · omega
      · have hle := ih h
        omega

/-- What opens an expression ends no list and no statement. -/
theorem ne_of_opens {word other : TokenKind} (h : word.opens) (ho : other.opens = false) : word ≠ other := by
  rintro rfl
  rw [ho] at h
  cases h

theorem Expression.starts_opens (e : Expression) : Starts (fun word => word.opens) e.write :=
  e.starts.imp fun _ h => h.1

theorem starts_commas (e : Expression) (rest : List Expression) :
    Starts (fun word => word.opens) (commas (Expression.writeEach (e :: rest))) := by
  rw [writeEach_eq]
  cases rest with
  | nil => exact e.starts_opens
  | cons next rest => exact e.starts_opens.append _

end Syntax

/-- A statement begins with no token that ends one, or all of them. -/
theorem Syntax.Statement.starts (st : Statement) :
    Starts (fun word => word ≠ .symbol .rightBrace ∧ word ≠ .symbol .semicolon ∧ word ≠ .endOfFile) st.write := by
  cases st with
  | expression value =>
    refine (parenthesized_starts ⟨nofun, nofun, nofun⟩ fun _ => ?_).append _
    exact value.starts_opens.imp fun _ h => ⟨ne_of_opens h rfl, ne_of_opens h rfl, ne_of_opens h rfl⟩
  | _ => exact .cons ⟨nofun, nofun, nofun⟩

namespace Grammar

open DynScript.Parser

variable {g : Grammar} {n : Nat} {a : Arena} {stop : TokenKind → Prop}

namespace Understands

variable (hg : g.Understands n)
include hg

theorem expression {e : Expression} (h : e.write.length < n) (a : Arena) :
    Reads a (g.read .expression) e.write (Ends 1) fun b id => e.At b id := by
  rw [← e.writeAt_one] at h ⊢
  exact hg.operand rfl le_rfl e h a

end Understands

/-! ## Items -/

section items

variable (hg : g.Understands n) (hn : n < g.limit)
include hg

/-- Expressions with commas between them, at least one. -/
theorem reads_expressions {items : List Expression} (hne : items ≠ [])
    (h : (commas (Expression.writeEach items)).length < n) (hn : n ≤ g.limit) :
    Reads a (g.commaSeparated (g.read .expression)) (commas (Expression.writeEach items))
      (fun word => Ends 1 word ∧ word ≠ .symbol .comma) fun b ids => Expression.EachAt b items ids := by
  rw [writeEach_eq] at h ⊢
  have hitem (e : Expression) (he : e ∈ items) (b : Arena) (_ : a.Keeps b) :
      Reads b (g.read .expression) e.write (Ends 1) fun c id => e.At c id :=
    hg.expression ((length_le_commas (List.mem_map_of_mem he)).trans_lt h) b
  refine (reads_commaSeparated hne (h.trans_le hn) hitem Nat.zero_lt_one
    fun _ hword => hword).weaken (fun _ hword => hword) fun b ids _ hids => ?_
  exact eachAt_of_forall₂ hids

/-- An entry of a record. -/
theorem reads_field {entry : Syntax.Entry} (h : entry.write.length < n) :
    Reads a g.field entry.write (Ends 1) fun b field => entry.At b field := by
  obtain ⟨name, value⟩ := entry
  simp only [Entry.write, List.length_cons] at h
  refine .expectLabel fun label hlabel => .expectSymbol fun _ => ?_
  refine Reads.andLook (hg.expression (by omega) a) (fun _ hword => hword) fun id b _ hid => ?_
  exact Reads.pure fun c hc => ⟨hlabel, hid c hc⟩

include hn

theorem reads_list {items : List Expression} (h : (Expression.list items).write.length ≤ n) :
    Reads a g.list (Expression.list items).write stop fun b id => (Expression.list items).At b id := by
  have hwords : (Expression.list items).write =
      .symbol .leftBracket :: (commas (items.map Expression.write) ++ [.symbol .rightBracket]) := by
    simp [Expression.write, writeEach_eq]
  rw [hwords] at h ⊢
  simp only [List.length_cons, List.length_append, List.length_nil] at h
  have hitem (e : Expression) (he : e ∈ items) (b : Arena) (_ : a.Keeps b) :
      Reads b (g.read .expression) e.write (Ends 1) fun c id => e.At c id :=
    hg.expression ((length_le_commas (List.mem_map_of_mem he)).trans_lt (by omega)) b
  have hitems : Reads a (g.closedBy .rightBracket (g.read .expression)) _ stop _ :=
    reads_closedBy (by omega) hitem (fun e _ => e.starts_opens.imp fun _ hword => ne_of_opens hword rfl) Nat.zero_lt_one
      Nat.zero_lt_one nofun
  refine .expectSymbol fun _ => Reads.andLook hitems (fun _ hword => hword) fun ids b hb hids => ?_
  exact Reads.alloc fun id c hc hid => ⟨ids, hid, eachAt_of_forall₂ (hids c hc)⟩

theorem reads_record {fields : List Syntax.Entry} (h : (Expression.record fields).write.length ≤ n) :
    Reads a g.record (Expression.record fields).write stop fun b id => (Expression.record fields).At b id := by
  have hwords : (Expression.record fields).write =
      .symbol .leftBrace :: (commas (fields.map Entry.write) ++ [.symbol .rightBrace]) := by
    simp [Expression.write, braced, Entry.writeEach_eq]
  rw [hwords] at h ⊢
  simp only [List.length_cons, List.length_append, List.length_nil] at h
  have hitem (entry : Syntax.Entry) (he : entry ∈ fields) (b : Arena) (_ : a.Keeps b) :
      Reads b g.field entry.write (Ends 1) fun c field => entry.At c field :=
    reads_field hg ((length_le_commas (List.mem_map_of_mem he)).trans_lt (by omega))
  have hstart (entry : Syntax.Entry) (_ : entry ∈ fields) : Starts (· ≠ .symbol .rightBrace) entry.write := by
    cases entry
    exact .cons nofun
  have hitems : Reads a (g.closedBy .rightBrace g.field) _ stop _ :=
    reads_closedBy (by omega) hitem hstart Nat.zero_lt_one Nat.zero_lt_one nofun
  refine .expectSymbol fun _ => Reads.andLook hitems (fun _ hword => hword) fun shown b hb hshown => ?_
  exact Reads.alloc fun id c hc hid => ⟨shown, hid, Entry.eachAt_of_forall₂ (hshown c hc)⟩

/-! ## Blocks -/

/-- Statements through a closing brace. -/
theorem reads_statements {body : List Statement} (h : (Statement.writeAll body).length < n) :
    Reads a g.statementsUntilBrace (Statement.writeAll body ++ [.symbol .rightBrace]) stop
      fun b ids => Statement.EachAt b body ids := by
  have hfew : body.length ≤ (Statement.writeAll body).length := by
    rw [Statement.writeAll_eq]
    exact length_le_flatMap fun st _ => st.starts.ne_nil
  have hshort (st : Statement) (hst : st ∈ body) : st.write.length < n := (Statement.length_le_writeAll hst).trans_lt h
  rw [Statement.writeAll_eq]
  refine (reads_rounds_items (fun c (st : Statement) id => st.At c id)
    (fun _ items ids => ids = items.toList) (by omega) ?_ ?_ #[]).weaken (fun _ hw => hw) ?_
  · intro st hst b hb acc
    refine .if_eat_no (fun w hw => (st.starts.heads hw).1) ?_
    refine .if_eat_no (fun w hw => (st.starts.heads hw).2.1) ?_
    refine .if_atEnd_no (fun w hw => (st.starts.heads hw).2.2) ?_
    refine Reads.andLook (hg.statement st (hshort st hst) b) (fun _ hword => hword) fun id c _ hid => ?_
    exact Reads.pure fun d hd => ⟨id, rfl, hid d hd⟩
  · exact fun b hb items => .if_eat_yes nofun (Reads.pure fun c _ => ⟨_, rfl, rfl⟩)
  · rintro c ids - ⟨items, shown, rfl, hshown, rfl⟩
    exact Statement.eachAt_of_forall₂ hshown

/-- A block shows its statements. -/
theorem reads_block {body : List Statement} (h : (Statement.writeAll body).length < n) :
    Reads a g.block (braced (Statement.writeAll body)) stop
      fun b id => ∃ ids, b.kind? id = some (.block ids) ∧ Statement.EachAt b body ids := by
  refine .expectSymbol fun _ => ?_
  refine Reads.andLook (reads_statements hg hn h) (fun _ hword => hword) fun ids b _ hids => ?_
  exact Reads.alloc fun id c hc hid => ⟨ids, hid, hids c hc⟩

/-! ## Functions and objects -/

omit hg hn in
/-- Parameters between parentheses. A parameter is mutable only where that is allowed. -/
theorem reads_params {params : List (String × Bool)} {allowMutable : Bool} (hallowed : ∀ q ∈ params, q.2 → allowMutable)
    (h : (commas (params.map paramWords)).length < g.limit) :
    Reads a (g.params allowMutable)
      (.symbol .leftParen :: (commas (params.map paramWords) ++ [.symbol .rightParen])) stop
      fun _ shown => shown.map (fun q => (q.name, q.isMutable)) = params := by
  have hlabel (name : String) (isMutable : Bool) (b : Arena) :
      Reads b (Parser.expectLabel >>= fun label => pure ⟨label, isMutable⟩) [.identifier name] (fun _ => True)
        fun _ (q : Param) => (q.name, q.isMutable) = (name, isMutable) :=
    .expectLabel fun label hlabel => Reads.pure fun c _ => by rw [hlabel]
  have hitem (param : String × Bool) (hparam : param ∈ params) (b : Arena) (_ : a.Keeps b) : Reads b (do
      let isMutable ← if allowMutable then Parser.eatKeyword .mutable else pure false
      return (⟨← Parser.expectLabel, isMutable⟩ : Param)) (paramWords param) (fun _ => True)
      fun _ q => (q.name, q.isMutable) = param := by
    obtain ⟨name, isMutable⟩ := param
    cases isMutable with
    | true =>
      rw [hallowed _ hparam rfl, if_pos rfl]
      exact .eat_yes nofun (hlabel name true b)
    | false =>
      cases allowMutable with
      | true =>
        rw [if_pos rfl]
        refine .eat_no ?_ (hlabel name false b)
        rintro word rfl
        exact nofun
      | false =>
        simp only [Bool.false_eq_true, if_false, pure_bind]
        exact hlabel name false b
  have hstart (param : String × Bool) (_ : param ∈ params) : Starts (· ≠ .symbol .rightParen) (paramWords param) := by
    obtain ⟨name, isMutable⟩ := param
    cases isMutable <;> exact .cons nofun
  refine .expectSymbol fun _ => ?_
  refine (reads_closedBy h hitem hstart trivial trivial nofun).weaken (fun _ hword => hword) ?_
  exact fun _ _ _ hshown => map_eq_of_forall₂ hshown

theorem reads_function {params : List String} {body : List Statement}
    (h : (Expression.function params body).write.length ≤ n) :
    Reads a g.function (Expression.function params body).write stop
      fun b id => (Expression.function params body).At b id := by
  have hparams : (params.map fun name => [.identifier name]) = (params.map (·, false)).map paramWords := by
    simp [paramWords, Function.comp_def]
  have hwords : (Expression.function params body).write = .keyword .func ::
      ((.symbol .leftParen :: (commas ((params.map (·, false)).map paramWords) ++ [.symbol .rightParen])) ++
        braced (Statement.writeAll body)) := by
    simp [Expression.write, hparams]
  rw [hwords] at h ⊢
  simp only [List.length_cons, List.length_append, List.length_nil, braced] at h
  refine .expectKeyword fun _ => .if_check_yes (fun _ hword => hword) ?_
  refine Reads.andThen (reads_params (by simp) (by omega)) (fun _ _ => trivial) fun shown b _ hshown => ?_
  refine Reads.andLook (reads_block hg hn (by omega)) (fun _ hword => hword) fun block c hc hblock => ?_
  refine Reads.alloc fun id d hd hid => ?_
  obtain ⟨ids, hblock, hbody⟩ := hblock d hd
  exact ⟨shown, block, ids, hid, hshown d (hc.trans hd), hblock, hbody⟩

omit hg hn in
theorem reads_bindingMode (mode : BindingMode) :
    Reads a bindingMode (modeWords mode) (fun word => word ≠ .keyword .mutable ∧ word ≠ .keyword .recursive)
      fun _ shown => shown = mode := by
  cases mode with
  | plain => exact .if_eat_no (fun _ hword => hword.1) (.if_eat_no (fun _ hword => hword.2) (Reads.pure fun _ _ => rfl))
  | mutable => exact .if_eat_yes nofun (Reads.pure fun _ _ => rfl)
  | recursive =>
    refine .if_eat_no ?_ (.if_eat_yes nofun (Reads.pure fun _ _ => rfl))
    rintro word rfl
    exact nofun

omit hg in
/-- No labels. -/
theorem reads_labels_nil : Reads a g.labels [] (fun word => word.identifier? = none) fun _ labels => labels = [] := by
  obtain ⟨m, hm⟩ : ∃ m, g.limit = m + 1 := ⟨g.limit - 1, by omega⟩
  unfold labels repeating
  rw [hm]
  refine reads_rounds_done (.kind fun word hword => ?_)
  have hnone : word.identifier? = none := hword
  rw [hnone]
  exact Reads.pure fun _ _ => ⟨_, rfl, rfl⟩

/-- A `let`. -/
theorem reads_binding {name : String} {mode : BindingMode} {isFinal : Bool} {value : Expression}
    (h : value.write.length < n) :
    Reads a g.binding (bindingWords name mode isFinal ++ value.write) (Ends 1)
      fun b id => ∃ i, b.kind? id = some (.binding name mode isFinal i) ∧ value.At b i := by
  have hwords : bindingWords name mode isFinal ++ value.write = .keyword .define ::
      ((if isFinal then [.keyword .final] else []) ++
        (modeWords mode ++ .identifier name :: .symbol .bind :: value.write)) := by
    simp [bindingWords]
  rw [hwords]
  refine .expectKeyword fun _ => ?_
  have hrest (b : Arena) : Turns b (do
      let mode ← bindingMode
      let label ← Parser.expectLabel
      let params := (← g.labels).map fun label => (⟨label, false⟩ : Param)
      let _ ← Parser.expectSymbol .bind
      let value ←
        if params.isEmpty then g.read .expression
        else Parser.alloc (.function params (← g.block)) label.position
      Parser.alloc (.binding label.name mode isFinal value) label.position)
      (modeWords mode ++ .identifier name :: .symbol .bind :: value.write) (Ends 1) pure
      fun c id => ∃ i, c.kind? id = some (.binding name mode isFinal i) ∧ value.At c i := by
    refine Reads.andThen (reads_bindingMode mode) ?_ fun shown c hc hshown => ?_
    · rintro word rfl
      exact ⟨nofun, nofun⟩
    obtain rfl := hshown c (.refl c)
    refine .expectLabel fun label hlabel => ?_
    subst hlabel
    show Turns c _ ([] ++ .symbol .bind :: value.write) _ _ _
    refine Reads.andThen (reads_labels_nil hn) ?_ fun more d hd hmore => ?_
    · rintro word rfl
      rfl
    obtain rfl := hmore d (.refl d)
    refine .expectSymbol fun _ => ?_
    simp only [List.map_nil, List.isEmpty_nil, if_true]
    refine Reads.andLook (hg.expression h d) (fun _ hword => hword) fun i e he hi => ?_
    exact Reads.alloc fun id k hk hid => ⟨i, hid, hi k hk⟩
  cases isFinal with
  | true => exact .eat_yes nofun (hrest a)
  | false =>
    refine .eat_no ?_ (hrest a)
    cases mode <;> · rintro word rfl; exact nofun

/-- A member and what separates it from the next one. -/
theorem reads_member (member : Member) (h : member.write.length < n) : ∃ words separator,
    member.write = words ++ [.symbol separator] ∧ (separator = .comma ∨ separator = .semicolon) ∧
      Starts (fun word => word ≠ .symbol .rightBrace ∧ word ≠ .symbol .comma ∧ word ≠ .symbol .semicolon) words ∧
      Reads a g.member words (Ends 1) fun b id => member.At b id := by
  obtain ⟨name, mode, isFinal, value⟩ := member
  rw [Member.write] at h ⊢
  split at h
  · rename_i hplain
    rw [if_pos hplain]
    obtain ⟨hmode, hfinal⟩ := Bool.and_eq_true_iff.1 hplain
    obtain rfl := of_decide_eq_true hmode
    obtain rfl := Bool.not_eq_true' _ ▸ hfinal
    refine ⟨.identifier name :: .symbol .colon :: value.write, .comma, rfl, .inl rfl, .cons ⟨nofun, nofun, nofun⟩, ?_⟩
    have hfield : (Entry.field name value).write.length < n := by
      simp only [List.length_append, List.length_cons] at h
      simp only [Entry.write, List.length_cons]
      omega
    refine .if_check_no ?_ ?_
    · rintro word rfl
      exact nofun
    refine Reads.andLook (reads_field hg hfield) (fun _ hword => hword) fun field b _ hshown => ?_
    refine Reads.alloc fun id c hc hid => ?_
    obtain ⟨hname, hvalue⟩ := hshown c hc
    exact ⟨field.value, hname ▸ hid, hvalue⟩
  · rename_i hplain
    rw [if_neg hplain]
    refine ⟨bindingWords name mode isFinal ++ value.write, .semicolon, rfl, .inr rfl, .cons ⟨nofun, nofun, nofun⟩, ?_⟩
    refine .if_check_yes (fun _ hword => hword) (reads_binding hg hn ?_)
    simp only [List.length_append] at h
    omega

/-- Members through a closing brace. -/
theorem reads_members {members : List Member} (h : (Member.writeAll members).length < n) :
    Reads a g.members (Member.writeAll members ++ [.symbol .rightBrace]) stop
      fun b ids => Member.EachAt b members ids := by
  have hgo (m : Nat) (members : List Member) (acc : Array NodeId) (a' : Arena)
      (h : (Member.writeAll members).length < n) (hm : (Member.writeAll members).length < m) :
      Reads a' (rounds (fun items => do
        if ← Parser.eatSymbol .rightBrace then return .done items.toList
        else if ← Parser.eatSymbol .comma then return .more items
        else if ← Parser.eatSymbol .semicolon then return .more items
        else return .more (items.push (← g.member))) m acc)
        (Member.writeAll members ++ [.symbol .rightBrace]) stop
        fun b ids => ∃ more, ids = acc.toList ++ more ∧ Member.EachAt b members more := by
    induction members generalizing m acc a' with
    | nil =>
      obtain ⟨m, rfl⟩ : ∃ l, m = l + 1 := ⟨m - 1, by omega⟩
      exact reads_rounds_done (.if_eat_yes nofun (Reads.pure fun c _ => ⟨_, rfl, [], by simp, rfl⟩))
    | cons member rest ih =>
      rw [Member.writeAll, List.length_append] at h hm
      obtain ⟨words, separator, hwords, hseparator, hstart, hmember⟩ := reads_member (a := a') hg hn member (by omega)
      have hlength : member.write.length = words.length + 1 := by rw [hwords, List.length_append]; rfl
      have hpos := hstart.length_pos
      obtain ⟨m, rfl⟩ : ∃ l, m = l + 2 := ⟨m - 2, by omega⟩
      rw [Member.writeAll, hwords, List.append_assoc, List.append_assoc]
      refine turns_rounds_item (Ends 1) (fun c id => member.At c id) ?_ ?_ fun id b _ hid => ?_
      · refine .if_eat_no (fun w hw => (hstart.heads hw).1) ?_
        refine .if_eat_no (fun w hw => (hstart.heads hw).2.1) ?_
        refine .if_eat_no (fun w hw => (hstart.heads hw).2.2) ?_
        refine Reads.andLook hmember (fun _ hword => hword) fun id b _ hid => ?_
        exact Reads.pure fun c hc => ⟨id, rfl, hid c hc⟩
      · rintro word rfl
        rcases hseparator with rfl | rfl <;> exact Nat.zero_lt_one
      · -- The next round passes the separator.
        refine turns_rounds_more (u := fun _ => True) (q := fun _ (items : Array NodeId) => items = acc.push id) ?_
          (fun _ _ => trivial) fun items b' hb' hitems => ?_
        · rcases hseparator with rfl | rfl
          · refine .if_eat_no ?_ (.if_eat_yes nofun (Reads.pure fun c _ => ⟨_, rfl, rfl⟩))
            rintro word rfl
            exact nofun
          · refine .if_eat_no ?_ (.if_eat_no ?_ (.if_eat_yes nofun (Reads.pure fun c _ => ⟨_, rfl, rfl⟩))) <;>
            · rintro word rfl
              exact nofun
        · obtain rfl := hitems b' (.refl b')
          refine (ih m (acc.push id) b' (by omega) (by omega)).weaken (fun _ hw => hw) ?_
          rintro c ids hc ⟨more, rfl, hmore⟩
          exact ⟨id :: more, by simp, id, more, rfl, hid c (hb'.trans hc), hmore⟩
  refine (hgo g.limit members #[] a h (h.trans hn)).weaken (fun _ hw => hw) ?_
  rintro c ids - ⟨more, rfl, hmore⟩
  exact hmore

omit hg hn in
/-- The names of composed objects. -/
theorem reads_composed {names : List String}
    (h : (names.flatMap fun name => [TokenKind.symbol .plus, .identifier name]).length < g.limit) :
    Reads a g.composed (names.flatMap fun name => [.symbol .plus, .identifier name]) (· ≠ .symbol .plus)
      fun _ labels => labels.map Label.name = names := by
  have hfew : names.length ≤ (names.flatMap fun name => [TokenKind.symbol .plus, .identifier name]).length :=
    length_le_flatMap fun _ _ => List.cons_ne_nil _ _
  rw [← List.append_nil (names.flatMap _)]
  refine (reads_rounds_items (fun _ name (label : Label) => label.name = name)
    (fun _ items labels => labels = items.toList) (by omega) ?_ ?_ #[]).weaken (fun _ hw => hw) ?_
  · intro name _ b hb acc
    exact .if_eat_yes nofun (.expectLabel fun label hlabel => Reads.pure fun c _ => ⟨label, rfl, hlabel⟩)
  · exact fun b hb items => .if_eat_no (fun _ hw => hw) (Reads.pure fun c _ => ⟨_, rfl, rfl⟩)
  · rintro c labels - ⟨items, shown, rfl, hshown, rfl⟩
    exact map_eq_of_forall₂ hshown

theorem reads_object {params : Option (List (String × Bool))} {composed : List String} {members : List Member}
    (h : (Expression.object params composed members).write.length ≤ n) :
    Reads a g.object (Expression.object params composed members).write stop
      fun b id => (Expression.object params composed members).At b id := by
  have hrest (b : Arena) (shown : Option (List Param))
      (hshown : shown.map (List.map fun q => (q.name, q.isMutable)) = params) (opening : Position)
      (h : (composed.flatMap fun name => [TokenKind.symbol .plus, .identifier name]).length +
        (Member.writeAll members).length < n) : Turns b (do
      let composed ← g.composed
      let _ ← Parser.expectSymbol .leftBrace
      Parser.node (.object shown composed (← g.members)) opening)
      ((composed.flatMap fun name => [.symbol .plus, .identifier name]) ++ braced (Member.writeAll members)) stop pure
      fun c id => (Expression.object params composed members).At c id := by
    refine Reads.andThen (reads_composed (by omega)) ?_ fun labels c hc hlabels => ?_
    · rintro word rfl
      exact nofun
    refine .expectSymbol fun _ => ?_
    refine Reads.andLook (reads_members hg hn (by omega)) (fun _ hword => hword) fun ids d hd hids => ?_
    exact Reads.alloc fun id e he hid => ⟨shown, labels, ids, hid, hshown, hlabels c (.refl c), hids e he⟩
  cases params with
  | none =>
    have hwords : (Expression.object none composed members).write = .keyword .object ::
        ((composed.flatMap fun name => [.symbol .plus, .identifier name]) ++ braced (Member.writeAll members)) := by
      simp [Expression.write]
    rw [hwords] at h ⊢
    simp only [List.length_cons, List.length_append, List.length_nil, braced] at h
    refine .expectKeyword fun _ => ?_
    refine .if_check_no ?_ ?_
    · cases composed <;> · rintro word rfl; exact nofun
    · simp only [pure_bind]
      exact hrest a none rfl _ (by omega)
  | some params =>
    have hwords : (Expression.object (some params) composed members).write = .keyword .object ::
        ((.symbol .leftParen :: (commas (params.map paramWords) ++ [.symbol .rightParen])) ++
          ((composed.flatMap fun name => [.symbol .plus, .identifier name]) ++ braced (Member.writeAll members))) := by
      simp [Expression.write]
    rw [hwords] at h ⊢
    simp only [List.length_cons, List.length_append, List.length_nil, braced] at h
    refine .expectKeyword fun opening => .if_check_yes (fun _ hword => hword) ?_
    simp only [map_eq_pure_bind, bind_assoc, pure_bind]
    refine Reads.andThen (reads_params (fun _ _ _ => rfl) (by omega)) (fun _ _ => trivial) fun shown b hb hshown => ?_
    exact hrest b (some shown) (congrArg some (hshown b (.refl b))) opening (by omega)

/-! ## Imports -/

omit hg hn in
/-- A word before a name is a directory only if a name follows it. -/
theorem reads_importRoot {root : ImportRoot} {first : String} {words : List TokenKind} {post : Arena → NodeId → Prop}
    {k : ImportRoot → Parser NodeId} (hnext : ∀ word, Heads stop words word → word.identifier? = none)
    (h : Turns a (k root) (.identifier first :: words) stop pure post) :
    Turns a (importRoot >>= k) (rootWords root ++ .identifier first :: words) stop pure post := by
  unfold importRoot
  rw [bind_assoc]
  cases root with
  | relative =>
    refine .cursor fun c hkind hpeek => ?_
    rw [hnext _ hpeek]
    simp only [Option.isSome_none, Bool.false_eq_true, if_false, pure_bind]
    exact h
  | base =>
    refine .cursor fun c hkind hpeek => ?_
    have hword : c.peek = .identifier first := hpeek
    rw [hword, hkind]
    show Turns a (((Parser.advance >>= fun _ => pure .base) : Parser ImportRoot) >>= k) _ _ _ _
    rw [bind_assoc]
    refine .advance nofun fun _ => ?_
    rw [pure_bind]
    exact h
  | std =>
    refine .cursor fun c hkind hpeek => ?_
    have hword : c.peek = .identifier first := hpeek
    rw [hword, hkind]
    show Turns a (((Parser.advance >>= fun _ => pure .std) : Parser ImportRoot) >>= k) _ _ _ _
    rw [bind_assoc]
    refine .advance nofun fun _ => ?_
    rw [pure_bind]
    exact h

omit hg in
theorem reads_importForm {root : ImportRoot} {first : String} {more : List String}
    (h : (Expression.imports root first more).write.length ≤ n) :
    Reads a g.importForm (Expression.imports root first more).write
      (fun word => word ≠ .symbol .dot ∧ word.identifier? = none)
      fun b id => (Expression.imports root first more).At b id := by
  have hgo (m : Nat) (first : String) (more : List String) (acc : Array String) (a' : Arena)
      (hm : (more.flatMap fun name => [TokenKind.symbol .dot, .identifier name]).length < m) :
      Reads a' (rounds (fun (names : Array String) => do
        let names := names.push (← Parser.expectLabel).name
        if ← Parser.eatSymbol .dot then return .more names else return .done names.toList) m acc)
        (.identifier first :: more.flatMap fun name => [.symbol .dot, .identifier name])
        (fun word => word ≠ .symbol .dot ∧ word.identifier? = none)
        fun _ names => names = acc.toList ++ first :: more := by
    induction more generalizing m first acc a' with
    | nil =>
      obtain ⟨m, rfl⟩ : ∃ l, m = l + 1 := ⟨m - 1, by omega⟩
      refine reads_rounds_done (.expectLabel fun label hlabel => .if_eat_no (fun _ hw => hw.1) ?_)
      exact Reads.pure fun c _ => ⟨_, rfl, by simp [hlabel]⟩
    | cons name rest ih =>
      rw [List.flatMap_cons] at hm ⊢
      simp only [List.length_append, List.length_cons, List.length_nil] at hm
      obtain ⟨m, rfl⟩ : ∃ l, m = l + 1 := ⟨m - 1, by omega⟩
      show Reads a' _ ([.identifier first, .symbol .dot] ++ .identifier name :: _) _ _
      refine turns_rounds_more (u := fun _ => True) (q := fun _ (names : Array String) => names = acc.push first) ?_
        (fun _ _ => trivial) ?_
      · refine .expectLabel fun label hlabel => .if_eat_yes nofun (Reads.pure fun c _ => ?_)
        exact ⟨_, rfl, by rw [hlabel]⟩
      · intro names b _ hnames
        obtain rfl := hnames b (.refl b)
        refine (ih m name (acc.push first) b (by omega)).weaken (fun _ hw => hw) ?_
        rintro c shown - rfl
        simp
  have hwords : (Expression.imports root first more).write = .keyword .imports ::
      (rootWords root ++ .identifier first :: more.flatMap fun name => [.symbol .dot, .identifier name]) := by
    simp [Expression.write]
  rw [hwords] at h ⊢
  simp only [List.length_cons, List.length_append] at h
  refine .expectKeyword fun _ => reads_importRoot ?_ ?_
  · cases more with
    | nil => exact fun word hword => hword.2
    | cons name rest =>
      rintro word rfl
      rfl
  · refine Reads.andLook (hgo g.limit first more #[] a (by omega)) (fun _ hword => hword) fun path b _ hpath => ?_
    obtain rfl := hpath b (.refl b)
    exact Reads.alloc fun id c _ hid => hid

/-! ## Conditionals and loops -/

/-- What stands after the block of a conditional. -/
theorem reads_elseBranch {otherwise : Alternative} (h : otherwise.write.length ≤ n) :
    Reads a g.elseBranch otherwise.write (· ≠ .keyword .elseBranch) fun b branch => otherwise.At b branch := by
  cases otherwise with
  | none => exact .if_eat_no (fun _ hword => hword) (Reads.pure fun _ _ => rfl)
  | block body =>
    simp only [Alternative.write, List.length_cons, braced, List.length_append, List.length_nil] at h
    refine .if_eat_yes nofun (.if_check_no ?_ ?_)
    · rintro word rfl
      exact nofun
    refine Reads.andLook (reads_block hg hn (by omega)) (fun _ hword => hword) fun block b _ hblock => ?_
    refine Reads.pure fun c hc => ?_
    obtain ⟨ids, hids, hbody⟩ := hblock c hc
    exact ⟨block, ids, rfl, hids, hbody⟩
  | conditional condition body inner =>
    have hwords : (Alternative.conditional condition body inner).write =
        .keyword .elseBranch :: (Expression.conditional condition body inner).write := by
      simp [Alternative.write, Expression.write]
    rw [hwords] at h ⊢
    rw [List.length_cons] at h
    refine .if_eat_yes nofun (.if_check_yes (fun _ hword => hword) ?_)
    refine Reads.andLook (hg.conditional condition body inner (by omega) a) (fun _ hword => hword) fun id b _ hid => ?_
    refine Reads.pure fun c hc => ?_
    obtain ⟨i, block, ids, branch, hkind, hcondition, hblock, hbody, hbranch⟩ := hid c hc
    exact ⟨id, i, block, ids, branch, rfl, hkind, hcondition, hblock, hbody, hbranch⟩

theorem reads_conditional {condition : Expression} {body : List Statement} {otherwise : Alternative}
    (h : (Expression.conditional condition body otherwise).write.length ≤ n) :
    Reads a g.conditional (Expression.conditional condition body otherwise).write (· ≠ .keyword .elseBranch)
      fun b id => (Expression.conditional condition body otherwise).At b id := by
  have hwords : (Expression.conditional condition body otherwise).write = .keyword .cond :: (condition.write ++
      .keyword .thenBranch :: (braced (Statement.writeAll body) ++ otherwise.write)) := by
    simp [Expression.write]
  rw [hwords] at h ⊢
  simp only [List.length_cons, List.length_append, braced, List.length_nil] at h
  refine .expectKeyword fun _ => ?_
  refine Reads.andThen (hg.expression (by omega) a) ?_ fun i b hb hi => .expectKeyword fun _ => ?_
  · rintro word rfl
    exact Nat.zero_lt_one
  have hthen : Reads b g.block (braced (Statement.writeAll body)) (fun _ => True) _ := reads_block hg hn (by omega)
  refine Reads.andThen hthen (fun _ _ => trivial) fun block c hc hblock => ?_
  refine Reads.andLook (reads_elseBranch hg hn (by omega)) (fun _ hword => hword) fun branch d hd hbranch => ?_
  refine Reads.alloc fun id e he hid => ?_
  obtain ⟨ids, hids, hbody⟩ := hblock e (hd.trans he)
  exact ⟨i, block, ids, branch, hid, hi e (hc.trans (hd.trans he)), hids, hbody, hbranch e he⟩

theorem reads_loop {first last : Expression} {body : List Statement}
    (h : (Expression.loop first last body).write.length ≤ n) :
    Reads a g.loop (Expression.loop first last body).write stop
      fun b id => (Expression.loop first last body).At b id := by
  have hwords : (Expression.loop first last body).write = .keyword .loop :: (first.write ++
      .keyword .upTo :: (last.write ++ braced (Statement.writeAll body))) := by
    simp [Expression.write]
  rw [hwords] at h ⊢
  simp only [List.length_cons, List.length_append, braced, List.length_nil] at h
  refine .expectKeyword fun _ => ?_
  refine Reads.andThen (hg.expression (by omega) a) ?_ fun i b hb hi => .expectKeyword fun _ => ?_
  · rintro word rfl
    exact Nat.zero_lt_one
  refine Reads.andThen (hg.expression (by omega) b) ?_ fun j c hc hj => ?_
  · rintro word rfl
    exact Nat.zero_lt_one
  refine Reads.andLook (reads_block hg hn (by omega)) (fun _ hword => hword) fun block d hd hblock => ?_
  refine Reads.alloc fun id e he hid => ?_
  obtain ⟨ids, hids, hbody⟩ := hblock e he
  exact ⟨i, j, block, ids, hid, hi e (hc.trans (hd.trans he)), hj e (hd.trans he), hids, hbody⟩

end items

end Grammar

end DynScript
