import DynScript.Proofs.Syntax.Prompt

/-!
# Nodes are paid for with tokens

Every node stands at a token that was read, and for every node that is made a token is passed that no other node is made
for: `Parser.Spends` counts the nodes made against the tokens passed. Most productions pass a token more than they make
nodes, or as many; a block between braces has one to spare, which pays for the environment that it may be opened in.
-/

namespace DynScript

/-- A position is that of a token. -/
def Placed (tokens : List Lexeme) (position : Option Position) : Prop := ∃ t ∈ tokens, position = some t.position

namespace ParseState

/-- The tokens that are left, the one under the cursor included. -/
def left (s : ParseState) : List Lexeme := s.cursor.current :: s.cursor.upcoming

/-- Some of the tokens are left, and the nodes stand at tokens. -/
structure Inside (tokens : List Lexeme) (s : ParseState) : Prop where
  /-- What is left ends as it should. -/
  terminated : Terminated s.left
  /-- Only tokens are left. -/
  subset : ∀ t ∈ s.left, t ∈ tokens
  /-- The nodes made so far stand at tokens. -/
  placed : ∀ id node, s.arena.get? id = some node → Placed tokens node.position

end ParseState

namespace Parser

variable {tokens : List Lexeme} {first : TokenKind → Prop} {n m : Int} {α β γ : Type} {Q : β → Prop}

/-- A parser that begins at a token of some kind makes at most `n` nodes more than it passes tokens, and `Q` holds of
what it gives. -/
def Spends (tokens : List Lexeme) (first : TokenKind → Prop) (n : Int) (x : Parser α) (Q : α → Prop) : Prop :=
  ∀ s v s', s.Inside tokens → first s.cursor.kind → x s = .ok (v, s') →
    s'.Inside tokens ∧ Q v ∧ (s'.arena.size + s'.left.length : Int) ≤ s.arena.size + s.left.length + n

namespace Spends

theorem mono {x : Parser β} (hx : Spends tokens first m x Q) (hn : m ≤ n) : Spends tokens first n x Q := by
  intro s v s' hs hfirst h
  obtain ⟨hs', hpost, hcost⟩ := hx s v s' hs hfirst h
  exact ⟨hs', hpost, by omega⟩

/-- It makes no difference what token comes first. -/
theorem anywhere {x : Parser β} (hx : Spends tokens (fun _ => True) n x Q) : Spends tokens first n x Q :=
  fun s v s' hs _ h => hx s v s' hs trivial h

theorem pure {v : β} (hv : Q v) (hn : 0 ≤ n) : Spends tokens first n (Pure.pure v) Q := by
  intro s w s' hs _ h
  cases h
  exact ⟨hs, hv, by omega⟩

theorem fail (cause : ParseError.Cause) : Spends tokens first n (Parser.fail cause) Q := by
  intro s v s' _ _ h
  cases h

theorem failExpecting (expected : TokenKind) : Spends tokens first n (Parser.failExpecting expected) Q := by
  intro s v s' _ _ h
  cases h

theorem bind {x : Parser α} {k : α → Parser β} {R : α → Prop} (hx : Spends tokens (fun _ => True) m x R)
    (hk : ∀ v, R v → Spends tokens (fun _ => True) (n - m) (k v) Q) : Spends tokens first n (x >>= k) Q := by
  intro s v s' hs _ h
  simp only [Bind.bind, StateT.bind, Except.bind] at h
  split at h
  · cases h
  · rename_i r hr
    obtain ⟨hs₁, hmid, hcost⟩ := hx s r.1 r.2 hs trivial hr
    obtain ⟨hs', hpost, hcost'⟩ := hk r.1 hmid r.2 v s' hs₁ trivial h
    exact ⟨hs', hpost, by omega⟩

/-! ## Looking and passing -/

theorem cursor {k : Cursor → Parser β} (hk : ∀ c, first c.kind → Spends tokens (· = c.kind) n (k c) Q) :
    Spends tokens first n (Parser.cursor >>= k) Q :=
  fun s v s' hs hfirst h => hk s.cursor hfirst s v s' hs rfl h

theorem get {k : ParseState → Parser β} (hk : ∀ s, Spends tokens first n (k s) Q) :
    Spends tokens first n (MonadState.get >>= k) Q :=
  fun s v s' hs hfirst h => hk s s v s' hs hfirst h

theorem kind {k : TokenKind → Parser β} (hk : ∀ word, first word → Spends tokens (· = word) n (k word) Q) :
    Spends tokens first n (Parser.kind >>= k) Q :=
  fun s v s' hs hfirst h => hk s.cursor.kind hfirst s v s' hs rfl h

theorem position {k : Position → Parser β}
    (hk : ∀ position, Placed tokens (some position) → Spends tokens first n (k position) Q) :
    Spends tokens first n (Parser.position >>= k) Q := by
  intro s v s' hs hfirst h
  exact hk s.cursor.position ⟨_, hs.subset _ List.mem_cons_self, rfl⟩ s v s' hs hfirst h

theorem advance {k : Lexeme → Parser β} (hfirst : ∀ word, first word → word ≠ .endOfFile)
    (hk : ∀ lexeme, Placed tokens (some lexeme.position) → Spends tokens (fun _ => True) (n + 1) (k lexeme) Q) :
    Spends tokens first n (Parser.advance >>= k) Q := by
  intro s v s' hs hword h
  obtain ⟨⟨previous, current, upcoming⟩, arena⟩ := s
  have hne : current.kind ≠ .endOfFile := hfirst _ hword
  have hrest : Terminated upcoming := hs.terminated.tail hne
  obtain ⟨next, rest, rfl⟩ := List.exists_cons_of_ne_nil hrest.ne_nil
  have hrun : (Parser.advance >>= k) ⟨⟨previous, current, next :: rest⟩, arena⟩ =
    k current ⟨⟨some current.kind, next, rest⟩, arena⟩ := ParseState.advance_before hne hrest.ne_nil k
  rw [hrun] at h
  have hinside : ParseState.Inside tokens ⟨⟨some current.kind, next, rest⟩, arena⟩ :=
    ⟨hrest, fun t ht => hs.subset t (List.mem_cons_of_mem _ ht), hs.placed⟩
  obtain ⟨hs', hpost, hcost⟩ :=
    hk current ⟨current, hs.subset _ List.mem_cons_self, rfl⟩ _ v s' hinside trivial h
  refine ⟨hs', hpost, ?_⟩
  simp only [ParseState.left, List.length_cons] at hcost ⊢
  omega

/-- A known token is passed. -/
theorem pass {word : TokenKind} {k : Lexeme → Parser β} (hword : word ≠ .endOfFile)
    (hk : ∀ lexeme, Placed tokens (some lexeme.position) → Spends tokens (fun _ => True) (n + 1) (k lexeme) Q) :
    Spends tokens (· = word) n (Parser.advance >>= k) Q :=
  advance (fun _ h => h ▸ hword) hk

theorem check {expected : TokenKind} {k : Bool → Parser β} (hyes : Spends tokens (· = expected) n (k true) Q)
    (hno : Spends tokens first n (k false) Q) : Spends tokens first n (Parser.check expected >>= k) Q := by
  intro s v s' hs hfirst h
  have hrun : (Parser.check expected >>= k) s = k (decide (s.cursor.kind = expected)) s := rfl
  rw [hrun] at h
  by_cases hword : s.cursor.kind = expected
  · rw [decide_eq_true hword] at h
    exact hyes s v s' hs hword h
  · rw [decide_eq_false hword] at h
    exact hno s v s' hs hfirst h

theorem eat {expected : TokenKind} {k : Bool → Parser β} (he : expected ≠ .endOfFile)
    (hyes : Spends tokens (fun _ => True) (n + 1) (k true) Q) (hno : Spends tokens first n (k false) Q) :
    Spends tokens first n (Parser.eat expected >>= k) Q := by
  rw [eat_bind]
  exact check (pass he fun _ _ => hyes) hno

theorem expect {expected : TokenKind} {k : Lexeme → Parser β} (he : expected ≠ .endOfFile)
    (hk : ∀ lexeme, Placed tokens (some lexeme.position) → Spends tokens (fun _ => True) (n + 1) (k lexeme) Q) :
    Spends tokens first n (Parser.expect expected >>= k) Q := by
  unfold Parser.expect
  simp only [bind_assoc, ite_bind, Parser.failExpecting, fail_bind]
  exact check (pass he hk) (kind fun _ _ => fail _)

theorem expectSymbol {symbol : Symbol} {k : Position → Parser β}
    (hk : ∀ position, Placed tokens (some position) → Spends tokens (fun _ => True) (n + 1) (k position) Q) :
    Spends tokens first n (Parser.expectSymbol symbol >>= k) Q := by
  unfold Parser.expectSymbol
  simp only [bind_assoc, pure_bind]
  exact expect nofun fun lexeme hplaced => hk _ hplaced

theorem expectKeyword {keyword : Keyword} {k : Position → Parser β}
    (hk : ∀ position, Placed tokens (some position) → Spends tokens (fun _ => True) (n + 1) (k position) Q) :
    Spends tokens first n (Parser.expectKeyword keyword >>= k) Q := by
  unfold Parser.expectKeyword
  simp only [bind_assoc, pure_bind]
  exact expect nofun fun lexeme hplaced => hk _ hplaced

theorem expectLabel {k : Label → Parser β}
    (hk : ∀ label, Placed tokens label.position → Spends tokens (fun _ => True) (n + 1) (k label) Q) :
    Spends tokens first n (Parser.expectLabel >>= k) Q := by
  unfold Parser.expectLabel
  simp only [bind_assoc]
  refine kind fun word _ => ?_
  cases word with
  | identifier name =>
    simp only [TokenKind.identifier?, bind_assoc, pure_bind]
    exact pass (by simp) fun lexeme hplaced => hk _ hplaced
  | _ =>
    simp only [TokenKind.identifier?, bind_assoc, fail_bind]
    exact kind fun _ _ => fail _

/-- What is given by the last parser of a sequence. -/
theorem last {x : Parser β} (hx : Spends tokens first n (x >>= Pure.pure) Q) : Spends tokens first n x Q := by
  rwa [bind_pure] at hx

/-! ## Making nodes -/

theorem alloc {kind : NodeKind} {position : Option Position} {k : NodeId → Parser β} (hplaced : Placed tokens position)
    (hk : ∀ id, Spends tokens first (n - 1) (k id) Q) :
    Spends tokens first n (Parser.alloc kind position >>= k) Q := by
  intro s v s' hs hfirst h
  have hinside : ParseState.Inside tokens { s with arena := (s.arena.alloc ⟨kind, position⟩).2 } := by
    refine ⟨hs.terminated, hs.subset, fun id node hnode => ?_⟩
    dsimp only at hnode
    rw [Arena.get?_alloc] at hnode
    split at hnode
    · obtain rfl := Option.some.inj hnode
      exact hplaced
    · exact hs.placed id node hnode
  obtain ⟨hs', hpost, hcost⟩ := hk ⟨s.arena.size⟩ _ v s' hinside hfirst h
  rw [Arena.size_alloc] at hcost
  exact ⟨hs', hpost, by simp only [ParseState.left] at hcost ⊢; omega⟩

theorem alloc_last {kind : NodeKind} {position : Option Position} (hplaced : Placed tokens position) (hn : 1 ≤ n) :
    Spends tokens first n (Parser.alloc kind position) fun _ => True :=
  last (alloc hplaced fun _ => pure trivial (by omega))

end Spends

end Parser

/-! ## Productions -/

namespace Grammar

open DynScript.Parser (Spends ite_bind)

variable {g : Grammar} {tokens : List Lexeme} {first : TokenKind → Prop} {n : Int} {α β γ : Type} {Q : β → Prop}

/-- A repetition costs what a round does when it is the last one, if the rounds before it cost nothing. -/
theorem spends_repeating {round : γ → Parser (Progress γ β)}
    (h : ∀ v (next : γ → Parser β), (∀ v, Spends tokens (fun _ => True) n (next v) Q) →
      Spends tokens (fun _ => True) n (round v >>= fun
        | .more v => next v
        | .done z => pure z) Q) (v : γ) :
    Spends tokens first n (g.repeating v round) Q := by
  have hgo (i : Nat) (v : γ) : Spends tokens (fun _ => True) n (rounds round i v) Q := by
    induction i generalizing v with
    | zero => exact .fail _
    | succ i ih =>
      have hround := h v (rounds round i) ih
      rw [rounds]
      convert hround using 2
      funext progress
      cases progress <;> rfl
  exact (hgo g.limit v).anywhere

theorem spends_commaSeparated {item : Parser α} {R : α → Prop} (hitem : Spends tokens (fun _ => True) 0 item R) :
    Spends tokens first 0 (g.commaSeparated item) fun _ => True := by
  refine spends_repeating (fun items next hnext => ?_) #[]
  simp only [bind_assoc, ite_bind, pure_bind]
  exact .bind hitem fun x _ => .eat nofun ((hnext _).mono (by omega)) (.pure trivial (by omega))

theorem spends_closedBy {item : Parser α} {R : α → Prop} (close : Symbol)
    (hitem : Spends tokens (fun _ => True) 0 item R) :
    Spends tokens first 0 (g.closedBy close item) fun _ => True := by
  refine .bind (m := 0) (spends_repeating (Q := fun _ => True) (fun items next hnext => ?_) #[]) fun items _ =>
    .expectSymbol fun _ _ => .pure trivial (by omega)
  simp only [bind_assoc, ite_bind, pure_bind]
  refine .check (.pure trivial le_rfl) (.bind hitem fun x _ => ?_)
  exact .eat nofun ((hnext _).mono (by omega)) (.pure trivial (by omega))

theorem spends_labels : Spends tokens first 0 g.labels fun _ => True := by
  refine spends_repeating (fun names next hnext => ?_) #[]
  simp only [bind_assoc]
  refine .kind fun word _ => ?_
  cases word.identifier? with
  | none => exact .pure trivial le_rfl
  | some name =>
    simp only [bind_assoc, pure_bind]
    exact .expectLabel fun _ _ => (hnext _).mono (by omega)

theorem spends_bindingMode : Spends tokens first 0 bindingMode fun _ => True := by
  refine .eat nofun (.pure trivial (by omega)) ?_
  exact .eat nofun (.pure trivial (by omega)) (.pure trivial le_rfl)

theorem spends_params (allowMutable : Bool) : Spends tokens first 0 (g.params allowMutable) fun _ => True := by
  refine .expectSymbol fun _ _ => ?_
  have hlabel {isMutable : Bool} {n : Int} (hn : 0 ≤ n) : Spends tokens (fun _ => True) n
      (Parser.expectLabel >>= fun label => pure (⟨label, isMutable⟩ : Param)) fun _ => True :=
    .expectLabel fun _ _ => .pure trivial (by omega)
  refine (spends_closedBy _ (R := fun _ => True) ?_).mono (by omega)
  cases allowMutable with
  | true => exact .eat nofun (hlabel (by omega)) (hlabel le_rfl)
  | false => exact hlabel le_rfl

theorem spends_composed : Spends tokens first 0 g.composed fun _ => True := by
  refine spends_repeating (fun names next hnext => ?_) #[]
  simp only [bind_assoc, ite_bind, pure_bind]
  exact .eat nofun (.expectLabel fun _ _ => (hnext _).mono (by omega)) (.pure trivial le_rfl)

theorem ne_endOfFile_of_identifier? {word : TokenKind} {name : String} (h : word.identifier? = some name) :
    word ≠ .endOfFile := by
  rintro rfl
  cases h

theorem spends_importRoot : Spends tokens first 0 importRoot fun _ => True := by
  refine .cursor fun c _ => ?_
  split
  · split
    · rename_i hname
      exact .pass (ne_endOfFile_of_identifier? hname) fun _ _ => .pure trivial (by omega)
    · rename_i hname
      exact .pass (ne_endOfFile_of_identifier? hname) fun _ _ => .pure trivial (by omega)
    · exact .pure trivial le_rfl
  · exact .pure trivial le_rfl

theorem spends_importForm : Spends tokens first 0 g.importForm fun _ => True := by
  refine .expectKeyword fun opening hopening => .bind spends_importRoot fun root _ => ?_
  refine .bind (m := 0) (spends_repeating (Q := fun _ => True) (fun names next hnext => ?_) #[]) fun path _ =>
    .alloc_last hopening (by omega)
  simp only [bind_assoc, ite_bind, pure_bind]
  refine .expectLabel fun _ _ => ?_
  exact .eat nofun ((hnext _).mono (by omega)) (.pure trivial (by omega))

/-- Every production makes no more nodes than it passes tokens. -/
def Thrifty (tokens : List Lexeme) (g : Grammar) : Prop :=
  ∀ nonterminal, Spends tokens (fun _ => True) 0 (g.read nonterminal) fun _ => True

section productions

variable (hg : g.Thrifty tokens)
include hg

theorem spends_statementsUntilBrace : Spends tokens first (-1) g.statementsUntilBrace fun _ => True := by
  refine spends_repeating (fun items next hnext => ?_) #[]
  simp only [bind_assoc, ite_bind, pure_bind]
  refine .eat nofun (.pure trivial (by omega)) (.eat nofun ((hnext _).mono (by omega)) (.cursor fun c _ => ?_))
  split
  · exact .failExpecting _
  · exact .bind (hg _) fun _ _ => (hnext _).mono (by omega)

theorem spends_block : Spends tokens first 0 g.block fun _ => True :=
  .expectSymbol fun opening hopening => .bind (spends_statementsUntilBrace hg) fun _ _ =>
    .alloc_last hopening (by omega)

theorem spends_binding : Spends tokens first 0 g.binding fun _ => True := by
  refine .expectKeyword fun _ _ => ?_
  have hbinding {n : Int} (hn : 1 ≤ n) (isFinal : Bool) : Spends tokens (fun _ => True) n (do
      let mode ← bindingMode
      let name ← Parser.expectLabel
      let params := (← g.labels).map fun label => (⟨label, false⟩ : Param)
      let _ ← Parser.expectSymbol .bind
      let value ←
        if params.isEmpty then g.read .expression
        else Parser.alloc (.function params (← g.block)) name.position
      Parser.alloc (.binding name.name mode isFinal value) name.position) fun _ => True := by
    refine .bind spends_bindingMode fun mode _ => .expectLabel fun name hname => .bind spends_labels fun labels _ => ?_
    refine .expectSymbol fun _ _ => ?_
    dsimp only
    split
    · exact .bind (hg _) fun value _ => .alloc_last hname (by omega)
    · exact .bind (spends_block hg) fun body _ => .alloc hname fun _ => .alloc_last hname (by omega)
  exact .eat nofun (hbinding (by omega) true) (hbinding (by omega) false)

theorem spends_list : Spends tokens first 0 g.list fun _ => True :=
  .expectSymbol fun opening hopening => .bind (spends_closedBy _ (hg _)) fun _ _ => .alloc_last hopening (by omega)

theorem spends_field : Spends tokens first (-2) g.field fun field => Placed tokens field.position :=
  .expectLabel fun label hlabel => .expectSymbol fun _ _ => .bind (hg _) fun _ _ => .pure hlabel (by omega)

theorem spends_record : Spends tokens first 0 g.record fun _ => True :=
  .expectSymbol fun opening hopening => .bind (spends_closedBy _ ((spends_field hg).mono (by omega))) fun _ _ =>
    .alloc_last hopening (by omega)

theorem spends_function : Spends tokens first 0 g.function fun _ => True := by
  refine .expectKeyword fun opening hopening => ?_
  have hfunction {first : TokenKind → Prop} {n : Int} (hn : 1 ≤ n) (params : List Param) : Spends tokens first n (do
      Parser.node (.function params (← g.block)) opening) fun _ => True :=
    .bind (spends_block hg) fun _ _ => .alloc_last hopening (by omega)
  refine .check (.bind (spends_params _) fun params _ => hfunction (by omega) params) (hfunction (by omega) [])

theorem spends_member : Spends tokens first 0 g.member fun _ => True := by
  refine .check (spends_binding hg) ?_
  exact .bind (spends_field hg) fun field hplaced => .alloc_last hplaced (by omega)

theorem spends_members : Spends tokens first 0 g.members fun _ => True := by
  refine spends_repeating (fun items next hnext => ?_) #[]
  simp only [bind_assoc, ite_bind, pure_bind]
  refine .eat nofun (.pure trivial (by omega)) (.eat nofun ((hnext _).mono (by omega)) ?_)
  refine .eat nofun ((hnext _).mono (by omega)) (.bind (spends_member hg) fun _ _ => (hnext _).mono (by omega))

theorem spends_object : Spends tokens first 0 g.object fun _ => True := by
  refine .expectKeyword fun opening hopening => ?_
  have hobject {first : TokenKind → Prop} {n : Int} (hn : 1 ≤ n) (params : Option (List Param)) :
      Spends tokens first n (do
        let composed ← g.composed
        let _ ← Parser.expectSymbol .leftBrace
        Parser.node (.object params composed (← g.members)) opening) fun _ => True :=
    .bind spends_composed fun composed _ => .expectSymbol fun _ _ => .bind (spends_members hg) fun members _ =>
      .alloc_last hopening (by omega)
  refine .check ?_ (hobject (by omega) none)
  refine .bind (m := 0) (R := fun _ => True) ?_ fun params _ => hobject (by omega) params
  exact .bind (spends_params _) fun _ _ => .pure trivial le_rfl

theorem spends_elseBranch : Spends tokens first 0 g.elseBranch fun _ => True := by
  refine .eat nofun (.check ?_ ?_) (.pure trivial le_rfl)
  · exact .bind (hg _) fun _ _ => .pure trivial (by omega)
  · exact .bind (spends_block hg) fun _ _ => .pure trivial (by omega)

theorem spends_conditional : Spends tokens first 0 g.conditional fun _ => True :=
  .expectKeyword fun opening hopening => .bind (hg _) fun _ _ => .expectKeyword fun _ _ =>
    .bind (spends_block hg) fun _ _ => .bind (spends_elseBranch hg) fun _ _ => .alloc_last hopening (by omega)

theorem spends_loop : Spends tokens first 0 g.loop fun _ => True :=
  .expectKeyword fun opening hopening => .bind (hg _) fun _ _ => .expectKeyword fun _ _ => .bind (hg _) fun _ _ =>
    .bind (spends_block hg) fun _ _ => .alloc_last hopening (by omega)

theorem spends_primary : Spends tokens first 0 g.primary fun _ => True := by
  refine .kind fun word _ => ?_
  split
  · exact .pass nofun fun lexeme hlexeme => .alloc_last hlexeme (by omega)
  · exact .pass nofun fun _ _ => .bind (hg _) fun _ _ => .expectSymbol fun _ _ => .pure trivial (by omega)
  · exact spends_list hg
  · exact spends_record hg
  · exact spends_function hg
  · exact spends_object hg
  · exact spends_importForm
  · exact spends_conditional hg
  · exact spends_loop hg
  · split
    · rename_i hliteral
      refine .pass ?_ fun lexeme hlexeme => .alloc_last hlexeme (by omega)
      rintro rfl
      cases hliteral
    · exact .fail _

theorem spends_arguments : Spends tokens first 0 g.arguments fun _ => True := by
  refine .eat nofun (.pure trivial (by omega)) ?_
  exact .bind (spends_commaSeparated (hg _)) fun _ _ => .expectSymbol fun _ _ => .pure trivial (by omega)

theorem spends_postfixed : Spends tokens first 0 g.postfixed fun _ => True := by
  refine .bind (spends_primary hg) fun target _ => spends_repeating (fun target next hnext => ?_) target
  simp only [bind_assoc]
  refine .position fun opening hopening => .kind fun word _ => ?_
  split
  · simp only [bind_assoc, pure_bind]
    exact .pass nofun fun _ _ => .bind (spends_arguments hg) fun _ _ =>
      .alloc hopening fun _ => (hnext _).mono (by omega)
  · simp only [bind_assoc, pure_bind]
    exact .pass nofun fun _ _ => .bind (hg _) fun _ _ => .expectSymbol fun _ _ => .alloc hopening fun _ =>
      (hnext _).mono (by omega)
  · simp only [bind_assoc, pure_bind]
    exact .pass nofun fun _ _ => .expectLabel fun _ hlabel => .alloc hlabel fun _ => (hnext _).mono (by omega)
  · simp only [bind_assoc, pure_bind]
    exact .pass nofun fun _ _ => .bind (spends_statementsUntilBrace hg) fun _ _ => .alloc hopening fun _ =>
      .alloc hopening fun _ => (hnext _).mono (by omega)
  · exact .pure trivial (by omega)

/-! ### Operators -/

section operand

variable {operand : Parser NodeId} (ho : Spends tokens (fun _ => True) 0 operand fun _ => True)
include ho

theorem spends_binary (tiers : List Tier) : Spends tokens (fun _ => True) 0 (g.binary operand tiers) fun _ => True := by
  induction tiers with
  | nil => exact ho
  | cons tier tighter ih =>
    refine .bind ih fun lhs _ => spends_repeating (fun lhs next hnext => ?_) lhs
    simp only [bind_assoc]
    refine .kind fun word _ => ?_
    split
    · exact .pure trivial (by omega)
    · rename_i build hbuild
      simp only [bind_assoc, ite_bind, pure_bind]
      have hword : word ≠ .endOfFile := by
        rintro rfl
        cases tier <;> cases hbuild
      refine .pass hword fun operator hoperator => ?_
      split
      · exact .bind (hg _) fun _ _ => .alloc hoperator fun _ => .pure trivial (by omega)
      · exact .bind ih fun _ _ => .alloc hoperator fun _ => (hnext _).mono (by omega)

theorem spends_unary : Spends tokens (fun _ => True) 0 (g.unary operand) fun _ => True := by
  refine .kind fun word _ => ?_
  split
  · exact ho.anywhere
  · rename_i build hbuild
    refine .pass ?_ fun operator hoperator => .bind (hg _) fun _ _ => .alloc_last hoperator (by omega)
    rintro rfl
    cases hbuild

theorem spends_pipe : Spends tokens (fun _ => True) 0 (g.pipe operand) fun _ => True := by
  refine .bind (spends_binary hg ho _) fun lhs _ => .check ?_ (.pure trivial (by omega))
  exact .pass nofun fun operator hoperator => .bind (hg _) fun _ _ => .alloc_last hoperator (by omega)

theorem spends_assignment : Spends tokens (fun _ => True) 0 (g.assignment operand) fun _ => True := by
  refine .bind (spends_pipe hg ho) fun target _ => .check (.get fun s => ?_) (.pure trivial (by omega))
  split
  · exact .pass nofun fun operator hoperator => .bind (hg _) fun _ _ => .alloc_last hoperator (by omega)
  · exact .fail _

end operand

/-! ### Statements -/

omit hg in
theorem spends_atStatementEnd : Spends tokens first 0 atStatementEnd fun _ => True := by
  refine .kind fun word _ => ?_
  split <;> exact .pure trivial le_rfl

omit hg in
theorem spends_statementEnd : Spends tokens first 0 statementEnd fun _ => True := by
  refine .eat nofun (.pure trivial (by omega)) (.cursor fun c _ => ?_)
  split
  · exact .pure trivial le_rfl
  · refine .check (.pure trivial le_rfl) (.cursor fun c _ => ?_)
    split
    · exact .pure trivial le_rfl
    · exact .failExpecting _

theorem spends_printStatement : Spends tokens first 0 g.printStatement fun _ => True := by
  refine .expectKeyword fun opening hopening => .bind spends_atStatementEnd fun ended _ => ?_
  dsimp only
  split
  · exact .alloc_last hopening (by omega)
  · exact .bind (spends_commaSeparated (hg _)) fun _ _ => .alloc_last hopening (by omega)

theorem spends_returnStatement : Spends tokens first 0 g.returnStatement fun _ => True := by
  refine .expectKeyword fun opening hopening => .bind spends_atStatementEnd fun ended _ => ?_
  dsimp only
  split
  · exact .alloc_last hopening (by omega)
  · simp only [map_eq_pure_bind, bind_assoc, pure_bind]
    exact .bind (hg _) fun _ _ => .alloc_last hopening (by omega)

omit hg in
theorem spends_exportStatement : Spends tokens first 0 g.exportStatement fun _ => True := by
  have hlabel : Spends tokens (fun _ => True) 0 Parser.expectLabel fun _ => True :=
    .last (.expectLabel fun _ _ => .pure trivial (by omega))
  exact .expectKeyword fun opening hopening => .bind (spends_commaSeparated hlabel) fun _ _ =>
    .alloc_last hopening (by omega)

theorem spends_statement : Spends tokens first 0 g.statement fun _ => True := by
  have hend (id : NodeId) : Spends tokens (fun _ => True) 0 (do statementEnd; return id) fun _ => True :=
    .bind spends_statementEnd fun _ _ => .pure trivial (by omega)
  refine .kind fun word _ => ?_
  dsimp only
  split
  · exact .bind (spends_binding hg) fun id _ => hend id
  · exact .bind (spends_printStatement hg) fun id _ => hend id
  · exact .bind (spends_returnStatement hg) fun id _ => hend id
  · exact .bind spends_exportStatement fun id _ => hend id
  · exact .bind (spends_block hg) fun id _ => hend id
  · exact .bind (hg _) fun id _ => hend id

/-! ## Programs -/

theorem spends_produce (nonterminal : Nonterminal) :
    Spends tokens (fun _ => True) 0 (g.produce nonterminal) fun _ => True := by
  have hunary := spends_unary hg (spends_postfixed hg)
  cases nonterminal with
  | statement => exact spends_statement hg
  | expression => exact spends_assignment hg hunary
  | pipe => exact spends_pipe hg hunary
  | prepend => exact spends_binary hg hunary _
  | unary => exact hunary
  | conditional => exact spends_conditional hg

/-- The block of a unit is paid for by nothing but the end of the file. -/
theorem spends_unit : Spends tokens first 1 g.unit fun _ => True := by
  refine .position fun opening hopening => ?_
  refine .bind (m := 0) (spends_repeating (Q := fun _ => True) (fun items next hnext => ?_) #[]) fun _ _ =>
    .alloc_last hopening (by omega)
  simp only [bind_assoc, ite_bind, pure_bind]
  refine .cursor fun c _ => ?_
  split
  · exact .pure trivial le_rfl
  · refine .eat nofun ((hnext _).mono (by omega)) (.bind (hg _) fun _ _ => (hnext _).mono (by omega))

end productions

theorem thrifty_ofDepth (tokens : List Lexeme) (limit depth : Nat) : (ofDepth limit depth).Thrifty tokens := by
  induction depth with
  | zero => exact fun _ => .fail _
  | succ depth ih => exact fun nonterminal => spends_produce ih nonterminal

end Grammar

end DynScript
