import DynScript.Proofs.Syntax.Forms

/-!
# Reading expressions

What stands alone, what follows it, and the operators: every expression is read at every level, by induction on the
expression. The left operand of an operator that groups to the left is not read by itself but leads to the round that
reads the operator, and so does the target of a call or a property.
-/

namespace DynScript

open Syntax

namespace Grammar

open DynScript.Parser

variable {g : Grammar} {n : Nat} {a : Arena} {words : List TokenKind} {stop stop' : TokenKind → Prop}
  {post : Arena → NodeId → Prop}

section expressions

variable (hg : g.Understands n) (hn : n < g.limit)
include hg

/-! ## What stands alone -/

/-- Any expression between parentheses. -/
theorem reads_parentheses {e : Expression} (h : e.write.length < n) :
    Reads a g.primary (.symbol .leftParen :: e.write ++ [.symbol .rightParen]) stop fun b id => e.At b id := by
  refine .kind_cons (.advance nofun fun _ => ?_)
  refine Reads.andThen (hg.expression h a) ?_ fun id b _ hid => .expectSymbol fun _ => Reads.pure hid
  rintro word rfl
  exact Nat.zero_lt_one

include hn

/-- What can come after an expression that stands alone. -/
abbrev After (e : Expression) (word : TokenKind) : Prop := Ends 12 word ∧ (e.isImport → word ≠ .symbol .dot)

/-- The forms that stand alone. -/
theorem reads_primary {e : Expression} (h : e.write.length ≤ n) (he : e.level = 11)
    (hcall : ∀ callee args, e ≠ .call callee args) (hindex : ∀ target index, e ≠ .index target index)
    (hproperty : ∀ target name, e ≠ .property target name) (hopen : ∀ target body, e ≠ .envOpen target body) :
    Reads a g.primary e.write (After e) fun b id => e.At b id := by
  cases e with
  | literal value =>
    have hliteral : Reads a (Parser.advance >>= fun lexeme => Parser.node (.literal value) lexeme.position)
        [literalWord value] (fun _ => True) fun b id => (Expression.literal value).At b id := by
      refine .advance ?_ fun _ => Reads.alloc fun id b _ hid => hid
      cases value with
      | bool b => cases b <;> nofun
      | _ => nofun
    refine Turns.weaken ?_ (fun _ _ => trivial) fun _ _ _ hid => hid
    cases value with
    | bool b => cases b <;> exact .kind_cons hliteral
    | _ => exact .kind_cons hliteral
  | name name => exact .kind_cons (.advance nofun fun _ => Reads.alloc fun id b _ hid => hid)
  | list items => exact .kind_cons (reads_list hg hn h)
  | record fields => exact .kind_cons (reads_record hg hn h)
  | function params body => exact .kind_cons (reads_function hg hn h)
  | object params composed members => exact .kind_cons (reads_object hg hn h)
  | imports root first more =>
    refine .kind_cons ((reads_importForm hn h).weaken (fun word hword => ⟨hword.2 rfl, ?_⟩) fun _ _ _ hid => hid)
    have hgrip := hword.1
    cases word with
    | identifier name => exact absurd hgrip (Nat.lt_irrefl 12)
    | _ => rfl
  | conditional condition body otherwise =>
    exact .kind_cons ((reads_conditional hg hn h).weaken (fun _ hword => hword.1.ne le_rfl) fun _ _ _ hid => hid)
  | loop first last body => exact .kind_cons (reads_loop hg hn h)
  | call callee args => exact absurd rfl (hcall callee args)
  | index target index => exact absurd rfl (hindex target index)
  | property target name => exact absurd rfl (hproperty target name)
  | envOpen target body => exact absurd rfl (hopen target body)
  | binary op lhs rhs =>
    have hlevel := op.tier.level_bounds
    simp only [Expression.level, BinaryOp.level] at he
    omega
  | _ => cases he

/-! ## What follows it -/

omit hg hn in
/-- What stands alone is read before the first round. -/
theorem turns_postfixed_first (h : Reads a g.primary words stop' post) :
    Turns a g.postfixed words stop' (rounds g.postfixRound g.limit) post := by
  rw [postfixed_eq]
  exact h.andLook (fun _ hword => hword) fun v b _ hv => .refl hv

omit hg hn in
theorem reads_postfixed_last {id : NodeId} {m : Nat} (h : ∀ b, a.Keeps b → post b id) :
    Reads a (rounds g.postfixRound (m + 1) id) [] (Ends 11) post :=
  reads_rounds_done (reads_postfixRound h)

/-- The arguments of a call, through the closing parenthesis. -/
theorem reads_arguments {args : List Expression} (h : (commas (Expression.writeEach args)).length < n) :
    Reads a g.arguments (commas (Expression.writeEach args) ++ [.symbol .rightParen]) stop
      fun b ids => Expression.EachAt b args ids := by
  cases args with
  | nil => exact .if_eat_yes nofun (Reads.pure fun _ _ => rfl)
  | cons e rest =>
    refine .if_eat_no (fun word hword => ne_of_opens (((starts_commas e rest).append _).heads hword) rfl) ?_
    refine Reads.andThen (reads_expressions hg (List.cons_ne_nil e rest) h hn.le) ?_ fun ids b _ hids => ?_
    · rintro word rfl
      exact ⟨Nat.zero_lt_one, nofun⟩
    · exact .expectSymbol fun _ => Reads.pure hids

/-- Reading the words for a target leads to a round that reads what follows it. -/
def Follows (g : Grammar) (words : List TokenKind) (stop : TokenKind → Prop) (post : Arena → NodeId → Prop) : Prop :=
  ∃ m, g.limit ≤ m + words.length ∧ ∀ a, Turns a g.postfixed words stop (rounds g.postfixRound m) post

omit hg in
/-- A round that reads more words. -/
theorem Follows.round {more : List TokenKind} {post' : Arena → NodeId → Prop} (h : Follows g words stop post)
    (hmore : (words ++ more).length ≤ n) (hpos : 0 < more.length)
    (hnext : ∀ word, Heads (Ends 12) more word → stop word)
    (hround : ∀ i b, (∀ c, b.Keeps c → post c i) → Reads b (g.postfixRound i) more (Ends 12) fun c r =>
      ∃ id, r = .more id ∧ post' c id) : Follows g (words ++ more) (Ends 12) post' := by
  obtain ⟨m, hm, hturns⟩ := h
  rw [List.length_append] at hmore
  obtain ⟨m, rfl⟩ : ∃ l, m = l + 1 := ⟨m - 1, by omega⟩
  refine ⟨m, by rw [List.length_append]; omega, fun a => (hturns a).trans hnext fun i b _ hi => ?_⟩
  rw [← List.append_nil more]
  exact turns_rounds_more (u := Ends 12) (q := post') (hround i b hi) (fun _ hword => hword) fun id c _ hid => .refl hid

omit hn in
/-- A target before a point is between parentheses if it is an import. -/
theorem follows_beforePoint {target : Expression}
    (hlength : (parenthesized (target.level < 11 || target.isImport) target.write).length ≤ n)
    (h : (target.writeAt 11).length ≤ n → Follows g (target.writeAt 11) (After target) fun b id => target.At b id) :
    Follows g (parenthesized (target.level < 11 || target.isImport) target.write) (Ends 12)
      fun b id => target.At b id := by
  cases himport : target.isImport with
  | true =>
    rw [himport, Bool.or_true] at hlength
    rw [Bool.or_true]
    have hlt : target.write.length < n := by
      simp only [parenthesized, if_true, List.length_append, List.length_cons] at hlength
      omega
    exact ⟨g.limit, Nat.le_add_right _ _, fun a => turns_postfixed_first (reads_parentheses hg hlt)⟩
  | false =>
    rw [himport, Bool.or_false] at hlength
    rw [Bool.or_false]
    obtain ⟨m, hm, hturns⟩ := h hlength
    refine ⟨m, hm, fun a => (hturns a).weaken (fun word hword => ⟨hword, fun htrue => ?_⟩) fun _ _ _ hid => hid⟩
    rw [himport] at htrue
    cases htrue

/-- A property, after its target. -/
theorem follows_property {target : Expression} {name : String}
    (hlength : (Expression.property target name).write.length ≤ n)
    (h : (target.writeAt 11).length ≤ n → Follows g (target.writeAt 11) (After target) fun b id => target.At b id) :
    Follows g (Expression.property target name).write (Ends 12)
      fun b id => (Expression.property target name).At b id := by
  rw [Expression.write] at hlength ⊢
  have htarget := follows_beforePoint hg (by rw [List.length_append] at hlength; omega) h
  refine htarget.round hn hlength (Nat.succ_pos _) ?_ fun i b hi => ?_
  · rintro word rfl
    exact Nat.lt_succ_self 11
  · refine .position fun _ => .kind_cons (.advance (by simp) fun _ => .expectLabel fun label hlabel => ?_)
    subst hlabel
    exact .alloc fun id c hc hid => Reads.pure fun d hd => ⟨id, rfl, i, hid d hd, hi d (hc.trans hd)⟩

/-- An expression that stands alone or follows another one. -/
theorem follows_postfixed (e : Expression) (hlength : (e.writeAt 11).length ≤ n) :
    Follows g (e.writeAt 11) (After e) fun b id => e.At b id := by
  have hfirst {e : Expression} {words : List TokenKind} {stop : TokenKind → Prop}
      (h : ∀ a, Reads a g.primary words stop fun b id => e.At b id) :
      Follows g words stop fun b id => e.At b id :=
    ⟨g.limit, Nat.le_add_right _ _, fun a => turns_postfixed_first (h a)⟩
  by_cases hlevel : e.level < 11
  · rw [Expression.writeAt_of_lt hlevel] at hlength ⊢
    have hlt : e.write.length < n := by
      simp only [List.length_append, List.length_cons] at hlength
      omega
    exact hfirst fun a => reads_parentheses hg hlt
  have he : e.level = 11 := le_antisymm e.level_bounds.2 (Nat.not_lt.1 hlevel)
  rw [Expression.writeAt_of_le (Nat.not_lt.1 hlevel)] at hlength ⊢
  have hweaken {e : Expression} {words : List TokenKind} (h : Follows g words (Ends 12) fun b id => e.At b id) :
      Follows g words (After e) fun b id => e.At b id := by
    obtain ⟨m, hm, hturns⟩ := h
    exact ⟨m, hm, fun a => (hturns a).weaken (fun _ hword => hword.1) fun _ _ _ hid => hid⟩
  match e with
  | .call callee args =>
    have hwords : (Expression.call callee args).write = callee.writeAt 11 ++
        (.symbol .leftParen :: (commas (Expression.writeEach args) ++ [.symbol .rightParen])) := by
      simp [Expression.write, Expression.writeAt]
    rw [hwords] at hlength ⊢
    have hparts := hlength
    simp only [List.length_append, List.length_cons] at hparts
    refine hweaken ((follows_postfixed callee (by omega)).round hn hlength (Nat.succ_pos _) ?_ fun i b hi => ?_)
    · rintro word rfl
      exact ⟨Nat.lt_succ_self 11, fun _ => by simp⟩
    · refine .position fun _ => .kind_cons (.advance (by simp) fun _ => ?_)
      refine Reads.andLook (reads_arguments hg hn (by omega)) (fun _ hword => hword) fun ids c hc hids => ?_
      exact .alloc fun id d hd hid => Reads.pure fun k hk =>
        ⟨id, rfl, i, ids, hid k hk, hi k (hc.trans (hd.trans hk)), hids k (hd.trans hk)⟩
  | .index target index =>
    have hwords : (Expression.index target index).write = target.writeAt 11 ++
        (.symbol .leftBracket :: (index.write ++ [.symbol .rightBracket])) := by
      simp [Expression.write, Expression.writeAt]
    rw [hwords] at hlength ⊢
    have hparts := hlength
    simp only [List.length_append, List.length_cons] at hparts
    refine hweaken ((follows_postfixed target (by omega)).round hn hlength (Nat.succ_pos _) ?_ fun i b hi => ?_)
    · rintro word rfl
      exact ⟨Nat.lt_succ_self 11, fun _ => by simp⟩
    · refine .position fun _ => .kind_cons (.advance (by simp) fun _ => ?_)
      refine Reads.andThen (hg.expression (by omega) b) ?_ fun j c hc hj => .expectSymbol fun _ => ?_
      · rintro word rfl
        exact Nat.zero_lt_one
      exact .alloc fun id d hd hid => Reads.pure fun k hk =>
        ⟨id, rfl, i, j, hid k hk, hi k (hc.trans (hd.trans hk)), hj k (hd.trans hk)⟩
  | .property target name => exact hweaken (follows_property hg hn hlength (follows_postfixed target))
  | .envOpen target body =>
    have hwords : (Expression.envOpen target body).write = target.writeAt 11 ++
        (.symbol .dotBrace :: (Statement.writeAll body ++ [.symbol .rightBrace])) := by
      simp [Expression.write, Expression.writeAt]
    rw [hwords] at hlength ⊢
    have hparts := hlength
    simp only [List.length_append, List.length_cons] at hparts
    refine hweaken ((follows_postfixed target (by omega)).round hn hlength (Nat.succ_pos _) ?_ fun i b hi => ?_)
    · rintro word rfl
      exact ⟨Nat.lt_succ_self 11, fun _ => by simp⟩
    · refine .position fun _ => .kind_cons (.advance (by simp) fun _ => ?_)
      refine Reads.andLook (reads_statements hg hn (by omega)) (fun _ hword => hword) fun ids c hc hids => ?_
      refine .alloc fun block d hd hblock => .alloc fun id k hk hid => Reads.pure fun l hl => ?_
      exact ⟨id, rfl, i, block, ids, hid l hl, hi l (hc.trans (hd.trans (hk.trans hl))), hblock l (hk.trans hl),
        hids l (hd.trans (hk.trans hl))⟩
  | .literal _ | .name _ | .list _ | .record _ | .function _ _ | .object _ _ _ | .imports _ _ _ | .conditional _ _ _
  | .loop _ _ _ => exact hfirst fun a => reads_primary hg hn hlength he (by simp) (by simp) (by simp) (by simp)
  | .unary _ _ | .pipe _ _ | .assignName _ _ | .assignProperty _ _ _ => cases he
  | .binary op _ _ =>
    have hbounds := op.tier.level_bounds
    simp only [Expression.level, BinaryOp.level] at he
    omega

/-! ## Operators -/

/-- An expression is read at every level, and at the level of operators that group to the left it leads to the round
that reads the next one. -/
structure Known (g : Grammar) (n : Nat) (e : Expression) : Prop where
  /-- It is read at every level. -/
  reads : ∀ {level wanted : Nat}, 1 ≤ level → level ≤ 11 → level ≤ wanted → (e.writeAt wanted).length ≤ n →
    ∀ a, Reads a (g.reader level) (e.writeAt wanted) (Ends level) fun b id => e.At b id
  /-- It leads to a round. -/
  leads : ∀ {tier : Tier}, tier ≠ .prepending → (e.writeAt tier.level).length ≤ n →
    ∃ m, g.limit ≤ m + (e.writeAt tier.level).length ∧ ∀ a,
      Turns a (g.reader tier.level) (e.writeAt tier.level) (Ends (tier.level + 1)) (rounds (g.tierRound tier) m)
        fun b id => e.At b id

/-- An expression that is read at its own level is read at all levels, also when it is written for a tighter one. -/
theorem reads_all {e : Expression} (hown : e.write.length ≤ n →
    ∀ a, Reads a (g.reader e.level) e.write (Ends e.level) fun b id => e.At b id) {level wanted : Nat} (h1 : 1 ≤ level)
    (h11 : level ≤ 11) (hwanted : level ≤ wanted) (hlength : (e.writeAt wanted).length ≤ n) (a : Arena) :
    Reads a (g.reader level) (e.writeAt wanted) (Ends level) fun b id => e.At b id := by
  have hlimit : 0 < g.limit := by omega
  by_cases hlevel : e.level < wanted
  · rw [Expression.writeAt_of_lt hlevel] at hlength ⊢
    have hlt : e.write.length < n := by
      simp only [List.length_append, List.length_cons] at hlength
      omega
    obtain ⟨m, hm⟩ : ∃ m, g.limit = m + 1 := ⟨g.limit - 1, by omega⟩
    have hprimary : Reads a g.primary (.symbol .leftParen :: e.write ++ [.symbol .rightParen]) (Ends 11)
        fun b id => e.At b id := reads_parentheses hg hlt
    have hparens : Reads a (g.reader 11) (.symbol .leftParen :: e.write ++ [.symbol .rightParen]) (Ends 11)
        fun b id => e.At b id := by
      have hfirst := turns_postfixed_first hprimary
      rw [hm] at hfirst
      rw [← List.append_nil (_ :: e.write ++ _)]
      exact hfirst.trans (fun _ hword => hword) fun id b _ hid => reads_postfixed_last hid
    exact reads_of_le hlimit h1 h11 le_rfl (fun _ => .cons rfl) hparens
  · have hle : wanted ≤ e.level := Nat.not_lt.1 hlevel
    rw [Expression.writeAt_of_le hle] at hlength ⊢
    refine reads_of_le hlimit h1 (hwanted.trans hle) e.level_bounds.2 (fun hlt => ?_) (hown hlength a)
    exact e.starts.imp fun word hword => hword.2 hlt

omit hg hn in
/-- What an expression leads to, when it is no operator of the tier. -/
theorem leads_of_reads {e : Expression} {tier : Tier} (hne : e.level ≠ tier.level)
    (hreads : ∀ {level wanted : Nat}, 1 ≤ level → level ≤ 11 → level ≤ wanted → (e.writeAt wanted).length ≤ n →
      ∀ a, Reads a (g.reader level) (e.writeAt wanted) (Ends level) fun b id => e.At b id)
    (hlength : (e.writeAt tier.level).length ≤ n) :
    ∃ m, g.limit ≤ m + (e.writeAt tier.level).length ∧ ∀ a,
      Turns a (g.reader tier.level) (e.writeAt tier.level) (Ends (tier.level + 1)) (rounds (g.tierRound tier) m)
        fun b id => e.At b id := by
  have hsame : e.writeAt tier.level = e.writeAt (tier.level + 1) := by
    have hiff : e.level < tier.level ↔ e.level < tier.level + 1 := by omega
    simp only [Expression.writeAt, hiff]
  have hbounds := tier.level_bounds
  rw [hsame] at hlength ⊢
  exact ⟨g.limit, Nat.le_add_right _ _, fun a => turns_tier_first (hreads (by omega) (by omega) le_rfl hlength a)⟩

omit hg in
/-- An operator that groups to the left leads to the round after its right operand. -/
theorem leads_binary {op : BinaryOp} {lhs rhs : Expression} (hop : op ≠ .prepend) (hl : Known g n lhs)
    (hr : Known g n rhs) (hlength : (Expression.binary op lhs rhs).write.length ≤ n) :
    ∃ m, g.limit ≤ m + (Expression.binary op lhs rhs).write.length ∧ ∀ a,
      Turns a (g.reader op.tier.level) (Expression.binary op lhs rhs).write (Ends (op.tier.level + 1))
        (rounds (g.tierRound op.tier) m) fun b id => (Expression.binary op lhs rhs).At b id := by
  have hwords : (Expression.binary op lhs rhs).write =
      lhs.writeAt op.tier.level ++ op.token :: rhs.writeAt (op.tier.level + 1) := by
    simp [Expression.write, Expression.writeAt, BinaryOp.leftLevel, BinaryOp.rightLevel, BinaryOp.level, hop]
  have hbounds := op.tier.level_bounds
  rw [hwords, List.length_append, List.length_cons] at hlength
  obtain ⟨m, hm, hturns⟩ := hl.leads (fun h => hop (op.eq_prepend_iff.2 h)) (by omega)
  obtain ⟨m, rfl⟩ : ∃ l, m = l + 1 := ⟨m - 1, by omega⟩
  rw [hwords]
  refine ⟨m, by rw [List.length_append, List.length_cons]; omega, fun a => ?_⟩
  exact turns_tier_round hop rfl (hturns a) fun b _ => hr.reads (by omega) (by omega) le_rfl (by omega) b

/-- An expression that stands alone or follows another one is read at its own level. -/
theorem reads_own_postfixed {e : Expression} (he : e.level = 11) (hlength : e.write.length ≤ n) (a : Arena) :
    Reads a (g.reader e.level) e.write (Ends e.level) fun b id => e.At b id := by
  have hwords : e.writeAt 11 = e.write := Expression.writeAt_of_le he.ge
  obtain ⟨m, hm, hturns⟩ := follows_postfixed hg hn e (hwords ▸ hlength)
  rw [hwords] at hm hturns
  obtain ⟨m, rfl⟩ : ∃ l, m = l + 1 := ⟨m - 1, by omega⟩
  rw [he, ← List.append_nil e.write]
  refine (hturns a).trans (fun word hword => ?_) fun id b _ hid => reads_postfixed_last hid
  exact ⟨Ends.mono hword (Nat.le_succ 11), fun _ => Ends.ne hword le_rfl⟩

omit hn in
/-- An assignment to what has been read. -/
theorem reads_assignment {value : Expression} {target : Arena → NodeId → Prop}
    (htarget : Reads a (g.reader 2) words (Ends 2) target)
    (hassignable : ∀ b i, target b i → ∃ kind, b.kind? i = some kind ∧ isAssignable kind) (h : value.write.length < n) :
    Reads a (g.reader 1) (words ++ .symbol .assign :: value.write) (Ends 1)
      fun b id => ∃ i j, b.kind? id = some (.assign i j) ∧ target b i ∧ value.At b j := by
  refine Reads.andThen htarget ?_ fun i b hb hi => .if_check_yes (fun _ hword => hword) ?_
  · rintro word rfl
    exact Nat.lt_succ_self 1
  obtain ⟨kind, hkind, htest⟩ := hassignable b i (hi b (.refl b))
  refine .if_node hkind htest (.advance nofun fun _ => ?_)
  refine Reads.andLook (hg.expression h b) (fun _ hword => hword) fun j c hc hj => ?_
  exact Reads.alloc fun id d hd hid => ⟨i, j, hid, hi d (hc.trans hd), hj d hd⟩

/-- What is assigned to is an expression that stands alone or follows another one. -/
theorem reads_target {e : Expression} (he : e.level = 11) (hlength : e.write.length ≤ n) (a : Arena) :
    Reads a (g.reader 2) e.write (Ends 2) fun b id => e.At b id := by
  have hwords : e.writeAt 2 = e.write := Expression.writeAt_of_le (by omega)
  rw [← hwords] at hlength ⊢
  refine reads_all hg hn (fun hlength => reads_own_postfixed hg hn he hlength) (by omega) (by omega) le_rfl
    hlength a

theorem Known.of_own {e : Expression} (hlevel : ∀ tier : Tier, e.level ≠ tier.level) (hown : e.write.length ≤ n →
    ∀ a, Reads a (g.reader e.level) e.write (Ends e.level) fun b id => e.At b id) : Known g n e where
  reads := reads_all hg hn hown
  leads _ hlength := leads_of_reads (hlevel _) (reads_all hg hn hown) hlength

/-- Every expression is read. -/
theorem known (e : Expression) : Known g n e := by
  have hlevel {e : Expression} (h : e.level < 3 ∨ 9 < e.level) (tier : Tier) : e.level ≠ tier.level := by
    have hbounds := tier.level_bounds
    omega
  have hpostfixed {e : Expression} (he : e.level = 11) : Known g n e :=
    .of_own hg hn (hlevel (by omega)) fun hlength => reads_own_postfixed hg hn he hlength
  match e with
  | .literal _ | .name _ | .list _ | .record _ | .function _ _ | .object _ _ _ | .imports _ _ _ | .conditional _ _ _
  | .loop _ _ _ | .call _ _ | .index _ _ | .property _ _ | .envOpen _ _ => exact hpostfixed rfl
  | .unary op operand =>
    refine .of_own hg hn (hlevel (.inr (Nat.lt_succ_self 9))) fun hlength a => ?_
    rw [Expression.write, List.length_cons] at hlength
    refine .kind_cons ?_
    rw [op.unary_token]
    refine .advance op.token_ne_endOfFile fun _ => ?_
    refine Reads.andLook (hg.operand rfl le_rfl operand hlength a) (fun _ hword => hword) fun i b _ hi => ?_
    exact Reads.alloc fun id c hc hid => ⟨i, hid, hi c hc⟩
  | .binary op lhs rhs =>
    have hl := known lhs
    have hr := known rhs
    by_cases hop : op = .prepend
    · subst hop
      have hreads : (Expression.binary .prepend lhs rhs).write.length ≤ n → ∀ a,
          Reads a (g.reader 7) (Expression.binary .prepend lhs rhs).write (Ends 7)
            fun b id => (Expression.binary .prepend lhs rhs).At b id := by
        intro hlength a
        have hwords : (Expression.binary .prepend lhs rhs).write =
            lhs.writeAt 8 ++ .symbol .prepend :: rhs.writeAt 7 := rfl
        rw [hwords, List.length_append, List.length_cons] at hlength
        rw [hwords]
        exact reads_prepend (by omega) (hl.reads (by omega) (by omega) le_rfl (by omega) a) fun b _ =>
          hg.operand rfl le_rfl rhs (by omega) b
      refine ⟨reads_all hg hn hreads, fun {tier} htier hlength => ?_⟩
      exact leads_of_reads (fun heq => htier (Tier.level_injective heq.symm)) (reads_all hg hn hreads) hlength
    · have hleads := leads_binary hn hop hl hr
      have hown : (Expression.binary op lhs rhs).write.length ≤ n → ∀ a, Reads a (g.reader op.tier.level)
          (Expression.binary op lhs rhs).write (Ends op.tier.level)
          fun b id => (Expression.binary op lhs rhs).At b id := by
        intro hlength a
        obtain ⟨m, hm, hturns⟩ := hleads hlength
        obtain ⟨m, rfl⟩ : ∃ l, m = l + 1 := ⟨m - 1, by omega⟩
        rw [← List.append_nil (Expression.write _)]
        exact (hturns a).trans (fun _ hword => Ends.mono hword (Nat.le_succ _)) fun id b _ hid => reads_tier_last hid
      refine ⟨reads_all hg hn hown, fun {tier} htier hlength => ?_⟩
      by_cases heq : op.tier = tier
      · subst heq
        have hwords : (Expression.binary op lhs rhs).writeAt op.tier.level = (Expression.binary op lhs rhs).write :=
          Expression.writeAt_of_le le_rfl
        rw [hwords] at hlength ⊢
        exact hleads hlength
      · exact leads_of_reads (fun hlevel => heq (Tier.level_injective hlevel)) (reads_all hg hn hown) hlength
  | .pipe lhs rhs =>
    refine .of_own hg hn (hlevel (.inl (Nat.lt_succ_self 2))) fun hlength a => ?_
    have hwords : (Expression.pipe lhs rhs).write = lhs.writeAt 3 ++ .symbol .pipe :: rhs.writeAt 2 := rfl
    rw [hwords, List.length_append, List.length_cons] at hlength
    rw [hwords]
    have hread : Reads a (g.reader 3) (lhs.writeAt 3) (Ends 3) fun b id => lhs.At b id :=
      (known lhs).reads (by omega) (by omega) le_rfl (by omega) a
    refine Reads.andThen hread ?_ fun i b hb hi => .if_check_yes (fun _ hword => hword) (.advance (by simp) fun _ => ?_)
    · rintro word rfl
      exact Nat.lt_succ_self 2
    refine Reads.andLook (hg.operand rfl le_rfl rhs (by omega) b) (fun _ hword => hword) fun j c hc hj => ?_
    exact Reads.alloc fun id d hd hid => ⟨i, j, hid, hi d (hc.trans hd), hj d hd⟩
  | .assignName name value =>
    refine .of_own hg hn (hlevel (.inl (Nat.lt_of_sub_eq_succ rfl))) fun hlength a => ?_
    have hwords : (Expression.assignName name value).write =
        (Expression.name name).write ++ .symbol .assign :: value.write := rfl
    rw [hwords, List.length_append, List.length_cons] at hlength
    rw [hwords]
    have htarget : Reads a (g.reader 2) (Expression.name name).write (Ends 2)
        fun b i => (Expression.name name).At b i :=
      reads_target hg hn rfl (by omega) a
    exact reads_assignment hg htarget (fun b i hi => ⟨_, hi, rfl⟩) (by omega)
  | .assignProperty target name value =>
    refine .of_own hg hn (hlevel (.inl (Nat.lt_of_sub_eq_succ rfl))) fun hlength a => ?_
    have hwords : (Expression.assignProperty target name value).write =
        (Expression.property target name).write ++ .symbol .assign :: value.write := by
      simp [Expression.write]
    rw [hwords, List.length_append, List.length_cons] at hlength
    rw [hwords]
    have htarget : Reads a (g.reader 2) (Expression.property target name).write (Ends 2)
        fun b i => (Expression.property target name).At b i := reads_target hg hn rfl (by omega) a
    refine (reads_assignment hg htarget ?_ (by omega)).weaken (fun _ hword => hword) ?_
    · rintro b i ⟨k, hk, -⟩
      exact ⟨_, hk, rfl⟩
    · rintro b id - ⟨i, j, hid, ⟨k, hk, htarget⟩, hj⟩
      exact ⟨i, j, k, hid, hk, htarget, hj⟩

end expressions

end Grammar

end DynScript
