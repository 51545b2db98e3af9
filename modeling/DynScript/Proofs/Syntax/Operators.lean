import DynScript.Proofs.Syntax.Levels

/-!
# Reading operators

What reads the expressions of a level, and how the operators of a tier are read: those that group to the left in
rounds, so that reading the left operand leads to the round in which the operator is read. The rounds that are left are
counted against the tokens that have been read.
-/

namespace DynScript

open Syntax

namespace Parser

variable {α β γ : Type} {a : Arena} {words : List TokenKind} {stop stop' : TokenKind → Prop}
  {post : Arena → α → Prop} {post' : Arena → γ → Prop} {y : α → Parser β} {p : Parser γ} {k : γ → Parser β}

/-- A parser that reads all of the words, before another one that only looks at what comes after them. -/
theorem Reads.andLook (h : Reads a p words stop' post') (hnext : ∀ word, stop word → stop' word)
    (hk : ∀ v b, a.Keeps b → (∀ c, b.Keeps c → post' c v) → Turns b (k v) [] stop y post) :
    Turns a (p >>= k) words stop y post := by
  rw [← List.append_nil words]
  exact h.andThen hnext hk

end Parser

namespace Grammar

open DynScript.Parser

variable {g : Grammar} {a : Arena} {words words' : List TokenKind} {post : Arena → NodeId → Prop} {tier : Tier}
  {n : Nat}

/-- The tiers that bind tighter than one. -/
def Tier.tighter (tier : Tier) : List Tier := tiers.drop (tier.level - 2)

/-- One round of reading the operators of a tier. -/
def tierRound (g : Grammar) (tier : Tier) (lhs : NodeId) : Parser (Progress NodeId NodeId) := do
  match tier.build? (← Parser.kind) with
  | none => return .done lhs
  | some build =>
    let operator ← Parser.advance
    if tier = .prepending then
      let rhs ← g.read .prepend
      return .done (← Parser.node (build lhs rhs) operator.position)
    else
      let rhs ← g.binary (g.unary g.postfixed) tier.tighter
      return .more (← Parser.node (build lhs rhs) operator.position)

/-- One round of reading what follows a primary expression. -/
def postfixRound (g : Grammar) (target : NodeId) : Parser (Progress NodeId NodeId) := do
  let opening ← Parser.position
  match ← Parser.kind with
  | .symbol .leftParen =>
    let _ ← Parser.advance
    return .more (← Parser.node (.call target (← g.arguments)) opening)
  | .symbol .leftBracket =>
    let _ ← Parser.advance
    let index ← g.read .expression
    let _ ← Parser.expectSymbol .rightBracket
    return .more (← Parser.node (.index target index) opening)
  | .symbol .dot =>
    let _ ← Parser.advance
    let label ← Parser.expectLabel
    return .more (← Parser.alloc (.property target label.name) label.position)
  | .symbol .dotBrace =>
    let _ ← Parser.advance
    let body ← Parser.node (.block (← g.statementsUntilBrace)) opening
    return .more (← Parser.node (.envOpen target body) opening)
  | _ => return .done target

theorem postfixed_eq (g : Grammar) :
    g.postfixed = (g.primary >>= fun target => rounds g.postfixRound g.limit target) := rfl

/-- What reads the expressions of a level. -/
def reader (g : Grammar) : Nat → Parser NodeId
  | 0 | 1 => g.assignment (g.unary g.postfixed)
  | 2 => g.pipe (g.unary g.postfixed)
  | level + 3 => if level ≤ 7 then g.binary (g.unary g.postfixed) (tiers.drop level) else g.postfixed

theorem reader_tier (g : Grammar) (tier : Tier) : g.reader tier.level =
    (g.reader (tier.level + 1) >>= fun first => rounds (g.tierRound tier) g.limit first) := by
  cases tier <;> rfl

theorem exists_tier {level : Nat} (h : 3 ≤ level) (h' : level ≤ 9) : ∃ tier : Tier, tier.level = level := by
  interval_cases level
  exacts [⟨.disjunction, rfl⟩, ⟨.conjunction, rfl⟩, ⟨.equality, rfl⟩, ⟨.comparison, rfl⟩, ⟨.prepending, rfl⟩,
    ⟨.sum, rfl⟩, ⟨.product, rfl⟩]

/-! ## Rounds -/

/-- An expression of a tighter level is read before the first round. -/
theorem turns_tier_first (h : Reads a (g.reader (tier.level + 1)) words (Ends (tier.level + 1)) post) :
    Turns a (g.reader tier.level) words (Ends (tier.level + 1)) (rounds (g.tierRound tier) g.limit) post := by
  rw [reader_tier]
  exact h.andLook (fun _ hword => hword) fun v b _ hv => .refl hv

/-- The last round reads nothing. -/
theorem reads_tierRound {id : NodeId} (h : ∀ b, a.Keeps b → post b id) :
    Reads a (g.tierRound tier id) [] (Ends tier.level) fun b r => ∃ v, r = .done v ∧ post b v := by
  refine .kind fun word hword => ?_
  rw [Tier.build_eq_none hword]
  exact Reads.pure fun b hb => ⟨id, rfl, h b hb⟩

theorem reads_tier_last {id : NodeId} (h : ∀ b, a.Keeps b → post b id) :
    Reads a (rounds (g.tierRound tier) (n + 1) id) [] (Ends tier.level) post :=
  reads_rounds_done (reads_tierRound h)

/-- The last round of what follows a primary expression reads nothing, either. -/
theorem reads_postfixRound {id : NodeId} (h : ∀ b, a.Keeps b → post b id) :
    Reads a (g.postfixRound id) [] (Ends 11) fun b r => ∃ v, r = .done v ∧ post b v := by
  refine .position fun opening => .kind fun word hword => ?_
  have hends : Ends 11 word := hword
  split
  · exact absurd hends (Nat.lt_irrefl 11)
  · exact absurd hends (Nat.lt_irrefl 11)
  · exact absurd hends (Nat.lt_irrefl 11)
  · exact absurd hends (Nat.lt_irrefl 11)
  · exact Reads.pure fun b hb => ⟨id, rfl, h b hb⟩

/-- A round reads an operator that groups to the left, and its right operand. -/
theorem turns_tier_round {op : BinaryOp} {lhs rhs : Expression} (hop : op ≠ .prepend) (htier : op.tier = tier)
    (hl : Turns a (g.reader tier.level) words (Ends (tier.level + 1)) (rounds (g.tierRound tier) (n + 1))
      fun b id => lhs.At b id)
    (hr : ∀ b, a.Keeps b → Reads b (g.reader (tier.level + 1)) words' (Ends (tier.level + 1)) fun c id => rhs.At c id) :
    Turns a (g.reader tier.level) (words ++ op.token :: words') (Ends (tier.level + 1)) (rounds (g.tierRound tier) n)
      fun b id => (Expression.binary op lhs rhs).At b id := by
  subst htier
  have hne : ¬ op.tier = .prepending := fun h => hop (op.eq_prepend_iff.2 h)
  have hreader : g.reader (op.tier.level + 1) = g.binary (g.unary g.postfixed) op.tier.tighter := by
    cases op.tier <;> rfl
  refine hl.trans ?_ fun i b hb hi => ?_
  · rintro word rfl
    show op.token.grip < op.tier.level + 1
    rw [op.grip_token]
    exact Nat.lt_succ_self _
  rw [← List.append_nil (op.token :: words')]
  refine turns_rounds_more (u := Ends (op.tier.level + 1)) (q := fun c id => (Expression.binary op lhs rhs).At c id) ?_
    (fun _ hword => hword) fun id c hc hid => .refl hid
  refine .kind_cons ?_
  rw [op.build_token]
  refine .advance op.token_ne_endOfFile fun lexeme => ?_
  rw [if_neg hne, ← hreader]
  refine Reads.andLook (hr b hb) (fun _ hword => hword) fun j c hc hj => ?_
  refine .alloc fun id d hd hid => Reads.pure fun e he => ⟨id, rfl, i, j, hid e he, ?_, ?_⟩
  · exact hi e (hc.trans (hd.trans he))
  · exact hj e (hd.trans he)

/-- Prepending reads its right operand by itself. -/
theorem reads_prepend {lhs rhs : Expression} (hlimit : 0 < g.limit)
    (hl : Reads a (g.reader 8) words (Ends 8) fun b id => lhs.At b id)
    (hr : ∀ b, a.Keeps b → Reads b (g.read .prepend) words' (Ends 7) fun c id => rhs.At c id) :
    Reads a (g.reader 7) (words ++ .symbol .prepend :: words') (Ends 7)
      fun b id => (Expression.binary .prepend lhs rhs).At b id := by
  obtain ⟨n, hn⟩ : ∃ n, g.limit = n + 1 := ⟨g.limit - 1, by omega⟩
  have htighter : Reads a (g.reader (Tier.prepending.level + 1)) words (Ends (Tier.prepending.level + 1)) _ := hl
  have hfirst : Turns a (g.reader 7) words (Ends 8) (rounds (g.tierRound .prepending) g.limit) _ :=
    turns_tier_first htighter
  refine hfirst.trans ?_ fun i b hb hi => ?_
  · rintro word rfl
    exact Nat.lt_succ_self _
  rw [hn]
  refine reads_rounds_done (.kind_cons (.advance nofun fun lexeme => ?_))
  rw [if_pos rfl]
  refine Reads.andLook (hr b hb) (fun _ hword => hword) fun j c hc hj => ?_
  refine .alloc fun id d hd hid => Reads.pure fun e he => ⟨id, rfl, i, j, hid e he, ?_, ?_⟩
  · exact hi e (hc.trans (hd.trans he))
  · exact hj e (hd.trans he)

/-! ## From a level to looser ones -/

/-- Words that are read at a level are read at the next looser one, where no operator of it comes after them. -/
theorem reads_looser {level : Nat} (hlimit : 0 < g.limit) (h1 : 1 ≤ level) (h10 : level ≤ 10)
    (hstart : level = 10 → Starts (fun word => unary? word = none) words)
    (h : Reads a (g.reader (level + 1)) words (Ends (level + 1)) post) :
    Reads a (g.reader level) words (Ends level) post := by
  have hmono (word : TokenKind) (hword : Ends level word) : Ends (level + 1) word := hword.mono (Nat.le_succ level)
  obtain rfl | rfl | hmid | rfl : level = 1 ∨ level = 2 ∨ (3 ≤ level ∧ level ≤ 9) ∨ level = 10 := by omega
  · refine Reads.andLook h hmono fun id b _ hid => ?_
    exact .if_check_no (fun word hword => Ends.ne hword le_rfl) (Reads.pure hid)
  · refine Reads.andLook h hmono fun id b _ hid => ?_
    exact .if_check_no (fun word hword => Ends.ne hword le_rfl) (Reads.pure hid)
  · obtain ⟨tier, rfl⟩ := exists_tier hmid.1 hmid.2
    obtain ⟨n, hn⟩ : ∃ n, g.limit = n + 1 := ⟨g.limit - 1, by omega⟩
    have hfirst := turns_tier_first h
    rw [hn] at hfirst
    rw [← List.append_nil words]
    exact hfirst.trans hmono fun id b _ hid => reads_tier_last hid
  · refine .kind fun word hword => ?_
    rw [(hstart rfl).heads hword]
    exact Turns.weaken h (fun next hnext => hmono next hnext.1) fun _ _ _ hv => hv

/-- So they are at all looser levels. -/
theorem reads_of_le {level level' : Nat} (hlimit : 0 < g.limit) (h1 : 1 ≤ level) (hle : level ≤ level')
    (h11 : level' ≤ 11) (hstart : 10 < level' → Starts (fun word => unary? word = none) words)
    (h : Reads a (g.reader level') words (Ends level') post) : Reads a (g.reader level) words (Ends level) post := by
  induction hle with
  | refl => exact h
  | @step m hle ih =>
    have hm : level ≤ m := hle
    refine ih (by omega) (fun hlt => absurd hlt (by omega)) (reads_looser hlimit (by omega) (by omega) ?_ h)
    intro heq
    exact hstart (by omega)

end Grammar

end DynScript
