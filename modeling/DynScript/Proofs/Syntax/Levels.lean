import DynScript.Proofs.Syntax.Reading

/-!
# Levels of expressions

Which tokens end an expression of a level, with which tokens an expression begins, and what reads an expression of a
level. A tree is read at every level once it is read at its own: below that the operators that could go on with it are
not there, and above it the tree stands between parentheses.
-/

namespace DynScript

open Syntax

/-- How tightly a token holds on to the expression before it: as tightly as the operators of that level do, not at all
if it ends every expression, and more tightly than all of them if nothing can go on with it. -/
def TokenKind.grip : TokenKind → Nat
  | .symbol .rightParen | .symbol .rightBracket | .symbol .leftBrace | .symbol .rightBrace | .symbol .comma
  | .symbol .semicolon | .keyword .thenBranch | .keyword .upTo | .endOfFile => 0
  | .symbol .assign => 1
  | .symbol .pipe => 2
  | .keyword .or => 3
  | .keyword .and => 4
  | .symbol .equal | .symbol .notEqual => 5
  | .symbol .less | .symbol .lessEqual | .symbol .greater | .symbol .greaterEqual => 6
  | .symbol .prepend => 7
  | .symbol .plus | .symbol .minus => 8
  | .symbol .star | .symbol .slash => 9
  | .symbol .leftParen | .symbol .leftBracket | .symbol .dot | .symbol .dotBrace => 11
  | _ => 12

/-- A token ends expressions of a level. -/
def Ends (level : Nat) (word : TokenKind) : Prop := word.grip < level

theorem Ends.mono {l l' : Nat} {word : TokenKind} (h : Ends l word) (hl : l ≤ l') : Ends l' word :=
  Nat.lt_of_lt_of_le h hl

/-- A token ends expressions of a level when it is not one of those that go on with them. -/
theorem Ends.ne {l : Nat} {word other : TokenKind} (h : Ends l word) (ho : l ≤ other.grip) : word ≠ other := by
  rintro rfl
  exact absurd h (Nat.not_lt.2 ho)

/-- A token can begin an expression. -/
def TokenKind.opens : TokenKind → Bool
  | .identifier _ | .number _ | .string _ | .symbol .leftParen | .symbol .leftBracket | .symbol .leftBrace
  | .symbol .minus => true
  | .keyword k => k ∈ [.yes, .no, .nil, .func, .object, .imports, .cond, .loop, .len, .clone]
  | _ => false

namespace BinaryOp

theorem grip_token (op : BinaryOp) : op.token.grip = op.level := by
  cases op with
  | logical op | equality op | comparison op | arithmetic op => cases op <;> rfl
  | prepend => rfl

theorem build_token (op : BinaryOp) : op.tier.build? op.token = some op.node := by
  cases op with
  | logical op | equality op | comparison op | arithmetic op => cases op <;> rfl
  | prepend => rfl

theorem token_ne_endOfFile (op : BinaryOp) : op.token ≠ .endOfFile := by
  cases op with
  | logical op | equality op | comparison op | arithmetic op => cases op <;> nofun
  | prepend => nofun

theorem eq_prepend_iff (op : BinaryOp) : op = prepend ↔ op.tier = .prepending := by
  cases op with
  | logical op | equality op | comparison op | arithmetic op => cases op <;> simp [tier]
  | prepend => simp [tier]

end BinaryOp

namespace UnaryOp

theorem unary_token (op : UnaryOp) : Grammar.unary? op.token = some op.node := by cases op <;> rfl

theorem opens_token (op : UnaryOp) : op.token.opens := by cases op <;> rfl

theorem token_ne_endOfFile (op : UnaryOp) : op.token ≠ .endOfFile := by cases op <;> nofun

end UnaryOp

namespace Grammar

/-- A token that ends expressions of a tier is no operator of the tier. -/
theorem Tier.build_eq_none {tier : Tier} {word : TokenKind} (h : Ends tier.level word) : tier.build? word = none := by
  unfold Ends at h
  cases word with
  | symbol s => cases tier <;> cases s <;> first | rfl | exact absurd h (by decide)
  | keyword k => cases tier <;> cases k <;> first | rfl | exact absurd h (by decide)
  | _ => cases tier <;> rfl

theorem Tier.level_injective : Function.Injective Tier.level := by
  intro tier tier' h
  cases tier <;> cases tier' <;> first | rfl | cases h

theorem Tier.level_bounds (tier : Tier) : 3 ≤ tier.level ∧ tier.level ≤ 9 := by cases tier <;> decide

end Grammar

namespace Syntax

namespace Expression

/-- An expression where a level is asked for. -/
def writeAt (level : Nat) (e : Expression) : List TokenKind := parenthesized (e.level < level) e.write

theorem writeAt_of_le {level : Nat} {e : Expression} (h : level ≤ e.level) : e.writeAt level = e.write := by
  rw [writeAt, decide_eq_false (Nat.not_lt.2 h)]
  rfl

theorem writeAt_of_lt {level : Nat} {e : Expression} (h : e.level < level) :
    e.writeAt level = .symbol .leftParen :: e.write ++ [.symbol .rightParen] := by
  rw [writeAt, decide_eq_true h]
  rfl

theorem level_bounds (e : Expression) : 1 ≤ e.level ∧ e.level ≤ 11 := by
  cases e with
  | binary op lhs rhs =>
    have h := op.tier.level_bounds
    simp only [level, BinaryOp.level]
    omega
  | _ => simp [level]

@[simp] theorem writeAt_one (e : Expression) : e.writeAt 1 = e.write := writeAt_of_le e.level_bounds.1

end Expression

theorem parenthesized_starts {p : TokenKind → Prop} {b : Bool} {words : List TokenKind}
    (hparen : p (.symbol .leftParen)) (h : b = false → Starts p words) : Starts p (parenthesized b words) := by
  cases b with
  | true => exact .cons hparen
  | false => exact h rfl

theorem opens_literalWord (value : Literal) :
    (literalWord value).opens ∧ Grammar.unary? (literalWord value) = none := by
  cases value with
  | bool b => cases b <;> exact ⟨rfl, rfl⟩
  | _ => exact ⟨rfl, rfl⟩

/-- An expression begins with a token that opens one, and with a unary operator only if it is one or stands below
one. -/
theorem Expression.starts (e : Expression) :
    Starts (fun word => word.opens ∧ (10 < e.level → Grammar.unary? word = none)) e.write := by
  have hplain (target : Expression)
      (h : Starts (fun word => word.opens ∧ (10 < target.level → Grammar.unary? word = none)) target.write) :
      Starts (fun word => word.opens ∧ Grammar.unary? word = none) (target.writeAt 11) := by
    refine parenthesized_starts ⟨rfl, rfl⟩ fun hlevel => h.imp ?_
    rintro word ⟨hopens, hunary⟩
    have hle : 11 ≤ target.level := Nat.not_lt.1 (of_decide_eq_false hlevel)
    exact ⟨hopens, hunary (by omega)⟩
  have hproperty (target : Expression)
      (h : Starts (fun word => word.opens ∧ (10 < target.level → Grammar.unary? word = none)) target.write) :
      Starts (fun word => word.opens ∧ Grammar.unary? word = none)
        (parenthesized (target.level < 11 || target.isImport) target.write) := by
    refine parenthesized_starts ⟨rfl, rfl⟩ fun hlevel => h.imp ?_
    rintro word ⟨hopens, hunary⟩
    have hle : 11 ≤ target.level := Nat.not_lt.1 (of_decide_eq_false (Bool.or_eq_false_iff.1 hlevel).1)
    exact ⟨hopens, hunary (by omega)⟩
  have hloose {target e : Expression} {level : Nat} (he : e.level ≤ 10)
      (h : Starts (fun word => word.opens ∧ (10 < target.level → Grammar.unary? word = none)) target.write) :
      Starts (fun word => word.opens ∧ (10 < e.level → Grammar.unary? word = none)) (target.writeAt level) := by
    refine parenthesized_starts ⟨rfl, fun hlt => absurd hlt (by omega)⟩ fun _ => h.imp ?_
    rintro word ⟨hopens, -⟩
    exact ⟨hopens, fun hlt => absurd hlt (by omega)⟩
  have hself {words : List TokenKind} (h : Starts (fun word => word.opens ∧ Grammar.unary? word = none) words) :
      Starts (fun word => word.opens ∧ (10 < e.level → Grammar.unary? word = none)) words :=
    h.imp fun _ hword => ⟨hword.1, fun _ => hword.2⟩
  match e with
  | .literal value => exact hself (.cons (opens_literalWord value))
  | .name _ | .list _ | .record _ | .function _ _ | .object _ _ _ | .imports _ _ _ | .conditional _ _ _
  | .loop _ _ _ | .assignName _ _ => exact hself (.cons ⟨rfl, rfl⟩)
  | .call callee _ => exact hself (((hplain callee callee.starts).append _).append _)
  | .index target _ => exact hself (((hplain target target.starts).append _).append _)
  | .property target _ => exact hself ((hproperty target target.starts).append _)
  | .envOpen target _ => exact hself (((hplain target target.starts).append _).append _)
  | .unary op operand => exact .cons ⟨op.opens_token, fun hlt => absurd hlt (Nat.lt_irrefl 10)⟩
  | .binary op lhs rhs =>
    have hle : (Expression.binary op lhs rhs).level ≤ 10 := by
      have h := op.tier.level_bounds
      simp only [level, BinaryOp.level]
      omega
    exact (hloose hle lhs.starts).append _
  | .pipe lhs rhs =>
    have hle : (Expression.pipe lhs rhs).level ≤ 10 := Nat.le_of_ble_eq_true rfl
    exact (hloose hle lhs.starts).append _
  | .assignProperty target _ _ =>
    exact ((hproperty target target.starts).imp fun _ hword => ⟨hword.1, fun _ => hword.2⟩).append _

end Syntax

end DynScript
