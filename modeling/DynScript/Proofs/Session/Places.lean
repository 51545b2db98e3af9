import DynScript.Proofs.Grammar.Spending
import DynScript.Proofs.Run.Direct
import DynScript.Proofs.Session.Naming
import DynScript.Proofs.Token.Literals

/-!
# Nodes have places

Every node that the parser makes stands at a token, and an analysis leaves it there. So a fault that leaves the
evaluation of a node of a program has a place, wherever it has arisen.
-/

namespace DynScript

namespace Lexer

theorem terminated_tokensFrom (p : Place) (cs : List Char) {tokens : List Lexeme} (h : tokensFrom p cs = .ok tokens) :
    Terminated tokens := by
  fun_induction tokensFrom p cs generalizing tokens with
  | case1 =>
    cases h
    exact .last rfl
  | case2 => cases h
  | case3 => cases h
  | case4 _ _ _ _ _ _ _ ih => exact ih h
  | case5 p _ _ text rest _ kind hkind ih =>
    cases hrest : tokensFrom (p.after text) rest with
    | error e =>
      rw [hrest] at h
      cases h
    | ok more =>
      rw [hrest] at h
      cases h
      exact .cons (Item.kind?_ne_endOfFile hkind) (ih hrest)

end Lexer

/-- Every node has a place. -/
def Arena.Positioned (a : Arena) : Prop := ∀ id node, a.get? id = some node → node.position.isSome

theorem Arena.SameOutline.positioned {a b : Arena} (h : a.SameOutline b) (ha : a.Positioned) : b.Positioned := by
  intro id node hn
  obtain ⟨node', hn', ho⟩ := h.symm.get? hn
  rw [← Node.position_outline ho]
  exact ha id node' hn'

theorem Parsed.positioned (p : Parsed) : p.program.arena.Positioned := by
  obtain ⟨source, program, hreads⟩ := p
  unfold parseSource at hreads
  cases hlex : lex source with
  | error e =>
    rw [hlex] at hreads
    cases hreads
  | ok tokens =>
    rw [hlex] at hreads
    dsimp only at hreads
    unfold parse at hreads
    cases hrun : (Grammar.ofDepth (2 * tokens.length + 2) (2 * tokens.length + 2)).unit ⟨.ofList tokens, .empty⟩ with
    | error e =>
      simp only [hrun] at hreads
      cases hreads
    | ok result =>
      obtain ⟨body, s⟩ := result
      simp only [hrun] at hreads
      cases hreads
      have hterminated : Terminated tokens := Lexer.terminated_tokensFrom _ _ hlex
      have hleft : ParseState.left ⟨.ofList tokens, .empty⟩ = tokens := by cases hterminated <;> rfl
      have hstart : ParseState.Inside tokens ⟨.ofList tokens, .empty⟩ := by
        refine ⟨hleft ▸ hterminated, fun t ht => hleft ▸ ht, fun id node hnode => ?_⟩
        simp at hnode
      have hspends (limit depth : Nat) : Parser.Spends tokens (fun _ => True) 1 (Grammar.ofDepth limit depth).unit
          fun _ => True := Grammar.spends_unit (Grammar.thrifty_ofDepth tokens limit depth)
      obtain ⟨hinside, -, -⟩ := hspends _ _ _ body s hstart trivial hrun
      intro id node hn
      obtain ⟨t, -, hposition⟩ := hinside.placed id node hn
      rw [hposition]
      rfl

theorem Parsed.Makes.positioned {p : Parsed} {a : Arena} (h : p.Makes a) : a.Positioned := by
  cases h with
  | parsed => exact p.positioned
  | @analysed role queue analysed h =>
    obtain ⟨settled, found, -, hdesugars, -, hpass⟩ := analyse_settles p.laid role
    obtain rfl := Except.ok.inj ((hpass queue).1.symm.trans h)
    exact hdesugars.outline.positioned p.positioned

theorem Arena.Accepted.positioned {a : Arena} (h : a.Accepted) : a.Positioned := by
  obtain ⟨-, ⟨p, role, queue, analysed, hanalyse, -, rfl⟩, rfl⟩ := h
  exact (Parsed.Makes.analysed hanalyse).positioned

/-- A fault that leaves a node has a place when the node has one. -/
theorem Eval.located_evalWithin (load : Loader) (fuel : Nat) (id : NodeId) (held : List Value) {m : Machine}
    {unit : UnitId} {a : Arena} (hm : m.Evaluates unit a) (ha : a.Positioned) :
    Located ((evalWithin load fuel id).runFrom held m).1 := by
  cases fuel with
  | zero => exact fun fault hf => by cases hf
  | succ fuel =>
    rw [evalWithin, runFrom_nodeStep, hm.current, hm.node?]
    cases hn : a.get? id with
    | none => exact fun fault hf => by cases hf
    | some node =>
      obtain ⟨position, hposition⟩ := Option.isSome_iff_exists.1 (ha id node hn)
      dsimp only
      rw [hposition]
      exact located_locating position _ held m

end DynScript
