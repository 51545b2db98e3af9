import DynScript.Proofs.Grammar.Productions
import DynScript.Proofs.Grammar.Spending
import DynScript.Proofs.Syntax.CorrectPrefix

/-!
# A program is the listing of one tree

Parsing makes the nodes of a program in the order in which `Arena.postorder` lists them: each node after its children,
and these one after the other, with all that is below them. All nodes are listed, each of them once.
-/

namespace DynScript

namespace Arena

/-- The tree below a node, each node after its children; `levels` bounds how far down the listing goes. -/
def postorderWithin (a : Arena) : Nat → NodeId → List NodeId
  | 0, _ => []
  | levels + 1, id =>
    match a.get? id with
    | none => []
    | some node => node.kind.children.flatMap (a.postorderWithin levels) ++ [id]

/-- The tree below a node, each node after its children. -/
def postorder (a : Arena) (root : NodeId) : List NodeId := a.postorderWithin (a.size + 1) root

variable {a : Arena}

theorem postorderWithin_succ (levels : Nat) {id : NodeId} {node : Node} (hn : a.get? id = some node) :
    a.postorderWithin (levels + 1) id = node.kind.children.flatMap (a.postorderWithin levels) ++ [id] := by
  rw [postorderWithin, hn]

/-- The listing has what is below the node. -/
theorem IsForest.mem_postorderWithin (hf : a.IsForest) {levels : Nat} {id : NodeId} (hid : id.index < levels)
    (hsize : id.index < a.size) (x : NodeId) : x ∈ a.postorderWithin levels id ↔ a.Below id x := by
  induction levels generalizing id with
  | zero => exact absurd hid (Nat.not_lt_zero _)
  | succ levels ih =>
    obtain ⟨node, hn⟩ := exists_get? hsize
    rw [a.postorderWithin_succ levels hn, below_iff_children hn, List.mem_append, List.mem_singleton, or_comm]
    refine or_congr_right (List.mem_flatMap.trans (exists_congr fun c => and_congr_right fun hc => ?_))
    have hlt := hf.down ⟨node, hn, hc⟩
    exact ih (by omega) (by omega)

/-- The listing goes up from number to number. -/
theorem Laid.pairwise_postorderWithin {roots : List Root} (h : a.Laid roots) {levels : Nat} {id : NodeId}
    (hid : id.index < levels) (hsize : id.index < a.size) :
    (a.postorderWithin levels id).Pairwise (·.index < ·.index) := by
  induction levels generalizing id with
  | zero => exact absurd hid (Nat.not_lt_zero _)
  | succ levels ih =>
    obtain ⟨node, hn⟩ := exists_get? hsize
    have hlt (c : NodeId) (hc : c ∈ node.kind.children) : c.index < levels ∧ c.index < a.size := by
      have hdown := h.toIsForest.down ⟨node, hn, hc⟩
      exact ⟨by omega, by omega⟩
    have hmem (c : NodeId) (hc : c ∈ node.kind.children) (x : NodeId) :
        x ∈ a.postorderWithin levels c ↔ a.Below c x :=
      h.toIsForest.mem_postorderWithin (hlt c hc).1 (hlt c hc).2 x
    rw [a.postorderWithin_succ levels hn, List.pairwise_append, List.pairwise_flatMap]
    refine ⟨⟨fun c hc => ih (hlt c hc).1 (hlt c hc).2, ?_⟩, List.pairwise_singleton .., fun x hx y hy => ?_⟩
    · refine (h.sorted _ _ hn).imp_of_mem fun {c d} hc hd hbefore x hx y hy => ?_
      have hle := h.toIsForest.index_le ((hmem c hc x).1 hx)
      exact hle.trans_lt (hbefore y ((hmem d hd y).1 hy))
    · obtain ⟨c, hc, hx⟩ := List.mem_flatMap.1 hx
      obtain rfl := List.mem_singleton.1 hy
      exact (h.toIsForest.index_le ((hmem c hc x).1 hx)).trans_lt (h.toIsForest.down ⟨node, hn, hc⟩)

/-- The tree below the only root is listed as the nodes stand. -/
theorem Laid.postorder_eq {root : Root} (h : a.Laid [root]) :
    a.postorder root.id = (List.range a.size).map NodeId.mk := by
  have hroot : root.id.index < a.size := h.root_lt (List.mem_singleton_self root)
  have hlisted : (a.postorder root.id).Pairwise (·.index < ·.index) :=
    h.pairwise_postorderWithin (Nat.lt_succ_of_lt hroot) hroot
  have hrange : ((List.range a.size).map NodeId.mk).Pairwise (·.index < ·.index) :=
    List.pairwise_map.2 List.pairwise_lt_range
  have hnodup {l : List NodeId} (hl : l.Pairwise (·.index < ·.index)) : l.Nodup :=
    hl.imp fun hlt heq => absurd hlt (by simp [heq])
  refine List.Perm.eq_of_pairwise (fun x y _ _ hxy hyx => absurd hxy (not_lt.2 hyx.le)) hlisted hrange ?_
  refine (List.perm_ext_iff_of_nodup (hnodup hlisted) (hnodup hrange)).2 fun x => ?_
  rw [postorder, h.toIsForest.mem_postorderWithin (Nat.lt_succ_of_lt hroot) hroot, List.mem_map]
  constructor
  · intro hx
    exact ⟨x.index, List.mem_range.2 ((h.toIsForest.index_le hx).trans_lt hroot), rfl⟩
  · rintro ⟨i, hi, rfl⟩
    exact h.below_root (List.mem_range.1 hi)

/-- The only root is the node that was made last. -/
theorem Laid.succ_root {root : Root} (h : a.Laid [root]) : root.id.index + 1 = a.size := by
  have hroot : root.id.index < a.size := h.root_lt (List.mem_singleton_self root)
  have hbelow : a.Below root.id ⟨a.size - 1⟩ := h.below_root (by show a.size - 1 < a.size; omega)
  have hlast := h.toIsForest.index_le hbelow
  dsimp only at hlast
  omega

end Arena

/-- The nodes of a program are the listing of one tree, at most as many as there are tokens. -/
structure Program.Lists (program : Program) (tokens : List Lexeme) : Prop where
  /-- They stand as they are listed. -/
  postorder : program.arena.postorder program.body = (List.range program.arena.size).map NodeId.mk
  /-- The block of the program is the last one. -/
  last : program.body.index + 1 = program.arena.size
  /-- Every other one is the child of one node. -/
  child : ∀ id : NodeId, id.index < program.arena.size → id ≠ program.body → ∃! p, program.arena.Parent p id
  /-- The children of a node stand before it, one after the other. -/
  ordered : ∀ id node, program.arena.get? id = some node → (node.kind.children ++ [id]).Pairwise (·.index < ·.index)
  /-- All stand below the block of the program. -/
  reached : ∀ id : NodeId, id.index < program.arena.size → program.arena.Below program.body id
  /-- Each stands at a token. -/
  placed : ∀ id node, program.arena.get? id = some node → Placed tokens node.position
  /-- There are no more of them than tokens. -/
  few : program.arena.size ≤ tokens.length

theorem Arena.Laid.lists {program : Program} {root : Root} (h : program.arena.Laid [root])
    (hroot : root.id = program.body) {tokens : List Lexeme}
    (hplaced : ∀ id node, program.arena.get? id = some node → Placed tokens node.position)
    (hfew : program.arena.size ≤ tokens.length) : program.Lists tokens where
  postorder := hroot ▸ h.postorder_eq
  last := hroot ▸ h.succ_root
  child id hid hne := by
    rcases h.covered id hid with hmem | ⟨p, hp⟩
    · exact absurd ((List.mem_singleton.1 hmem).trans hroot) hne
    · exact ⟨p, hp, fun q hq => h.toIsForest.unique hq hp⟩
  ordered id node hn := by
    refine List.pairwise_append.2 ⟨(h.sorted id node hn).imp fun hbefore => hbefore.lt, List.pairwise_singleton .., ?_⟩
    intro c hc y hy
    obtain rfl := List.mem_singleton.1 hy
    exact h.toIsForest.down ⟨node, hn, hc⟩
  reached id hid := hroot ▸ h.below_root hid
  placed := hplaced
  few := hfew

/-! ## The end of the file -/

theorem Parser.ok_of_bind {α β : Type} {x : Parser α} {k : α → Parser β} {s : ParseState} {r : β × ParseState}
    (h : (x >>= k) s = .ok r) : ∃ v t, x s = .ok (v, t) ∧ k v t = .ok r := by
  simp only [Bind.bind, StateT.bind, Except.bind] at h
  split at h
  · cases h
  · rename_i result hresult
    exact ⟨result.1, result.2, hresult, h⟩

namespace Grammar

/-- What holds wherever a round is the last one holds at the end of a repetition. -/
theorem ends_rounds {α β : Type} {round : α → Parser (Progress α β)} {P : ParseState → Prop}
    (h : ∀ a s b s', round a s = .ok (.done b, s') → P s') (n : Nat) (a : α) {s s' : ParseState} {b : β}
    (hrun : rounds round n a s = .ok (b, s')) : P s' := by
  induction n generalizing a s with
  | zero => cases hrun
  | succ n ih =>
    obtain ⟨progress, t, hround, hrest⟩ := Parser.ok_of_bind hrun
    cases progress with
    | more a' => exact ih a' hrest
    | done b' =>
      obtain ⟨rfl, rfl⟩ := Prod.mk.inj (Except.ok.inj hrest)
      exact h a s _ t hround

/-- Reading a unit stops at the end of the file. -/
theorem atEnd_of_unit {g : Grammar} {s s' : ParseState} {body : NodeId} (h : g.unit s = .ok (body, s')) :
    s'.cursor.atEnd := by
  obtain ⟨opening, _, _, h⟩ := Parser.ok_of_bind h
  obtain ⟨items, t, hitems, hnode⟩ := Parser.ok_of_bind h
  have hend : t.cursor.atEnd := by
    refine ends_rounds (P := fun s => s.cursor.atEnd) (fun items s result s' hround => ?_) g.limit #[] hitems
    obtain ⟨c, s₁, hc, hround⟩ := Parser.ok_of_bind hround
    obtain ⟨rfl, rfl⟩ := Prod.mk.inj (Except.ok.inj hc)
    split at hround
    · rename_i hend
      obtain ⟨-, rfl⟩ := Prod.mk.inj (Except.ok.inj hround)
      exact hend
    · obtain ⟨empty, s₂, -, hround⟩ := Parser.ok_of_bind hround
      split at hround
      · cases (Prod.mk.inj (Except.ok.inj hround)).1
      · obtain ⟨id, s₃, -, hround⟩ := Parser.ok_of_bind hround
        cases (Prod.mk.inj (Except.ok.inj hround)).1
  obtain ⟨-, rfl⟩ := Prod.mk.inj (Except.ok.inj hnode)
  exact hend

end Grammar

/-! ## Parsing -/

/-- A list of tokens of which the last one, and no other one, is an end of file is read to a result, which is the same
for all grammars that go deep enough and is never that the program is nested too deeply. Where it is a program, all
tokens before the end of the file have been passed, and the nodes are the listing of one tree. -/
theorem parsing_lists_one_tree {tokens : List Lexeme} (hts : Terminated tokens) :
    ∃ r : Except ParseError (NodeId × ParseState),
      (∀ limit depth, 2 * tokens.length + 2 ≤ depth → depth ≤ limit →
        (Grammar.ofDepth limit depth).unit ⟨.ofList tokens, .empty⟩ = r) ∧
      (∀ position, r ≠ .error ⟨.limitReached, position⟩) ∧
      parse tokens = r.map (fun (body, s) => ⟨s.arena, body⟩) ∧
      ∀ body s, r = .ok (body, s) →
        (∃ eof, tokens.getLast? = some eof ∧ s.left = [eof]) ∧ (⟨s.arena, body⟩ : Program).Lists tokens := by
  obtain ⟨passed, token, rest, verdict, rfl, hstops⟩ := stops_unit hts
  have hruns (limit depth : Nat) (hdepth : 2 * (passed ++ token :: rest).length + 2 ≤ depth) (hlimit : depth ≤ limit) :
      (Grammar.ofDepth limit depth).unit ⟨.ofList (passed ++ token :: rest), .empty⟩ =
        verdict.at (lastKind none passed) token rest := by
    rw [List.length_append] at hdepth
    refine Eq.trans ?_ (hstops.runs _ ⟨limit, depth, rfl, by omega, hlimit, by omega⟩ rest)
    cases passed <;> rfl
  refine ⟨_, hruns, fun position hlimit => ?_, ?_, fun body s hok => ?_⟩
  · cases verdict with
    | ok v a => cases hlimit
    | error cause => exact hstops.fails (congrArg (fun e => Verdict.error e.cause) (Except.error.inj hlimit))
  · unfold parse
    dsimp only
    rw [hruns _ _ le_rfl le_rfl]
    cases verdict <;> rfl
  · have hrun := (hruns _ _ le_rfl le_rfl).trans hok
    have hlaid : s.arena.Laid [⟨body, NodeKind.isBlock⟩] :=
      Grammar.builds_unit (Grammar.sound_ofDepth _ _) _ [] _ _ Arena.laid_empty hrun
    have hstart : ParseState.Inside (passed ++ token :: rest) ⟨.ofList (passed ++ token :: rest), .empty⟩ := by
      refine ⟨?_, ?_, fun id node hnode => ?_⟩
      · cases passed <;> exact hts
      · cases passed <;> exact fun t ht => ht
      · simp at hnode
    have hspends (limit depth : Nat) : Parser.Spends (passed ++ token :: rest) (fun _ => True) 1
        (Grammar.ofDepth limit depth).unit fun _ => True := Grammar.spends_unit (Grammar.thrifty_ofDepth _ _ _)
    obtain ⟨hinside, -, hcost⟩ := hspends _ _ _ body s hstart trivial hrun
    cases verdict with
    | error cause => cases hok
    | ok v a =>
      obtain ⟨rfl, rfl⟩ := Prod.mk.inj (Except.ok.inj hok)
      have hend : token.kind = .endOfFile := of_decide_eq_true (Grammar.atEnd_of_unit hrun)
      obtain rfl : rest = [] := by
        cases hts.split.2 with
        | last => rfl
        | cons hne _ => exact absurd hend hne
      refine ⟨⟨token, List.getLast?_concat, rfl⟩, hlaid.lists rfl hinside.placed ?_⟩
      have hfirst : (ParseState.left ⟨.ofList (passed ++ [token]), .empty⟩) = passed ++ [token] := by
        cases passed <;> rfl
      have hlast : (ParseState.before (lastKind none passed) a [token]).left.length = 1 := rfl
      rw [hfirst, hlast] at hcost
      have hempty : Arena.empty.size = 0 := rfl
      dsimp only [hempty] at hcost ⊢
      omega

/-- A name is a program of two nodes. -/
theorem name_is_listed :
    let tokens : List Lexeme := [⟨.identifier "x", ⟨⟨0, 1⟩, 1, 1⟩⟩, ⟨.endOfFile, ⟨⟨1, 1⟩, 1, 2⟩⟩]
    Terminated tokens ∧ ∃ program, parse tokens = .ok program ∧ program.Lists tokens := by
  intro tokens
  have hts : Terminated tokens := .cons nofun (.last rfl)
  obtain ⟨r, -, -, hparse, hlists⟩ := parsing_lists_one_tree hts
  obtain ⟨program, hprogram⟩ : ∃ program, parse tokens = .ok program := ⟨_, rfl⟩
  rw [hprogram] at hparse
  cases r with
  | error e => cases hparse
  | ok result =>
    obtain rfl := Except.ok.inj hparse
    exact ⟨hts, _, hprogram, (hlists _ _ rfl).2⟩

end DynScript
