import DynScript.Proofs.Analysis.Replay
import DynScript.Proofs.Tree.Direct

/-!
# Analysing a program without pipes

A program whose pipes all lead into calls and the direct program are walked through alike, so the analysis finds
the same in both.
-/

namespace DynScript

namespace Analysis

/-- The end of a step when the nodes are these. -/
def withArena {α : Type} (a : Arena) (r : Except Defect (α × AnalysisState)) :
    Except Defect (α × AnalysisState) :=
  r.map fun end_ => (end_.1, { end_.2 with arena := a })

/-- Over two arenas two steps do the same, apart from the nodes, which they leave as they are. -/
def Matches (a b : Arena) {α : Type} (n : Nat) (ids : List NodeId) (_codes : List Code) (x y : Analysis α) :
    Prop :=
  (∀ id ∈ ids, id.index < n) → ∀ s : AnalysisState, ∃ r,
    x { s with arena := a } = withArena a r ∧ y { s with arena := b } = withArena b r

namespace Matches

variable {α β : Type} {a b program : Arena} {n : Nat} {ids ids' : List NodeId} {codes codes' : List Code}

theorem bind {x y : Analysis α} {k l : α → Analysis β} (hx : Matches a b n ids codes x y)
    (hk : ∀ v, Matches a b n ids' codes' (k v) (l v)) :
    Matches a b n (ids ++ ids') (codes ++ codes') (x >>= k) (y >>= l) := by
  intro hids s
  obtain ⟨r, hxr, hyr⟩ := hx (fun id hid => hids id (List.mem_append_left _ hid)) s
  cases r with
  | error d =>
    refine ⟨.error d, ?_, ?_⟩ <;> simp only [Bind.bind, StateT.bind, hxr, hyr] <;> rfl
  | ok r =>
    obtain ⟨r', hkr, hlr⟩ := hk r.1 (fun id hid => hids id (List.mem_append_right _ hid)) r.2
    refine ⟨r', ?_, ?_⟩ <;> simp only [Bind.bind, StateT.bind, hxr, hyr, withArena, Except.map, Except.bind]
    · exact hkr
    · exact hlr

theorem idle {x : Analysis α} (hx : Idle x) : Matches a b n [] [] x x := by
  intro _ s
  obtain ⟨v, tree, current, inFunction, -, hrun⟩ := hx s
  exact ⟨.ok (v, { s with tree, current, inFunction }), hrun a s.queue, hrun b s.queue⟩

theorem report (f : Finding) (position : Option Position) :
    Matches a b n [] [f.code] (report f position) (report f position) := by
  intro _ s
  exact ⟨Analysis.report f position s, by cases f <;> rfl, by cases f <;> rfl⟩

theorem declare (d : Declaration) : Matches a b n [] [] (declare d) (declare d) := by
  intro hids s
  cases hdefine : s.tree.define s.current d with
  | ok tree => refine ⟨.ok ((), { s with tree }), ?_, ?_⟩ <;> rw [declare_eq, hdefine] <;> rfl
  | error existing =>
    obtain ⟨r, hx, hy⟩ := report (a := a) (b := b) (n := n) (.finalRedeclaration d.name) d.position hids s
    refine ⟨r, ?_, ?_⟩
    · rw [declare_eq, hdefine]
      exact hx
    · rw [declare_eq, hdefine]
      exact hy

theorem inEnvironment {x y : Analysis Unit} (name : String) (h : Matches a b n ids codes x y) :
    Matches a b n ids codes (inEnvironment name x) (inEnvironment name y) := by
  intro hids s
  obtain ⟨r, hx, hy⟩ := h hids (s.entered name)
  refine ⟨r.map fun e => ((), { e.2 with current := s.current }), ?_, ?_⟩
  · rw [inEnvironment_eq]
    refine (congrArg (· >>= _) hx).trans ?_
    cases r <;> rfl
  · rw [inEnvironment_eq]
    refine (congrArg (· >>= _) hy).trans ?_
    cases r <;> rfl

section nodes

variable (hp : program.SameOutline a) (hab : a.Unpiped b)
include hp hab

theorem peek {id : NodeId} {node : Node} {k l : Node → Analysis α} (hn : program.get? id = some node)
    (h : ∀ m m', node.Alike m → node.Alike m' → Matches a b n ids codes (k m) (l m')) :
    Matches a b n ids codes (Analysis.node id >>= k) (Analysis.node id >>= l) := by
  intro hids s
  obtain ⟨m, hm, ho⟩ := hp.get? hn
  have hnode := Node.alike_of_outline ho
  obtain ⟨m', hm', hnode'⟩ : ∃ m', b.get? id = some m' ∧ node.Alike m' := by
    rcases hab.nodes id with hsame | ⟨lhs, rhs, position, hpipe, _, _, callee, args, position', hcall⟩
    · exact ⟨m, hsame ▸ hm, hnode⟩
    · obtain rfl := Option.some.inj (hm.symm.trans hpipe)
      refine ⟨_, hcall, .inr ⟨?_, rfl⟩⟩
      rcases hnode with rfl | ⟨hj, _⟩
      · rfl
      · exact hj
  obtain ⟨r, hx, hy⟩ := h m m' hnode hnode' hids s
  exact ⟨r, (Replays.node_bind (s := { s with arena := a }) hm).trans hx,
    (Replays.node_bind (s := { s with arena := b }) hm').trans hy⟩

theorem enter (ha : a.IsForest) {id : NodeId} {node : Node} {k l : Node → Analysis α}
    (hn : program.get? id = some node) (hpipe : ∀ lhs rhs mark, node.kind ≠ .pipe lhs rhs mark)
    (h : ∀ m, m.outline = node.outline → Matches a b n m.kind.children m.kind.owed (k m) (l m)) :
    Matches a b (n + 1) [id] [] (Analysis.node id >>= k) (Analysis.node id >>= l) := by
  intro hids s
  obtain ⟨m, hm, ho⟩ := hp.get? hn
  have hm' : b.get? id = some m := by
    rcases hab.nodes id with hsame | ⟨lhs, rhs, position, hq, _⟩
    · exact hsame ▸ hm
    · obtain rfl := Option.some.inj (hm.symm.trans hq)
      obtain ⟨mark, rfl⟩ := Node.pipe_of_outline ho.symm rfl
      exact absurd rfl (hpipe lhs rhs mark)
  have hchildren (c : NodeId) (hc : c ∈ m.kind.children) : c.index < n := by
    have hlt := ha.down ⟨m, hm, hc⟩
    have hid := hids id (List.mem_singleton_self id)
    omega
  obtain ⟨r, hx, hy⟩ := h m ho hchildren s
  exact ⟨r, (Replays.node_bind (s := { s with arena := a }) hm).trans hx,
    (Replays.node_bind (s := { s with arena := b }) hm').trans hy⟩

theorem walk (ha : a.IsForest) : Walk program (Matches a b) where
  lower hnm h hids := h fun id hid => (hids id hid).trans_le hnm
  zero hids := absurd (hids _ (List.mem_singleton_self _)) (Nat.not_lt_zero _)
  fewer _ h := h
  perm hperm h hids := h fun id hid => hids id (hperm.mem_iff.1 hid)
  leaf _ h _ := h (by simp)
  idle := idle
  report := report
  declare := declare
  bind := bind
  peek := peek hp hab
  enter := enter hp hab ha
  enclose {_ _ _ _ _ _ name x y k l} hn hk hl h := by
    refine enter hp hab ha hn (by simp) fun m hm => ?_
    obtain rfl := Node.eq_of_outline hm rfl
    rw [hk, hl]
    exact h.inEnvironment name

omit hp hab in
/-- A node that is no pipe is visited as what it is, whatever its number. -/
theorem visitNode_congr {role : Role} {visit : NodeId → Analysis Unit} {s : AnalysisState} {p q : NodeId}
    {m : Node} (hm : s.arena.get? p = some m) (hm' : s.arena.get? q = some m)
    (hpipe : ∀ lhs rhs mark, m.kind ≠ .pipe lhs rhs mark) :
    visitNode role visit p s = visitNode role visit q s := by
  refine (Replays.node_bind hm).trans (Eq.trans ?_ (Replays.node_bind hm').symm)
  obtain ⟨kind, position⟩ := m
  cases kind with
  | pipe lhs rhs mark => exact absurd rfl (hpipe lhs rhs mark)
  | _ => rfl

/-- A pipe is visited as the call that it stands for. -/
theorem visitWithin {roots : List Root} (hl : program.Laid roots) (ha : a.IsForest)
    (hno : ∀ p lhs rhs mark, b.kind? p ≠ some (.pipe lhs rhs mark)) (role : Role)
    (hn : n ≤ program.size) {levels levels' : Nat} (h : n ≤ levels) (h' : n ≤ levels') (id : NodeId) :
    Matches a b n [id] [] (visitWithin role levels id) (visitWithin role levels' id) := by
  induction n generalizing id levels levels' with
  | zero => exact (walk hp hab ha).zero
  | succ n ih =>
    obtain ⟨l, rfl⟩ : ∃ l, levels = l + 1 := ⟨levels - 1, by omega⟩
    obtain ⟨l', rfl⟩ : ∃ l', levels' = l' + 1 := ⟨levels' - 1, by omega⟩
    intro hids s
    have hid : id.index < n + 1 := hids id (List.mem_singleton_self id)
    obtain ⟨node, hnode⟩ := Arena.exists_get? (show id.index < program.size by omega)
    have hv (c : NodeId) :
        Matches a b n [c] [] (Analysis.visitWithin role l c) (Analysis.visitWithin role l' c) :=
      ih (by omega) (by omega) (by omega) c
    by_cases hpipe : ∃ lhs rhs mark, node.kind = .pipe lhs rhs mark
    · obtain ⟨lhs, rhs, mark, hk⟩ := hpipe
      obtain ⟨m, hm, ho⟩ := hp.get? hnode
      obtain ⟨mark', rfl⟩ := Node.pipe_of_outline ho hk
      rcases hab.nodes id with hsame | ⟨lhs', rhs', position, hq, hlt, hsame, callee, args, position', hcall⟩
      · exact absurd (Arena.kind?_eq_some.2 ⟨_, hsame ▸ hm⟩) (hno id lhs rhs mark')
      · obtain ⟨⟨rfl, rfl, rfl⟩, rfl⟩ : (lhs = lhs' ∧ rhs = rhs' ∧ mark' = true) ∧ node.position = position := by
          simpa using hm.symm.trans hq
        obtain ⟨r, hx, hy⟩ := ih (by omega) (show n ≤ l by omega) (show n ≤ l' + 1 by omega) rhs
          (by simp; omega) s
        refine ⟨r, (Replays.node_bind (s := { s with arena := a }) hm).trans hx, Eq.trans ?_ hy⟩
        exact visitNode_congr (s := { s with arena := b }) hcall (hsame ▸ hcall) (by simp)
    · exact (walk hp hab ha).visitNode hv hl hnode (fun lhs rhs mark hk => hpipe ⟨lhs, rhs, mark, hk⟩) hids s

end nodes

end Matches

end Analysis

open Analysis

/-- Analysing a program whose pipes all lead into calls finds what analysing the direct program finds. -/
theorem analyse_direct {program settled : Program}
    (hl : program.arena.Laid [⟨program.body, NodeKind.isBlock⟩]) (hf : settled.arena.IsForest) (hbody : settled.body = program.body)
    (hd : program.arena.Desugars settled.arena)
    (hall : ∀ p lhs rhs, settled.arena.kind? p ≠ some (.pipe lhs rhs false)) {role : Role} {queue : Queue}
    {result : Queue} {errors : Nat} (h : analyse settled role queue = .ok ⟨settled, result, errors⟩) :
    analyse program.direct role queue = .ok ⟨program.direct, result, errors⟩ := by
  obtain ⟨a, body⟩ := program
  obtain ⟨b, body'⟩ := settled
  obtain rfl : body' = body := hbody
  replace hl : a.Laid [⟨body', NodeKind.isBlock⟩] := hl
  replace hd : a.Desugars b := hd
  have hunpiped : b.Unpiped a.direct := Arena.unpiped_direct hl hf hd hall
  have hno := Arena.kind?_direct_ne_pipe hl hf hd hall
  obtain ⟨items, position, hn⟩ := hl.exists_block
  obtain ⟨n, hsize⟩ : ∃ n, a.size = n + 1 := ⟨a.size - 1, by have := Arena.lt_size_of_get? hn; omega⟩
  have hvisit : Matches b a.direct (n + 1) [body'] []
      (node body' >>= fun m => visitAll (visitWithin role (a.size + 1)) (topItems body' m))
      (node body' >>= fun m => visitAll (visitWithin role (a.size + 1)) (topItems body' m)) := by
    have hw := Matches.walk hd.outline hunpiped hf
    refine hw.enter hn (by simp) fun m hm => ?_
    obtain rfl := Node.eq_of_outline hm rfl
    exact hw.visitAll (fun c => Matches.visitWithin hd.outline hunpiped hl hf hno role (by omega) (by omega)
      (by omega) c) items
  have hbelow : ∀ id ∈ [body'], id.index < n + 1 := by
    simpa [← hsize] using Arena.lt_size_of_get? hn
  obtain ⟨r, hx, hy⟩ := hvisit hbelow (initialState b queue)
  have hpiped := visitProgram_eq role body' (initialState b queue)
  have hdirect := visitProgram_eq role body' (initialState a.direct queue)
  rw [show (initialState b queue).arena.size = a.size from hd.outline.size_eq] at hpiped
  rw [show (initialState a.direct queue).arena.size = a.size from a.size_direct] at hdirect
  replace hpiped := hpiped.trans hx
  replace hdirect := hdirect.trans hy
  cases r with
  | error d =>
    simp only [analyse, StateT.run, hpiped, withArena, Except.map] at h
    cases h
  | ok r =>
    simp only [analyse, StateT.run, hpiped, withArena, Except.map, Except.ok.injEq, Analysed.mk.injEq] at h
    simp only [analyse, Program.direct, StateT.run, hdirect, withArena, Except.map, h.2.1, h.2.2]

end DynScript
