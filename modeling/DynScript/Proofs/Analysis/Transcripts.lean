import DynScript.Proofs.Analysis.Abreast

/-!
# Transcripts of analyses

What a unit is for matters to its analysis only where an export statement is visited. To say this, an analysis may
remark on every node when its visit begins. Whatever the remarks are, it does the same apart from them: one transcript
says which nodes are visited and what else is found, in order (`Analysis.Recounts`). The analysis of an entry unit is
that of a module which remarks on export statements.
-/

namespace DynScript

/-- What is found of nodes when their visits begin. -/
abbrev Remarks : Type := NodeId → Node → Found

/-- What happens in an analysis. -/
inductive Event where
  /-- The visit of a node begins. -/
  | visits (id : NodeId) (node : Node)
  /-- Something is found. -/
  | finds (f : Finding) (position : Option Position)

/-- What happens in an analysis, in order. -/
abbrev Transcript : Type := List Event

namespace Transcript

variable {remarks : Remarks} {log log' : Transcript}

/-- What is found when there are remarks. -/
def found (remarks : Remarks) (log : Transcript) : Found :=
  log.flatMap fun
    | .visits id node => remarks id node
    | .finds f position => [(f, position)]

/-- The nodes that are visited. -/
def visited (log : Transcript) : List (NodeId × Node) :=
  log.filterMap fun
    | .visits id node => some (id, node)
    | .finds _ _ => none

/-- The transcript of findings. -/
def ofFound (found : Found) : Transcript := found.map fun entry => .finds entry.1 entry.2

theorem found_append : found remarks (log ++ log') = found remarks log ++ found remarks log' := List.flatMap_append

theorem visited_append : visited (log ++ log') = visited log ++ visited log' := List.filterMap_append

@[simp] theorem found_ofFound (f : Found) : found remarks (ofFound f) = f := by
  induction f with
  | nil => rfl
  | cons entry rest ih => exact congrArg (entry :: ·) ih

@[simp] theorem visited_ofFound (f : Found) : visited (ofFound f) = [] := by simp [visited, ofFound]

end Transcript

namespace Analysis

/-- What a transcript says of visits in a region of the nodes. -/
structure Records (a : Arena) (s s' : AnalysisState) (region : NodeId → Prop) (log : Transcript) : Prop where
  /-- What the visits do to the nodes. -/
  rewires : s.arena.Rewires s'.arena region
  /-- The nodes are on the way to being settled. -/
  underway : a.Underway s'.arena
  /-- Findings stand in the transcript only. -/
  silent : s'.queue = s.queue ∧ s'.errors = s.errors
  /-- Nodes of the region are visited. -/
  inside : ∀ entry ∈ log.visited, region entry.1
  /-- They are nodes of the unit. -/
  known : ∀ entry ∈ log.visited, ∃ node, a.get? entry.1 = some node ∧ entry.2.outline = node.outline
  /-- No node is visited twice. -/
  nodup : (log.visited.map Prod.fst).Nodup
  /-- That a unit may not export is found nowhere. -/
  plain : ∀ position, .finds .exportFromEntry position ∉ log

namespace Records

variable {a : Arena} {s s' s'' t t' : AnalysisState} {r r' : NodeId → Prop} {log log' : Transcript}

/-- Nothing is visited. -/
theorem ofFound (hf : s.arena.IsForest) (hr : s.arena.Closed r) (ha : a.Underway s.arena) (tree : EnvTree)
    {found : Found} (hfound : ∀ entry ∈ found, entry.1 ≠ .exportFromEntry) :
    Records a s { s with tree } r (.ofFound found) := by
  refine ⟨.refl hf hr, ha, ⟨rfl, rfl⟩, by simp, by simp, by simp, fun position hmem => ?_⟩
  obtain ⟨entry, hentry, heq⟩ := List.mem_map.1 hmem
  exact hfound entry hentry (Event.finds.inj heq).1

theorem trans (h : Records a s s' r log) (k : Records a s' s'' r' log') (hd : ∀ x, r x → ¬ r' x) :
    Records a s s'' (fun x => r x ∨ r' x) (log ++ log') where
  rewires := h.rewires.trans k.rewires hd
  underway := k.underway
  silent := ⟨k.silent.1.trans h.silent.1, k.silent.2.trans h.silent.2⟩
  inside entry hentry := by
    rw [Transcript.visited_append, List.mem_append] at hentry
    exact hentry.imp (h.inside entry) (k.inside entry)
  known entry hentry := by
    rw [Transcript.visited_append, List.mem_append] at hentry
    exact hentry.elim (h.known entry) (k.known entry)
  nodup := by
    rw [Transcript.visited_append, List.map_append, List.nodup_append]
    refine ⟨h.nodup, k.nodup, fun id hid id' hid' heq => ?_⟩
    obtain ⟨entry, hentry, rfl⟩ := List.mem_map.1 hid
    obtain ⟨entry', hentry', rfl⟩ := List.mem_map.1 hid'
    exact hd _ (h.inside entry hentry) (heq ▸ k.inside entry' hentry')
  plain position hmem := (List.mem_append.1 hmem).elim (h.plain position) (k.plain position)

theorem enlarge (h : Records a s s' r log) (hr : ∀ x, r x → r' x) (hs : s.arena.Closed r') : Records a s s' r' log :=
  ⟨h.rewires.enlarge hr hs, h.underway, h.silent, fun entry hentry => hr _ (h.inside entry hentry), h.known, h.nodup,
    h.plain⟩

/-- What becomes of the environments does not matter. -/
theorem congr (h : Records a s s' r log) (hs : t.arena = s.arena ∧ t.queue = s.queue ∧ t.errors = s.errors)
    (hs' : t'.arena = s'.arena ∧ t'.queue = s'.queue ∧ t'.errors = s'.errors) : Records a t t' r log := by
  refine ⟨?_, ?_, ?_, h.inside, h.known, h.nodup, h.plain⟩
  · rw [hs.1, hs'.1]
    exact h.rewires
  · rw [hs'.1]
    exact h.underway
  · rw [hs.2.1, hs.2.2, hs'.2.1, hs'.2.2]
    exact h.silent

end Records

variable {α β : Type} {a : Arena} {ids ids' but : List NodeId}

/-- Looking at a node that is missing. -/
theorem node_bind_none {id : NodeId} {k : Node → Analysis α} {s : AnalysisState} (hn : s.arena.get? id = none) :
    (node id >>= k) s = .error (.missingNode id) := by
  have hnode : node id s = .error (.missingNode id) := by
    rw [node, Replays.state_bind, hn]
    rfl
  simp only [Bind.bind, StateT.bind, hnode, Except.bind]

/-- Looking at a node that is there, whatever has been found. -/
theorem node_bind_reporting {id : NodeId} {k : Node → Analysis α} {s : AnalysisState} {n : Node} {found : Found}
    (hn : s.arena.get? id = some n) : (node id >>= k) (s.reporting found) = k n (s.reporting found) :=
  bind_eq (node_eq (s := s.reporting found) hn)

/-- Steps, one for any remarks, that begin in a state. Either they all stop at one defect or they all do the same, and
one transcript says what they find, whatever the remarks are and whatever has been found before. They visit nodes of a
region, and not those of `but`. -/
def RecountsFrom (a : Arena) (s : AnalysisState) (region : NodeId → Prop) (but : List NodeId)
    (x : Remarks → Analysis α) : Prop :=
  (∃ d, ∀ remarks found, x remarks (s.reporting found) = .error d) ∨
  ∃ (v : α) (s' : AnalysisState) (log : Transcript),
    (∀ remarks found, x remarks (s.reporting found) = .ok (v, s'.reporting (found ++ log.found remarks))) ∧
    Records a s s' region log ∧ ∀ id ∈ but, id ∉ log.visited.map Prod.fst

namespace RecountsFrom

variable {x y : Remarks → Analysis α} {s : AnalysisState} {r r' : NodeId → Prop}

/-- What other steps do that do the same here. -/
theorem of_eq (hy : ∀ remarks found, y remarks (s.reporting found) = x remarks (s.reporting found))
    (h : RecountsFrom a s r but x) : RecountsFrom a s r but y := by
  unfold RecountsFrom
  simp only [hy]
  exact h

theorem enlarge (h : RecountsFrom a s r but x) (hr : ∀ i, r i → r' i) (hs : s.arena.Closed r') :
    RecountsFrom a s r' but x :=
  h.imp_right fun ⟨v, s', log, hrun, hrecords, hbut⟩ => ⟨v, s', log, hrun, hrecords.enlarge hr hs, hbut⟩

theorem including (h : RecountsFrom a s r but x) : RecountsFrom a s r [] x :=
  h.imp_right fun ⟨v, s', log, hrun, hrecords, _⟩ => ⟨v, s', log, hrun, hrecords, by simp⟩

/-- A node out of the region is not visited. -/
theorem excluding (h : RecountsFrom a s r [] x) {id : NodeId} (hid : ¬ r id) : RecountsFrom a s r [id] x := by
  refine h.imp_right ?_
  rintro ⟨v, s', log, hrun, hrecords, -⟩
  refine ⟨v, s', log, hrun, hrecords, fun i hi hmem => hid ?_⟩
  obtain rfl := List.mem_singleton.1 hi
  obtain ⟨entry, hentry, rfl⟩ := List.mem_map.1 hmem
  exact hrecords.inside entry hentry

end RecountsFrom

/-- Steps, one for any remarks, that visit nodes at or below the given ones and not those of `but`. -/
def Recounts (a : Arena) (ids but : List NodeId) (x : Remarks → Analysis α) : Prop :=
  ∀ s, Ready a a.size ids s → a.Underway s.arena → RecountsFrom a s (s.arena.BelowAny ids) but x

namespace Recounts

variable {x y : Remarks → Analysis α}

theorem stop (d : Defect) : Recounts a ids but fun _ => (throw d : Analysis α) := fun _ _ _ => .inl ⟨d, fun _ _ => rfl⟩

theorem bind {k : Remarks → α → Analysis β} (hx : Recounts a ids [] x) (hk : ∀ v, Recounts a ids' [] (k · v)) :
    Recounts a (ids ++ ids') [] fun remarks => x remarks >>= k remarks := by
  intro s hs ha
  obtain ⟨d, herror⟩ | ⟨v, s₁, log, hrun, hrecords, -⟩ := hx s hs.left ha
  · exact .inl ⟨d, fun remarks found => by simp only [Bind.bind, StateT.bind, herror, Except.bind]⟩
  obtain ⟨hsame, hready⟩ := hs.right hrecords.rewires
  obtain ⟨d, herror⟩ | ⟨w, s₂, log', hrun', hrecords', -⟩ := hk v s₁ hready hrecords.underway
  · exact .inl ⟨d, fun remarks found => (bind_eq (hrun remarks found)).trans (herror remarks _)⟩
  -- What the first step has visited and what the second one visits have nothing in common.
  obtain ⟨-, -, hdisjoint⟩ := hs.apart.of_append
  have hregion : s.arena.BelowAny (ids ++ ids') = fun x => s.arena.BelowAny ids x ∨ s.arena.BelowAny ids' x :=
    funext fun x => propext Arena.belowAny_append
  refine .inr ⟨w, s₂, log ++ log', fun remarks found => ?_, ?_, by simp⟩
  · rw [Transcript.found_append, ← List.append_assoc]
    exact (bind_eq (hrun remarks found)).trans (hrun' remarks _)
  · rw [hregion]
    exact hrecords.trans (hsame ▸ hrecords') hdisjoint

theorem widen (hsub : ids.Subperm ids') (h : Recounts a ids [] x) : Recounts a ids' [] x := by
  intro s hs ha
  obtain ⟨ids'', hperm, hsub⟩ := hsub
  have hbelow (i : NodeId) (hi : s.arena.BelowAny ids i) : s.arena.BelowAny ids' i := by
    obtain ⟨c, hc, hci⟩ := hi
    exact ⟨c, hsub.subset (hperm.mem_iff.2 hc), hci⟩
  exact (h s ((hs.sublist hsub).perm hperm.symm) ha).enlarge hbelow (s.arena.closed_belowAny _)

theorem including (h : Recounts a ids but x) : Recounts a ids [] x := fun s hs ha => (h s hs ha).including

/-- A step that changes only scopes and finds what may be found in a module. -/
theorem still {x : Analysis α} (hx : ∀ s : AnalysisState, ∃ (v : α) (tree : EnvTree) (found : Found),
    (∀ before, x (s.reporting before) = .ok (v, { s with tree }.reporting (before ++ found))) ∧
      ∀ entry ∈ found, entry.1 ≠ .exportFromEntry) : Recounts a [] [] fun _ => x := by
  intro s hs ha
  obtain ⟨v, tree, found, hrun, hfound⟩ := hx s
  refine .inr ⟨v, { s with tree }, .ofFound found, fun remarks before => ?_,
    .ofFound hs.isForest (s.arena.closed_belowAny _) ha tree hfound, by simp⟩
  rw [Transcript.found_ofFound]
  exact hrun before

theorem quiet {x : Analysis α} (hx : Quiet x) : Recounts a [] [] fun _ => x := still fun s =>
  (hx s).imp fun _ ⟨tree, found, hrun, hfound⟩ => ⟨tree, found, hrun, fun entry hentry => (hfound entry hentry).2⟩

theorem modifyTree (f : EnvTree → EnvId → EnvTree) : Recounts a [] [] fun _ => Analysis.modifyTree f := still fun s =>
  ⟨(), f s.tree s.current, [], fun before => by rw [List.append_nil]; rfl, by simp⟩

/-- A step before others that visits no nodes. -/
theorem first {x : Analysis α} {k : Remarks → α → Analysis β} (hx : Recounts a [] [] fun _ => x)
    (hk : ∀ v, Recounts a ids [] (k · v)) : Recounts a ids [] fun remarks => x >>= k remarks :=
  hx.bind hk

/-- A step after others that visits no nodes. -/
theorem last {k : α → Analysis β} (hx : Recounts a ids [] x) (hk : ∀ v, Recounts a [] [] fun _ => k v) :
    Recounts a ids [] fun remarks => x remarks >>= k := by
  have h := hx.bind (k := fun _ => k) hk
  rwa [List.append_nil] at h

theorem reading {k : Remarks → AnalysisState → Analysis α}
    (hk : ∀ remarks s found, k remarks (AnalysisState.reporting s found) = k remarks s)
    (h : ∀ s, Recounts a ids but (k · s)) : Recounts a ids but fun remarks => get >>= k remarks := by
  intro s hs ha
  exact (h s s hs ha).of_eq fun remarks found => congrFun (hk remarks s found) (s.reporting found)

theorem peek {id : NodeId} {k : Remarks → Node → Analysis α}
    (h : ∀ b n, a.Underway b → b.get? id = some n → Recounts a ids but (k · n)) :
    Recounts a ids but fun remarks => Analysis.node id >>= k remarks := by
  intro s hs ha
  cases hn : s.arena.get? id with
  | none => exact .inl ⟨.missingNode id, fun remarks found => node_bind_none (s := s.reporting found) hn⟩
  | some n => exact (h s.arena n ha hn s hs ha).of_eq fun _ _ => node_bind_reporting hn

/-- The visit of a node that is no pipe visits its children. -/
theorem enter {id : NodeId} {k : Remarks → Node → Analysis α}
    (h : ∀ b n, a.Underway b → b.get? id = some n → Recounts a n.kind.children [] (k · n)) :
    Recounts a [id] [id] fun remarks => Analysis.node id >>= k remarks := by
  intro s hs ha
  cases hn : s.arena.get? id with
  | none => exact .inl ⟨.missingNode id, fun remarks found => node_bind_none (s := s.reporting found) hn⟩
  | some n =>
    have hbelow (i : NodeId) (hi : s.arena.BelowAny n.kind.children i) : s.arena.BelowAny [id] i :=
      Arena.belowAny_singleton.2 ((Arena.below_iff_children hn).2 (.inr hi))
    have hbody := h s.arena n ha hn s ((hs.lower (Nat.le_succ _)).children hn) ha
    exact ((hbody.excluding (hs.isForest.not_below_children hn)).enlarge hbelow (s.arena.closed_belowAny _)).of_eq
      fun _ _ => node_bind_reporting hn

/-- Something is done around steps that has nothing to do with nodes or findings. -/
theorem amid {x y : Remarks → Analysis Unit} (before : AnalysisState → AnalysisState)
    (after : AnalysisState → AnalysisState → AnalysisState)
    (hy : ∀ remarks s, y remarks s = (x remarks (before s) >>= fun r => .ok ((), after s r.2)))
    (hbefore : ∀ s, (∀ found, before (s.reporting found) = (before s).reporting found) ∧
      (before s).arena = s.arena ∧ (before s).queue = s.queue ∧ (before s).errors = s.errors)
    (hafter : ∀ s t, (∀ found found', after (s.reporting found) (t.reporting found') = (after s t).reporting found') ∧
      (after s t).arena = t.arena ∧ (after s t).queue = t.queue ∧ (after s t).errors = t.errors)
    (h : Recounts a ids but x) : Recounts a ids but y := by
  intro s hs ha
  obtain ⟨hfound, hsame⟩ := hbefore s
  have hready : Ready a a.size ids (before s) :=
    ⟨hsame.1 ▸ hs.isForest, hsame.1 ▸ hs.outline, hsame.1 ▸ hs.apart, hsame.1 ▸ hs.fresh, hs.below⟩
  obtain ⟨d, herror⟩ | ⟨v, t, log, hrun, hrecords, hbut⟩ := h (before s) hready (hsame.1 ▸ ha)
  · exact .inl ⟨d, fun remarks found => by rw [hy, hfound, herror]; rfl⟩
  · obtain ⟨hfound', hsame'⟩ := hafter s t
    refine .inr ⟨(), after s t, log, fun remarks found => ?_, ?_, hbut⟩
    · rw [hy, hfound, hrun]
      exact congrArg (fun t => Except.ok ((), t)) (hfound' found _)
    · rw [hsame.1] at hrecords
      exact hrecords.congr ⟨hsame.1.symm, hsame.2.1.symm, hsame.2.2.symm⟩ hsame'

theorem allowingReturn {x : Remarks → Analysis Unit} (allowed : Bool) (h : Recounts a ids but x) :
    Recounts a ids but fun remarks => Analysis.allowingReturn allowed (x remarks) :=
  h.amid (fun s => { s with inFunction := allowed }) (fun s t => { t with inFunction := s.inFunction })
    (fun _ _ => rfl) (fun _ => ⟨fun _ => rfl, rfl, rfl, rfl⟩) fun _ _ => ⟨fun _ _ => rfl, rfl, rfl, rfl⟩

theorem inEnvironment {x : Remarks → Analysis Unit} (name : String) (h : Recounts a ids but x) :
    Recounts a ids but fun remarks => Analysis.inEnvironment name (x remarks) :=
  h.amid (fun s => { s with
      tree := (s.tree.pushEnvironment s.current name).2
      current := (s.tree.pushEnvironment s.current name).1 }) (fun s t => { t with current := s.current })
    (fun _ _ => rfl) (fun _ => ⟨fun _ => rfl, rfl, rfl, rfl⟩) fun _ _ => ⟨fun _ _ => rfl, rfl, rfl, rfl⟩

theorem inScope {x : Remarks → Analysis Unit} (h : Recounts a ids [] x) :
    Recounts a ids [] fun remarks => Analysis.inScope (x remarks) :=
  (modifyTree EnvTree.pushScope).bind fun _ => h.last fun _ => modifyTree EnvTree.popScope

theorem reportIf (p : Bool) {f : Finding} (hf : f ≠ .exportFromEntry) (position : Option Position) :
    Recounts a [] [] fun _ => Analysis.reportIf p f position := still fun s => by
  refine ⟨(), s.tree, foundIf p f position, fun before => ?_, fun entry hentry => ?_⟩
  · rw [AnalysisState.reporting_append]
    exact reportIf_eq p f position _
  · cases p with
    | false => cases hentry
    | true =>
      obtain rfl := List.mem_singleton.1 hentry
      exact hf

theorem warn (name : String) (isFinal : Bool) (position : Option Position) :
    Recounts a [] [] fun _ => warnMain name isFinal position :=
  reading (fun _ _ _ => rfl) fun _ => reportIf _ (by simp) position

theorem envOpen {visit : Remarks → NodeId → Analysis Unit} {target body : NodeId}
    (ht : Recounts a [target] [] (visit · target)) (hb : Recounts a [body] [] (visit · body)) :
    Recounts a [target, body] [] fun remarks => visitEnvOpen (visit remarks) target body := by
  refine allowingReturn false (reading (fun _ _ _ => rfl) fun s => ?_)
  have hbody : Recounts a [body] [] fun remarks => visit remarks body >>= fun _ =>
      Analysis.modifyTree fun tree current => tree.truncateScopes current (s.tree.scopeCount s.current) :=
    hb.last fun _ => modifyTree _
  refine first (modifyTree _) fun _ => ht.bind fun _ => peek fun b n _ _ => ?_
  split
  · exact first (modifyTree _) fun _ => hbody
  · exact first (quiet (.pure ())) fun _ => hbody

section pipe

variable {roots : List Root} {visit : Remarks → NodeId → Analysis Unit} {p lhs rhs : NodeId} {mark : Bool}
  {position : Option Position} {role : Role}

/-- A pipe that leads into no call visits its left operand. -/
theorem pipe_nonCall {s : AnalysisState} (hs : Ready a (a.size + 1) [p] s) (ha : a.Underway s.arena)
    (hn : s.arena.get? p = some ⟨.pipe lhs rhs false, position⟩) (hc : pipeCall? s.arena rhs = none)
    (hl : Recounts a [lhs] [] (visit · lhs)) :
    RecountsFrom a s (s.arena.BelowAny [p]) [p] fun remarks => visitPipe (visit remarks) p lhs rhs false := by
  have hlhs : s.arena.Parent p lhs := ⟨_, hn, by simp [NodeKind.children]⟩
  have hrhs : s.arena.Parent p rhs := ⟨_, hn, by simp [NodeKind.children]⟩
  have hsub (i : NodeId) (hi : s.arena.BelowAny [lhs] i) : s.arena.BelowAny [p] i :=
    Arena.belowAny_singleton.2 (.head hlhs (Arena.belowAny_singleton.1 hi))
  have hself : ¬ s.arena.BelowAny [lhs] p := fun hb =>
    absurd (hs.isForest.index_le (Arena.belowAny_singleton.1 hb)) (not_le.2 (hs.isForest.down hlhs))
  obtain ⟨⟨kind, q⟩, hr⟩ := Arena.exists_get? (hs.isForest.lt_size hrhs)
  have hreport : Recounts a [lhs] [] fun remarks =>
      visit remarks lhs >>= fun _ => Analysis.report .pipeIntoNonCall q :=
    hl.last fun _ => quiet (.report (by simp) q)
  have hrecounts := hreport s ((hs.children hn).sublist (by simp [NodeKind.children])) ha
  have hpipe (remarks : Remarks) (found : Found) : visitPipe (visit remarks) p lhs rhs false (s.reporting found) =
      (visit remarks lhs >>= fun _ => Analysis.report .pipeIntoNonCall q) (s.reporting found) :=
    Replays.visitPipe_none (s := s.reporting found) hr hc
  exact ((hrecounts.excluding hself).enlarge hsub (s.arena.closed_belowAny _)).of_eq hpipe

/-- A pipe that feeds a call visits its right operand, and its left one as an argument of the call. -/
theorem pipe_feeds {s : AnalysisState} (hs : Ready a (a.size + 1) [p] s) (ha : a.Underway s.arena)
    {call callee : NodeId} {args : List NodeId} {position' : Option Position}
    (hf : s.arena.Feeds p lhs rhs call callee args position position') (hc : pipeCall? s.arena rhs = some call)
    (hr : Recounts a [rhs] [] (visit · rhs)) :
    RecountsFrom a s (s.arena.BelowAny [p]) [p] fun remarks => visitPipe (visit remarks) p lhs rhs false := by
  obtain ⟨node, hnode⟩ := Arena.exists_get? (hs.isForest.lt_size hf.parent_rhs)
  have hoperand : a.HasOperand lhs :=
    ha.operands p _ hf.pipe lhs (by simp [NodeKind.operands, NodeKind.children])
  have hself : ¬ (markDesugared (appendArgument s.arena call lhs) p).BelowAny [rhs] p := fun hb =>
    hf.not_below_desugared hs.isForest (Arena.belowAny_singleton.1 hb)
  have hrecounts := (hr _ (hs.feeds hf) ((ha.appendArgument call trivial hoperand).markDesugared p)).excluding hself
  have hpipe (remarks : Remarks) (found : Found) : visitPipe (visit remarks) p lhs rhs false (s.reporting found) =
      visit remarks rhs (AnalysisState.reporting
        { s with arena := markDesugared (appendArgument s.arena call lhs) p } found) :=
    Replays.visitPipe_some (s := s.reporting found) hnode hc
  have hbelow : s.arena.BelowAny [p] = s.arena.Below p := funext fun x => propext Arena.belowAny_singleton
  unfold RecountsFrom
  simp only [hpipe, hbelow]
  refine hrecounts.imp_right ?_
  rintro ⟨v, s', log, hrun, hrecords, hbut⟩
  have hinside (entry : NodeId × Node) (hentry : entry ∈ log.visited) : s.arena.Below p entry.1 :=
    (hf.below_iff hs.isForest _).2 (.inr (hrecords.inside entry hentry))
  exact ⟨v, s', log, hrun, ⟨(hf.rewires hs.isForest hrecords.rewires).1, hrecords.underway, hrecords.silent, hinside,
    hrecords.known, hrecords.nodup, hrecords.plain⟩, hbut⟩

theorem pipe (ha : a.Laid roots) (hn : a.get? p = some ⟨.pipe lhs rhs mark, position⟩)
    (hl : Recounts a [lhs] [] (visit · lhs)) (hr : Recounts a [rhs] [] (visit · rhs)) :
    Recounts a [p] [p] fun remarks => visitNode role (visit remarks) p := by
  intro s hs hunderway
  have hs' : Ready a (a.size + 1) [p] s := hs.lower (Nat.le_succ _)
  obtain ⟨n, hn', ho⟩ := hs.outline.get? hn
  obtain ⟨mark', rfl⟩ := Node.pipe_of_outline ho rfl
  obtain rfl : mark' = false := by
    cases mark' with
    | false => rfl
    | true => exact absurd hn' (hs.fresh p (Arena.belowAny_singleton.2 .refl) _ _ _)
  have hvisit (remarks : Remarks) (found : Found) : visitNode role (visit remarks) p (s.reporting found) =
      visitPipe (visit remarks) p lhs rhs false (s.reporting found) := node_bind_reporting hn'
  cases hc : pipeCall? s.arena rhs with
  | none => exact (pipe_nonCall hs' hunderway hn' hc hl).of_eq hvisit
  | some call =>
    obtain ⟨callee, args, position', hf⟩ := Replays.feeds_of_pipeCall? ha hs hn' hc
    exact (pipe_feeds hs' hunderway hf hc hr).of_eq hvisit

end pipe

/-- So analyses with different remarks go on side by side. -/
theorem abreast {roots : List Root} (ha : a.Laid roots) : Abreast a (fun _ : Remarks => Role.module)
    (fun _ _ ids x _ => Recounts a ids [] x) fun _ _ id x _ => Recounts a [id] [id] x where
  stop := stop
  bind := bind
  widen := widen
  still hq _ := quiet hq
  reading := reading
  peek := peek
  enter := enter
  within := including
  inScope := inScope
  allowingReturn := allowingReturn
  inEnvironment := inEnvironment
  warn name isFinal position _ := warn name isFinal position
  announce _ := quiet (.pure ())
  pipe := pipe ha
  envOpen ht hb := envOpen ht (hb [])

end Recounts

/-! ## Remarks -/

/-- Remark on a node when its visit begins. -/
def remarking (remarks : Remarks) (id : NodeId) (visit : Analysis Unit) : Analysis Unit := do
  let node ← Analysis.node id
  modify (·.reporting (remarks id node))
  visit

theorem remarking_eq {remarks : Remarks} {id : NodeId} {visit : Analysis Unit} {s : AnalysisState} {n : Node}
    (hn : s.arena.get? id = some n) : remarking remarks id visit s = visit (s.reporting (remarks id n)) :=
  bind_eq (node_eq hn)

/-- Remarks on a node stand in the transcript before what its visit finds. -/
theorem Recounts.remarking {x : Remarks → Analysis Unit} {id : NodeId} (h : Recounts a [id] [id] x) :
    Recounts a [id] [] fun remarks => Analysis.remarking remarks id (x remarks) := by
  intro s hs ha
  cases hn : s.arena.get? id with
  | none => exact .inl ⟨.missingNode id, fun remarks found => node_bind_none (s := s.reporting found) hn⟩
  | some n =>
    have hstep (remarks : Remarks) (found : Found) : Analysis.remarking remarks id (x remarks) (s.reporting found) =
        x remarks (s.reporting (found ++ remarks id n)) := by
      rw [remarking_eq (s := s.reporting found) hn, ← AnalysisState.reporting_append]
    obtain ⟨d, herror⟩ | ⟨v, s', log, hrun, hrecords, hbut⟩ := h s hs ha
    · exact .inl ⟨d, fun remarks found => (hstep remarks found).trans (herror remarks _)⟩
    refine .inr ⟨v, s', .visits id n :: log, fun remarks found => ?_,
      ⟨hrecords.rewires, hrecords.underway, hrecords.silent, ?_, ?_, ?_, ?_⟩, by simp⟩
    · refine (hstep remarks found).trans ((hrun remarks _).trans ?_)
      rw [List.append_assoc]
      rfl
    · exact List.forall_mem_cons.2 ⟨Arena.belowAny_singleton.2 .refl, hrecords.inside⟩
    · obtain ⟨node, hnode, ho⟩ := ha.outline.symm.get? hn
      exact List.forall_mem_cons.2 ⟨⟨node, hnode, ho.symm⟩, hrecords.known⟩
    · exact List.nodup_cons.2 ⟨hbut id (List.mem_singleton_self id), hrecords.nodup⟩
    · intro position hmem
      exact hrecords.plain position ((List.mem_cons.1 hmem).resolve_left (by simp))

/-- The visit of a node of a module is recounted. -/
theorem recounts_visitAround {roots : List Root} (ha : a.Laid roots) (levels : Nat) (id : NodeId) :
    Recounts a [id] [] fun remarks => visitAround .module (remarking remarks) levels id := by
  induction levels generalizing id with
  | zero => exact .stop .endlessTree
  | succ levels ih =>
    -- The scopes do not matter here, so those of an inner place will do.
    exact ((Recounts.abreast ha).visitNode (fun c _ _ _ _ => ih c) ha (List.cons_ne_nil .empty [])
      (.inr inner_false)).remarking

/-- What is remarked on a node because of what its unit is for. -/
def ownRemarks : Role → Remarks
  | .entry, _, ⟨.exports _, position⟩ => [(.exportFromEntry, position)]
  | _, _, _ => []

/-- The role matters to the visit of a node only by a remark. -/
theorem visitNode_role (role : Role) (visit : NodeId → Analysis Unit) {id : NodeId} {n : Node} {s : AnalysisState}
    (hn : s.arena.get? id = some n) :
    visitNode role visit id s = visitNode .module visit id (s.reporting (ownRemarks role id n)) := by
  have hrole : visitNode role visit id s = _ := bind_eq (node_eq hn)
  have hmodule : visitNode .module visit id (s.reporting (ownRemarks role id n)) = _ := node_bind_reporting hn
  rw [hrole, hmodule]
  obtain ⟨kind, position⟩ := n
  cases role with
  | module => rfl
  | entry =>
    cases kind with
    | exports labels => exact bind_eq (reportIf_eq true .exportFromEntry position s)
    | _ => rfl

/-- An analysis in a role is that of a module that makes the remarks of this role, too. -/
theorem visitAround_role (role : Role) (remarks : Remarks) : visitAround role (remarking remarks) =
    visitAround .module (remarking fun id node => remarks id node ++ ownRemarks role id node) := by
  funext levels
  induction levels with
  | zero => rfl
  | succ levels ih =>
    funext id s
    rw [visitAround, visitAround, ih]
    cases hn : s.arena.get? id with
    | none => exact (node_bind_none hn).trans (node_bind_none hn).symm
    | some n =>
      rw [remarking_eq hn, remarking_eq hn, AnalysisState.reporting_append]
      exact visitNode_role role _ (s := s.reporting (remarks id n)) hn

/-- Without remarks an analysis is what it is. -/
theorem visitAround_remarking_nothing (role : Role) :
    visitAround role (remarking fun _ _ => []) = visitWithin role := by
  funext levels
  induction levels with
  | zero => rfl
  | succ levels ih =>
    funext id s
    rw [visitAround, ih]
    cases hn : s.arena.get? id with
    | none => exact (node_bind_none hn).trans (node_bind_none hn).symm
    | some n => exact remarking_eq hn

/-- An error is made of every export statement of an entry unit that is visited. -/
theorem errors_pos_of_visited {found : Found} {o : Outlook} {id : NodeId} {labels : List Label}
    {position : Option Position} (h : Visited a .entry found o id)
    (hn : a.get? id = some ⟨.exports labels, position⟩) : 0 < found.errors := by
  obtain ⟨levels, s, s', own, rfl, -, -, hrun, -, herrors, hsub⟩ := h
  have hvisit : visitNode .entry (visitWithin .entry levels) id s = visitExport .entry labels position s :=
    bind_eq (node_eq hn)
  rw [hvisit, visitExport_eq] at hrun
  obtain ⟨-, rfl⟩ := Prod.mk.inj (Except.ok.inj hrun)
  have hown : Found.errors (foundIf (Role.entry = .entry) .exportFromEntry position ++ exported (bound s) [] labels) =
      own.errors := Nat.add_left_cancel herrors
  have hone : Found.errors (foundIf (Role.entry = .entry) .exportFromEntry position) = 1 := rfl
  have hle : own.errors ≤ found.errors := hsub.countP_le
  rw [Found.errors_append, hone] at hown
  omega

end Analysis

open Analysis

/-- What is said of a node that is visited in an entry unit: an error if it is an export statement. -/
def exportError? : NodeId × Node → Option Diagnostic
  | (_, ⟨.exports _, position⟩) => some (Finding.exportFromEntry.toDiagnostic position)
  | _ => none

theorem isExport_or_not (id : NodeId) (node : Node) : (∃ labels position, node = ⟨.exports labels, position⟩) ∨
    ownRemarks .entry id node = [] ∧ exportError? (id, node) = none := by
  obtain ⟨kind, position⟩ := node
  cases kind with
  | exports labels => exact .inl ⟨_, _, rfl⟩
  | _ => exact .inr ⟨rfl, rfl⟩

namespace Transcript

variable {log : Transcript}

/-- What is found in an entry unit is what is found in a module and the errors that its export statements are. -/
theorem found_entry (hlog : ∀ position, .finds .exportFromEntry position ∉ log) :
    ((log.found (ownRemarks .entry)).map fun entry => entry.1.toDiagnostic entry.2).filter
        (·.code ≠ .exportFromEntry) =
      (log.found (ownRemarks .module)).map (fun entry => entry.1.toDiagnostic entry.2) ∧
    ((log.found (ownRemarks .entry)).map fun entry => entry.1.toDiagnostic entry.2).filter
        (·.code = .exportFromEntry) = log.visited.filterMap exportError? ∧
    (log.found (ownRemarks .entry)).errors =
      (log.found (ownRemarks .module)).errors + (log.visited.filterMap exportError?).length := by
  induction log with
  | nil => exact ⟨rfl, rfl, rfl⟩
  | cons event rest ih =>
    obtain ⟨hmodule, hexports, herrors⟩ := ih fun position hmem => hlog position (List.mem_cons_of_mem _ hmem)
    cases event with
    | visits id node =>
      have hvisits (remarks : Remarks) :
          found remarks (.visits id node :: rest) = remarks id node ++ found remarks rest := rfl
      have hvisited : visited (.visits id node :: rest) = (id, node) :: visited rest := rfl
      have hnothing : ownRemarks .module id node = [] := rfl
      rw [hvisits, hvisits, hvisited, hnothing, List.nil_append, List.map_append, List.filter_append,
        List.filter_append, Found.errors_append, hmodule, hexports, herrors]
      rcases isExport_or_not id node with ⟨labels, position, rfl⟩ | ⟨hown, hnone⟩
      · refine ⟨rfl, rfl, ?_⟩
        have hone : Found.errors (ownRemarks .entry id ⟨.exports labels, position⟩) = 1 := rfl
        have hsome : exportError? (id, ⟨.exports labels, position⟩) = some _ := rfl
        rw [hone, List.filterMap_cons_some hsome, List.length_cons]
        omega
      · rw [hown, List.filterMap_cons_none hnone]
        exact ⟨rfl, rfl, Nat.zero_add _⟩
    | finds f position =>
      have hfinds (remarks : Remarks) :
          found remarks (.finds f position :: rest) = (f, position) :: found remarks rest := rfl
      have hvisited : visited (.finds f position :: rest) = visited rest := rfl
      have hcode : (f.toDiagnostic position).code ≠ .exportFromEntry := by
        have hne : f ≠ .exportFromEntry := fun heq => hlog position (heq ▸ List.mem_cons_self)
        cases f <;> first | exact absurd rfl hne | exact Code.noConfusion
      have hfirst (found : Found) :
          Found.errors ((f, position) :: found) = Found.errors [(f, position)] + found.errors :=
        Found.errors_append [(f, position)] found
      rw [hfinds, hfinds, hvisited, List.map_cons, List.filter_cons_of_pos (by simpa using hcode),
        List.filter_cons_of_neg (by simpa using hcode), hmodule, hexports, hfirst (found (ownRemarks .entry) rest),
        hfirst (found (ownRemarks .module) rest), herrors, Nat.add_assoc]
      exact ⟨rfl, rfl, rfl⟩

end Transcript

/-- Whatever is remarked on nodes when their visits begin, an analysis visits the nodes that the transcript says and
finds what it says, in this order. On the export statements of an entry unit it remarks anyway. -/
def Program.Transcribed (program : Program) (queue : Queue) (log : Transcript) : Prop :=
  ∀ role remarks, ∃ s, (visitProgramAround role (remarking remarks) program.body).run
      (initialState program.arena queue) = .ok ((), s) ∧
    s.queue = queue.pushAll (log.found fun id node => remarks id node ++ ownRemarks role id node)

/-- One transcript holds for a program in both roles. -/
theorem Parsed.exists_transcript (p : Parsed) (queue : Queue) : ∃ (settled : Arena) (log : Transcript),
    p.program.Transcribed queue log ∧ p.program.arena.Desugars settled ∧ (log.visited.map Prod.fst).Nodup ∧
    (∀ entry ∈ log.visited, ∃ node, p.program.arena.get? entry.1 = some node ∧ entry.2.outline = node.outline) ∧
    (∀ position, .finds .exportFromEntry position ∉ log) ∧
    ∀ role, DynScript.analyse p.program role queue = .ok ⟨⟨settled, p.program.body⟩,
      queue.pushAll (log.found (ownRemarks role)), (log.found (ownRemarks role)).errors⟩ := by
  obtain ⟨items, position, hn⟩ := p.laid.exists_block
  have hready : Ready p.program.arena p.program.arena.size items (initialState p.program.arena queue) :=
    ((ready_initialState p.laid queue).lower (Nat.le_succ _)).children hn
  have hrecounts : Recounts p.program.arena items [] fun remarks =>
      visitAll (visitAround .module (remarking remarks) (p.program.arena.size + 1)) items :=
    (Recounts.abreast p.laid).visitStatements (fun c _ _ _ _ => recounts_visitAround p.laid _ c)
      (List.cons_ne_nil .empty []) inner_false items
  have hprogram (role : Role) (remarks : Remarks) : visitProgramAround role (remarking remarks) p.program.body
      (initialState p.program.arena queue) =
        visitAll (visitAround .module (remarking fun id node => remarks id node ++ ownRemarks role id node)
          (p.program.arena.size + 1)) items (initialState p.program.arena queue) := by
    rw [visitProgramAround_block (s := initialState p.program.arena queue) hn, visitAround_role]
    rfl
  have hplain (role : Role) : visitProgram role p.program.body (initialState p.program.arena queue) =
      visitAll (visitAround .module (remarking (ownRemarks role)) (p.program.arena.size + 1)) items
        (initialState p.program.arena queue) := by
    have hnothing : visitProgramAround role (remarking fun _ _ => []) = visitProgram role := by
      funext body
      rw [visitProgramAround, visitAround_remarking_nothing]
      rfl
    rw [← hnothing]
    exact hprogram role fun _ _ => []
  obtain ⟨d, herror⟩ | ⟨⟨⟩, s, log, hrun, hrecords, -⟩ :=
    hrecounts _ hready (p.laid.tame fun _ _ _ _ => trivial)
  · -- The analysis of a module meets no defect.
    obtain ⟨settled, found, -, -, -, hpass⟩ := analyse_settles p.laid .module
    obtain ⟨s, hrun, -⟩ := run_of_analyse (hpass queue).1
    cases hrun.symm.trans ((hplain .module).trans (herror _ []))
  · refine ⟨s.arena, log, fun role remarks => ⟨_, (hprogram role remarks).trans (hrun _ []), ?_⟩,
      hrecords.rewires.desugars, hrecords.nodup, hrecords.known, hrecords.plain, fun role => ?_⟩
    · rw [List.nil_append, AnalysisState.reporting, hrecords.silent.1]
      rfl
    · have hvisits : visitProgram role p.program.body (initialState p.program.arena queue) = _ :=
        (hplain role).trans (hrun _ [])
      simp only [DynScript.analyse, StateT.run, hvisits, List.nil_append, AnalysisState.reporting, hrecords.silent.1,
        hrecords.silent.2]
      simp [initialState]

/-- A program is analysed as an entry unit as it is analysed as a module: the same nodes are visited, none of them
twice, the pipes are desugared alike, and the same is found in the same order, apart from one error for every export
statement that is visited. So an entry unit is accepted if and only if it is accepted as a module and has no export
statements. -/
theorem role_matters_to_exports_only (p : Numbered) (queue : Queue) :
    ∃ (log : Transcript) (entry module : Analysed) (emitted : List Diagnostic),
      p.program.Transcribed queue log ∧ (log.visited.map Prod.fst).Nodup ∧
      DynScript.analyse p.program .entry queue = .ok entry ∧
      DynScript.analyse p.program .module queue = .ok module ∧
      entry.program = module.program ∧
      entry.queue.toList = queue.toList ++ emitted ∧
      module.queue.toList = queue.toList ++ emitted.filter (·.code ≠ .exportFromEntry) ∧
      emitted.filter (·.code = .exportFromEntry) = log.visited.filterMap exportError? ∧
      (entry.failed = false ↔
        module.failed = false ∧ ∀ id labels, p.program.arena.kind? id ≠ some (.exports labels)) := by
  obtain ⟨settled, log, htranscribed, hdesugars, hnodup, hknown, hlog, hanalyse⟩ := p.exists_transcript queue
  obtain ⟨hmodule, hexports, herrors⟩ := log.found_entry hlog
  refine ⟨log, _, _, _, htranscribed, hnodup, hanalyse .entry, hanalyse .module, rfl, Queue.toList_pushAll _ _, ?_,
    hexports, ?_⟩
  · rw [hmodule]
    exact Queue.toList_pushAll _ _
  simp only [Analysed.failed, gt_iff_lt, decide_eq_false_iff_not, Nat.not_lt, Nat.le_zero]
  constructor
  · intro hnone
    refine ⟨by omega, fun id labels hk => ?_⟩
    -- Without errors every node has been visited, so the export statement would be an error.
    obtain ⟨found, -, hfound, hsurveyed⟩ := p.surveyed (hanalyse .entry)
    obtain ⟨position, hn⟩ := Arena.kind?_eq_some.1 hk
    have hn' : settled.get? id = some ⟨.exports labels, position⟩ := hdesugars.outline.get?_of_not_joint hn rfl
    have hclean : found.errors = 0 := hfound.symm.trans hnone
    have hprogram := hsurveyed <| by
      rintro ⟨⟨f, position⟩, hentry, hcode⟩
      have hsevere : f.severity = .error := by cases f <;> first | rfl | cases hcode
      have hpos : 0 < found.errors := List.countP_pos_iff.2 ⟨_, hentry, decide_eq_true hsevere⟩
      omega
    obtain ⟨items, hblock⟩ := hprogram.block
    have hne : id ≠ p.program.body := by
      rintro rfl
      cases (Arena.kind?_eq_some.2 ⟨_, hn'⟩).symm.trans hblock
    obtain ⟨o, hstands⟩ := hprogram.stands hn' hne (by simp)
    exact absurd (errors_pos_of_visited (hprogram.visited hstands hn' rfl) hn') (by omega)
  · rintro ⟨hnone, hno⟩
    have hnil : log.visited.filterMap exportError? = [] := by
      rw [List.filterMap_eq_nil_iff]
      rintro ⟨id, node⟩ hentry
      rcases isExport_or_not id node with ⟨labels, position, rfl⟩ | ⟨-, hnone⟩
      · obtain ⟨node, hn, ho⟩ := hknown _ hentry
        obtain rfl := Node.eq_of_outline ho.symm rfl
        exact absurd (Arena.kind?_eq_some.2 ⟨_, hn⟩) (hno id labels)
      · exact hnone
    rw [herrors, hnone, hnil]
    rfl

end DynScript
