import DynScript.Proofs.Analysis.Declared
import DynScript.Proofs.Analysis.Walk

/-!
# A second analysis

The first analysis of a unit desugars its pipes while it goes. Once it is done, another one finds the same and
changes nothing: where the first one has moved an operand, the second one follows the mark to it.
`Analysis.Replays` says this of a step, together with all that the first analysis does to the nodes. A step makes no
more environments than it visits nodes, so there are numbers for all of them if there are for the nodes.
-/

namespace DynScript

/-- A finding and its place. -/
abbrev Found : Type := List (Finding × Option Position)

namespace Queue

/-- Add findings at the end. -/
def pushAll (q : Queue) (found : Found) : Queue :=
  found.foldl (fun q entry => q.push (entry.1.toDiagnostic entry.2)) q

@[simp] theorem pushAll_nil (q : Queue) : q.pushAll [] = q := rfl

theorem pushAll_append (q : Queue) (found more : Found) :
    q.pushAll (found ++ more) = (q.pushAll found).pushAll more :=
  List.foldl_append

theorem toList_pushAll (q : Queue) (found : Found) :
    (q.pushAll found).toList = q.toList ++ found.map fun entry => entry.1.toDiagnostic entry.2 := by
  induction found generalizing q with
  | nil => simp
  | cons entry rest ih =>
    refine (ih (q.push (entry.1.toDiagnostic entry.2))).trans ?_
    simp [push, toList]

/-- Two rows of findings that add the same to one queue have the same diagnostics. -/
theorem map_toDiagnostic_congr {q : Queue} {found found' : Found} (h : q.pushAll found = q.pushAll found') :
    found.map (fun entry => entry.1.toDiagnostic entry.2) =
      found'.map fun entry => entry.1.toDiagnostic entry.2 := by
  have hl := congrArg toList h
  rw [toList_pushAll, toList_pushAll] at hl
  exact List.append_cancel_left hl

/-- What two rows of findings add to one queue they add to every queue. -/
theorem pushAll_congr {q : Queue} {found found' : Found} (h : q.pushAll found = q.pushAll found')
    (q' : Queue) : q'.pushAll found = q'.pushAll found' := by
  have hq : (q'.pushAll found).toList = (q'.pushAll found').toList := by
    rw [toList_pushAll, toList_pushAll, map_toDiagnostic_congr h]
  have hm := Array.toList_inj.1 hq
  cases hf : q'.pushAll found
  cases hf' : q'.pushAll found'
  rw [hf, hf'] at hm
  exact congrArg _ hm

end Queue

namespace Found

/-- Whether there is a finding with a code. -/
def Has (found : Found) (code : Code) : Prop := ∃ entry ∈ found, entry.1.code = code

/-- How many of the findings are errors. -/
def errors (found : Found) : Nat := found.countP fun entry => entry.1.severity = .error

@[simp] theorem has_nil (code : Code) : ¬ Has [] code := by simp [Has]

theorem has_append {found more : Found} {code : Code} :
    Has (found ++ more) code ↔ Has found code ∨ Has more code := by
  simp [Has, or_and_right, exists_or]

@[simp] theorem errors_append (found more : Found) : errors (found ++ more) = errors found + errors more :=
  List.countP_append

end Found

namespace Arena

variable {a b : Arena}

/-- There are no more different nodes than the arena has. -/
theorem length_le_of_nodup {ids : List NodeId} (h : ids.Nodup) (hids : ∀ id ∈ ids, id.index < a.size) :
    ids.length ≤ a.size := by
  have hindices : (ids.map NodeId.index).Nodup := h.map fun _ _ heq => congrArg NodeId.mk heq
  have hrange : ids.map NodeId.index ⊆ List.range a.size := fun i hi => by
    obtain ⟨id, hid, rfl⟩ := List.mem_map.1 hi
    exact List.mem_range.2 (hids id hid)
  simpa using (hindices.subperm hrange).length_le

/-- No pipe in a region has been desugared. -/
def Fresh (a : Arena) (region : NodeId → Prop) : Prop :=
  ∀ x, region x → ∀ lhs rhs position, a.get? x ≠ some ⟨.pipe lhs rhs true, position⟩

/-- What is due in a region has been found, unless the region was not visited because of a pipe. -/
def Vetted (a : Arena) (region : NodeId → Prop) (found : Found) : Prop :=
  ¬ found.Has .pipeIntoNonCall →
    ∀ x, region x → ∀ node, a.get? x = some node → ∀ code ∈ node.kind.owed, found.Has code

/-- What visits do to the nodes, in a region of them. -/
structure Rewires (a b : Arena) (region : NodeId → Prop) : Prop where
  /-- The nodes are still a forest. -/
  isForest : b.IsForest
  /-- Pipes have been desugared, and nothing else has been changed. -/
  desugars : a.Desugars b
  /-- Only the nodes of the region change. -/
  outside : AgreeOn (fun x => ¬ region x) a b
  /-- Nothing leads out of the region. -/
  closed : b.Closed region

namespace Rewires

variable {c : Arena} {r r' : NodeId → Prop}

theorem refl (h : a.IsForest) (hr : a.Closed r) : a.Rewires a r := ⟨h, .refl _, .refl _ _, hr⟩

/-- Two steps one after the other, in regions that have nothing in common. -/
theorem trans (h : a.Rewires b r) (k : b.Rewires c r') (hd : ∀ x, r x → ¬ r' x) :
    a.Rewires c fun x => r x ∨ r' x where
  isForest := k.isForest
  desugars := h.desugars.trans k.desugars
  outside x hx := (h.outside x fun hr => hx (.inl hr)).trans (k.outside x fun hr => hx (.inr hr))
  closed p c hp hpc := by
    rcases hp with hp | hp
    · obtain ⟨node, hn, hc⟩ := hpc
      exact .inl (h.closed p c hp ⟨node, (k.outside p (hd p hp)).trans hn, hc⟩)
    · exact .inr (k.closed p c hp hpc)

/-- More nodes may be looked at. -/
theorem enlarge {q : NodeId → Prop} (h : a.Rewires b r) (hr : ∀ x, r x → q x) (hq : a.Closed q) : a.Rewires b q where
  isForest := h.isForest
  desugars := h.desugars
  outside x hx := h.outside x fun hrx => hx (hr x hrx)
  closed p c hp hpc := by
    by_cases hrp : r p
    · exact hr c (h.closed p c hrp hpc)
    · obtain ⟨node, hn, hc⟩ := hpc
      exact hq p c hp ⟨node, (h.outside p hrp).trans hn, hc⟩

end Rewires

section feeds

variable {p lhs rhs call callee : NodeId} {args : List NodeId} {position position' : Option Position}
  (hf : a.Feeds p lhs rhs call callee args position position') (ha : a.IsForest)
include hf ha

/-- Below a pipe that feeds a call stand the pipe and what stands below its right operand once the call is fed. -/
theorem Feeds.below_iff (x : NodeId) : a.Below p x ↔
    x = p ∨ (Analysis.markDesugared (Analysis.appendArgument a call lhs) p).BelowAny [rhs] x := by
  rw [hf.below_desugared ha, belowAny_singleton]

/-- A pipe feeds its call before anything is done below its right operand. -/
theorem Feeds.rewires (h : (Analysis.markDesugared (Analysis.appendArgument a call lhs) p).Rewires b
      ((Analysis.markDesugared (Analysis.appendArgument a call lhs) p).BelowAny [rhs])) :
    a.Rewires b (a.Below p) ∧ b.get? p = some ⟨.pipe lhs rhs true, position⟩ := by
  have hregion := hf.below_iff ha
  have hget := hf.get?_desugared
  have hcall : a.Below p call := (hregion call).2 (.inr (belowAny_singleton.2 (hf.below_call ha)))
  have hself : b.get? p = some ⟨.pipe lhs rhs true, position⟩ := by
    refine (h.outside p fun hb => hf.not_below_desugared ha (belowAny_singleton.1 hb)).symm.trans ?_
    rw [hget, if_pos rfl]
  refine ⟨?_, hself⟩
  constructor
  case isForest => exact h.isForest
  case desugars => exact hf.desugars.trans h.desugars
  case outside =>
    intro x hx
    have hxp : x ≠ p := fun hxp => hx (hxp ▸ .refl)
    have hxc : x ≠ call := fun hxc => hx (hxc ▸ hcall)
    refine Eq.trans ?_ (h.outside x fun hxd => hx ((hregion x).2 (.inr hxd)))
    rw [hget, if_neg hxp, if_neg hxc]
  case closed =>
    intro x y hx hxy
    rcases (hregion x).1 hx with rfl | hx
    · obtain ⟨node, hn, hy⟩ := hxy
      obtain rfl := Option.some.inj (hself.symm.trans hn)
      obtain rfl : y = rhs := by simpa [NodeKind.children] using hy
      exact .single hf.parent_rhs
    · exact (hregion y).2 (.inr (h.closed x y hx hxy))

end feeds

end Arena

namespace Analysis

/-- Environments have been made, one for each of some nodes of a region at most. -/
def Sows (s s' : AnalysisState) (region : NodeId → Prop) : Prop :=
  ∃ ids : List NodeId, ids.Nodup ∧ (∀ id ∈ ids, region id) ∧ s'.tree.size ≤ s.tree.size + ids.length

namespace Sows

variable {s s' s'' t : AnalysisState} {r r' : NodeId → Prop}

theorem of_size (h : s'.tree.size = s.tree.size) : Sows s s' r := ⟨[], .nil, by simp, h.le⟩

theorem trans (h : Sows s s' r) (k : Sows s' s'' r') (hd : ∀ x, r x → ¬ r' x) : Sows s s'' fun x => r x ∨ r' x := by
  obtain ⟨ids, hnodup, hids, hsize⟩ := h
  obtain ⟨ids', hnodup', hids', hsize'⟩ := k
  refine ⟨ids ++ ids', List.nodup_append.2 ⟨hnodup, hnodup', fun x hx y hy hxy => ?_⟩, fun x hx => ?_, ?_⟩
  · exact hd x (hids x hx) (hids' x (hxy ▸ hy))
  · exact (List.mem_append.1 hx).imp (hids x) (hids' x)
  · rw [List.length_append]
    omega

theorem enlarge (h : Sows s s' r) (hr : ∀ x, r x → r' x) : Sows s s' r' :=
  h.imp fun _ ⟨hnodup, hids, hsize⟩ => ⟨hnodup, fun id hid => hr id (hids id hid), hsize⟩

/-- One environment more is made for a node out of the region. -/
theorem cons (h : Sows t s' r) (hsize : t.tree.size = s.tree.size + 1) {id : NodeId} (hid : ¬ r id) :
    Sows s s' fun x => x = id ∨ r x := by
  obtain ⟨ids, hnodup, hids, hmade⟩ := h
  refine ⟨id :: ids, List.nodup_cons.2 ⟨fun hmem => hid (hids id hmem), hnodup⟩, ?_, ?_⟩
  · exact List.forall_mem_cons.2 ⟨.inl rfl, fun x hx => .inr (hids x hx)⟩
  · rw [List.length_cons]
    omega

end Sows

/-- What a step does to the nodes, in a region of them, to the count of errors and to the number of environments. -/
structure Leads (s s' : AnalysisState) (region : NodeId → Prop) (found : Found) : Prop where
  /-- The nodes are still a forest. -/
  isForest : s'.arena.IsForest
  /-- Pipes have been desugared, and nothing else has been changed. -/
  desugars : s.arena.Desugars s'.arena
  /-- Only the nodes of the region change. -/
  outside : Arena.AgreeOn (fun x => ¬ region x) s.arena s'.arena
  /-- Nothing leads out of the region. -/
  closed : s'.arena.Closed region
  /-- Every error is counted. -/
  errors : s'.errors = s.errors + found.errors
  /-- What is due has been found. -/
  vetted : s'.arena.Vetted region found
  /-- No more environments are made than nodes are visited. -/
  sows : Sows s s' region

/-- When a step may begin that visits some nodes below a number: they have nothing in common, and nothing
below them has been desugared. -/
structure Ready (a : Arena) (n : Nat) (ids : List NodeId) (s : AnalysisState) : Prop where
  /-- The nodes are a forest. -/
  isForest : s.arena.IsForest
  /-- They are those of the unit, apart from what an analysis changes. -/
  outline : a.SameOutline s.arena
  /-- The nodes to visit have nothing in common. -/
  apart : s.arena.Apart ids
  /-- Nothing below them has been desugared. -/
  fresh : s.arena.Fresh (s.arena.BelowAny ids)
  /-- They have small numbers. -/
  below : ∀ id ∈ ids, id.index < n

/-- The first step succeeds; it visits the given nodes and finds at least what is due. With any nodes that are
as it has left those that it visited, the second step finds the same and changes no node. -/
def Replays (a : Arena) {α : Type} (n : Nat) (ids : List NodeId) (codes : List Code) (x y : Analysis α) :
    Prop :=
  ∀ s, Ready a n ids s → ∃ v s' found,
    (∀ queue, x { s with queue } = .ok (v, { s' with queue := queue.pushAll found })) ∧
    Leads s s' (s.arena.BelowAny ids) found ∧
    (∀ code ∈ codes, found.Has code) ∧
    ∀ b queue, a.SameOutline b → Arena.AgreeOn (s.arena.BelowAny ids) s'.arena b →
      y { s with arena := b, queue } = .ok (v, { s' with arena := b, queue := queue.pushAll found })

namespace Leads

variable {s s' s'' : AnalysisState} {r r' : NodeId → Prop} {found found' : Found}

theorem rewires (h : Leads s s' r found) : s.arena.Rewires s'.arena r :=
  ⟨h.isForest, h.desugars, h.outside, h.closed⟩

theorem of_rewires (h : s.arena.Rewires s'.arena r) (he : s'.errors = s.errors + found.errors)
    (hv : s'.arena.Vetted r found) (hs : Sows s s' r) : Leads s s' r found :=
  ⟨h.isForest, h.desugars, h.outside, h.closed, he, hv, hs⟩

/-- Two steps one after the other, in regions that have nothing in common. -/
theorem trans (h : Leads s s' r found) (k : Leads s' s'' r' found') (hd : ∀ x, r x → ¬ r' x) :
    Leads s s'' (fun x => r x ∨ r' x) (found ++ found') := by
  refine of_rewires (h.rewires.trans k.rewires hd) ?errors ?vetted (h.sows.trans k.sows hd)
  case errors => rw [k.errors, h.errors, Found.errors_append, Nat.add_assoc]
  case vetted =>
    intro hno x hx node hn code hcode
    rw [Found.has_append, not_or] at hno
    rw [Found.has_append]
    rcases hx with hx | hx
    · exact .inl (h.vetted hno.1 x hx node ((k.outside x (hd x hx)).trans hn) code hcode)
    · exact .inr (k.vetted hno.2 x hx node hn code hcode)

/-- More nodes may be looked at, if nothing is due for them. -/
theorem enlarge {q : NodeId → Prop} (h : Leads s s' r found) (hr : ∀ x, r x → q x) (hq : s.arena.Closed q)
    (hv : s'.arena.Vetted (fun x => q x ∧ ¬ r x) found) : Leads s s' q found := by
  refine of_rewires (h.rewires.enlarge hr hq) h.errors (fun hno x hx => ?_) (h.sows.enlarge hr)
  by_cases hrx : r x
  · exact h.vetted hno x hrx
  · exact hv hno x ⟨hx, hrx⟩

end Leads

namespace Ready

variable {a : Arena} {n m : Nat} {ids ids' : List NodeId} {s s' : AnalysisState}

theorem lower (h : Ready a n ids s) (hnm : n ≤ m) : Ready a m ids s :=
  ⟨h.isForest, h.outline, h.apart, h.fresh, fun id hid => (h.below id hid).trans_le hnm⟩

theorem left (h : Ready a n (ids ++ ids') s) : Ready a n ids s where
  isForest := h.isForest
  outline := h.outline
  apart := h.apart.of_append.1
  fresh x hx := h.fresh x (Arena.belowAny_append.2 (.inl hx))
  below id hid := h.below id (List.mem_append_left _ hid)

/-- After a step the next one may begin. -/
theorem right (h : Ready a n (ids ++ ids') s) (k : s.arena.Rewires s'.arena (s.arena.BelowAny ids)) :
    s'.arena.BelowAny ids' = s.arena.BelowAny ids' ∧ Ready a n ids' s' := by
  obtain ⟨_, hapart, hdisjoint⟩ := h.apart.of_append
  have hagree : Arena.AgreeOn (s.arena.BelowAny ids') s.arena s'.arena :=
    k.outside.mono fun x hx hx' => hdisjoint x hx' hx
  refine ⟨hagree.belowAny, ?_⟩
  constructor
  case isForest => exact k.isForest
  case outline => exact h.outline.trans k.desugars.outline
  case apart => exact hagree.apart hapart
  case fresh =>
    intro x hx
    rw [hagree.belowAny] at hx
    rw [← hagree x hx]
    exact h.fresh x (Arena.belowAny_append.2 (.inr hx))
  case below => exact fun id hid => h.below id (List.mem_append_right _ hid)

/-- The children of a node. -/
theorem children {id : NodeId} {node : Node} (h : Ready a (n + 1) [id] s) (hn : s.arena.get? id = some node) :
    Ready a n node.kind.children s := by
  refine ⟨h.isForest, h.outline, h.isForest.apart_children hn, fun x ⟨c, hc, hx⟩ => ?_, fun c hc => ?_⟩
  · exact h.fresh x (Arena.belowAny_singleton.2 (.head ⟨node, hn, hc⟩ hx))
  · exact (h.isForest.down ⟨node, hn, hc⟩).trans_le (Nat.le_of_lt_succ (h.below id (List.mem_singleton_self id)))

/-- Some of the nodes. -/
theorem sublist (h : Ready a n ids s) (hsub : ids'.Sublist ids) : Ready a n ids' s :=
  ⟨h.isForest, h.outline, h.apart.sublist hsub, fun x ⟨c, hc, hx⟩ => h.fresh x ⟨c, hsub.subset hc, hx⟩,
    fun c hc => h.below c (hsub.subset hc)⟩

theorem perm (h : Ready a n ids s) (hp : ids'.Perm ids) : Ready a n ids' s :=
  ⟨h.isForest, h.outline, (hp.symm.pairwise_iff fun hcd x hd hc => hcd x hc hd).1 h.apart,
    fun x ⟨c, hc, hx⟩ => h.fresh x ⟨c, hp.mem_iff.1 hc, hx⟩, fun c hc => h.below c (hp.mem_iff.1 hc)⟩

/-- The right operand of a pipe that has fed its call. -/
theorem feeds {p lhs rhs call callee : NodeId} {args : List NodeId} {position position' : Option Position}
    (h : Ready a (n + 1) [p] s) (hf : s.arena.Feeds p lhs rhs call callee args position position') :
    Ready a n [rhs] { s with arena := markDesugared (appendArgument s.arena call lhs) p } := by
  have hforest := h.isForest
  have hself : ¬ (markDesugared (appendArgument s.arena call lhs) p).BelowAny [rhs] p := fun hb =>
    hf.not_below_desugared hforest (Arena.belowAny_singleton.1 hb)
  refine ⟨hf.isForest hforest, h.outline.trans hf.sameOutline, List.pairwise_singleton _ _, fun x hx => ?_,
    fun c hc => ?_⟩
  · intro l r q hq
    rw [hf.get?_desugared, if_neg fun hxp : x = p => hself (hxp ▸ hx)] at hq
    by_cases hxc : x = call
    · rw [if_pos hxc] at hq
      simp at hq
    · rw [if_neg hxc] at hq
      exact h.fresh x (Arena.belowAny_singleton.2 ((hf.below_iff hforest x).2 (.inr hx))) l r q hq
  · obtain rfl := List.mem_singleton.1 hc
    exact (hforest.down hf.parent_rhs).trans_le (Nat.le_of_lt_succ (h.below p (List.mem_singleton_self p)))

end Ready

namespace Replays

variable {α β : Type} {a : Arena} {n : Nat} {ids ids' : List NodeId} {codes codes' : List Code}

theorem idle {x : Analysis α} (hx : Idle x) : Replays a n [] [] x x := by
  intro s h
  obtain ⟨v, tree, current, inFunction, hsize, hrun⟩ := hx s
  refine ⟨v, { s with tree, current, inFunction }, [], hrun s.arena, ?_, by simp, ?_⟩
  · refine ⟨h.isForest, .refl _, .refl _ _, s.arena.closed_belowAny _, rfl, fun _ x hx => ?_, .of_size hsize⟩
    exact absurd hx Arena.belowAny_nil
  · exact fun b queue _ _ => hrun b queue

theorem report (f : Finding) (position : Option Position) :
    Replays a n [] [f.code] (report f position) (report f position) := by
  intro s h
  refine ⟨(), { s with errors := s.errors + Found.errors [(f, position)] }, [(f, position)], ?_, ?_, ?_, ?_⟩
  · intro queue
    cases f <;> rfl
  · refine ⟨h.isForest, .refl _, .refl _ _, s.arena.closed_belowAny _, rfl, fun _ x hx => ?_, .of_size rfl⟩
    exact absurd hx Arena.belowAny_nil
  · simp [Found.Has]
  · intro b queue _ _
    cases f <;> rfl

/-- A declaration is added or refused, whatever the nodes are. -/
theorem declare (d : Declaration) : Replays a n [] [] (declare d) (declare d) := by
  intro s h
  cases hdefine : s.tree.define s.current d with
  | ok tree =>
    refine ⟨(), { s with tree }, [], fun queue => ?_, ?_, by simp, fun b queue _ _ => ?_⟩
    · rw [declare_eq, hdefine]
      rfl
    · refine ⟨h.isForest, .refl _, .refl _ _, s.arena.closed_belowAny _, rfl, fun _ x hx => ?_, .of_size ?_⟩
      · exact absurd hx Arena.belowAny_nil
      · exact EnvTree.size_define hdefine
    · rw [declare_eq, hdefine]
      rfl
  | error existing =>
    obtain ⟨v, s', found, hrun, hleads, -, hreplay⟩ := report (.finalRedeclaration d.name) d.position s h
    refine ⟨v, s', found, fun queue => ?_, hleads, by simp, fun b queue hb hagree => ?_⟩
    · rw [declare_eq, hdefine]
      exact hrun queue
    · rw [declare_eq, hdefine]
      exact hreplay b queue hb hagree

theorem bind {x y : Analysis α} {k l : α → Analysis β} (hx : Replays a n ids codes x y)
    (hk : ∀ v, Replays a n ids' codes' (k v) (l v)) :
    Replays a n (ids ++ ids') (codes ++ codes') (x >>= k) (y >>= l) := by
  intro s h
  obtain ⟨v, s₁, found, hrun, hleads, hcodes, hreplay⟩ := hx s h.left
  obtain ⟨hsame, hready⟩ := h.right hleads.rewires
  obtain ⟨w, s₂, found', hrun', hleads', hcodes', hreplay'⟩ :=
    hk v s₁ hready
  obtain ⟨_, _, hdisjoint⟩ := h.apart.of_append
  have hregion : s.arena.BelowAny (ids ++ ids') =
      fun x => s.arena.BelowAny ids x ∨ s.arena.BelowAny ids' x :=
    funext fun x => propext Arena.belowAny_append
  refine ⟨w, s₂, found ++ found', ?_, ?_, ?_, ?_⟩
  · intro queue
    simp only [Bind.bind, StateT.bind, hrun, Except.bind, Queue.pushAll_append]
    exact hrun' _
  · rw [hregion]
    exact hleads.trans (hsame ▸ hleads') hdisjoint
  · intro code hcode
    rw [Found.has_append]
    exact (List.mem_append.1 hcode).imp (hcodes code) (hcodes' code)
  · intro b queue hb hagree
    rw [hregion] at hagree
    have hfirst := hreplay b queue hb fun x hx => by
      have hx' : ¬ s₁.arena.BelowAny ids' x := by
        rw [hsame]
        exact hdisjoint x hx
      rw [← hagree x (.inl hx)]
      exact hleads'.outside x hx'
    have hsecond := hreplay' b (queue.pushAll found) hb fun x hx => hagree x (.inr (hsame ▸ hx))
    simp only [Bind.bind, StateT.bind, hfirst, Except.bind, Queue.pushAll_append]
    exact hsecond

/-- Looking at the state before going on. -/
theorem state_bind (k : AnalysisState → Analysis β) (s : AnalysisState) : (get >>= k) s = k s s := rfl

/-- Looking at a node before going on. -/
theorem node_bind {k : Node → Analysis β} {s : AnalysisState} {id : NodeId} {m : Node}
    (hm : s.arena.get? id = some m) : (Analysis.node id >>= k) s = k m s := by
  have hnode : Analysis.node id s = .ok (m, s) := by
    unfold Analysis.node
    rw [state_bind, hm]
    rfl
  simp only [Bind.bind, StateT.bind, hnode, Except.bind]

theorem peek {id : NodeId} {node : Node} {k l : Node → Analysis α} (hn : a.get? id = some node)
    (h : ∀ m m', node.Alike m → node.Alike m' → Replays a n ids codes (k m) (l m')) :
    Replays a n ids codes (Analysis.node id >>= k) (Analysis.node id >>= l) := by
  intro s hs
  obtain ⟨m, hm, hmo⟩ := hs.outline.get? hn
  obtain ⟨v, s', found, hrun, hleads, hcodes, _⟩ :=
    h m m (Node.alike_of_outline hmo) (Node.alike_of_outline hmo) s hs
  have hfirst (queue : Queue) := (node_bind (s := { s with queue }) hm).trans (hrun queue)
  refine ⟨v, s', found, hfirst, hleads, hcodes, fun b queue hb hagree => ?_⟩
  obtain ⟨m', hm', hmo'⟩ := hb.get? hn
  -- The first step has been made already, so it ends as it did.
  obtain ⟨v', s'', found', hrun', _, _, hreplay⟩ :=
    h m m' (Node.alike_of_outline hmo) (Node.alike_of_outline hmo') s hs
  have hend := Except.ok.inj ((hrun s.queue).symm.trans (hrun' s.queue))
  simp only [Prod.mk.injEq, AnalysisState.mk.injEq] at hend
  obtain ⟨rfl, harena, hqueue, htree, hcurrent, hinFunction, herrors⟩ := hend
  have hy := hreplay b queue hb (harena ▸ hagree)
  rw [← htree, ← hcurrent, ← hinFunction, ← herrors, ← Queue.pushAll_congr hqueue] at hy
  exact (node_bind (s := { s with arena := b, queue }) hm').trans hy

/-- Visiting a node that is no pipe. -/
theorem enter {id : NodeId} {node : Node} {k l : Node → Analysis α} (hn : a.get? id = some node)
    (h : ∀ m, m.outline = node.outline → Replays a n m.kind.children m.kind.owed (k m) (l m)) :
    Replays a (n + 1) [id] [] (Analysis.node id >>= k) (Analysis.node id >>= l) := by
  intro s hs
  obtain ⟨m, hm, hmo⟩ := hs.outline.get? hn
  have hbelow : s.arena.BelowAny [id] = fun x => x = id ∨ s.arena.BelowAny m.kind.children x :=
    funext fun x => propext (Arena.belowAny_singleton.trans (Arena.below_iff_children hm))
  obtain ⟨v, s', found, hrun, hleads, hcodes, hreplay⟩ := h m hmo s (hs.children hm)
  have hself : s'.arena.get? id = some m :=
    (hleads.outside id (hs.isForest.not_below_children hm)).symm.trans hm
  refine ⟨v, s', found, fun queue => (node_bind (s := { s with queue }) hm).trans (hrun queue), ?_, by simp,
    fun b queue hb hagree => ?_⟩
  · refine hleads.enlarge (fun x hx => hbelow ▸ .inr hx) (s.arena.closed_belowAny _) ?_
    rintro - x ⟨hx, hnot⟩ node' hn' code hcode
    rw [hbelow] at hx
    obtain rfl := hx.resolve_right hnot
    obtain rfl := Option.some.inj (hself.symm.trans hn')
    exact hcodes code hcode
  · rw [hbelow] at hagree
    have hm' : b.get? id = some m := (hagree id (.inl rfl)).symm.trans hself
    exact (node_bind (s := { s with arena := b, queue }) hm').trans
      (hreplay b queue hb fun x hx => hagree x (.inr hx))

/-- Visiting an object that is bound to a name: its environment is made for it. -/
theorem enclose {id : NodeId} {params : Option (List Param)} {composed : List Label} {members : List NodeId}
    {position : Option Position} {name : String} {x y : Analysis Unit} {k l : Node → Analysis Unit}
    (hn : a.get? id = some ⟨.object params composed members, position⟩)
    (hk : k ⟨.object params composed members, position⟩ = inEnvironment name x)
    (hl : l ⟨.object params composed members, position⟩ = inEnvironment name y)
    (h : Replays a n members [] x y) :
    Replays a (n + 1) [id] [] (Analysis.node id >>= k) (Analysis.node id >>= l) := by
  intro s hs
  have hm := hs.outline.get?_of_not_joint hn rfl
  have hbelow : s.arena.BelowAny [id] = fun x => x = id ∨ s.arena.BelowAny members x :=
    funext fun x => propext (Arena.belowAny_singleton.trans (Arena.below_iff_children hm))
  have hready : Ready a n members s := hs.children hm
  have hnot : ¬ s.arena.BelowAny members id := hs.isForest.not_below_children hm
  obtain ⟨⟨⟩, s', found, hrun, hleads, -, hreplay⟩ := h (s.entered name)
    ⟨hready.isForest, hready.outline, hready.apart, hready.fresh, hready.below⟩
  have hself : s'.arena.get? id = some ⟨.object params composed members, position⟩ :=
    (hleads.outside id hnot).symm.trans hm
  refine ⟨(), { s' with current := s.current }, found, fun queue => ?_, ?_, by simp, fun b queue hb hagree => ?_⟩
  · refine (node_bind (s := { s with queue }) hm).trans ?_
    rw [hk, inEnvironment_eq]
    exact congrArg (fun e => e >>= _) (hrun queue)
  · rw [hbelow]
    have hrewires : s.arena.Rewires s'.arena (s.arena.BelowAny members) := hleads.rewires
    refine .of_rewires (hrewires.enlarge (fun x hx => .inr hx) (hbelow ▸ s.arena.closed_belowAny _)) hleads.errors ?_ ?_
    · rintro hno x (rfl | hx) node hnode code hcode
      · obtain rfl := Option.some.inj (hself.symm.trans hnode)
        cases hcode
      · exact hleads.vetted hno x hx node hnode code hcode
    · exact hleads.sows.cons (s.size_entered name) hnot
  · rw [hbelow] at hagree
    have hm' : b.get? id = some ⟨.object params composed members, position⟩ :=
      (hagree id (.inl rfl)).symm.trans hself
    refine (node_bind (s := { s with arena := b, queue }) hm').trans ?_
    rw [hl, inEnvironment_eq]
    exact congrArg (fun e => e >>= _) (hreplay b queue hb fun x hx => hagree x (.inr hx))

theorem leaf {id : NodeId} {name : String} {x y : Analysis α} (hk : a.kind? id = some (.ident name))
    (h : Replays a n [] codes x y) : Replays a n [id] codes x y := by
  intro s hs
  obtain ⟨position, hn⟩ := Arena.kind?_eq_some.1 hk
  have hm := hs.outline.get?_of_not_joint hn rfl
  have hbelow (x : NodeId) : s.arena.BelowAny [id] x ↔ x = id :=
    Arena.belowAny_singleton.trans ((Arena.below_iff_children hm).trans (by simp [NodeKind.children]))
  have hready : Ready a n [] s := ⟨hs.isForest, hs.outline, List.Pairwise.nil, by simp [Arena.Fresh], by simp⟩
  obtain ⟨v, s', found, hrun, hleads, hcodes, hreplay⟩ := h s hready
  refine ⟨v, s', found, hrun, ?_, hcodes, fun b queue hb hagree => ?_⟩
  · refine hleads.enlarge (fun x hx => absurd hx Arena.belowAny_nil) (s.arena.closed_belowAny _) ?_
    rintro - x ⟨hx, hnot⟩ node' hn' code hcode
    obtain rfl := (hbelow x).1 hx
    rw [← hleads.outside x hnot, hm] at hn'
    obtain rfl := Option.some.inj hn'
    simp [NodeKind.owed] at hcode
  · exact hreplay b queue hb fun x hx => absurd hx Arena.belowAny_nil

theorem perm {x y : Analysis α} (hp : ids.Perm ids') (h : Replays a n ids codes x y) :
    Replays a n ids' codes x y := by
  intro s hs
  have hbelow : s.arena.BelowAny ids' = s.arena.BelowAny ids :=
    funext fun x => propext (by simp [Arena.BelowAny, hp.mem_iff])
  obtain ⟨v, s', found, hrun, hleads, hcodes, hreplay⟩ := h s (hs.perm hp)
  rw [hbelow]
  exact ⟨v, s', found, hrun, hleads, hcodes, hreplay⟩

/-- So a second analysis is a walk beside the first one. -/
theorem walk (a : Arena) : Walk a (Replays a) where
  lower hnm h s hs := h s (hs.lower hnm)
  zero s hs := absurd (hs.below _ (List.mem_singleton_self _)) (Nat.not_lt_zero _)
  fewer hsub h s hs := by
    obtain ⟨v, s', found, hrun, hleads, hcodes, hreplay⟩ := h s hs
    exact ⟨v, s', found, hrun, hleads, fun code hcode => hcodes code (hsub hcode), hreplay⟩
  perm := perm
  leaf := leaf
  idle := idle
  report := report
  declare := declare
  bind := bind
  peek := peek
  enter hn _ h := enter hn h
  enclose := enclose

section pipe

variable {roots : List Root} {visit visit' : NodeId → Analysis Unit} {p lhs rhs : NodeId} {mark : Bool}
  {position : Option Position} {s : AnalysisState}

/-- A pipe into a call feeds that call. -/
theorem feeds_of_pipeCall? (ha : a.Laid roots) (hs : Ready a n [p] s)
    (hn : s.arena.get? p = some ⟨.pipe lhs rhs false, position⟩) {call : NodeId}
    (hc : pipeCall? s.arena rhs = some call) :
    ∃ callee args position', s.arena.Feeds p lhs rhs call callee args position position' := by
  obtain ⟨⟨callee, args, hk⟩, hrhs⟩ := Arena.pipeCall?_eq_some.1 hc
  obtain ⟨position', htarget⟩ := Arena.kind?_eq_some.1 hk
  obtain ⟨node, hnode, ho⟩ := hs.outline.symm.get? hn
  obtain ⟨mark, rfl⟩ := Node.pipe_of_outline ho rfl
  have hbefore := ha.before_of_pipe hnode
  refine ⟨callee, args, position', hn, htarget, ?_, ?_⟩
  · refine hrhs.imp id fun ⟨tail, mark, hr⟩ => ?_
    obtain ⟨q, hr⟩ := Arena.kind?_eq_some.1 hr
    have hfresh := hs.fresh rhs (Arena.belowAny_singleton.2 (.single ⟨_, hn, by simp [NodeKind.children]⟩))
    cases mark with
    | false => exact ⟨tail, Arena.kind?_eq_some.2 ⟨q, hr⟩⟩
    | true => exact absurd hr (hfresh _ _ _)
  · rcases hrhs with rfl | ⟨tail, mark, hr⟩
    · exact hbefore.lt
    · obtain ⟨mark', hr'⟩ := hs.outline.symm.pipe hr
      obtain ⟨q, hr'⟩ := Arena.kind?_eq_some.1 hr'
      have hmark := ha.pipe_fresh hr'
      exact hbefore call (.single ⟨_, hr', by simp [NodeKind.children, hmark]⟩)

theorem visitPipe_none (hn : s.arena.get? rhs = some ⟨kind, q⟩) (hc : pipeCall? s.arena rhs = none) :
    visitPipe visit p lhs rhs false s = (do visit lhs; Analysis.report .pipeIntoNonCall q) s := by
  refine (node_bind hn).trans ?_
  rw [state_bind, hc]

theorem visitPipe_some {node : Node} (hn : s.arena.get? rhs = some node) {call : NodeId}
    (hc : pipeCall? s.arena rhs = some call) :
    visitPipe visit p lhs rhs false s =
      visit rhs { s with arena := markDesugared (appendArgument s.arena call lhs) p } := by
  refine (node_bind hn).trans ?_
  rw [state_bind, hc]
  rfl

variable (hv : ∀ c, Replays a n [c] [] (visit c) (visit' c))
include hv

/-- Visiting a pipe that leads into no call. -/
theorem visitPipe_nonCall (hs : Ready a (n + 1) [p] s)
    (hn : s.arena.get? p = some ⟨.pipe lhs rhs false, position⟩) (hc : pipeCall? s.arena rhs = none) :
    ∃ s' found,
      (∀ queue, visitPipe visit p lhs rhs false { s with queue } =
        .ok ((), { s' with queue := queue.pushAll found })) ∧
      Leads s s' (s.arena.Below p) found ∧
      ∀ b queue, a.SameOutline b → Arena.AgreeOn (s.arena.Below p) s'.arena b →
        b.get? p = some ⟨.pipe lhs rhs false, position⟩ ∧
        visitPipe visit' p lhs rhs false { s with arena := b, queue } =
          .ok ((), { s' with arena := b, queue := queue.pushAll found }) := by
  have hlhs : s.arena.Parent p lhs := ⟨_, hn, by simp [NodeKind.children]⟩
  have hsub (x : NodeId) (hx : s.arena.BelowAny [lhs] x) : s.arena.Below p x :=
    .head hlhs (Arena.belowAny_singleton.1 hx)
  have hself : ¬ s.arena.BelowAny [lhs] p := fun hb =>
    absurd (hs.isForest.index_le (Arena.belowAny_singleton.1 hb)) (not_le.2 (hs.isForest.down hlhs))
  have hready : Ready a n [lhs] s := (hs.children hn).sublist (by simp [NodeKind.children])
  have hrhs : s.arena.Parent p rhs := ⟨_, hn, by simp [NodeKind.children]⟩
  obtain ⟨⟨kind, q⟩, hr⟩ := Arena.exists_get? (hs.isForest.lt_size hrhs)
  obtain ⟨⟨⟩, s', found, hrun, hleads, hcodes, hreplay⟩ :=
    (hv lhs).bind (fun _ => report .pipeIntoNonCall q) s hready
  have hfound : found.Has .pipeIntoNonCall := hcodes _ (by simp [Finding.code])
  refine ⟨s', found, fun queue => (visitPipe_none (s := { s with queue }) hr hc).trans (hrun queue), ?_,
    fun b queue hb hagree => ⟨?_, ?_⟩⟩
  · -- The right operand is not visited, but nothing is claimed of it: the pipe itself was reported.
    exact hleads.enlarge hsub (fun _ _ hx hxy => hx.tail hxy) fun hno => absurd hfound hno
  · exact (hagree p .refl).symm.trans ((hleads.outside p hself).symm.trans hn)
  · have hsb : s.arena.SameOutline b := hs.outline.symm.trans hb
    obtain ⟨⟨kind', q'⟩, hr', ho⟩ := hsb.get? hr
    obtain rfl : q' = q := Node.position_outline ho
    have hc' : pipeCall? b rhs = none := (hsb.pipeCall? rhs).trans hc
    exact (visitPipe_none (s := { s with arena := b, queue }) hr' hc').trans
      (hreplay b queue hb (hagree.mono hsub))

/-- Visiting a pipe that feeds a call. Another analysis finds the pipe marked. -/
theorem visitPipe_feeds (hs : Ready a (n + 1) [p] s) {call callee : NodeId} {args : List NodeId}
    {position' : Option Position} (hf : s.arena.Feeds p lhs rhs call callee args position position')
    (hc : pipeCall? s.arena rhs = some call) :
    ∃ s' found,
      (∀ queue, visitPipe visit p lhs rhs false { s with queue } =
        .ok ((), { s' with queue := queue.pushAll found })) ∧
      Leads s s' (s.arena.Below p) found ∧
      ∀ b queue, a.SameOutline b → Arena.AgreeOn (s.arena.Below p) s'.arena b →
        b.get? p = some ⟨.pipe lhs rhs true, position⟩ ∧
        visitPipe visit' p lhs rhs true { s with arena := b, queue } =
          .ok ((), { s' with arena := b, queue := queue.pushAll found }) := by
  have hforest := hs.isForest
  have hregion := hf.below_iff hforest
  obtain ⟨node, hr⟩ := Arena.exists_get? (hforest.lt_size hf.parent_rhs)
  obtain ⟨⟨⟩, s', found, hrun, hleads, -, hreplay⟩ := hv rhs _ (hs.feeds hf)
  obtain ⟨hrewires, hp⟩ := hf.rewires hforest hleads.rewires
  refine ⟨s', found, fun queue => (visitPipe_some (s := { s with queue }) hr hc).trans (hrun queue), ?_,
    fun b queue hb hagree => ⟨?_, ?_⟩⟩
  · have hsows : Sows s s' (s.arena.Below p) := hleads.sows.enlarge fun x hx => (hregion x).2 (.inr hx)
    refine .of_rewires hrewires hleads.errors (fun hno x hx node hn code hcode => ?_) hsows
    rcases (hregion x).1 hx with rfl | hx
    · obtain rfl := Option.some.inj (hp.symm.trans hn)
      simp [NodeKind.owed] at hcode
    · exact hleads.vetted hno x hx node hn code hcode
  · exact (hagree p .refl).symm.trans hp
  · exact hreplay b queue hb fun x hx => hagree x ((hregion x).2 (.inr hx))

/-- Visiting a pipe. -/
theorem visitNode_pipe (ha : a.Laid roots) {role : Role}
    (hn : a.get? p = some ⟨.pipe lhs rhs mark, position⟩) :
    Replays a (n + 1) [p] [] (visitNode role visit p) (visitNode role visit' p) := by
  intro s hs
  obtain ⟨node, hnode, ho⟩ := hs.outline.get? hn
  obtain ⟨mark, rfl⟩ := Node.pipe_of_outline ho rfl
  have hbelow : s.arena.BelowAny [p] = s.arena.Below p := funext fun x => propext Arena.belowAny_singleton
  have hmark : mark = false := by
    by_contra hm
    rw [Bool.not_eq_false] at hm
    exact hs.fresh p (Arena.belowAny_singleton.2 .refl) _ _ _ (hm ▸ hnode)
  subst hmark
  rw [hbelow]
  cases hc : pipeCall? s.arena rhs with
  | none =>
    obtain ⟨s', found, hrun, hleads, hreplay⟩ := visitPipe_nonCall hv hs hnode hc
    refine ⟨(), s', found, fun queue => (node_bind (s := { s with queue }) hnode).trans (hrun queue), hleads,
      by simp, fun b queue hb hagree => ?_⟩
    obtain ⟨hb', hrun'⟩ := hreplay b queue hb hagree
    exact (node_bind (s := { s with arena := b, queue }) hb').trans hrun'
  | some call =>
    obtain ⟨callee, args, position', hf⟩ := feeds_of_pipeCall? ha hs hnode hc
    obtain ⟨s', found, hrun, hleads, hreplay⟩ := visitPipe_feeds hv hs hf hc
    refine ⟨(), s', found, fun queue => (node_bind (s := { s with queue }) hnode).trans (hrun queue), hleads,
      by simp, fun b queue hb hagree => ?_⟩
    obtain ⟨hb', hrun'⟩ := hreplay b queue hb hagree
    exact (node_bind (s := { s with arena := b, queue }) hb').trans hrun'

end pipe

/-- The visit of a node is replayed, at any depth that suffices. -/
theorem visitWithin {roots : List Root} (ha : a.Laid roots) (role : Role) (hn : n ≤ a.size)
    {levels levels' : Nat} (hl : n ≤ levels) (hl' : n ≤ levels') (id : NodeId) :
    Replays a n [id] [] (visitWithin role levels id) (visitWithin role levels' id) := by
  induction n generalizing id levels levels' with
  | zero => exact (walk a).zero
  | succ n ih =>
    obtain ⟨l, rfl⟩ : ∃ l, levels = l + 1 := ⟨levels - 1, by omega⟩
    obtain ⟨l', rfl⟩ : ∃ l', levels' = l' + 1 := ⟨levels' - 1, by omega⟩
    have hv (c : NodeId) :
        Replays a n [c] [] (Analysis.visitWithin role l c) (Analysis.visitWithin role l' c) :=
      ih (by omega) (by omega) (by omega) c
    intro s hs
    have hid : id.index < n + 1 := hs.below id (List.mem_singleton_self id)
    obtain ⟨⟨kind, position⟩, hnode⟩ := Arena.exists_get? (show id.index < a.size by omega)
    by_cases hpipe : ∃ lhs rhs mark, kind = .pipe lhs rhs mark
    · obtain ⟨lhs, rhs, mark, rfl⟩ := hpipe
      exact visitNode_pipe hv ha hnode s hs
    · exact (walk a).visitNode hv ha hnode (fun lhs rhs mark hk => hpipe ⟨lhs, rhs, mark, hk⟩) s hs

end Replays

/-! ## Whole units -/

/-- The statements of a block; any other node is its own only statement. -/
def topItems (id : NodeId) (node : Node) : List NodeId :=
  match node.kind with
  | .block items => items
  | _ => [id]

/-- The top level of a unit is visited statement by statement. -/
theorem visitProgram_eq (role : Role) (body : NodeId) (s : AnalysisState) :
    visitProgram role body s =
      (node body >>= fun m => visitAll (visitWithin role (s.arena.size + 1)) (topItems body m)) s := by
  have hstatements : statements body = (node body >>= fun m => pure (topItems body m)) := by
    unfold statements topItems
    congr
    funext m
    split <;> simp_all
  show (statements body >>= fun items => visitAll (visitWithin role (s.arena.size + 1)) items) s = _
  rw [hstatements, bind_assoc]
  simp

/-- The state in which the analysis of a unit begins is ready for its block. -/
theorem ready_initialState {a : Arena} {root : Root} (ha : a.Laid [root]) (queue : Queue) :
    Ready a a.size [root.id] (initialState a queue) where
  isForest := ha.toIsForest
  outline := .refl a
  apart := List.pairwise_singleton _ _
  fresh x _ lhs rhs position hn := absurd (ha.pipe_fresh hn) (by simp)
  below id hid := by
    obtain rfl := List.mem_singleton.1 hid
    exact ha.root_lt (List.mem_singleton_self root)

end Analysis

open Analysis

/-- The visit of a program comes to its end and has found all that is due. With the nodes that it leaves another one
finds the same and changes no node. Neither makes more environments than the program has nodes. -/
theorem visitProgram_settles {program : Program} (ha : program.arena.Laid [⟨program.body, NodeKind.isBlock⟩])
    (role : Role) : ∃ (s' : AnalysisState) (found : Found),
      s'.arena.IsForest ∧ program.arena.Desugars s'.arena ∧
      s'.arena.Vetted (fun x => x.index < s'.arena.size) found ∧
      s'.errors = found.errors ∧ s'.tree.size ≤ program.arena.size ∧
      ∀ queue,
        visitProgram role program.body (initialState program.arena queue) =
          .ok ((), { s' with queue := queue.pushAll found }) ∧
        visitProgram role program.body (initialState s'.arena queue) =
          .ok ((), { s' with queue := queue.pushAll found }) := by
  obtain ⟨a, body⟩ := program
  replace ha : a.Laid [⟨body, NodeKind.isBlock⟩] := ha
  obtain ⟨items, position, hn⟩ := ha.exists_block
  obtain ⟨n, hsize⟩ : ∃ n, a.size = n + 1 := ⟨a.size - 1, by have := Arena.lt_size_of_get? hn; omega⟩
  -- The visit of the block replays the visits of its statements.
  have hitems : Replays a n items [] (visitAll (visitWithin role (a.size + 1)) items)
      (visitAll (visitWithin role (a.size + 1)) items) :=
    (Replays.walk a).visitAll
      (fun c => Replays.visitWithin ha role (by omega) (by omega) (by omega) c) items
  have hvisit : Replays a (n + 1) [body] []
      (node body >>= fun m => visitAll (visitWithin role (a.size + 1)) (topItems body m))
      (node body >>= fun m => visitAll (visitWithin role (a.size + 1)) (topItems body m)) := by
    refine (Replays.walk a).enter hn (by simp) fun m hm => ?_
    obtain rfl := Node.eq_of_outline hm rfl
    exact hitems
  have hready : Ready a (n + 1) [body] (initialState a .empty) := hsize ▸ ready_initialState ha .empty
  obtain ⟨⟨⟩, s', found, hrun, hleads, -, hreplay⟩ := hvisit _ hready
  have hsame : a.SameOutline s'.arena := hleads.desugars.outline
  have hregion (x : NodeId) (hx : x.index < s'.arena.size) : a.BelowAny [body] x :=
    Arena.belowAny_singleton.2 (ha.below_root (hsame.size_eq ▸ hx))
  refine ⟨s', found, hleads.isForest, hleads.desugars, fun hno x hx => hleads.vetted hno x (hregion x hx),
    by simpa [initialState] using hleads.errors, ?_, fun queue => ⟨?_, ?_⟩⟩
  · -- The block itself makes no environment besides the first one.
    obtain ⟨⟨⟩, t, found', hrun', hleads', -⟩ := hitems _ (hready.children hn)
    have hvisits := Replays.node_bind (k := fun m => visitAll (visitWithin role (a.size + 1)) (topItems body m))
      (s := initialState a .empty) hn
    have hends := (hrun .empty).symm.trans (hvisits.trans (hrun' .empty))
    have htree : s'.tree = t.tree := congrArg (fun r => r.2.tree) (Except.ok.inj hends)
    obtain ⟨ids, hnodup, hids, hmade⟩ := hleads'.sows
    have hcount : (body :: ids).length ≤ a.size := by
      refine Arena.length_le_of_nodup (List.nodup_cons.2 ⟨fun hmem => ?_, hnodup⟩)
        (List.forall_mem_cons.2 ⟨Arena.lt_size_of_get? hn, fun id hid => ?_⟩)
      · obtain ⟨c, hc, hbelow⟩ := hids body hmem
        have hdown := ha.toIsForest.down ⟨_, hn, hc⟩
        have hle := ha.toIsForest.index_le hbelow
        omega
      · obtain ⟨c, hc, hbelow⟩ := hids id hid
        have hlt := ha.toIsForest.lt_size ⟨_, hn, hc⟩
        have hle := ha.toIsForest.index_le hbelow
        omega
    have hfirst : (initialState a .empty).tree.size = 1 := rfl
    rw [List.length_cons] at hcount
    show s'.tree.size ≤ a.size
    rw [htree]
    omega
  · exact (visitProgram_eq role body (initialState a queue)).trans (hrun queue)
  · exact (visitProgram_eq role body (initialState s'.arena queue)).trans
      (hsame.size_eq ▸ hreplay s'.arena queue hsame (Arena.AgreeOn.refl _ _))

/-- Analysing a program never meets a defect. What it leaves behind has all that is due found, and analysing
that again finds the same and changes nothing. -/
theorem analyse_settles {program : Program} (ha : program.arena.Laid [⟨program.body, NodeKind.isBlock⟩])
    (role : Role) : ∃ settled found,
      settled.IsForest ∧ program.arena.Desugars settled ∧
      settled.Vetted (fun x => x.index < settled.size) found ∧
      ∀ queue,
        analyse program role queue = .ok ⟨⟨settled, program.body⟩, queue.pushAll found, found.errors⟩ ∧
        analyse ⟨settled, program.body⟩ role queue =
          .ok ⟨⟨settled, program.body⟩, queue.pushAll found, found.errors⟩ := by
  obtain ⟨s', found, hforest, hdesugars, hvetted, herrors, -, hrun⟩ := visitProgram_settles ha role
  refine ⟨s'.arena, found, hforest, hdesugars, hvetted, fun queue => ?_⟩
  simp only [analyse, StateT.run, (hrun queue).1, (hrun queue).2, herrors, and_self]

/-- A visit of a program, or of what an analysis has left of it, makes no more environments than the program has
nodes. -/
theorem size_visitProgram {program : Program} (ha : program.arena.Laid [⟨program.body, NodeKind.isBlock⟩])
    {role : Role} {queue queue' : Queue} {analysed : Analysed} (h : analyse program role queue = .ok analysed)
    {arena : Arena} (harena : arena = program.arena ∨ arena = analysed.program.arena) {r : Unit × AnalysisState}
    (hrun : visitProgram role program.body (initialState arena queue') = .ok r) :
    r.2.tree.size ≤ program.arena.size := by
  obtain ⟨s', found, -, -, -, -, hsize, hruns⟩ := visitProgram_settles ha role
  have hsettled : analysed.program.arena = s'.arena := by
    have hfirst := h
    simp only [analyse, StateT.run, (hruns queue).1] at hfirst
    exact (congrArg (fun analysed : Analysed => analysed.program.arena) (Except.ok.inj hfirst)).symm
  rcases harena with rfl | rfl
  · rw [(hruns queue').1] at hrun
    obtain rfl := Except.ok.inj hrun
    exact hsize
  · rw [hsettled, (hruns queue').2] at hrun
    obtain rfl := Except.ok.inj hrun
    exact hsize

/-- There are numbers for all environments that a visit of a numbered program makes. -/
theorem Numbered.fits (p : Numbered) {role : Role} {queue queue' : Queue} {analysed : Analysed}
    (h : analyse p.program role queue = .ok analysed) {arena : Arena}
    (harena : arena = p.program.arena ∨ arena = analysed.program.arena) {r : Unit × AnalysisState}
    (hrun : visitProgram role p.program.body (initialState arena queue') = .ok r) :
    r.2.tree.size ≤ UInt32.size :=
  (size_visitProgram p.laid h harena hrun).trans p.numbers

/-! ## Analysing again and again -/

/-- Analyse a unit again and again. Every pass starts from what the one before has left and adds to a queue of
its own. -/
def analysePasses (program : Program) (role : Role) (queues : Nat → Queue) : Nat → Except Defect Analysed
  | 0 => analyse program role (queues 0)
  | n + 1 => do
    let before ← analysePasses program role queues n
    analyse before.program role (queues (n + 1))

/-- Every pass leaves the nodes that the first one has left, and finds the same. -/
theorem analysePasses_settle {program : Program} (ha : program.arena.Laid [⟨program.body, NodeKind.isBlock⟩])
    (role : Role) : ∃ settled found,
      settled.IsForest ∧ program.arena.Desugars settled ∧
      settled.Vetted (fun x => x.index < settled.size) found ∧
      ∀ queues n, analysePasses program role queues n =
        .ok ⟨⟨settled, program.body⟩, (queues n).pushAll found, found.errors⟩ := by
  obtain ⟨settled, found, hforest, hdesugars, hvetted, hpass⟩ := analyse_settles ha role
  refine ⟨settled, found, hforest, hdesugars, hvetted, fun queues n => ?_⟩
  induction n with
  | zero => exact (hpass _).1
  | succ n ih =>
    simp only [analysePasses, ih]
    exact (hpass _).2

/-- However often a program is analysed, every pass leaves the nodes that the first one has left, counts the
errors that the first one has counted, and emits what the first one has emitted, in that order. -/
theorem reanalysis_idempotent (p : Parsed) (role : Role) (queues : Nat → Queue) :
    ∃ (settled : Program) (errors : Nat) (emitted : List Diagnostic), ∀ n,
      ∃ pass, analysePasses p.program role queues n = .ok pass ∧ pass.program = settled ∧
        pass.errors = errors ∧ pass.queue.toList = (queues n).toList ++ emitted := by
  obtain ⟨settled, found, -, -, -, hpass⟩ := analysePasses_settle p.laid role
  exact ⟨_, _, _, fun n => ⟨_, hpass queues n, rfl, rfl, Queue.toList_pushAll _ _⟩⟩

end DynScript
