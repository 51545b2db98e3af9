import DynScript.Analysis.Visit
import DynScript.Proofs.Tree.Layout

/-!
# What an analysis changes of an arena

An analysis moves the left operand of a pipe into a call and marks the pipe. The outline of a node leaves out
the arguments of a call and the mark of a pipe, so it stays; and a forest stays a forest.
-/

namespace DynScript

/-- What a node is, apart from what an analysis changes: the arguments of a call and the mark of a pipe. -/
def NodeKind.outline : NodeKind → NodeKind
  | call callee _ => call callee []
  | pipe lhs rhs _ => pipe lhs rhs false
  | kind => kind

/-- Whether an analysis may change a node. -/
def NodeKind.isJoint : NodeKind → Bool
  | call _ _ | pipe _ _ _ => true
  | _ => false

theorem NodeKind.isJoint_outline (kind : NodeKind) : kind.outline.isJoint = kind.isJoint := by
  cases kind <;> rfl

theorem NodeKind.outline_of_not_joint {kind : NodeKind} (h : kind.isJoint = false) : kind.outline = kind := by
  cases kind <;> first | rfl | cases h

namespace Node

/-- A node, apart from what an analysis changes. -/
def outline (node : Node) : Node := ⟨node.kind.outline, node.position⟩

/-- Two nodes are the same, or both may be changed by an analysis. -/
def Alike (n n' : Node) : Prop := n = n' ∨ n.kind.isJoint ∧ n'.kind.isJoint

variable {n n' : Node}

theorem kind_outline (h : n'.outline = n.outline) : n'.kind.outline = n.kind.outline := congrArg Node.kind h

theorem position_outline (h : n'.outline = n.outline) : n'.position = n.position :=
  (congrArg Node.position h :)

/-- A node that may not be changed is known by its outline. -/
theorem eq_of_outline (h : n'.outline = n.outline) (hj : n.kind.isJoint = false) : n' = n := by
  have hk := kind_outline h
  have hj' : n'.kind.isJoint = false := by rw [← NodeKind.isJoint_outline, hk, NodeKind.isJoint_outline, hj]
  rw [NodeKind.outline_of_not_joint hj, NodeKind.outline_of_not_joint hj'] at hk
  have hp := position_outline h
  obtain ⟨kind, position⟩ := n
  obtain ⟨kind', position'⟩ := n'
  obtain rfl : kind' = kind := hk
  obtain rfl : position' = position := hp
  rfl

/-- Nodes of one outline are alike. -/
theorem alike_of_outline (h : n'.outline = n.outline) : n.Alike n' := by
  cases hj : n.kind.isJoint with
  | false => exact .inl (eq_of_outline h hj).symm
  | true =>
    refine .inr ⟨hj, ?_⟩
    rw [← NodeKind.isJoint_outline, kind_outline h, NodeKind.isJoint_outline, hj]

/-- A call is changed in its arguments only. -/
theorem call_of_outline {callee : NodeId} {args : List NodeId} (h : n'.outline = n.outline)
    (hn : n.kind = .call callee args) : ∃ args', n' = ⟨.call callee args', n.position⟩ := by
  have hk := kind_outline h
  have hp := position_outline h
  obtain ⟨kind', position'⟩ := n'
  obtain rfl : position' = n.position := hp
  rw [hn] at hk
  cases kind' with
  | call callee' args' =>
    obtain rfl : callee' = callee := by simpa [NodeKind.outline] using hk
    exact ⟨args', rfl⟩
  | _ => simp [NodeKind.outline] at hk

/-- A pipe is changed in its mark only. -/
theorem pipe_of_outline {lhs rhs : NodeId} {mark : Bool} (h : n'.outline = n.outline)
    (hn : n.kind = .pipe lhs rhs mark) : ∃ mark', n' = ⟨.pipe lhs rhs mark', n.position⟩ := by
  have hk := kind_outline h
  have hp := position_outline h
  obtain ⟨kind', position'⟩ := n'
  obtain rfl : position' = n.position := hp
  rw [hn] at hk
  cases kind' with
  | pipe lhs' rhs' mark' =>
    obtain ⟨rfl, rfl⟩ : lhs' = lhs ∧ rhs' = rhs := by simpa [NodeKind.outline] using hk
    exact ⟨mark', rfl⟩
  | _ => simp [NodeKind.outline] at hk

end Node

namespace Arena

variable {a b c : Arena}

/-- The nodes of two arenas have the same outlines. -/
def SameOutline (a b : Arena) : Prop := ∀ id, (b.get? id).map Node.outline = (a.get? id).map Node.outline

namespace SameOutline

theorem refl (a : Arena) : a.SameOutline a := fun _ => rfl

theorem symm (h : a.SameOutline b) : b.SameOutline a := fun id => (h id).symm

theorem trans (h : a.SameOutline b) (k : b.SameOutline c) : a.SameOutline c := fun id => (k id).trans (h id)

variable (h : a.SameOutline b)
include h

theorem get? {id : NodeId} {node : Node} (hn : a.get? id = some node) :
    ∃ node', b.get? id = some node' ∧ node'.outline = node.outline := by
  have ho := h id
  rw [hn] at ho
  exact Option.map_eq_some_iff.1 ho

theorem get?_of_not_joint {id : NodeId} {node : Node} (hn : a.get? id = some node)
    (hj : node.kind.isJoint = false) : b.get? id = some node := by
  obtain ⟨node', hn', ho⟩ := h.get? hn
  rw [hn', Node.eq_of_outline ho hj]

theorem call {id callee : NodeId} {args : List NodeId} (hk : a.kind? id = some (.call callee args)) :
    ∃ args', b.kind? id = some (.call callee args') := by
  obtain ⟨position, hn⟩ := kind?_eq_some.1 hk
  obtain ⟨node', hn', ho⟩ := h.get? hn
  obtain ⟨args', rfl⟩ := Node.call_of_outline ho rfl
  exact ⟨args', kind?_eq_some.2 ⟨_, hn'⟩⟩

theorem pipe {id lhs rhs : NodeId} {mark : Bool} (hk : a.kind? id = some (.pipe lhs rhs mark)) :
    ∃ mark', b.kind? id = some (.pipe lhs rhs mark') := by
  obtain ⟨position, hn⟩ := kind?_eq_some.1 hk
  obtain ⟨node', hn', ho⟩ := h.get? hn
  obtain ⟨mark', rfl⟩ := Node.pipe_of_outline ho rfl
  exact ⟨mark', kind?_eq_some.2 ⟨_, hn'⟩⟩

theorem size_le : a.size ≤ b.size := by
  by_contra hlt
  obtain ⟨node, hn⟩ := exists_get? (show (⟨b.size⟩ : NodeId).index < a.size from not_le.1 hlt)
  obtain ⟨node', hn', _⟩ := h.get? hn
  exact lt_irrefl _ (lt_size_of_get? hn')

theorem size_eq : b.size = a.size := le_antisymm h.symm.size_le h.size_le

end SameOutline

open Analysis (pipeCall? appendArgument markDesugared)

/-- The call that takes the left operand of a pipe: the right operand itself, or the left operand of the pipe
there. -/
theorem pipeCall?_eq_some {rhs call : NodeId} :
    pipeCall? a rhs = some call ↔
      (∃ callee args, a.kind? call = some (.call callee args)) ∧
        (call = rhs ∨ ∃ tail mark, a.kind? rhs = some (.pipe call tail mark)) := by
  unfold pipeCall?
  constructor
  · intro h
    split at h
    · rename_i callee args hk
      obtain rfl := Option.some.inj h
      exact ⟨⟨_, _, hk⟩, .inl rfl⟩
    · rename_i inner tail mark hk
      split at h
      · rename_i callee args hi
        obtain rfl := Option.some.inj h
        exact ⟨⟨_, _, hi⟩, .inr ⟨_, _, hk⟩⟩
      · cases h
    · cases h
  · rintro ⟨⟨callee, args, hk⟩, rfl | ⟨tail, mark, hr⟩⟩
    · simp [hk]
    · simp [hr, hk]

/-- Which call takes a left operand does not depend on what has been desugared. -/
theorem SameOutline.pipeCall? (h : a.SameOutline b) (rhs : NodeId) :
    Analysis.pipeCall? b rhs = Analysis.pipeCall? a rhs := by
  have imp {a b : Arena} (h : a.SameOutline b) {call : NodeId} (hc : Analysis.pipeCall? a rhs = some call) :
      Analysis.pipeCall? b rhs = some call := by
    obtain ⟨⟨callee, args, hk⟩, hrhs⟩ := pipeCall?_eq_some.1 hc
    obtain ⟨args', hk'⟩ := h.call hk
    refine pipeCall?_eq_some.2 ⟨⟨_, _, hk'⟩, hrhs.imp id ?_⟩
    rintro ⟨tail, mark, hr⟩
    obtain ⟨mark', hr'⟩ := h.pipe hr
    exact ⟨tail, mark', hr'⟩
  cases hc : Analysis.pipeCall? a rhs with
  | some call => exact imp h hc
  | none =>
    cases hc' : Analysis.pipeCall? b rhs with
    | none => rfl
    | some call => exact (Option.some_ne_none _ ((imp h.symm hc').symm.trans hc)).elim

/-! ## Desugaring -/

/-- A pipe has been desugared between two arenas. -/
def Marks (a b : Arena) (p lhs rhs : NodeId) : Prop :=
  a.kind? p = some (.pipe lhs rhs false) ∧ b.kind? p = some (.pipe lhs rhs true)

/-- The second arena is the first one after some of its pipes have been desugared: the calls that take
their left operands have these as further arguments. -/
structure Desugars (a b : Arena) : Prop where
  /-- The outlines stay. -/
  outline : a.SameOutline b
  /-- A pipe that has been desugared stays so. -/
  stays : ∀ p lhs rhs, a.kind? p = some (.pipe lhs rhs true) → b.kind? p = some (.pipe lhs rhs true)
  /-- A pipe that has been desugared leads into a call. -/
  leads : ∀ p lhs rhs, Marks a b p lhs rhs → ∃ c, Analysis.pipeCall? a rhs = some c
  /-- A call has the left operands that were moved into it as further arguments, and no others. -/
  moved : ∀ c callee args, a.kind? c = some (.call callee args) → ∃ more,
    b.kind? c = some (.call callee (args ++ more)) ∧
      ∀ lhs, lhs ∈ more ↔ ∃ p rhs, Marks a b p lhs rhs ∧ Analysis.pipeCall? a rhs = some c

namespace Desugars

theorem refl (a : Arena) : a.Desugars a where
  outline := .refl a
  stays _ _ _ h := h
  leads p lhs rhs h := by
    obtain ⟨h₁, h₂⟩ := h
    simp [h₁] at h₂
  moved c callee args h := by
    refine ⟨[], by simpa using h, fun lhs => iff_of_false List.not_mem_nil ?_⟩
    rintro ⟨p, rhs, ⟨h₁, h₂⟩, _⟩
    simp [h₁] at h₂

theorem trans (h : a.Desugars b) (k : b.Desugars c) : a.Desugars c where
  outline := h.outline.trans k.outline
  stays p lhs rhs hp := k.stays p lhs rhs (h.stays p lhs rhs hp)
  leads p lhs rhs hp := by
    obtain ⟨ha, hc⟩ := hp
    obtain ⟨mark, hb⟩ := h.outline.pipe ha
    cases mark with
    | false => exact h.outline.pipeCall? rhs ▸ k.leads p lhs rhs ⟨hb, hc⟩
    | true => exact h.leads p lhs rhs ⟨ha, hb⟩
  moved d callee args hd := by
    obtain ⟨more, hb, hmore⟩ := h.moved d callee args hd
    obtain ⟨more', hc, hmore'⟩ := k.moved d callee _ hb
    refine ⟨more ++ more', by simpa using hc, fun lhs => ?_⟩
    rw [List.mem_append, hmore, hmore']
    constructor
    · rintro (⟨p, rhs, ⟨ha, hb⟩, hcall⟩ | ⟨p, rhs, ⟨hb, hc⟩, hcall⟩)
      · exact ⟨p, rhs, ⟨ha, k.stays _ _ _ hb⟩, hcall⟩
      · obtain ⟨mark, ha⟩ := h.outline.symm.pipe hb
        rw [h.outline.pipeCall?] at hcall
        cases mark with
        | false => exact ⟨p, rhs, ⟨ha, hc⟩, hcall⟩
        | true => exact absurd (hb.symm.trans (h.stays _ _ _ ha)) (by simp)
    · rintro ⟨p, rhs, ⟨ha, hc⟩, hcall⟩
      obtain ⟨mark, hb⟩ := h.outline.pipe ha
      cases mark with
      | false =>
        rw [← h.outline.pipeCall?] at hcall
        exact .inr ⟨p, rhs, ⟨hb, hc⟩, hcall⟩
      | true => exact .inl ⟨p, rhs, ⟨ha, hb⟩, hcall⟩

end Desugars

/-! ## Desugaring a pipe -/

/-- A pipe that has not been desugared, and the call that takes its left operand. -/
structure Feeds (a : Arena) (p lhs rhs call callee : NodeId) (args : List NodeId)
    (position position' : Option Position) : Prop where
  /-- The pipe. -/
  pipe : a.get? p = some ⟨.pipe lhs rhs false, position⟩
  /-- The call. -/
  target : a.get? call = some ⟨.call callee args, position'⟩
  /-- Where the call stands. -/
  below : call = rhs ∨ ∃ tail, a.kind? rhs = some (.pipe call tail false)
  /-- The left operand was made before the call. -/
  before : lhs.index < call.index

namespace Feeds

variable {p lhs rhs call callee : NodeId} {args : List NodeId} {position position' : Option Position}
  (h : a.Feeds p lhs rhs call callee args position position')
include h

theorem call_ne : call ≠ p := by
  rintro rfl
  simpa [h.pipe] using h.target

/-- The nodes after the pipe was desugared. -/
theorem get?_desugared (i : NodeId) :
    (markDesugared (appendArgument a call lhs) p).get? i =
      if i = p then some ⟨.pipe lhs rhs true, position⟩
      else if i = call then some ⟨.call callee (args ++ [lhs]), position'⟩ else a.get? i := by
  have happend : appendArgument a call lhs = a.setKind call (.call callee (args ++ [lhs])) := by
    simp [appendArgument, kind?, h.target]
  have hpipe : (a.setKind call (.call callee (args ++ [lhs]))).get? p =
      some ⟨.pipe lhs rhs false, position⟩ := by
    rw [get?_setKind, if_neg h.call_ne.symm, h.pipe]
  have hmark : markDesugared (appendArgument a call lhs) p =
      (a.setKind call (.call callee (args ++ [lhs]))).setKind p (.pipe lhs rhs true) := by
    simp [happend, markDesugared, kind?, hpipe]
  rw [hmark, get?_setKind]
  by_cases hi : i = p
  · subst hi
    simp [hpipe]
  · rw [if_neg hi, if_neg hi, get?_setKind]
    by_cases hc : i = call
    · subst hc
      simp [h.target]
    · rw [if_neg hc, if_neg hc]

theorem sameOutline : a.SameOutline (markDesugared (appendArgument a call lhs) p) := by
  intro i
  rw [h.get?_desugared]
  split_ifs with hp hc
  · rw [hp, h.pipe]
    rfl
  · rw [hc, h.target]
    rfl
  · rfl

/-- The call takes the left operand. -/
theorem pipeCall? : Analysis.pipeCall? a rhs = some call := by
  refine pipeCall?_eq_some.2 ⟨⟨_, _, kind?_eq_some.2 ⟨_, h.target⟩⟩, h.below.imp id ?_⟩
  exact fun ⟨tail, hr⟩ => ⟨tail, _, hr⟩

/-- Only this pipe is desugared. -/
theorem marks_iff {q l r : NodeId} :
    Marks a (markDesugared (appendArgument a call lhs) p) q l r ↔ q = p ∧ l = lhs ∧ r = rhs := by
  unfold Marks
  simp only [kind?, h.get?_desugared]
  by_cases hq : q = p
  · subst hq
    simp [h.pipe, eq_comm]
  · by_cases hqc : q = call
    · subst hqc
      simp [hq, h.target]
    · simp only [hq, hqc, if_false, false_and, iff_false, not_and]
      intro h₁ h₂
      simp [h₁] at h₂

theorem desugars : a.Desugars (markDesugared (appendArgument a call lhs) p) where
  outline := h.sameOutline
  stays q l r hq := by
    obtain ⟨position, hq⟩ := kind?_eq_some.1 hq
    refine kind?_eq_some.2 ⟨position, ?_⟩
    rw [h.get?_desugared, if_neg, if_neg, hq]
    · rintro rfl
      simp [h.target] at hq
    · rintro rfl
      simp [h.pipe] at hq
  leads q l r hq := by
    obtain ⟨rfl, rfl, rfl⟩ := h.marks_iff.1 hq
    exact ⟨call, h.pipeCall?⟩
  moved c f xs hc := by
    obtain ⟨position, hc⟩ := kind?_eq_some.1 hc
    have hcp : c ≠ p := by
      rintro rfl
      simp [h.pipe] at hc
    by_cases hcc : c = call
    · subst hcc
      obtain ⟨⟨rfl, rfl⟩, -⟩ : (f = callee ∧ xs = args) ∧ position = position' := by
        simpa [h.target, eq_comm] using hc
      refine ⟨[lhs], kind?_eq_some.2 ⟨position', ?_⟩, fun l => ?_⟩
      · rw [h.get?_desugared, if_neg hcp, if_pos rfl]
      · simp [h.marks_iff, h.pipeCall?]
    · refine ⟨[], kind?_eq_some.2 ⟨position, ?_⟩, fun l => ?_⟩
      · rw [h.get?_desugared, if_neg hcp, if_neg hcc, hc, List.append_nil]
      · simp only [List.not_mem_nil, h.marks_iff, false_iff]
        rintro ⟨q, r, ⟨rfl, rfl, rfl⟩, hr⟩
        exact hcc (Option.some.inj (hr.symm.trans h.pipeCall?))

theorem parent_lhs : a.Parent p lhs := ⟨_, h.pipe, by simp [NodeKind.children]⟩

theorem parent_rhs : a.Parent p rhs := ⟨_, h.pipe, by simp [NodeKind.children]⟩

variable (ha : a.IsForest)
include ha

theorem lhs_ne_rhs : lhs ≠ rhs := by
  have hd := ha.nodup h.pipe
  rintro rfl
  simp [NodeKind.children] at hd

/-- The left operand stands below the call now, and nothing else has moved. -/
theorem parent_desugared {x y : NodeId} :
    (markDesugared (appendArgument a call lhs) p).Parent x y ↔
      a.Parent x y ∧ ¬ (x = p ∧ y = lhs) ∨ x = call ∧ y = lhs := by
  unfold Parent
  rw [h.get?_desugared]
  have hne := h.call_ne
  have hrhs := h.lhs_ne_rhs ha
  by_cases hx : x = p
  · subst hx
    simp only [if_true, Option.some.injEq, exists_eq_left', h.pipe, NodeKind.children]
    have hxc : x ≠ call := hne.symm
    constructor
    · intro hy
      obtain rfl : y = rhs := by simpa using hy
      exact .inl ⟨by simp, fun hl => hrhs hl.2.symm⟩
    · rintro (⟨hy, hl⟩ | ⟨hc, _⟩)
      · have hyl : y ≠ lhs := fun hyl => hl ⟨trivial, hyl⟩
        simpa [hyl] using hy
      · exact absurd hc hxc
  · by_cases hc : x = call
    · subst hc
      simp only [hx, if_false, if_true, Option.some.injEq, exists_eq_left', h.target, NodeKind.children]
      simp [or_assoc]
    · simp [hx, hc]

theorem isForest : (markDesugared (appendArgument a call lhs) p).IsForest where
  down hxy := by
    rcases (h.parent_desugared ha).1 hxy with ⟨hxy, _⟩ | ⟨rfl, rfl⟩
    · exact ha.down hxy
    · exact h.before
  unique hxz hyz := by
    rcases (h.parent_desugared ha).1 hxz with ⟨hxa, hx⟩ | ⟨hxc, hz⟩ <;>
      rcases (h.parent_desugared ha).1 hyz with ⟨hya, hy⟩ | ⟨hyc, hz'⟩
    · exact ha.unique hxa hya
    · exact absurd ⟨ha.unique hxa (hz' ▸ h.parent_lhs), hz'⟩ hx
    · exact absurd ⟨ha.unique hya (hz ▸ h.parent_lhs), hz⟩ hy
    · exact hxc.trans hyc.symm
  nodup {x node} hn := by
    rw [h.get?_desugared] at hn
    split_ifs at hn with hp hc
    · obtain rfl := Option.some.inj hn
      simp [NodeKind.children]
    · obtain rfl := Option.some.inj hn
      have hnot : lhs ∉ callee :: args := fun hm =>
        h.call_ne (ha.unique ⟨_, h.target, hm⟩ h.parent_lhs)
      have hd : (callee :: args).Nodup := ha.nodup h.target
      exact hd.append (by simp) (by simpa [List.disjoint_singleton] using hnot)
    · exact ha.nodup hn

/-- The call is the right operand or stands right below it. -/
theorem below_call : (markDesugared (appendArgument a call lhs) p).Below rhs call := by
  rcases h.below with rfl | ⟨tail, hr⟩
  · exact .refl
  · obtain ⟨position, hr⟩ := kind?_eq_some.1 hr
    have hrc : a.Parent rhs call := ⟨_, hr, by simp [NodeKind.children]⟩
    refine .single ((h.parent_desugared ha).2 (.inl ⟨hrc, ?_⟩))
    rintro ⟨hrp, _⟩
    exact lt_irrefl _ (hrp ▸ ha.down h.parent_rhs)

/-- All that stood below the pipe stands below its right operand now. -/
theorem below_desugared {x : NodeId} :
    a.Below p x ↔ x = p ∨ (markDesugared (appendArgument a call lhs) p).Below rhs x := by
  constructor
  · intro hx
    induction hx with
    | refl => exact .inl rfl
    | tail _ hqx ih =>
      rename_i q x _
      right
      by_cases hl : q = p ∧ x = lhs
      · obtain ⟨rfl, rfl⟩ := hl
        exact (h.below_call ha).tail ((h.parent_desugared ha).2 (.inr ⟨rfl, rfl⟩))
      · have hqx' := (h.parent_desugared ha).2 (.inl ⟨hqx, hl⟩)
        rcases ih with rfl | ih
        · obtain ⟨node, hn, hx⟩ := hqx
          obtain rfl := Option.some.inj (h.pipe.symm.trans hn)
          obtain rfl : x = rhs := by
            simpa [NodeKind.children, show x ≠ lhs from fun hxl => hl ⟨rfl, hxl⟩] using hx
          exact .refl
        · exact ih.tail hqx'
  · rintro (rfl | hx)
    · exact .refl
    · induction hx with
      | refl => exact .single h.parent_rhs
      | tail _ hqx ih =>
        rcases (h.parent_desugared ha).1 hqx with ⟨hqx, _⟩ | ⟨_, rfl⟩
        · exact ih.tail hqx
        · exact .single h.parent_lhs

/-- The pipe itself does not stand below its right operand. -/
theorem not_below_desugared : ¬ (markDesugared (appendArgument a call lhs) p).Below rhs p := fun hb =>
  absurd ((h.isForest ha).index_le hb) (not_le.2 (ha.down h.parent_rhs))

end Feeds

end Arena

end DynScript
