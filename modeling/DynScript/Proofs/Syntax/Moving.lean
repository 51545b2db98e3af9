import DynScript.Proofs.Syntax.Reading
import DynScript.Proofs.Tree.Layout

/-!
# Moving nodes

The nodes of one arena, put after those of another one, have greater numbers and name their children by these. They show
the same trees.
-/

namespace DynScript

/-- The number of a node when `d` nodes are put before it. -/
def NodeId.moved (d : Nat) (id : NodeId) : NodeId := ⟨id.index + d⟩

/-- A field of which the value is moved. -/
def Field.moved (d : Nat) (field : Field) : Field := { field with value := field.value.moved d }

/-- What a node is when the nodes that it names are moved. -/
def NodeKind.moved (d : Nat) : NodeKind → NodeKind
  | block items => block (items.map (·.moved d))
  | binding name mode isFinal value => binding name mode isFinal (value.moved d)
  | function params body => function params (body.moved d)
  | call callee args => call (callee.moved d) (args.map (·.moved d))
  | ident name => ident name
  | literal value => literal value
  | list items => list (items.map (·.moved d))
  | record fields => record (fields.map (·.moved d))
  | index target i => index (target.moved d) (i.moved d)
  | property target name => property (target.moved d) name
  | len operand => len (operand.moved d)
  | loop start stop body => loop (start.moved d) (stop.moved d) (body.moved d)
  | conditional condition thenBranch elseBranch =>
    conditional (condition.moved d) (thenBranch.moved d) (elseBranch.map (·.moved d))
  | assign target value => assign (target.moved d) (value.moved d)
  | logical op lhs rhs => logical op (lhs.moved d) (rhs.moved d)
  | equality op lhs rhs => equality op (lhs.moved d) (rhs.moved d)
  | comparison op lhs rhs => comparison op (lhs.moved d) (rhs.moved d)
  | arithmetic op lhs rhs => arithmetic op (lhs.moved d) (rhs.moved d)
  | negate operand => negate (operand.moved d)
  | prepend item rest => prepend (item.moved d) (rest.moved d)
  | pipe lhs rhs desugared => pipe (lhs.moved d) (rhs.moved d) desugared
  | object params composed members => object params composed (members.map (·.moved d))
  | clone operand => clone (operand.moved d)
  | envOpen target body => envOpen (target.moved d) (body.moved d)
  | imports root path => imports root path
  | exports names => exports names
  | print args => print (args.map (·.moved d))
  | returns value => returns (value.map (·.moved d))

theorem NodeId.moved_zero (id : NodeId) : id.moved 0 = id := rfl

theorem NodeKind.moved_zero (kind : NodeKind) : kind.moved 0 = kind := by
  cases kind <;> simp [moved, NodeId.moved_zero, Field.moved]

namespace Arena

/-- The nodes of an arena that are among given ones, with all below them, are in another one, moved. -/
def MovesTo (a : Arena) (among : NodeId → Prop) (d : Nat) (b : Arena) : Prop :=
  ∀ id kind, among id → a.kind? id = some kind →
    b.kind? (id.moved d) = some (kind.moved d) ∧ ∀ c ∈ kind.children, among c

/-- The nodes of an arena, and after them those of another one. -/
def append (base a : Arena) : Arena :=
  ⟨base.nodes ++ a.nodes.map fun node => ⟨node.kind.moved base.size, node.position⟩⟩

theorem size_append (base a : Arena) : (base.append a).size = a.size + base.size := by
  simp [append, size, Nat.add_comm]

theorem append_empty (base : Arena) : base.append .empty = base := by
  simp [append, empty]

/-- A node of the second arena is moved. -/
theorem kind?_append (base a : Arena) (id : NodeId) :
    (base.append a).kind? (id.moved base.size) = (a.kind? id).map (NodeKind.moved base.size) := by
  simp only [kind?, get?, append, NodeId.moved, size]
  rw [Array.getElem?_append_right (Nat.le_add_left _ _), Nat.add_sub_cancel, Array.getElem?_map, Option.map_map,
    Option.map_map]
  rfl

/-- The first arena keeps its nodes. -/
theorem keeps_append (base a : Arena) : base.Keeps (base.append a) := by
  intro id kind h
  have hlt : id.index < base.nodes.size := by
    by_contra hge
    rw [kind?, get?, Array.getElem?_eq_none (Nat.le_of_not_lt hge)] at h
    cases h
  rw [kind?, get?, append, Array.getElem?_append_left hlt]
  exact h

/-- A node is made after all others. -/
theorem alloc_append (base a : Arena) (kind : NodeKind) (position : Option Position) :
    (base.append a).alloc ⟨kind.moved base.size, position⟩ =
      ((a.alloc ⟨kind, position⟩).1.moved base.size, base.append (a.alloc ⟨kind, position⟩).2) := by
  have hsize := size_append base a
  simp only [alloc, NodeId.moved, hsize]
  simp [append]

end Arena

namespace Syntax

variable {a b : Arena} {among : NodeId → Prop} {d : Nat}

mutual

/-- A node that is moved shows the same expression. -/
theorem Expression.At.moved (h : a.MovesTo among d b) :
    ∀ (e : Expression) {id : NodeId}, among id → e.At a id → e.At b (id.moved d)
  | .literal _, _, hin, hk | .name _, _, hin, hk | .imports _ _ _, _, hin, hk => (h _ _ hin hk).1
  | .list items, _, hin, ⟨_, hk, hitems⟩ =>
    have ⟨hkind, hc⟩ := h _ _ hin hk
    ⟨_, hkind, Expression.EachAt.moved h items hc hitems⟩
  | .record fields, _, hin, ⟨_, hk, hfields⟩ =>
    have ⟨hkind, hc⟩ := h _ _ hin hk
    ⟨_, hkind, Entry.EachAt.moved h fields (List.forall_mem_map.1 hc) hfields⟩
  | .function _ body, _, hin, ⟨_, _, _, hk, hparams, hblock, hbody⟩ =>
    have ⟨hkind, hc⟩ := h _ _ hin hk
    have ⟨hblock', hitems⟩ := h _ _ (hc _ (.head _)) hblock
    ⟨_, _, _, hkind, hparams, hblock', Statement.EachAt.moved h body hitems hbody⟩
  | .object _ _ members, _, hin, ⟨_, _, _, hk, hparams, hcomposed, hmembers⟩ =>
    have ⟨hkind, hc⟩ := h _ _ hin hk
    ⟨_, _, _, hkind, hparams, hcomposed, Member.EachAt.moved h members hc hmembers⟩
  | .conditional condition body otherwise, _, hin, ⟨_, _, _, _, hk, hi, hblock, hbody, hbranch⟩ =>
    have ⟨hkind, hc⟩ := h _ _ hin hk
    have ⟨hblock', hitems⟩ := h _ _ (hc _ (.tail _ (.head _))) hblock
    ⟨_, _, _, _, hkind, Expression.At.moved h condition (hc _ (.head _)) hi, hblock',
      Statement.EachAt.moved h body hitems hbody,
      Alternative.At.moved h otherwise (fun c hmem => hc c (.tail _ (.tail _ (Option.mem_toList.2 hmem)))) hbranch⟩
  | .loop first last body, _, hin, ⟨_, _, _, _, hk, hi, hj, hblock, hbody⟩ =>
    have ⟨hkind, hc⟩ := h _ _ hin hk
    have ⟨hblock', hitems⟩ := h _ _ (hc _ (.tail _ (.tail _ (.head _)))) hblock
    ⟨_, _, _, _, hkind, Expression.At.moved h first (hc _ (.head _)) hi,
      Expression.At.moved h last (hc _ (.tail _ (.head _))) hj, hblock', Statement.EachAt.moved h body hitems hbody⟩
  | .call callee args, _, hin, ⟨_, _, hk, hi, hargs⟩ =>
    have ⟨hkind, hc⟩ := h _ _ hin hk
    ⟨_, _, hkind, Expression.At.moved h callee (hc _ (.head _)) hi,
      Expression.EachAt.moved h args (fun c hmem => hc c (.tail _ hmem)) hargs⟩
  | .index target index, _, hin, ⟨_, _, hk, hi, hj⟩ =>
    have ⟨hkind, hc⟩ := h _ _ hin hk
    ⟨_, _, hkind, Expression.At.moved h target (hc _ (.head _)) hi,
      Expression.At.moved h index (hc _ (.tail _ (.head _))) hj⟩
  | .property target _, _, hin, ⟨_, hk, hi⟩ =>
    have ⟨hkind, hc⟩ := h _ _ hin hk
    ⟨_, hkind, Expression.At.moved h target (hc _ (.head _)) hi⟩
  | .envOpen target body, _, hin, ⟨_, _, _, hk, hi, hblock, hbody⟩ =>
    have ⟨hkind, hc⟩ := h _ _ hin hk
    have ⟨hblock', hitems⟩ := h _ _ (hc _ (.tail _ (.head _))) hblock
    ⟨_, _, _, hkind, Expression.At.moved h target (hc _ (.head _)) hi, hblock',
      Statement.EachAt.moved h body hitems hbody⟩
  | .unary op operand, _, hin, ⟨_, hk, hi⟩ => by
    obtain ⟨hkind, hc⟩ := h _ _ hin hk
    cases op <;> exact ⟨_, hkind, Expression.At.moved h operand (hc _ (.head _)) hi⟩
  | .binary op lhs rhs, _, hin, ⟨_, _, hk, hi, hj⟩ => by
    obtain ⟨hkind, hc⟩ := h _ _ hin hk
    cases op <;> exact ⟨_, _, hkind, Expression.At.moved h lhs (hc _ (.head _)) hi,
      Expression.At.moved h rhs (hc _ (.tail _ (.head _))) hj⟩
  | .pipe lhs rhs, _, hin, ⟨_, _, hk, hi, hj⟩ =>
    have ⟨hkind, hc⟩ := h _ _ hin hk
    ⟨_, _, hkind, Expression.At.moved h lhs (hc _ (.head _)) hi,
      Expression.At.moved h rhs (hc _ (.tail _ (.head _))) hj⟩
  | .assignName _ value, _, hin, ⟨_, _, hk, hi, hj⟩ =>
    have ⟨hkind, hc⟩ := h _ _ hin hk
    ⟨_, _, hkind, (h _ _ (hc _ (.head _)) hi).1, Expression.At.moved h value (hc _ (.tail _ (.head _))) hj⟩
  | .assignProperty target _ value, _, hin, ⟨_, _, _, hk, hi, ht, hj⟩ =>
    have ⟨hkind, hc⟩ := h _ _ hin hk
    have ⟨hproperty, hc'⟩ := h _ _ (hc _ (.head _)) hi
    ⟨_, _, _, hkind, hproperty, Expression.At.moved h target (hc' _ (.head _)) ht,
      Expression.At.moved h value (hc _ (.tail _ (.head _))) hj⟩

theorem Expression.EachAt.moved (h : a.MovesTo among d b) :
    ∀ (es : List Expression) {ids : List NodeId}, (∀ id ∈ ids, among id) → Expression.EachAt a es ids →
      Expression.EachAt b es (ids.map (·.moved d))
  | [], _, _, rfl => rfl
  | e :: es, _, hin, ⟨_, _, rfl, he, hes⟩ =>
    have ⟨hfirst, hrest⟩ := List.forall_mem_cons.1 hin
    ⟨_, _, rfl, Expression.At.moved h e hfirst he, Expression.EachAt.moved h es hrest hes⟩

theorem Entry.At.moved (h : a.MovesTo among d b) :
    ∀ (entry : Entry) {shown : Field}, among shown.value → entry.At a shown → entry.At b (shown.moved d)
  | .field _ value, _, hin, ⟨hname, hvalue⟩ => ⟨hname, Expression.At.moved h value hin hvalue⟩

theorem Entry.EachAt.moved (h : a.MovesTo among d b) :
    ∀ (fields : List Entry) {shown : List Field}, (∀ field ∈ shown, among field.value) → Entry.EachAt a fields shown →
      Entry.EachAt b fields (shown.map (·.moved d))
  | [], _, _, rfl => rfl
  | entry :: rest, _, hin, ⟨_, _, rfl, hentry, hmore⟩ =>
    have ⟨hfirst, hrest⟩ := List.forall_mem_cons.1 hin
    ⟨_, _, rfl, Entry.At.moved h entry hfirst hentry, Entry.EachAt.moved h rest hrest hmore⟩

theorem Member.At.moved (h : a.MovesTo among d b) :
    ∀ (member : Member) {id : NodeId}, among id → member.At a id → member.At b (id.moved d)
  | .binding _ _ _ value, _, hin, ⟨_, hk, hvalue⟩ =>
    have ⟨hkind, hc⟩ := h _ _ hin hk
    ⟨_, hkind, Expression.At.moved h value (hc _ (.head _)) hvalue⟩

theorem Member.EachAt.moved (h : a.MovesTo among d b) :
    ∀ (members : List Member) {ids : List NodeId}, (∀ id ∈ ids, among id) → Member.EachAt a members ids →
      Member.EachAt b members (ids.map (·.moved d))
  | [], _, _, rfl => rfl
  | member :: rest, _, hin, ⟨_, _, rfl, hmember, hmore⟩ =>
    have ⟨hfirst, hrest⟩ := List.forall_mem_cons.1 hin
    ⟨_, _, rfl, Member.At.moved h member hfirst hmember, Member.EachAt.moved h rest hrest hmore⟩

theorem Alternative.At.moved (h : a.MovesTo among d b) :
    ∀ (otherwise : Alternative) {branch : Option NodeId}, (∀ id ∈ branch, among id) → otherwise.At a branch →
      otherwise.At b (branch.map (·.moved d))
  | .none, _, _, rfl => rfl
  | .block body, _, hin, ⟨_, _, rfl, hblock, hbody⟩ =>
    have ⟨hblock', hitems⟩ := h _ _ (hin _ rfl) hblock
    ⟨_, _, rfl, hblock', Statement.EachAt.moved h body hitems hbody⟩
  | .conditional condition body otherwise, _, hin, ⟨_, _, _, _, _, rfl, hk, hi, hblock, hbody, hbranch⟩ =>
    have ⟨hkind, hc⟩ := h _ _ (hin _ rfl) hk
    have ⟨hblock', hitems⟩ := h _ _ (hc _ (.tail _ (.head _))) hblock
    ⟨_, _, _, _, _, rfl, hkind, Expression.At.moved h condition (hc _ (.head _)) hi, hblock',
      Statement.EachAt.moved h body hitems hbody,
      Alternative.At.moved h otherwise (fun c hmem => hc c (.tail _ (.tail _ (Option.mem_toList.2 hmem)))) hbranch⟩

theorem Statement.At.moved (h : a.MovesTo among d b) :
    ∀ (st : Statement) {id : NodeId}, among id → st.At a id → st.At b (id.moved d)
  | .binding _ _ _ value, _, hin, ⟨_, hk, hvalue⟩ =>
    have ⟨hkind, hc⟩ := h _ _ hin hk
    ⟨_, hkind, Expression.At.moved h value (hc _ (.head _)) hvalue⟩
  | .print args, _, hin, ⟨_, hk, hargs⟩ =>
    have ⟨hkind, hc⟩ := h _ _ hin hk
    ⟨_, hkind, Expression.EachAt.moved h args hc hargs⟩
  | .returns, _, hin, hk => (h _ _ hin hk).1
  | .returnsValue value, _, hin, ⟨_, hk, hvalue⟩ =>
    have ⟨hkind, hc⟩ := h _ _ hin hk
    ⟨_, hkind, Expression.At.moved h value (hc _ (.head _)) hvalue⟩
  | .exports _ _, _, hin, ⟨_, hk, hlabels⟩ => ⟨_, (h _ _ hin hk).1, hlabels⟩
  | .block body, _, hin, ⟨_, hk, hbody⟩ =>
    have ⟨hkind, hc⟩ := h _ _ hin hk
    ⟨_, hkind, Statement.EachAt.moved h body hc hbody⟩
  | .expression value, _, hin, hvalue => Expression.At.moved h value hin hvalue

theorem Statement.EachAt.moved (h : a.MovesTo among d b) :
    ∀ (body : List Statement) {ids : List NodeId}, (∀ id ∈ ids, among id) → Statement.EachAt a body ids →
      Statement.EachAt b body (ids.map (·.moved d))
  | [], _, _, rfl => rfl
  | st :: rest, _, hin, ⟨_, _, rfl, hst, hmore⟩ =>
    have ⟨hfirst, hrest⟩ := List.forall_mem_cons.1 hin
    ⟨_, _, rfl, Statement.At.moved h st hfirst hst, Statement.EachAt.moved h rest hrest hmore⟩

end

/-- Nodes that stay show the same statements. -/
theorem Statement.EachAt.keeps {body : List Statement} {ids : List NodeId} (hkeeps : a.Keeps b)
    (hbody : Statement.EachAt a body ids) : Statement.EachAt b body ids := by
  have hmoves : a.MovesTo (fun _ => True) 0 b := fun id kind _ hk =>
    ⟨by rw [kind.moved_zero]; exact hkeeps id kind hk, fun _ _ => trivial⟩
  simpa [NodeId.moved_zero] using Statement.EachAt.moved hmoves body (fun _ _ => trivial) hbody

/-- Nodes put after others show the same statements, also when nodes that come later are left out. -/
theorem Statement.EachAt.append {body : List Statement} {ids : List NodeId} (base : Arena) (hforest : b.IsForest)
    (hkeeps : a.Keeps b) (hids : ∀ id ∈ ids, id.index < a.size) (hbody : Statement.EachAt b body ids) :
    Statement.EachAt (base.append a) body (ids.map (·.moved base.size)) := by
  have hmoves : b.MovesTo (fun id => id.index < a.size) base.size (base.append a) := by
    intro id kind hlt hk
    obtain ⟨node, hnode, rfl⟩ := Option.map_eq_some_iff.1 hk
    have hold : a.kind? id = some node.kind := by
      obtain ⟨old, hold⟩ := Arena.exists_get? hlt
      have hkind : a.kind? id = some old.kind := Option.map_eq_some_iff.2 ⟨old, hold, rfl⟩
      rw [hkind, ← hkeeps id old.kind hkind, hk]
    refine ⟨by rw [base.kind?_append, hold]; rfl, fun c hc => ?_⟩
    exact (hforest.down ⟨node, hnode, hc⟩).trans hlt
  exact Statement.EachAt.moved hmoves body hids hbody

end Syntax

end DynScript
