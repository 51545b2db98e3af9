import DynScript.Proofs.Syntax.Trees

/-!
# A node shows one tree

What a node is says which trees it can show (`Expression.Fits`, `Statement.Fits`), so that it shows one at most.
-/

namespace DynScript

namespace Syntax

variable {a : Arena} {id : NodeId} {kind : NodeKind}

/-- The expressions that a node of a kind can show. -/
def Expression.Fits (a : Arena) (e : Expression) : NodeKind → Prop
  | .literal value => e = .literal value
  | .ident word => e = .name word
  | .list ids => ∃ items, e = .list items ∧ EachAt a items ids
  | .record shown => ∃ fields, e = .record fields ∧ Entry.EachAt a fields shown
  | .function shown block => ∃ params body ids, e = .function params body ∧
      params.map (·, false) = shown.map (fun q => (q.name, q.isMutable)) ∧ a.kind? block = some (.block ids) ∧
      Statement.EachAt a body ids
  | .object shown labels ids => ∃ members, e = .object (shown.map (List.map fun q => (q.name, q.isMutable)))
      (labels.map Label.name) members ∧ Member.EachAt a members ids
  | .imports root path => ∃ first more, e = .imports root first more ∧ path = first :: more
  | .conditional i block branch => ∃ condition body otherwise ids, e = .conditional condition body otherwise ∧
      condition.At a i ∧ a.kind? block = some (.block ids) ∧ Statement.EachAt a body ids ∧ otherwise.At a branch
  | .loop i j block => ∃ first last body ids, e = .loop first last body ∧ first.At a i ∧ last.At a j ∧
      a.kind? block = some (.block ids) ∧ Statement.EachAt a body ids
  | .call i ids => ∃ callee args, e = .call callee args ∧ callee.At a i ∧ EachAt a args ids
  | .index i j => ∃ target index, e = .index target index ∧ target.At a i ∧ index.At a j
  | .property i word => ∃ target, e = .property target word ∧ target.At a i
  | .envOpen i block => ∃ target body ids, e = .envOpen target body ∧ target.At a i ∧
      a.kind? block = some (.block ids) ∧ Statement.EachAt a body ids
  | .negate i => ∃ operand, e = .unary .negate operand ∧ operand.At a i
  | .len i => ∃ operand, e = .unary .len operand ∧ operand.At a i
  | .clone i => ∃ operand, e = .unary .clone operand ∧ operand.At a i
  | .logical op i j => ∃ lhs rhs, e = .binary (.logical op) lhs rhs ∧ lhs.At a i ∧ rhs.At a j
  | .equality op i j => ∃ lhs rhs, e = .binary (.equality op) lhs rhs ∧ lhs.At a i ∧ rhs.At a j
  | .comparison op i j => ∃ lhs rhs, e = .binary (.comparison op) lhs rhs ∧ lhs.At a i ∧ rhs.At a j
  | .arithmetic op i j => ∃ lhs rhs, e = .binary (.arithmetic op) lhs rhs ∧ lhs.At a i ∧ rhs.At a j
  | .prepend i j => ∃ lhs rhs, e = .binary .prepend lhs rhs ∧ lhs.At a i ∧ rhs.At a j
  | .pipe i j _ => ∃ lhs rhs, e = .pipe lhs rhs ∧ lhs.At a i ∧ rhs.At a j
  | .assign i j => (∃ word value, e = .assignName word value ∧ a.kind? i = some (.ident word) ∧ value.At a j) ∨
      ∃ target word value k, e = .assignProperty target word value ∧ a.kind? i = some (.property k word) ∧
        target.At a k ∧ value.At a j
  | _ => False

/-- The kind of a node that shows an expression. -/
theorem Expression.exists_fits {e : Expression} (h : e.At a id) : ∃ kind, a.kind? id = some kind ∧ e.Fits a kind := by
  cases e with
  | literal value => exact ⟨_, h, rfl⟩
  | name name => exact ⟨_, h, rfl⟩
  | list items =>
    obtain ⟨ids, hk, hitems⟩ := h
    exact ⟨_, hk, items, rfl, hitems⟩
  | record fields =>
    obtain ⟨shown, hk, hfields⟩ := h
    exact ⟨_, hk, fields, rfl, hfields⟩
  | function params body =>
    obtain ⟨shown, block, ids, hk, hparams, hblock, hbody⟩ := h
    exact ⟨_, hk, params, body, ids, rfl, hparams.symm, hblock, hbody⟩
  | object params composed members =>
    obtain ⟨shown, labels, ids, hk, rfl, rfl, hmembers⟩ := h
    exact ⟨_, hk, members, rfl, hmembers⟩
  | imports root first more => exact ⟨_, h, first, more, rfl, rfl⟩
  | conditional condition body otherwise =>
    obtain ⟨i, block, ids, branch, hk, hcondition, hblock, hbody, hotherwise⟩ := h
    exact ⟨_, hk, condition, body, otherwise, ids, rfl, hcondition, hblock, hbody, hotherwise⟩
  | loop first last body =>
    obtain ⟨i, j, block, ids, hk, hfirst, hlast, hblock, hbody⟩ := h
    exact ⟨_, hk, first, last, body, ids, rfl, hfirst, hlast, hblock, hbody⟩
  | call callee args =>
    obtain ⟨i, ids, hk, hcallee, hargs⟩ := h
    exact ⟨_, hk, callee, args, rfl, hcallee, hargs⟩
  | index target index =>
    obtain ⟨i, j, hk, htarget, hindex⟩ := h
    exact ⟨_, hk, target, index, rfl, htarget, hindex⟩
  | property target name =>
    obtain ⟨i, hk, htarget⟩ := h
    exact ⟨_, hk, target, rfl, htarget⟩
  | envOpen target body =>
    obtain ⟨i, block, ids, hk, htarget, hblock, hbody⟩ := h
    exact ⟨_, hk, target, body, ids, rfl, htarget, hblock, hbody⟩
  | unary op operand =>
    obtain ⟨i, hk, hoperand⟩ := h
    refine ⟨_, hk, ?_⟩
    cases op <;> exact ⟨operand, rfl, hoperand⟩
  | binary op lhs rhs =>
    obtain ⟨i, j, hk, hlhs, hrhs⟩ := h
    refine ⟨_, hk, ?_⟩
    cases op <;> exact ⟨lhs, rhs, rfl, hlhs, hrhs⟩
  | pipe lhs rhs =>
    obtain ⟨i, j, hk, hlhs, hrhs⟩ := h
    exact ⟨_, hk, lhs, rhs, rfl, hlhs, hrhs⟩
  | assignName name value =>
    obtain ⟨i, j, hk, hname, hvalue⟩ := h
    exact ⟨_, hk, .inl ⟨name, value, rfl, hname, hvalue⟩⟩
  | assignProperty target name value =>
    obtain ⟨i, j, k, hk, hname, htarget, hvalue⟩ := h
    exact ⟨_, hk, .inr ⟨target, name, value, k, rfl, hname, htarget, hvalue⟩⟩

theorem Expression.fits {e : Expression} (h : e.At a id) (hk : a.kind? id = some kind) : e.Fits a kind := by
  obtain ⟨kind', hk', hfits⟩ := exists_fits h
  obtain rfl := Option.some.inj (hk'.symm.trans hk)
  exact hfits

/-- The statements that a node of a kind can show. -/
def Statement.Fits (a : Arena) (id : NodeId) (st : Statement) : NodeKind → Prop
  | .binding name mode isFinal i => ∃ value, st = .binding name mode isFinal value ∧ value.At a i
  | .print ids => ∃ args, st = .print args ∧ Expression.EachAt a args ids
  | .returns none => st = .returns
  | .returns (some i) => ∃ value, st = .returnsValue value ∧ value.At a i
  | .exports labels => ∃ first more, st = .exports first more ∧ labels.map Label.name = first :: more
  | .block ids => ∃ body, st = .block body ∧ EachAt a body ids
  | _ => ∃ value, st = .expression value ∧ value.At a id

theorem Statement.fits {st : Statement} (h : st.At a id) (hk : a.kind? id = some kind) : st.Fits a id kind := by
  cases st with
  | binding name mode isFinal value =>
    obtain ⟨i, hk', hvalue⟩ := h
    obtain rfl := Option.some.inj (hk'.symm.trans hk)
    exact ⟨value, rfl, hvalue⟩
  | print args =>
    obtain ⟨ids, hk', hargs⟩ := h
    obtain rfl := Option.some.inj (hk'.symm.trans hk)
    exact ⟨args, rfl, hargs⟩
  | returns =>
    obtain rfl := Option.some.inj (Eq.symm h |>.trans hk)
    rfl
  | returnsValue value =>
    obtain ⟨i, hk', hvalue⟩ := h
    obtain rfl := Option.some.inj (hk'.symm.trans hk)
    exact ⟨value, rfl, hvalue⟩
  | exports first more =>
    obtain ⟨labels, hk', hlabels⟩ := h
    obtain rfl := Option.some.inj (hk'.symm.trans hk)
    exact ⟨first, more, rfl, hlabels⟩
  | block body =>
    obtain ⟨ids, hk', hbody⟩ := h
    obtain rfl := Option.some.inj (hk'.symm.trans hk)
    exact ⟨body, rfl, hbody⟩
  | expression value =>
    have hfits := Expression.fits h hk
    cases kind with
    | binding | print | returns | exports | block => exact hfits.elim
    | _ => exact ⟨value, rfl, h⟩

/-- Blocks that show statements. -/
theorem blockAt_unique {body body' : List Statement} {block : NodeId} {ids ids' : List NodeId}
    (hunique : Statement.EachAt a body ids → Statement.EachAt a body' ids → body = body')
    (hk : a.kind? block = some (.block ids)) (h : Statement.EachAt a body ids)
    (hk' : a.kind? block = some (.block ids')) (h' : Statement.EachAt a body' ids') : body = body' := by
  obtain rfl : ids = ids' := NodeKind.block.inj (Option.some.inj (hk.symm.trans hk'))
  exact hunique h h'

mutual

/-- A node shows one expression at most. -/
theorem Expression.at_unique : ∀ (e e' : Expression) {id : NodeId}, e.At a id → e'.At a id → e = e'
  | .literal value, e', id, h, h' => (Expression.fits h' h).symm
  | .name name, e', id, h, h' => (Expression.fits h' h).symm
  | .list items, e', id, ⟨ids, hk, h⟩, h' => by
    obtain ⟨items', rfl, hitems⟩ := Expression.fits h' hk
    rw [Expression.eachAt_unique items items' h hitems]
  | .record fields, e', id, ⟨shown, hk, h⟩, h' => by
    obtain ⟨fields', rfl, hfields⟩ := Expression.fits h' hk
    rw [Entry.eachAt_unique fields fields' h hfields]
  | .function params body, e', id, ⟨shown, block, ids, hk, hparams, hblock, hbody⟩, h' => by
    obtain ⟨params', body', ids', rfl, hparams', hblock', hbody'⟩ := Expression.fits h' hk
    have heq : params.map (·, false) = params'.map (·, false) := hparams.symm.trans hparams'.symm
    rw [List.map_injective_iff.2 (fun _ _ h => (Prod.mk.inj h).1) heq,
      blockAt_unique (Statement.eachAt_unique body body') hblock hbody hblock' hbody']
  | .object params composed members, e', id, ⟨shown, labels, ids, hk, hparams, hcomposed, hmembers⟩, h' => by
    obtain ⟨members', rfl, hmembers'⟩ := Expression.fits h' hk
    rw [← hparams, ← hcomposed, Member.eachAt_unique members members' hmembers hmembers']
  | .imports root first more, e', id, h, h' => by
    obtain ⟨first', more', rfl, hpath⟩ := Expression.fits h' h
    obtain ⟨rfl, rfl⟩ := List.cons.inj hpath
    rfl
  | .conditional condition body otherwise, e', id, ⟨i, block, ids, branch, hk, hi, hblock, hbody, hbranch⟩, h' => by
    obtain ⟨condition', body', otherwise', ids', rfl, hi', hblock', hbody', hbranch'⟩ := Expression.fits h' hk
    rw [Expression.at_unique condition condition' hi hi',
      blockAt_unique (Statement.eachAt_unique body body') hblock hbody hblock' hbody',
      Alternative.at_unique otherwise otherwise' hbranch hbranch']
  | .loop first last body, e', id, ⟨i, j, block, ids, hk, hi, hj, hblock, hbody⟩, h' => by
    obtain ⟨first', last', body', ids', rfl, hi', hj', hblock', hbody'⟩ := Expression.fits h' hk
    rw [Expression.at_unique first first' hi hi', Expression.at_unique last last' hj hj',
      blockAt_unique (Statement.eachAt_unique body body') hblock hbody hblock' hbody']
  | .call callee args, e', id, ⟨i, ids, hk, hi, hargs⟩, h' => by
    obtain ⟨callee', args', rfl, hi', hargs'⟩ := Expression.fits h' hk
    rw [Expression.at_unique callee callee' hi hi', Expression.eachAt_unique args args' hargs hargs']
  | .index target index, e', id, ⟨i, j, hk, hi, hj⟩, h' => by
    obtain ⟨target', index', rfl, hi', hj'⟩ := Expression.fits h' hk
    rw [Expression.at_unique target target' hi hi', Expression.at_unique index index' hj hj']
  | .property target name, e', id, ⟨i, hk, hi⟩, h' => by
    obtain ⟨target', rfl, hi'⟩ := Expression.fits h' hk
    rw [Expression.at_unique target target' hi hi']
  | .envOpen target body, e', id, ⟨i, block, ids, hk, hi, hblock, hbody⟩, h' => by
    obtain ⟨target', body', ids', rfl, hi', hblock', hbody'⟩ := Expression.fits h' hk
    rw [Expression.at_unique target target' hi hi',
      blockAt_unique (Statement.eachAt_unique body body') hblock hbody hblock' hbody']
  | .unary op operand, e', id, ⟨i, hk, hi⟩, h' => by
    have hfits := Expression.fits h' hk
    cases op <;>
    · obtain ⟨operand', rfl, hi'⟩ := hfits
      rw [Expression.at_unique operand operand' hi hi']
  | .binary op lhs rhs, e', id, ⟨i, j, hk, hi, hj⟩, h' => by
    have hfits := Expression.fits h' hk
    cases op <;>
    · obtain ⟨lhs', rhs', rfl, hi', hj'⟩ := hfits
      rw [Expression.at_unique lhs lhs' hi hi', Expression.at_unique rhs rhs' hj hj']
  | .pipe lhs rhs, e', id, ⟨i, j, hk, hi, hj⟩, h' => by
    obtain ⟨lhs', rhs', rfl, hi', hj'⟩ := Expression.fits h' hk
    rw [Expression.at_unique lhs lhs' hi hi', Expression.at_unique rhs rhs' hj hj']
  | .assignName name value, e', id, ⟨i, j, hk, hi, hj⟩, h' => by
    rcases Expression.fits h' hk with ⟨name', value', rfl, hi', hj'⟩ | ⟨_, _, _, k, rfl, hi', -, -⟩
    · obtain rfl := NodeKind.ident.inj (Option.some.inj (hi.symm.trans hi'))
      rw [Expression.at_unique value value' hj hj']
    · cases hi.symm.trans hi'
  | .assignProperty target name value, e', id, ⟨i, j, k, hk, hi, ht, hj⟩, h' => by
    rcases Expression.fits h' hk with ⟨name', value', rfl, hi', hj'⟩ | ⟨target', name', value', k', rfl, hi', ht', hj'⟩
    · cases hi.symm.trans hi'
    · obtain ⟨rfl, rfl⟩ := NodeKind.property.inj (Option.some.inj (hi.symm.trans hi'))
      rw [Expression.at_unique target target' ht ht', Expression.at_unique value value' hj hj']

theorem Expression.eachAt_unique : ∀ (es es' : List Expression) {ids : List NodeId}, Expression.EachAt a es ids →
    Expression.EachAt a es' ids → es = es'
  | [], [], _, _, _ => rfl
  | [], _ :: _, _, rfl, ⟨_, _, hids, _, _⟩ => nomatch hids
  | _ :: _, [], _, ⟨_, _, hids, _, _⟩, rfl => nomatch hids
  | e :: es, e' :: es', _, ⟨_, _, rfl, h, hrest⟩, ⟨_, _, hids, h', hrest'⟩ => by
    obtain ⟨rfl, rfl⟩ := List.cons.inj hids
    rw [Expression.at_unique e e' h h', Expression.eachAt_unique es es' hrest hrest']

theorem Entry.at_unique : ∀ (entry entry' : Entry) {shown : Field}, entry.At a shown → entry'.At a shown →
    entry = entry'
  | .field name value, .field name' value', _, ⟨hname, h⟩, ⟨hname', h'⟩ => by
    rw [← hname, ← hname', Expression.at_unique value value' h h']

theorem Entry.eachAt_unique : ∀ (fields fields' : List Entry) {shown : List Field}, Entry.EachAt a fields shown →
    Entry.EachAt a fields' shown → fields = fields'
  | [], [], _, _, _ => rfl
  | [], _ :: _, _, rfl, ⟨_, _, hshown, _, _⟩ => nomatch hshown
  | _ :: _, [], _, ⟨_, _, hshown, _, _⟩, rfl => nomatch hshown
  | entry :: fields, entry' :: fields', _, ⟨_, _, rfl, h, hrest⟩, ⟨_, _, hshown, h', hrest'⟩ => by
    obtain ⟨rfl, rfl⟩ := List.cons.inj hshown
    rw [Entry.at_unique entry entry' h h', Entry.eachAt_unique fields fields' hrest hrest']

theorem Member.at_unique : ∀ (member member' : Member) {id : NodeId}, member.At a id → member'.At a id →
    member = member'
  | .binding name mode isFinal value, .binding name' mode' isFinal' value', _, ⟨i, hk, h⟩, ⟨i', hk', h'⟩ => by
    obtain ⟨rfl, rfl, rfl, rfl⟩ := NodeKind.binding.inj (Option.some.inj (hk.symm.trans hk'))
    rw [Expression.at_unique value value' h h']

theorem Member.eachAt_unique : ∀ (members members' : List Member) {ids : List NodeId}, Member.EachAt a members ids →
    Member.EachAt a members' ids → members = members'
  | [], [], _, _, _ => rfl
  | [], _ :: _, _, rfl, ⟨_, _, hids, _, _⟩ => nomatch hids
  | _ :: _, [], _, ⟨_, _, hids, _, _⟩, rfl => nomatch hids
  | member :: members, member' :: members', _, ⟨_, _, rfl, h, hrest⟩, ⟨_, _, hids, h', hrest'⟩ => by
    obtain ⟨rfl, rfl⟩ := List.cons.inj hids
    rw [Member.at_unique member member' h h', Member.eachAt_unique members members' hrest hrest']

theorem Alternative.at_unique : ∀ (o o' : Alternative) {branch : Option NodeId}, o.At a branch → o'.At a branch → o = o'
  | .none, .none, _, _, _ => rfl
  | .none, .block _, _, rfl, ⟨_, _, hbranch, _, _⟩ => nomatch hbranch
  | .none, .conditional _ _ _, _, rfl, ⟨_, _, _, _, _, hbranch, _⟩ => nomatch hbranch
  | .block _, .none, _, ⟨_, _, hbranch, _, _⟩, rfl => nomatch hbranch
  | .block body, .block body', _, ⟨block, ids, rfl, hk, h⟩, ⟨block', ids', hbranch, hk', h'⟩ => by
    obtain rfl := Option.some.inj hbranch
    rw [blockAt_unique (Statement.eachAt_unique body body') hk h hk' h']
  | .block _, .conditional _ _ _, _, ⟨block, ids, rfl, hk, _⟩, ⟨_, _, _, _, _, hbranch, hk', _⟩ => by
    obtain rfl := Option.some.inj hbranch
    cases hk.symm.trans hk'
  | .conditional _ _ _, .none, _, ⟨_, _, _, _, _, hbranch, _⟩, rfl => nomatch hbranch
  | .conditional _ _ _, .block _, _, ⟨_, _, _, _, _, rfl, hk, _⟩, ⟨block, ids, hbranch, hk', _⟩ => by
    obtain rfl := Option.some.inj hbranch
    cases hk.symm.trans hk'
  | .conditional condition body o, .conditional condition' body' o', _,
      ⟨id, i, block, ids, inner, rfl, hk, hi, hblock, hbody, hinner⟩,
      ⟨id', i', block', ids', inner', hbranch, hk', hi', hblock', hbody', hinner'⟩ => by
    obtain rfl := Option.some.inj hbranch
    obtain ⟨rfl, rfl, rfl⟩ := NodeKind.conditional.inj (Option.some.inj (hk.symm.trans hk'))
    rw [Expression.at_unique condition condition' hi hi',
      blockAt_unique (Statement.eachAt_unique body body') hblock hbody hblock' hbody',
      Alternative.at_unique o o' hinner hinner']

theorem Statement.at_unique : ∀ (st st' : Statement) {id : NodeId}, st.At a id → st'.At a id → st = st'
  | .binding name mode isFinal value, st', id, ⟨i, hk, h⟩, h' => by
    obtain ⟨value', rfl, hvalue⟩ := Statement.fits h' hk
    rw [Expression.at_unique value value' h hvalue]
  | .print args, st', id, ⟨ids, hk, h⟩, h' => by
    obtain ⟨args', rfl, hargs⟩ := Statement.fits h' hk
    rw [Expression.eachAt_unique args args' h hargs]
  | .returns, st', id, h, h' => (Statement.fits h' h).symm
  | .returnsValue value, st', id, ⟨i, hk, h⟩, h' => by
    obtain ⟨value', rfl, hvalue⟩ := Statement.fits h' hk
    rw [Expression.at_unique value value' h hvalue]
  | .exports first more, st', id, ⟨labels, hk, h⟩, h' => by
    obtain ⟨first', more', rfl, hlabels⟩ := Statement.fits h' hk
    obtain ⟨rfl, rfl⟩ := List.cons.inj (h.symm.trans hlabels)
    rfl
  | .block body, st', id, ⟨ids, hk, h⟩, h' => by
    obtain ⟨body', rfl, hbody⟩ := Statement.fits h' hk
    rw [Statement.eachAt_unique body body' h hbody]
  | .expression value, st', id, h, h' => by
    obtain ⟨kind, hk, hfits⟩ := Expression.exists_fits h
    have hst := Statement.fits h' hk
    cases kind with
    | binding | print | returns | exports | block => exact hfits.elim
    | _ =>
      obtain ⟨value', rfl, hvalue⟩ := hst
      rw [Expression.at_unique value value' h hvalue]

theorem Statement.eachAt_unique : ∀ (body body' : List Statement) {ids : List NodeId}, Statement.EachAt a body ids →
    Statement.EachAt a body' ids → body = body'
  | [], [], _, _, _ => rfl
  | [], _ :: _, _, rfl, ⟨_, _, hids, _, _⟩ => nomatch hids
  | _ :: _, [], _, ⟨_, _, hids, _, _⟩, rfl => nomatch hids
  | st :: body, st' :: body', _, ⟨_, _, rfl, h, hrest⟩, ⟨_, _, hids, h', hrest'⟩ => by
    obtain ⟨rfl, rfl⟩ := List.cons.inj hids
    rw [Statement.at_unique st st' h h', Statement.eachAt_unique body body' hrest hrest']

end

end Syntax

/-- A program shows one list of statements at most. -/
theorem Program.shows_unique {p : Program} {body body' : List Syntax.Statement} (h : p.Shows body)
    (h' : p.Shows body') : body = body' := by
  obtain ⟨ids, hk, hbody⟩ := h
  obtain ⟨ids', hk', hbody'⟩ := h'
  exact Syntax.blockAt_unique (Syntax.Statement.eachAt_unique body body') hk hbody hk' hbody'

end DynScript
