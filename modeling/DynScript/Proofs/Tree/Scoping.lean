import Mathlib.Tactic
import DynScript.Proofs.Grammar.Layout

/-!
# Where nodes may stand

A node is evaluated in a `Context`: so many calls are in progress, and these names have a value. `NodeKind.Fits`
says of every form what evaluating it in a context needs, given what the nodes below it need: names have to be
known, a statement makes its name known to those after it, and so does a member to those after it.
-/

namespace DynScript

/-- What is known where a node is evaluated. -/
structure Context where
  /-- How many calls are in progress. -/
  depth : Nat
  /-- Names that have a value. -/
  names : List String

namespace Context

/-- A name gets a value. -/
def define (c : Context) (name : String) : Context := { c with names := name :: c.names }

/-- Several names get values. -/
def defineAll (c : Context) (names : List String) : Context := { c with names := names ++ c.names }

@[simp] theorem depth_define (c : Context) (name : String) : (c.define name).depth = c.depth := rfl

/-- The context in which the value of a binding is evaluated. -/
def forValue (c : Context) (name : String) (mode : BindingMode) : Context :=
  if mode = .recursive then c.define name else c

@[simp] theorem depth_forValue (c : Context) (name : String) (mode : BindingMode) :
    (c.forValue name mode).depth = c.depth := by
  unfold forValue
  split <;> rfl

/-- What is known after a binding is known after it when its value knew its name. -/
theorem mem_define_forValue {c : Context} {name other : String} (mode : BindingMode)
    (h : other ∈ (c.define name).names) : other ∈ ((c.forValue name mode).define name).names := by
  rcases List.mem_cons.1 h with rfl | h
  · exact List.mem_cons_self
  · refine List.mem_cons_of_mem _ ?_
    unfold forValue
    split
    · exact List.mem_cons_of_mem _ h
    · exact h

end Context

/-- The name that a node makes known to what is evaluated after it. -/
def NodeKind.introduced : NodeKind → List String
  | binding name _ _ _ => [name]
  | _ => []

namespace Arena

variable (a : Arena)

/-- The context after a node has been evaluated. -/
def after (c : Context) (id : NodeId) : Context :=
  c.defineAll (((a.kind? id).map NodeKind.introduced).getD [])

variable (J : Context → NodeId → Prop)

/-- Statements may be evaluated one after the other. -/
def Sequence : Context → List NodeId → Prop
  | _, [] => True
  | c, id :: rest => J c id ∧ Sequence (a.after c id) rest

/-- Members of an object may be evaluated one after the other. -/
def Members : Context → List NodeId → Prop
  | _, [] => True
  | c, id :: rest => ∃ name mode isFinal value, a.kind? id = some (.binding name mode isFinal value) ∧
      J (c.forValue name mode) value ∧ Members (c.define name) rest

/-- The body of a function may be evaluated. A block has no scope beside that of the parameters. -/
def Body (c : Context) (id : NodeId) : Prop :=
  ∃ kind, a.kind? id = some kind ∧ match kind with
    | .block items => a.Sequence J c items
    | _ => J c id

end Arena

/-- A name may be looked up: it is known to have a value, unless any name may be looked up. -/
def Context.Bound (c : Context) (lenient : Prop) (name : String) : Prop := name ∈ c.names ∨ lenient

/-- What has to hold where a node is evaluated, given the functions that may be made, and what has to hold of the
nodes below it. A class or an import has no place, and unless names without a value may be looked up, no record
may be opened. -/
def NodeKind.Fits (a : Arena) (lenient : Prop) (made : Context → List Param → NodeId → Prop)
    (J : Context → NodeId → Prop) (c : Context) : NodeKind → Prop
  | block items => a.Sequence J c items
  | binding name mode _ value => J (c.forValue name mode) value
  | function params body => made c params body
  | call callee args => J c callee ∧ ∀ i ∈ args, J c i
  | ident name => c.Bound lenient name
  | literal _ => True
  | list items | print items => ∀ i ∈ items, J c i
  | record fields => ∀ field ∈ fields, J c field.value
  | property target _ | len target | negate target | clone target => J c target
  | loop start stop body => J c start ∧ J c stop ∧ J (c.define "idx") body
  | conditional condition thenBranch elseBranch =>
    J c condition ∧ J c thenBranch ∧ ∀ branch ∈ elseBranch, J c branch
  | assign target value => J c value ∧ ∃ kind, a.kind? target = some kind ∧ match kind with
    | ident name => c.Bound lenient name
    | property owner _ => J c owner
    | _ => True
  | index lhs rhs | logical _ lhs rhs | equality _ lhs rhs | comparison _ lhs rhs | arithmetic _ lhs rhs
  | prepend lhs rhs => J c lhs ∧ J c rhs
  | pipe _ rhs desugared => desugared → J c rhs
  | object params composed members =>
    params = none ∧ (∀ label ∈ composed, c.Bound lenient label.name) ∧ a.Members J c members
  | envOpen target body => lenient ∧ J c target ∧ J c body
  | imports _ _ => False
  | exports names => ∀ label ∈ names, c.Bound lenient label.name
  | returns value => ∀ i ∈ value, J c i

/-! ## Units by themselves -/

namespace NodeKind

/-- Whether a node is an import. -/
def isImport : NodeKind → Bool
  | imports _ _ => true
  | _ => false

/-- Whether a node is an object with a parameter list. -/
def isClass : NodeKind → Bool
  | object params _ _ => params.isSome
  | _ => false

/-- Whether a node opens a record. -/
def isOpening : NodeKind → Bool
  | envOpen _ _ => true
  | _ => false

end NodeKind

namespace Arena

variable {a : Arena} {id : NodeId} {kind : NodeKind}

/-- There are no imports and no classes. -/
def SelfContained (a : Arena) : Prop :=
  ∀ node ∈ a.nodes, node.kind.isImport = false ∧ node.kind.isClass = false

instance (a : Arena) : Decidable a.SelfContained := inferInstanceAs (Decidable (∀ node ∈ a.nodes, _))

/-- No record is opened. -/
def OpensNothing (a : Arena) : Prop := ∀ node ∈ a.nodes, node.kind.isOpening = false

instance (a : Arena) : Decidable a.OpensNothing := inferInstanceAs (Decidable (∀ node ∈ a.nodes, _))

theorem mem_nodes_of_kind? (hk : a.kind? id = some kind) : ∃ node ∈ a.nodes, node.kind = kind := by
  obtain ⟨position, hn⟩ := kind?_eq_some.1 hk
  exact ⟨_, Array.mem_of_getElem? hn, rfl⟩

theorem SelfContained.kind? (hs : a.SelfContained) (hk : a.kind? id = some kind) :
    kind.isImport = false ∧ kind.isClass = false := by
  obtain ⟨node, hn, rfl⟩ := mem_nodes_of_kind? hk
  exact hs node hn

theorem OpensNothing.kind? (hs : a.OpensNothing) (hk : a.kind? id = some kind) : kind.isOpening = false := by
  obtain ⟨node, hn, rfl⟩ := mem_nodes_of_kind? hk
  exact hs node hn

end Arena

/-! ## What holds of more -/

namespace Arena

variable {a : Arena} {J J' : Context → NodeId → Prop} {c : Context}

theorem Sequence.imp (h : ∀ c id, J c id → J' c id) {ids : List NodeId} (hs : a.Sequence J c ids) :
    a.Sequence J' c ids := by
  induction ids generalizing c with
  | nil => trivial
  | cons id rest ih => exact ⟨h c id hs.1, ih hs.2⟩

theorem Members.imp (h : ∀ c id, J c id → J' c id) {ids : List NodeId} (hm : a.Members J c ids) :
    a.Members J' c ids := by
  induction ids generalizing c with
  | nil => trivial
  | cons id rest ih =>
    obtain ⟨name, mode, isFinal, value, hk, hvalue, hrest⟩ := hm
    exact ⟨name, mode, isFinal, value, hk, h _ value hvalue, ih hrest⟩

theorem Body.imp (h : ∀ c id, J c id → J' c id) {id : NodeId} (hb : a.Body J c id) : a.Body J' c id := by
  obtain ⟨kind, hk, hbody⟩ := hb
  refine ⟨kind, hk, ?_⟩
  cases kind with
  | block items => exact Sequence.imp h hbody
  | _ => exact h c id hbody

end Arena

/-- What fits goes on to fit when less has to hold. -/
theorem NodeKind.Fits.imp {a : Arena} {lenient : Prop} {made made' : Context → List Param → NodeId → Prop}
    {J J' : Context → NodeId → Prop} {c : Context}
    (hm : ∀ params body, made c params body → made' c params body) (h : ∀ c id, J c id → J' c id)
    {kind : NodeKind} (hf : kind.Fits a lenient made J c) : kind.Fits a lenient made' J' c := by
  cases kind with
  | block items => exact Arena.Sequence.imp h hf
  | binding name mode isFinal value => exact h _ value hf
  | function params body => exact hm params body hf
  | call callee args => exact ⟨h c callee hf.1, fun i hi => h c i (hf.2 i hi)⟩
  | ident name => exact hf
  | literal value => trivial
  | list items => exact fun i hi => h c i (hf i hi)
  | record fields => exact fun field hfield => h c _ (hf field hfield)
  | property target name => exact h c target hf
  | len operand => exact h c operand hf
  | loop start stop body => exact ⟨h c start hf.1, h c stop hf.2.1, h _ body hf.2.2⟩
  | conditional condition thenBranch elseBranch =>
    exact ⟨h c condition hf.1, h c thenBranch hf.2.1, fun branch hbranch => h c branch (hf.2.2 branch hbranch)⟩
  | assign target value =>
    obtain ⟨hvalue, kind, hk, htarget⟩ := hf
    refine ⟨h c value hvalue, kind, hk, ?_⟩
    cases kind with
    | ident name => exact htarget
    | property owner name => exact h c owner htarget
    | _ => trivial
  | negate operand => exact h c operand hf
  | pipe lhs rhs desugared => exact fun hd => h c rhs (hf hd)
  | object params composed members => exact ⟨hf.1, hf.2.1, hf.2.2.imp h⟩
  | clone operand => exact h c operand hf
  | envOpen target body => exact ⟨hf.1, h c target hf.2.1, h c body hf.2.2⟩
  | imports root path => exact hf
  | exports names => exact hf
  | print args => exact fun i hi => h c i (hf i hi)
  | returns value => exact fun i hi => h c i (hf i hi)
  | index lhs rhs | logical op lhs rhs | equality op lhs rhs | comparison op lhs rhs | arithmetic op lhs rhs
  | prepend lhs rhs => exact ⟨h c lhs hf.1, h c rhs hf.2⟩

/-! ## Static scope -/

namespace Arena

variable {a : Arena} {names : List String} {levels levels' : Nat} {c : Context} {id : NodeId}

/-- A node, down to some levels below it, needs only names that are known in its context. A function that is
made there knows its parameters and the given names. -/
def ScopedWithin (a : Arena) (names : List String) : Nat → Context → NodeId → Prop
  | 0, _, _ => False
  | levels + 1, c, id => ∃ kind, a.kind? id = some kind ∧
      kind.Fits a False (fun _ params body => ∀ depth,
        a.Body (ScopedWithin a names levels) ⟨depth, (params.map fun p => p.name) ++ names⟩ body)
        (ScopedWithin a names levels) c

/-- A function may be made that knows its parameters and the given names. -/
def Makes (a : Arena) (names : List String) (levels : Nat) (params : List Param) (body : NodeId) : Prop :=
  ∀ depth, a.Body (a.ScopedWithin names levels) ⟨depth, (params.map fun p => p.name) ++ names⟩ body

theorem scopedWithin_succ : a.ScopedWithin names (levels + 1) c id ↔ ∃ kind, a.kind? id = some kind ∧
    kind.Fits a False (fun _ => a.Makes names levels) (a.ScopedWithin names levels) c :=
  Iff.rfl

theorem ScopedWithin.more (hl : levels ≤ levels') (h : a.ScopedWithin names levels c id) :
    a.ScopedWithin names levels' c id := by
  induction levels generalizing levels' c id with
  | zero => exact h.elim
  | succ levels ih =>
    obtain ⟨levels', rfl⟩ : ∃ l, levels' = l + 1 := ⟨levels' - 1, by omega⟩
    have hmore (c : Context) (id : NodeId) (h : a.ScopedWithin names levels c id) :
        a.ScopedWithin names levels' c id := ih (Nat.le_of_succ_le_succ hl) h
    obtain ⟨kind, hk, hf⟩ := h
    exact ⟨kind, hk, hf.imp (fun params body hbody depth => (hbody depth).imp hmore) hmore⟩

/-- A node that is scoped fits its context, and so do the nodes below it. -/
theorem ScopedWithin.fits (h : a.ScopedWithin names levels c id) : ∃ kind, a.kind? id = some kind ∧
    kind.Fits a False (fun _ => a.Makes names levels) (a.ScopedWithin names levels) c := by
  cases levels with
  | zero => exact h.elim
  | succ levels =>
    obtain ⟨kind, hk, hf⟩ := scopedWithin_succ.1 h
    have hmore (c : Context) (id : NodeId) (h : a.ScopedWithin names levels c id) :
        a.ScopedWithin names (levels + 1) c id := h.more levels.le_succ
    exact ⟨kind, hk, hf.imp (fun params body hbody depth => (hbody depth).imp hmore) hmore⟩

/-- A node that is scoped may be the body of a function. -/
theorem ScopedWithin.body (h : a.ScopedWithin names levels c id) : a.Body (a.ScopedWithin names levels) c id := by
  obtain ⟨kind, hk, hf⟩ := h.fits
  refine ⟨kind, hk, ?_⟩
  cases kind with
  | block items => exact hf
  | _ => exact h

/-- Members that are scoped may be evaluated one after the other. -/
theorem members_cons {member : NodeId} {rest : List NodeId} {name : String} {mode : BindingMode} {isFinal : Bool}
    {value : NodeId} (hk : a.kind? member = some (.binding name mode isFinal value))
    (h : a.ScopedWithin names levels c member) (hrest : a.Members (a.ScopedWithin names levels) (c.define name) rest) :
    a.Members (a.ScopedWithin names levels) c (member :: rest) := by
  obtain ⟨kind, hk', hf⟩ := h.fits
  obtain rfl := Option.some.inj (hk.symm.trans hk')
  exact ⟨name, mode, isFinal, value, hk, hf, hrest⟩

/-- What is known in the value of a statement: a recursive binding makes its name known there. -/
def visible (a : Arena) (c : Context) (id : NodeId) : Context :=
  match a.kind? id with
  | some (.binding name mode _ _) => c.forValue name mode
  | _ => c

/-- Statements need only names that are known where they stand, and so do the functions that they make. -/
def ScopedAtTop (a : Arena) (levels : Nat) : Context → List NodeId → Prop :=
  a.Sequence fun c id => a.ScopedWithin (a.visible c id).names levels c id

theorem mem_visible {name : String} (h : name ∈ c.names) : name ∈ (a.visible c id).names := by
  unfold visible
  split
  · unfold Context.forValue
    split
    · exact List.mem_cons_of_mem _ h
    · exact h
  · exact h

end Arena

end DynScript
