import DynScript.Proofs.Scope.Search

/-!
# What every tree of environments keeps

However a tree of environments has been made, its parents were made before their children, siblings that are listed
have different names, and in no scope a declaration follows a final one of its name. Therefore the listed subtree of an
environment is finite and so is the way to the root, and the searches, which say in advance how far they go, miss
nothing: they find what stands first in the listed subtrees on the way to the root.

All this holds as long as there are numbers for the environments, which have 32 bits. An environment more has the
number of the last one again, and then an environment may list itself: `last_environment_lists_itself`.
-/

namespace DynScript

/-- No declaration of a scope follows a final one of its name. The later ones stand first. -/
def Scope.Sealed (s : Scope) : Prop :=
  s.declarations.Pairwise fun later earlier => later.name = earlier.name → earlier.isFinal = false

namespace Scope

theorem sealed_empty : empty.Sealed := .nil

/-- A declaration may be added when the one in force is not final. -/
theorem Sealed.push {s : Scope} (hs : s.Sealed) {d : Declaration}
    (hd : (s.find? d.name).filter Declaration.isFinal = none) : (s.push d).Sealed := by
  refine List.pairwise_cons.2 ⟨fun earlier hmem hname => ?_, hs⟩
  -- The declaration in force is the latest of its name, so a final one that is older would have been followed by it.
  obtain ⟨found, hfound⟩ := Option.isSome_iff_exists.1 (List.find?_isSome (p := fun x => x.name = d.name).2
    ⟨earlier, hmem, decide_eq_true hname.symm⟩)
  have hopen : found.isFinal = false := by
    have hfind : s.find? d.name = some found := hfound
    rw [hfind, Option.filter_some] at hd
    by_contra hfinal
    rw [if_pos (by simpa using hfinal)] at hd
    cases hd
  obtain ⟨hname', older, newer, hsplit, hbefore⟩ := List.find?_eq_some_iff_append.1 hfound
  rw [Sealed, hsplit] at hs
  rw [hsplit, List.mem_append, List.mem_cons] at hmem
  rcases hmem with hold | rfl | hnew
  · exact absurd hname.symm (by simpa using hbefore earlier hold)
  · exact hopen
  · exact (List.pairwise_cons.1 (List.pairwise_append.1 hs).2.1).1 earlier hnew
      ((of_decide_eq_true hname').trans hname)

end Scope

namespace EnvTree

variable {t : EnvTree} {e p c a : EnvId} {name : String} {node : EnvNode}

/-! ## Changes -/

/-- A change of a tree. -/
inductive Change where
  /-- An environment is made in another one. -/
  | pushEnvironment (parent : EnvId) (name : String)
  /-- A name is declared. -/
  | define (e : EnvId) (d : Declaration)
  /-- A scope is opened. -/
  | pushScope (e : EnvId)
  /-- The innermost scope is closed, if there is one. -/
  | popScope (e : EnvId)
  /-- Scopes are closed until some are left. -/
  | truncateScopes (e : EnvId) (count : Nat)
  /-- The scopes of an environment are copied into another one, or into itself. -/
  | bringIntoScope (target source : EnvId)

/-- The environments that a change is about. -/
def Change.about : Change → List EnvId
  | pushEnvironment e _ | define e _ | pushScope e | popScope e | truncateScopes e _ => [e]
  | bringIntoScope target source => [target, source]

/-- The tree after a change. A declaration that is refused changes nothing. -/
def apply (t : EnvTree) : Change → EnvTree
  | .pushEnvironment parent name => (t.pushEnvironment parent name).2
  | .define e d => (t.define e d).toOption.getD t
  | .pushScope e => t.pushScope e
  | .popScope e => t.popScope e
  | .truncateScopes e count => t.truncateScopes e count
  | .bringIntoScope target source => t.bringIntoScope target source

/-- A tree that has come about by changes of environments that were there. -/
inductive Built : EnvTree → Prop
  /-- A new tree. -/
  | new (name : String) : Built (new name)
  /-- One more change. -/
  | after {t : EnvTree} (h : Built t) (change : Change) (there : ∀ e ∈ change.about, e.index < t.size) :
    Built (t.apply change)

/-! ## The invariant -/

/-- A tree in which environments and declarations are where they belong. -/
structure Orderly (t : EnvTree) : Prop where
  /-- A parent was made before its child. -/
  parents : ∀ e p, t.parent? e = some p → p.index < e.index
  /-- An environment is the parent of those that it lists. -/
  children : ∀ e, ∀ c ∈ t.children e, t.parent? c = some e
  /-- Of two that it lists the first one was made first. -/
  order : ∀ e, (t.children e).Pairwise fun c c' => c.index < c'.index
  /-- They have different names. -/
  names : ∀ e, (t.children e).Pairwise fun c c' => t.name? c ≠ t.name? c'
  /-- In no scope a declaration follows a final one of its name. -/
  scopes : ∀ e, ∀ scope ∈ t.scopes e, scope.Sealed

theorem exists_of_parent? (h : t.parent? e = some p) : ∃ node, t.get? e = some node ∧ node.parent = some p :=
  Option.bind_eq_some_iff.1 h

theorem lt_size_of_parent? (h : t.parent? e = some p) : e.index < t.size := by
  obtain ⟨node, hnode, -⟩ := exists_of_parent? h
  exact lt_size_of_get? hnode

theorem children_eq_nil (h : t.size ≤ e.index) : t.children e = [] := by rw [children, get?_eq_none h]; rfl

theorem Orderly.lt_of_mem (ht : t.Orderly) (hc : c ∈ t.children e) : e.index < c.index :=
  ht.parents c e (ht.children e c hc)

theorem Orderly.lt_size_of_mem (ht : t.Orderly) (hc : c ∈ t.children e) : c.index < t.size :=
  lt_size_of_parent? (ht.children e c hc)

theorem orderly_new (name : String) : (new name).Orderly := by
  have hget (e : EnvId) (node : EnvNode) (h : (new name).get? e = some node) : node = ⟨name, none, [], [.empty]⟩ := by
    have hindex : e.index = 0 := Nat.lt_one_iff.1 (lt_size_of_get? h)
    rw [get?, hindex] at h
    exact (Option.some.inj h).symm
  have hchildren (e : EnvId) : (new name).children e = [] := by
    unfold EnvTree.children
    cases h : (new name).get? e with
    | none => rfl
    | some node => rw [hget e node h]; rfl
  refine ⟨fun e p h => ?_, fun e c hc => ?_, fun e => ?_, fun e => ?_, fun e scope hscope => ?_⟩
  · obtain ⟨node, hnode, hp⟩ := exists_of_parent? h
    rw [hget e node hnode] at hp
    cases hp
  · rw [hchildren] at hc
    cases hc
  · rw [hchildren]
    exact .nil
  · rw [hchildren]
    exact .nil
  · unfold EnvTree.scopes at hscope
    cases h : (new name).get? e with
    | none =>
      rw [h] at hscope
      cases hscope
    | some node =>
      rw [h, hget e node h] at hscope
      obtain rfl := List.mem_singleton.1 hscope
      exact Scope.sealed_empty

/-- A change of scopes keeps the order when the new scopes are sealed, too. -/
theorem Orderly.modifyScopes (ht : t.Orderly) (f : List Scope → List Scope)
    (hf : (∀ scope ∈ t.scopes e, scope.Sealed) → ∀ scope ∈ f (t.scopes e), scope.Sealed) :
    (t.modifyScopes e f).Orderly where
  parents x p h := ht.parents x p (by simpa using h)
  children x c hc := by simpa using ht.children x c (by simpa using hc)
  order x := by simpa using ht.order x
  names x := by simpa using ht.names x
  scopes x scope hscope := by
    by_cases hx : x = e
    · subst hx
      by_cases hsize : x.index < t.size
      · rw [scopes_modifyScopes_self f hsize] at hscope
        exact hf (ht.scopes x) scope hscope
      · have hnone : (t.modifyScopes x f).get? x = none := get?_eq_none (by simpa using hsize)
        rw [EnvTree.scopes, hnone] at hscope
        cases hscope
    · rw [scopes_modifyScopes_of_ne f hx] at hscope
      exact ht.scopes x scope hscope

/-! ### A new environment -/

/-- What an environment is after another one was made. The one in which it was made lists it as the last one, unless it
lists one of its name. -/
theorem exists_listed (t : EnvTree) (p : EnvId) (name : String) (e : EnvId) : ∃ listed,
    (t.pushEnvironment p name).2.get? e =
      (if e.index = t.size then some ⟨name, some p, [], [.empty]⟩ else t.get? e).map (fun node =>
        { node with children := node.children ++ listed }) ∧
    (listed = [] ∨ e = p ∧ listed = [.ofIndex t.size] ∧ ∀ c ∈ t.children p, t.name? c ≠ some name) := by
  unfold pushEnvironment
  by_cases hany : (t.children p).any fun child => t.name? child = some name
  · rw [if_pos hany]
    refine ⟨[], ?_, .inl rfl⟩
    simp [get?_grown]
  · rw [if_neg hany]
    by_cases hep : e = p
    · refine ⟨[.ofIndex t.size], ?_, .inr ⟨hep, rfl, fun c hc hname => hany ?_⟩⟩
      · rw [get?_modify, if_pos hep, get?_grown]
      · exact List.any_eq_true.2 ⟨c, hc, decide_eq_true hname⟩
    · refine ⟨[], ?_, .inl rfl⟩
      rw [get?_modify, if_neg hep, get?_grown]
      simp

theorem parent?_pushEnvironment (t : EnvTree) (p : EnvId) (name : String) (e : EnvId) :
    (t.pushEnvironment p name).2.parent? e = if e.index = t.size then some p else t.parent? e := by
  obtain ⟨listed, hget, -⟩ := t.exists_listed p name e
  rw [parent?, hget]
  split
  · rfl
  · rw [parent?, Option.bind_map]
    rfl

theorem name?_pushEnvironment (t : EnvTree) (p : EnvId) (name : String) (e : EnvId) :
    (t.pushEnvironment p name).2.name? e = if e.index = t.size then some name else t.name? e := by
  obtain ⟨listed, hget, -⟩ := t.exists_listed p name e
  rw [name?, hget]
  split
  · rfl
  · rw [name?, Option.map_map]
    rfl

theorem scopes_pushEnvironment (t : EnvTree) (p : EnvId) (name : String) (e : EnvId) :
    (t.pushEnvironment p name).2.scopes e = if e.index = t.size then [.empty] else t.scopes e := by
  obtain ⟨listed, hget, -⟩ := t.exists_listed p name e
  rw [scopes, hget]
  split
  · rfl
  · rw [scopes, Option.map_map]
    rfl

theorem children_pushEnvironment (hp : p.index < t.size) (name : String) (e : EnvId) :
    (t.pushEnvironment p name).2.children e = t.children e ∨
      e = p ∧ (t.pushEnvironment p name).2.children e = t.children e ++ [.ofIndex t.size] ∧
        ∀ c ∈ t.children e, t.name? c ≠ some name := by
  obtain ⟨listed, hget, rfl | ⟨rfl, rfl, hnames⟩⟩ := t.exists_listed p name e
  · left
    rw [children, hget]
    split
    · rename_i hnew
      rw [children_eq_nil hnew.ge]
      rfl
    · rw [children]
      cases t.get? e <;> simp
  · obtain ⟨node, hnode⟩ := exists_get? hp
    refine .inr ⟨rfl, ?_, hnames⟩
    rw [children, hget, if_neg hp.ne, children, hnode]
    rfl

theorem Orderly.pushEnvironment (ht : t.Orderly) (hp : p.index < t.size) (hroom : t.size < UInt32.size)
    (name : String) : (t.pushEnvironment p name).2.Orderly := by
  have hindex : (EnvId.ofIndex t.size).index = t.size := EnvId.index_ofIndex hroom
  have hold {x y : EnvId} (h : t.parent? x = some y) : x.index ≠ t.size := (lt_size_of_parent? h).ne
  have hnames {e : EnvId} : ∀ c ∈ t.children e, (t.pushEnvironment p name).2.name? c = t.name? c := fun c hc => by
    rw [name?_pushEnvironment, if_neg (hold (ht.children e c hc))]
  constructor
  case parents =>
    intro e q hq
    rw [parent?_pushEnvironment] at hq
    split at hq
    · rename_i hnew
      obtain rfl := Option.some.inj hq
      rw [hnew]
      exact hp
    · exact ht.parents e q hq
  case children =>
    intro e c hc
    rw [parent?_pushEnvironment]
    rcases children_pushEnvironment hp name e with hsame | ⟨rfl, hmore, -⟩
    · rw [hsame] at hc
      rw [if_neg (hold (ht.children e c hc)), ht.children e c hc]
    · rw [hmore, List.mem_append, List.mem_singleton] at hc
      rcases hc with hc | rfl
      · rw [if_neg (hold (ht.children e c hc)), ht.children e c hc]
      · rw [if_pos hindex]
  case order =>
    intro e
    rcases children_pushEnvironment hp name e with hsame | ⟨rfl, hmore, -⟩
    · rw [hsame]
      exact ht.order e
    · rw [hmore]
      refine List.pairwise_append.2 ⟨ht.order e, List.pairwise_singleton .., fun c hc c' hc' => ?_⟩
      obtain rfl := List.mem_singleton.1 hc'
      exact hindex.symm ▸ ht.lt_size_of_mem hc
  case names =>
    intro e
    have hsiblings : (t.children e).Pairwise fun c c' =>
        (t.pushEnvironment p name).2.name? c ≠ (t.pushEnvironment p name).2.name? c' :=
      (ht.names e).imp_of_mem fun hc hc' hne => by rwa [hnames _ hc, hnames _ hc']
    rcases children_pushEnvironment hp name e with hsame | ⟨rfl, hmore, hother⟩
    · rwa [hsame]
    · rw [hmore]
      refine List.pairwise_append.2 ⟨hsiblings, List.pairwise_singleton .., fun c hc c' hc' => ?_⟩
      obtain rfl := List.mem_singleton.1 hc'
      rw [hnames c hc, name?_pushEnvironment, if_pos hindex]
      exact hother c hc
  case scopes =>
    intro e scope hscope
    rw [scopes_pushEnvironment] at hscope
    split at hscope
    · obtain rfl := List.mem_singleton.1 hscope
      exact Scope.sealed_empty
    · exact ht.scopes e scope hscope

/-- A declaration is refused only if a final one of its name is in force in the innermost scope. Otherwise it is added
there, and if no scope is open then in a new one. -/
theorem define_cases (t : EnvTree) (e : EnvId) (d : Declaration) :
    (∃ existing, t.define e d = .error existing ∧ existing.isFinal = true ∧
      ∃ scope outer, t.scopes e = scope :: outer ∧ scope.find? d.name = some existing) ∨
    (∃ f : List Scope → List Scope, t.define e d = .ok (t.modifyScopes e f) ∧
      (t.scopes e = [] ∧ f (t.scopes e) = [Scope.empty.push d] ∨
        ∃ scope outer, t.scopes e = scope :: outer ∧ f (t.scopes e) = scope.push d :: outer ∧
          (scope.find? d.name).filter Declaration.isFinal = none)) := by
  unfold define finalInScope?
  cases hscopes : t.scopes e with
  | nil => exact .inr ⟨_, rfl, .inl ⟨rfl, rfl⟩⟩
  | cons scope outer =>
    dsimp only
    cases hfinal : (scope.find? d.name).filter Declaration.isFinal with
    | none => exact .inr ⟨_, rfl, .inr ⟨scope, outer, rfl, rfl, hfinal⟩⟩
    | some existing =>
      obtain ⟨hfound, hexisting⟩ := Option.filter_eq_some_iff.1 hfinal
      exact .inl ⟨existing, rfl, hexisting, scope, outer, rfl, hfound⟩

/-- No change takes an environment away. -/
theorem size_le_apply (t : EnvTree) (change : Change) : t.size ≤ (t.apply change).size := by
  cases change with
  | pushEnvironment parent name => exact (t.size_pushEnvironment parent name).symm ▸ Nat.le_succ _
  | define e d =>
    show t.size ≤ ((t.define e d).toOption.getD t).size
    rcases t.define_cases e d with ⟨existing, hrefused, -⟩ | ⟨f, hdefined, -⟩
    · rw [hrefused]
      exact le_rfl
    · rw [hdefined]
      exact (t.size_modifyScopes e f).ge
  | pushScope | popScope | truncateScopes | bringIntoScope => exact (t.size_modifyScopes _ _).ge

theorem Orderly.apply (ht : t.Orderly) {change : Change} (hthere : ∀ e ∈ change.about, e.index < t.size)
    (hsize : (t.apply change).size ≤ UInt32.size) : (t.apply change).Orderly := by
  cases change with
  | pushEnvironment parent name =>
    have hroom : t.size + 1 ≤ UInt32.size := t.size_pushEnvironment parent name ▸ hsize
    exact ht.pushEnvironment (hthere parent List.mem_cons_self) hroom name
  | define e d =>
    show ((t.define e d).toOption.getD t).Orderly
    rcases t.define_cases e d with ⟨existing, hrefused, -⟩ | ⟨f, hdefined, hf⟩
    · rw [hrefused]
      exact ht
    · rw [hdefined]
      refine ht.modifyScopes f fun hsealed => ?_
      rcases hf with ⟨-, hf⟩ | ⟨scope, outer, hscopes, hf, hopen⟩ <;> rw [hf]
      · exact List.forall_mem_singleton.2 (Scope.sealed_empty.push rfl)
      · rw [hscopes, List.forall_mem_cons] at hsealed
        exact List.forall_mem_cons.2 ⟨hsealed.1.push hopen, hsealed.2⟩
  | pushScope e => exact ht.modifyScopes _ fun hsealed => List.forall_mem_cons.2 ⟨Scope.sealed_empty, hsealed⟩
  | popScope e => exact ht.modifyScopes _ fun hsealed scope hscope => hsealed scope (List.mem_of_mem_tail hscope)
  | truncateScopes e count =>
    exact ht.modifyScopes (fun scopes => scopes.drop (scopes.length - count)) fun hsealed scope hscope =>
      hsealed scope (List.mem_of_mem_drop hscope)
  | bringIntoScope target source =>
    refine ht.modifyScopes _ fun hsealed scope hscope => ?_
    rcases List.mem_append.1 hscope with hcopy | hown
    · exact ht.scopes source scope hcopy
    · exact hsealed scope hown

theorem Built.orderly (h : t.Built) (hsize : t.size ≤ UInt32.size) : t.Orderly := by
  induction h with
  | new name => exact orderly_new name
  | @after t _ change hthere ih => exact (ih ((t.size_le_apply change).trans hsize)).apply hthere hsize

/-! ## Searches -/

/-- The environments in the listed subtrees of some environments, each one before those that it lists. -/
inductive Preorder (t : EnvTree) : List EnvId → List EnvId → Prop
  | nil : Preorder t [] []
  | cons {e : EnvId} {below rest more : List EnvId} (inside : Preorder t (t.children e) below)
      (after : Preorder t rest more) : Preorder t (e :: rest) (e :: below ++ more)

/-- An environment and those around it, up to the root. -/
inductive Climb (t : EnvTree) : EnvId → List EnvId → Prop
  | top {e : EnvId} (h : t.parent? e = none) : Climb t e [e]
  | step {e p : EnvId} {around : List EnvId} (h : t.parent? e = some p) (rest : Climb t p around) :
      Climb t e (e :: around)

namespace Preorder

/-- There is only one such order. -/
theorem unique {forest order order' : List EnvId} (h : t.Preorder forest order) (h' : t.Preorder forest order') :
    order' = order := by
  induction h generalizing order' with
  | nil =>
    cases h'
    rfl
  | cons _ _ ih ih' =>
    obtain _ | ⟨inside, after⟩ := h'
    rw [ih inside, ih' after]

/-- A search that goes as far down as there are environments finds the first one of the name. -/
theorem findSome?_findBelow? (ht : t.Orderly) {forest order : List EnvId} (h : t.Preorder forest order) (name : String)
    {levels : Nat} (hlevels : ∀ e ∈ forest, t.size ≤ e.index + levels) :
    forest.findSome? (t.findBelow? name levels) = order.find? fun e => t.name? e = some name := by
  induction h generalizing levels with
  | nil => rfl
  | @cons e below rest more inside after ih ih' =>
    rw [List.forall_mem_cons] at hlevels
    rw [List.findSome?_cons, List.cons_append, List.find?_cons, List.find?_append, ih' hlevels.2]
    by_cases hname : t.name? e = some name
    · have hlt : e.index < t.size := by
        obtain ⟨node, hnode, -⟩ := Option.map_eq_some_iff.1 hname
        exact lt_size_of_get? hnode
      obtain ⟨l, rfl⟩ : ∃ l, levels = l + 1 := ⟨levels - 1, by omega⟩
      rw [findBelow?, if_pos hname]
      simp [hname]
    · have hbelow : t.findBelow? name levels e = below.find? fun e => t.name? e = some name := by
        cases levels with
        | zero =>
          have hnone : t.children e = [] := children_eq_nil hlevels.1
          rw [hnone] at inside
          cases inside
          rfl
        | succ l =>
          rw [findBelow?, if_neg hname]
          refine ih fun c hc => ?_
          have hlt := ht.lt_of_mem hc
          omega
      rw [hbelow]
      simp only [hname, decide_false]
      cases below.find? fun e => t.name? e = some name <;> rfl

end Preorder

/-- The listed subtree of an environment is finite. -/
theorem Orderly.exists_preorder (ht : t.Orderly) (e : EnvId) : ∃ order, t.Preorder [e] order := by
  -- What an environment lists was made after it, so the induction goes from the latest one to the earlier ones.
  induction hn : t.size - e.index using Nat.strong_induction_on generalizing e with
  | _ n ih =>
    have hforest (forest : List EnvId) (h : ∀ c ∈ forest, c ∈ t.children e) : ∃ order, t.Preorder forest order := by
      induction forest with
      | nil => exact ⟨[], .nil⟩
      | cons c rest ihrest =>
        rw [List.forall_mem_cons] at h
        have hlt := ht.lt_of_mem h.1
        have hsize := ht.lt_size_of_mem h.1
        obtain ⟨order, hc⟩ := ih (t.size - c.index) (by omega) c rfl
        obtain ⟨more, hrest⟩ := ihrest h.2
        obtain _ | ⟨inside, -⟩ := hc
        exact ⟨_, .cons inside hrest⟩
    obtain ⟨below, hbelow⟩ := hforest (t.children e) fun _ hc => hc
    exact ⟨_, .cons hbelow .nil⟩

namespace Climb

theorem unique {around around' : List EnvId} (h : t.Climb e around) (h' : t.Climb e around') : around' = around := by
  induction h generalizing around' with
  | top hnone =>
    cases h' with
    | top => rfl
    | step hsome => exact nomatch hnone.symm.trans hsome
  | step hsome _ ih =>
    cases h' with
    | top hnone => exact nomatch hnone.symm.trans hsome
    | step hsome' rest =>
      obtain rfl := Option.some.inj (hsome.symm.trans hsome')
      rw [ih rest]

/-- A search that goes up as far as there are environments takes the first of what is found on the way. -/
theorem search_eq {α : Type} {here : EnvId → Option α} {go : Nat → EnvId → Option α}
    (hgo : ∀ levels e, go (levels + 1) e = (here e).or ((t.parent? e).bind (go levels))) (ht : t.Orderly)
    {around : List EnvId} (h : t.Climb e around) {levels : Nat} (hlevels : e.index < levels) :
    go levels e = around.findSome? here := by
  induction h generalizing levels with
  | top hnone =>
    obtain ⟨l, rfl⟩ : ∃ l, levels = l + 1 := ⟨levels - 1, by omega⟩
    rw [hgo, hnone, List.findSome?_singleton]
    exact Option.or_none
  | @step e p around hsome _ ih =>
    obtain ⟨l, rfl⟩ : ∃ l, levels = l + 1 := ⟨levels - 1, by omega⟩
    have hlt := ht.parents e p hsome
    rw [hgo, hsome, Option.bind_some, ih (by omega), List.findSome?_cons]
    cases here e <;> rfl

theorem findFrom?_eq (ht : t.Orderly) {around : List EnvId} (h : t.Climb e around) (name : String) {levels : Nat}
    (hlevels : e.index < levels) :
    t.findFrom? name levels e = around.findSome? (t.findBelow? name t.size) :=
  search_eq (fun _ _ => rfl) ht h hlevels

theorem lookupFrom?_eq (ht : t.Orderly) {around : List EnvId} (h : t.Climb e around) (name : String) {levels : Nat}
    (hlevels : e.index < levels) :
    t.lookupFrom? name levels e = around.findSome? fun a => (t.scopes a).findSome? (·.find? name) :=
  search_eq (fun _ _ => rfl) ht h hlevels

end Climb

/-- The way to the root is finite. -/
theorem Orderly.exists_climb (ht : t.Orderly) (e : EnvId) : ∃ around, t.Climb e around := by
  induction hn : e.index using Nat.strong_induction_on generalizing e with
  | _ n ih =>
    cases hparent : t.parent? e with
    | none => exact ⟨_, .top hparent⟩
    | some p =>
      have hlt := ht.parents e p hparent
      obtain ⟨around, hp⟩ := ih p.index (by omega) p rfl
      exact ⟨_, .step hparent hp⟩

/-- An environment of the name stands in the listed subtree of another one. -/
def Holds (t : EnvTree) (a : EnvId) (name : String) : Prop :=
  ∃ order, t.Preorder [a] order ∧ ∃ x ∈ order, t.name? x = some name

/-- From an environment a name finds the first one in the listed subtree of the nearest environment around it whose
listed subtree holds the name. -/
def Finds (t : EnvTree) (around : List EnvId) (name : String) (found : EnvId) : Prop :=
  ∃ nearer a further order, around = nearer ++ a :: further ∧ (∀ b ∈ nearer, ¬ t.Holds b name) ∧
    t.Preorder [a] order ∧ order.find? (fun x => t.name? x = some name) = some found

section

variable {around order : List EnvId} (ht : t.Orderly)
include ht

/-- In the listed subtree of an environment a search finds the first one of the name. -/
theorem Preorder.findBelow?_eq (h : t.Preorder [a] order) (name : String) :
    t.findBelow? name t.size a = order.find? fun x => t.name? x = some name := by
  rw [← h.findSome?_findBelow? ht name fun e _ => Nat.le_add_left t.size e.index, List.findSome?_singleton]

theorem Orderly.findBelow?_eq_none (name : String) : t.findBelow? name t.size a = none ↔ ¬ t.Holds a name := by
  obtain ⟨order, horder⟩ := ht.exists_preorder a
  rw [horder.findBelow?_eq ht, List.find?_eq_none]
  constructor
  · rintro hnone ⟨order', horder', x, hx, hname⟩
    obtain rfl := horder.unique horder'
    exact hnone x hx (decide_eq_true hname)
  · intro hholds x hx hname
    exact hholds ⟨order, horder, x, hx, of_decide_eq_true hname⟩

theorem Climb.findEnv?_eq (h : t.Climb e around) (he : e.index < t.size) (name : String) :
    t.findEnv? e name = around.findSome? (t.findBelow? name t.size) :=
  h.findFrom?_eq ht name he

theorem Climb.findEnv?_eq_some (h : t.Climb e around) (he : e.index < t.size) (name : String) (found : EnvId) :
    t.findEnv? e name = some found ↔ t.Finds around name found := by
  rw [h.findEnv?_eq ht he, List.findSome?_eq_some_iff]
  constructor
  · rintro ⟨nearer, a, further, hsplit, hfound, hnearer⟩
    obtain ⟨order, horder⟩ := ht.exists_preorder a
    refine ⟨nearer, a, further, order, hsplit, fun b hb => (ht.findBelow?_eq_none name).1 (hnearer b hb), horder, ?_⟩
    rw [← horder.findBelow?_eq ht, hfound]
  · rintro ⟨nearer, a, further, order, hsplit, hnearer, horder, hfound⟩
    refine ⟨nearer, a, further, hsplit, ?_, fun b hb => (ht.findBelow?_eq_none name).2 (hnearer b hb)⟩
    rw [horder.findBelow?_eq ht, hfound]

theorem Climb.findEnv?_eq_none (h : t.Climb e around) (he : e.index < t.size) (name : String) :
    t.findEnv? e name = none ↔ ∀ a ∈ around, ¬ t.Holds a name := by
  rw [h.findEnv?_eq ht he, List.findSome?_eq_none_iff]
  exact forall₂_congr fun a _ => ht.findBelow?_eq_none name

end

/-- A tree that has come about by any changes of environments that were there is in order, as long as there are numbers
for its environments: parents were made before their children, the listed children of an environment belong to it, stand
in the order in which they were made and have different names, and in no scope a declaration follows a final one of its
name. A declaration is refused for a final one of its name in the innermost scope, and the tree stays. From every
environment the way to the root is finite, and so are the listed subtrees of the environments on it. A name means what
the first scope on this way says that declares it, and as the name of an environment it finds the first one in the
listed subtree of the nearest environment whose listed subtree holds it, or nothing if there is none. -/
theorem searches_find_the_first_of_the_nearest (h : t.Built) (hsize : t.size ≤ UInt32.size) :
    t.Orderly ∧
    (∀ e d existing, t.define e d = .error existing →
      existing.isFinal = true ∧ existing.name = d.name ∧
        (∃ scope outer, t.scopes e = scope :: outer ∧ existing ∈ scope.declarations) ∧ t.apply (.define e d) = t) ∧
    ∀ e : EnvId, e.index < t.size → ∃ around, (∀ other, t.Climb e other ↔ other = around) ∧
      (∀ a ∈ around, ∃ order, ∀ other, t.Preorder [a] other ↔ other = order) ∧
      ∀ name,
        t.lookup? e name = around.findSome? (fun a => (t.scopes a).findSome? (·.find? name)) ∧
        (∀ found, t.findEnv? e name = some found ↔ t.Finds around name found) ∧
        (t.findEnv? e name = none ↔ ∀ a ∈ around, ¬ t.Holds a name) := by
  have ht := h.orderly hsize
  refine ⟨ht, fun e d existing hrefused => ?_, fun e he => ?_⟩
  · rcases t.define_cases e d with ⟨other, hother, hfinal, scope, outer, hscopes, hfound⟩ | ⟨f, hdefined, -⟩
    · obtain rfl := Except.error.inj (hother.symm.trans hrefused)
      have hname := List.find?_some (p := fun x : Declaration => x.name = d.name) hfound
      refine ⟨hfinal, of_decide_eq_true hname, ⟨scope, outer, hscopes, ?_⟩, ?_⟩
      · exact List.mem_of_find?_eq_some hfound
      · show (t.define e d).toOption.getD t = t
        rw [hrefused]
        rfl
    · exact nomatch hdefined.symm.trans hrefused
  · obtain ⟨around, haround⟩ := ht.exists_climb e
    refine ⟨around, fun other => ⟨haround.unique, fun h => h ▸ haround⟩, fun a _ => ?_, fun name =>
      ⟨haround.lookupFrom?_eq ht name he, haround.findEnv?_eq_some ht he name, haround.findEnv?_eq_none ht he name⟩⟩
    obtain ⟨order, horder⟩ := ht.exists_preorder a
    exact ⟨order, fun other => ⟨horder.unique, fun h => h ▸ horder⟩⟩

/-- Two environments of one name are made, so that the second one is not listed, and one in it. -/
theorem searches_find_the_first_of_two_siblings :
    let t := ((new "MAIN").pushEnvironment root "a").2
    let t' := (t.pushEnvironment root "a").2
    let t'' := (t'.pushEnvironment ⟨2⟩ "b").2
    t''.Built ∧ t''.size ≤ UInt32.size ∧ t''.children root = [⟨1⟩] ∧ t''.Orderly ∧ t''.findEnv? ⟨3⟩ "a" = some ⟨2⟩ ∧
      t''.Finds [⟨3⟩, ⟨2⟩, root] "a" ⟨2⟩ := by
  intro t t' t''
  have hbuilt : t''.Built :=
    .after (.after (.after (.new "MAIN") (.pushEnvironment root "a") (by decide)) (.pushEnvironment root "a") (by decide))
      (.pushEnvironment ⟨2⟩ "b") (by decide)
  have hsize : t''.size ≤ UInt32.size := by decide
  obtain ⟨horderly, -, hsearch⟩ := searches_find_the_first_of_the_nearest hbuilt hsize
  obtain ⟨around, haround, -, hfind⟩ := hsearch ⟨3⟩ (by decide)
  have hclimb : t''.Climb ⟨3⟩ [⟨3⟩, ⟨2⟩, root] := .step (by decide) (.step (by decide) (.top (by decide)))
  obtain rfl := (haround _).1 hclimb
  have hfound : t''.findEnv? ⟨3⟩ "a" = some ⟨2⟩ := by decide
  exact ⟨hbuilt, hsize, by decide, horderly, hfound, ((hfind "a").2.1 ⟨2⟩).1 hfound⟩

/-! ## More environments than numbers -/

/-- A root with some environments of one name. -/
def crowded : Nat → EnvTree
  | 0 => new "MAIN"
  | n + 1 => ((crowded n).pushEnvironment root "a").2

theorem size_crowded (n : Nat) : (crowded n).size = n + 1 := by
  induction n with
  | zero => rfl
  | succ n ih => rw [crowded, size_pushEnvironment, ih]

theorem built_crowded (n : Nat) : (crowded n).Built := by
  induction n with
  | zero => exact .new "MAIN"
  | succ n ih =>
    refine .after ih (.pushEnvironment root "a") fun e he => ?_
    obtain rfl := List.mem_singleton.1 he
    exact size_crowded n ▸ Nat.succ_pos n

/-- The environment that was made last. -/
theorem get?_crowded {n : Nat} (hn : n < UInt32.size) (hpos : n ≠ 0) :
    (crowded n).get? (.ofIndex n) = some ⟨"a", some root, [], [.empty]⟩ := by
  obtain ⟨m, rfl⟩ := Nat.exists_eq_succ_of_ne_zero hpos
  have hroot : root.index < (crowded m).size := size_crowded m ▸ Nat.succ_pos m
  have hmade := (makes_pushEnvironment hroot (size_crowded m ▸ hn) "a").made
  rwa [size_crowded] at hmade

/-- When all numbers have been given, an environment that is made in the last one has the same number as this one. -/
theorem not_orderly_of_crowded {n : Nat} (hn : n + 1 = UInt32.size) (hpos : n ≠ 0) :
    let t := ((crowded n).pushEnvironment (.ofIndex n) "b").2
    t.Built ∧ t.size = n + 2 ∧ t.children (.ofIndex n) = [.ofIndex n] ∧ t.parent? (.ofIndex n) = some root ∧
      ¬ t.Orderly := by
  intro t
  have hindex : (EnvId.ofIndex n).index = n := EnvId.index_ofIndex (by omega)
  have hthere : (EnvId.ofIndex n).index < (crowded n).size := by
    rw [hindex, size_crowded]
    exact Nat.lt_succ_self n
  have hlast := get?_crowded (n := n) (by omega) hpos
  have hsame : EnvId.ofIndex (crowded n).size = .ofIndex n := by
    refine EnvId.ext_index ?_
    rw [hindex, size_crowded, hn]
    show UInt32.size - 1 = n
    omega
  have hchildren : t.children (.ofIndex n) = [.ofIndex n] := by
    have hnone : (crowded n).children (.ofIndex n) = [] := by rw [children, hlast]; rfl
    have hlisted : t = (⟨(crowded n).nodes.push ⟨"b", some (.ofIndex n), [], [.empty]⟩⟩ : EnvTree).modify (.ofIndex n)
        fun node => { node with children := node.children ++ [.ofIndex (crowded n).size] } := by
      show ((crowded n).pushEnvironment (.ofIndex n) "b").2 = _
      rw [EnvTree.pushEnvironment, hnone]
      rfl
    rw [hlisted, children, get?_modify, if_pos rfl, get?_grown, if_neg hthere.ne, hlast, hsame]
    rfl
  have hparent : t.parent? (.ofIndex n) = some root := by
    rw [parent?_pushEnvironment, if_neg hthere.ne, parent?, hlast]
    rfl
  refine ⟨?_, ?_, hchildren, hparent, fun horderly => ?_⟩
  · exact .after (built_crowded n) (.pushEnvironment (.ofIndex n) "b") (List.forall_mem_singleton.2 hthere)
  · show ((crowded n).pushEnvironment (.ofIndex n) "b").2.size = n + 2
    rw [size_pushEnvironment, size_crowded]
  · -- Its parent would be itself.
    have hself := horderly.children (.ofIndex n) (.ofIndex n) (hchildren ▸ List.mem_singleton_self _)
    have hroot : root = EnvId.ofIndex n := Option.some.inj (hparent.symm.trans hself)
    exact hpos (hindex.symm.trans (hroot ▸ rfl))

/-- With `2 ^ 32` environments there is no number left. One more, made in the last of them, has the number of that
environment, which lists itself from then on. -/
theorem last_environment_lists_itself :
    let last : EnvId := ⟨4294967295⟩
    let t := ((crowded 4294967295).pushEnvironment last "b").2
    t.Built ∧ t.size = 4294967297 ∧ t.children last = [last] ∧ t.parent? last = some root ∧ ¬ t.Orderly :=
  not_orderly_of_crowded rfl (by decide)

end EnvTree

end DynScript
