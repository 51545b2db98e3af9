import DynScript.Proofs.Analysis.Declared
import DynScript.Proofs.Tree.Lexical

/-!
# The scopes that an analysis searches

The scopes that are searched for a name are those of the current environment and of the environments around it.
`AnalysisState.Sees` says that they are an outlook; opening and closing scopes and environments leads from one outlook
to another.
-/

namespace DynScript

namespace EnvTree

variable {t t' : EnvTree} {e p : EnvId} {scopes : List Scope} {name : String}

/-- The scopes that are searched from an environment: its own and then those of the environments around it. -/
inductive Chain (t : EnvTree) : EnvId → List Scope → Prop
  | root {e : EnvId} (hp : t.parent? e = none) : Chain t e (t.scopes e)
  | child {e p : EnvId} {outer : List Scope} (hp : t.parent? e = some p) (h : Chain t p outer) :
    Chain t e (t.scopes e ++ outer)

/-- An environment has a greater number than the one in which it was made. -/
def Descends (t : EnvTree) : Prop := ∀ e p : EnvId, t.parent? e = some p → p.index < e.index

theorem Chain.lookupFrom? (h : t.Chain e scopes) (ht : t.Descends) {levels : Nat} (hl : e.index < levels) :
    t.lookupFrom? name levels e = Scope.inForce? scopes name := by
  induction h generalizing levels with
  | root hp =>
    obtain ⟨l, rfl⟩ : ∃ l, levels = l + 1 := ⟨levels - 1, by omega⟩
    rw [EnvTree.lookupFrom?, hp, Option.bind_none, Option.or_none]
    rfl
  | @child e p outer hp _ ih =>
    obtain ⟨l, rfl⟩ : ∃ l, levels = l + 1 := ⟨levels - 1, by omega⟩
    have hlt : p.index < e.index := ht e p hp
    rw [EnvTree.lookupFrom?, hp, Option.bind_some, ih (by omega)]
    simp only [Scope.inForce?, List.findSome?_append]

/-- A name is looked up in the scopes that are searched. -/
theorem Chain.lookup? (h : t.Chain e scopes) (ht : t.Descends) (he : e.index < t.size) :
    t.lookup? e name = Scope.inForce? scopes name := h.lookupFrom? ht he

/-- The scopes that are searched depend only on the environment and on those made before it. -/
theorem Chain.congr (h : t.Chain e scopes) (ht : t.Descends)
    (hp : ∀ x : EnvId, x.index ≤ e.index → t'.parent? x = t.parent? x)
    (hs : ∀ x : EnvId, x.index ≤ e.index → t'.scopes x = t.scopes x) : t'.Chain e scopes := by
  induction h with
  | root hparent =>
    rw [← hs _ le_rfl]
    exact .root ((hp _ le_rfl).trans hparent)
  | @child e p outer hparent _ ih =>
    have hlt : p.index < e.index := ht e p hparent
    rw [← hs _ le_rfl]
    exact .child ((hp _ le_rfl).trans hparent)
      (ih (fun x hx => hp x (by omega)) fun x hx => hs x (by omega))

/-- A change of the scopes of an environment is one of the scopes that are searched from it. -/
theorem Chain.modifyScopes (h : t.Chain e scopes) (ht : t.Descends) (he : e.index < t.size)
    {f : List Scope → List Scope} (hf : ∀ outer, f (t.scopes e ++ outer) = f (t.scopes e) ++ outer) :
    (t.modifyScopes e f).Chain e (f scopes) := by
  cases h with
  | root hp =>
    rw [← t.scopes_modifyScopes_self f he]
    exact .root (by rwa [t.parent?_modifyScopes])
  | @child _ p outer hp h =>
    have hlt : p.index < e.index := ht e p hp
    rw [hf, ← t.scopes_modifyScopes_self f he]
    refine .child (by rwa [t.parent?_modifyScopes]) (h.congr ht (fun x _ => t.parent?_modifyScopes e f x) ?_)
    intro x hx
    apply t.scopes_modifyScopes_of_ne
    rintro rfl
    omega

/-- Only these names are declared to be mutable. -/
def MutableOnly (t : EnvTree) (names : String → Prop) : Prop :=
  ∀ x, ∀ scope ∈ t.scopes x, ∀ d ∈ scope.declarations, d.isMutable → names d.name

variable {names : String → Prop}

theorem MutableOnly.modifyScopes (h : t.MutableOnly names) {f : List Scope → List Scope}
    (hf : ∀ scope ∈ f (t.scopes e), ∀ d ∈ scope.declarations, d.isMutable → names d.name) :
    (t.modifyScopes e f).MutableOnly names := by
  intro x scope hscope
  by_cases hx : x = e
  · subst hx
    by_cases he : x.index < t.size
    · rw [t.scopes_modifyScopes_self f he] at hscope
      exact hf scope hscope
    · have hnone : (t.modifyScopes x f).get? x = none := by
        apply Array.getElem?_eq_none
        have hsize : (t.modifyScopes x f).size = t.size := t.size_modifyScopes x f
        exact hsize.le.trans (not_lt.1 he)
      simp [scopes, hnone] at hscope
  · rw [t.scopes_modifyScopes_of_ne f hx] at hscope
    exact h x scope hscope

/-- A name that is found to be mutable is one of them. -/
theorem MutableOnly.of_lookup? (h : t.MutableOnly names) {d : Declaration} (hd : t.lookup? e name = some d)
    (hm : d.isMutable) : names name := by
  have hfrom (levels : Nat) (e : EnvId) (hd : t.lookupFrom? name levels e = some d) : names name := by
    induction levels generalizing e with
    | zero => cases hd
    | succ levels ih =>
      rw [lookupFrom?, Option.or_eq_some_iff] at hd
      rcases hd with hd | ⟨-, hd⟩
      · obtain ⟨scope, hscope, hfind⟩ := List.exists_of_findSome?_eq_some hd
        have hmem : d ∈ scope.declarations := List.mem_of_find?_eq_some hfind
        have hname : d.name = name := by simpa using List.find?_some hfind
        exact hname ▸ h e scope hscope d hmem hm
      · obtain ⟨p, -, hp⟩ := Option.bind_eq_some_iff.1 hd
        exact ih p hp
  exact hfrom _ _ hd

theorem Descends.modifyScopes (h : t.Descends) (f : List Scope → List Scope) : (t.modifyScopes e f).Descends :=
  fun x p hp => h x p (by rwa [t.parent?_modifyScopes] at hp)

end EnvTree

namespace AnalysisState

variable {s s' : AnalysisState} {o o' : Outlook} {f : List Scope → List Scope}

/-- The scopes that an analysis searches are an outlook, if that is known, and what has been declared to be mutable
is so in the nodes. -/
structure Sees (s : AnalysisState) (o : Outlook) : Prop where
  /-- The environment is there. -/
  current : s.current.index < s.tree.size
  /-- It has a scope. -/
  inside : s.tree.scopes s.current ≠ []
  /-- Those around an environment were made before it. -/
  descends : s.tree.Descends
  /-- The scopes are those of the outlook. -/
  chain : ∀ scopes ∈ o, s.tree.Chain s.current scopes
  /-- What can be assigned is declared in the nodes. -/
  mutableOnly : s.tree.MutableOnly s.arena.Mutates

namespace Sees

/-- The declaration of a name is found in the outlook. -/
theorem lookup? {scopes : List Scope} (h : s.Sees (some scopes)) (name : String) :
    s.tree.lookup? s.current name = Scope.inForce? scopes name :=
  (h.chain scopes rfl).lookup? h.descends h.current

/-- The scopes of the current environment change as those of the outlook do. -/
theorem modifyScopes (h : s.Sees o) (hne : f (s.tree.scopes s.current) ≠ [])
    (hf : ∀ outer, f (s.tree.scopes s.current ++ outer) = f (s.tree.scopes s.current) ++ outer)
    (hm : ∀ scope ∈ f (s.tree.scopes s.current), ∀ d ∈ scope.declarations, d.isMutable → s.arena.Mutates d.name) :
    Sees { s with tree := s.tree.modifyScopes s.current f } (o.map f) where
  current := by simpa using h.current
  inside := by rwa [EnvTree.scopes_modifyScopes_self f h.current]
  descends := h.descends.modifyScopes f
  chain scopes hscopes := by
    obtain ⟨scopes', hscopes', rfl⟩ := Option.mem_map.1 hscopes
    exact (h.chain scopes' hscopes').modifyScopes h.descends h.current hf
  mutableOnly := h.mutableOnly.modifyScopes hm

/-- Of another outlook no more is known than that it may be forgotten. -/
theorem forget (h : s.Sees o) : s.Sees none :=
  ⟨h.current, h.inside, h.descends, nofun, h.mutableOnly⟩

/-- When an analysis has come back, it sees the outlook that it saw. -/
theorem restored (h : s.Sees o) (hr : s.Restores s') (hd : s'.tree.Descends)
    (hm : s'.tree.MutableOnly s'.arena.Mutates) : s'.Sees o where
  current := hr.current ▸ h.current.trans_le hr.size
  inside := by
    rw [hr.current, hr.scopes _ h.current]
    exact h.inside
  descends := hd
  chain scopes hscopes := by
    rw [hr.current]
    exact (h.chain scopes hscopes).congr h.descends (fun x hx => hr.parents x (hx.trans_lt h.current))
      fun x hx => hr.scopes x (hx.trans_lt h.current)
  mutableOnly := hm

/-- A scope is opened. -/
theorem pushScope (h : s.Sees o) : Sees { s with tree := s.tree.pushScope s.current } o.opened := by
  refine h.modifyScopes (List.cons_ne_nil _ _) (fun _ => rfl) fun scope hscope d hd => ?_
  rcases List.mem_cons.1 hscope with rfl | hscope
  · cases hd
  · exact h.mutableOnly _ scope hscope d hd

/-- An environment is made and entered. -/
theorem pushEnvironment (h : s.Sees o) (hroom : s.tree.size < UInt32.size) (name : String) : Sees { s with
    tree := (s.tree.pushEnvironment s.current name).2
    current := (s.tree.pushEnvironment s.current name).1 } o.opened := by
  obtain ⟨hindex, hempty, haround⟩ := s.tree.get?_pushEnvironment_self name h.current hroom
  have hgrown := s.tree.size_pushEnvironment s.current name
  have hold (x : EnvId) (hx : x.index < s.tree.size) := s.tree.get?_pushEnvironment s.current name hx
  have hnone (x : EnvId) (hx : s.tree.size < x.index) : (s.tree.pushEnvironment s.current name).2.get? x = none := by
    apply Array.getElem?_eq_none
    exact hgrown.le.trans hx
  have hself (x : EnvId) (hx : x.index = s.tree.size) : x = (s.tree.pushEnvironment s.current name).1 :=
    EnvId.ext_index (hx.trans hindex.symm)
  constructor
  case current =>
    show (s.tree.pushEnvironment s.current name).1.index < (s.tree.pushEnvironment s.current name).2.size
    rw [hindex, hgrown]
    exact Nat.lt_succ_self _
  case inside =>
    show (s.tree.pushEnvironment s.current name).2.scopes (s.tree.pushEnvironment s.current name).1 ≠ []
    rw [hempty]
    exact List.cons_ne_nil _ _
  case descends =>
    intro x p hp
    rcases lt_trichotomy x.index s.tree.size with hx | hx | hx
    · exact h.descends x p ((hold x hx).2.symm.trans hp)
    · obtain rfl := hself x hx
      obtain rfl := Option.some.inj (haround.symm.trans hp)
      exact hindex ▸ h.current
    · simp [EnvTree.parent?, hnone x hx] at hp
  case chain =>
    intro scopes hscopes
    obtain ⟨outer, houter, rfl⟩ := Option.mem_map.1 hscopes
    show (s.tree.pushEnvironment s.current name).2.Chain (s.tree.pushEnvironment s.current name).1 _
    rw [show Scope.empty :: outer = [Scope.empty] ++ outer from rfl, ← hempty]
    refine .child haround ((h.chain outer houter).congr h.descends (fun x hx => ?_) fun x hx => ?_)
    · exact (hold x (hx.trans_lt h.current)).2
    · exact (hold x (hx.trans_lt h.current)).1
  case mutableOnly =>
    intro x scope hscope
    rcases lt_trichotomy x.index s.tree.size with hx | hx | hx
    · exact h.mutableOnly x scope ((hold x hx).1 ▸ hscope)
    · obtain rfl := hself x hx
      rw [hempty] at hscope
      obtain rfl := List.mem_singleton.1 hscope
      intro d hd
      cases hd
    · simp [EnvTree.scopes, hnone x hx] at hscope

/-- The scopes of another environment are brought into scope, of which nothing is known. -/
theorem bringIntoScope (h : s.Sees o) (source : EnvId) :
    Sees { s with tree := s.tree.bringIntoScope s.current source } none := by
  refine (h.modifyScopes ?_ ?_ fun scope hscope => ?_).forget
  · exact fun hnil => h.inside (List.append_eq_nil_iff.1 hnil).2
  · exact fun _ => (List.append_assoc ..).symm
  · rcases List.mem_append.1 hscope with hscope | hscope
    · exact h.mutableOnly _ scope hscope
    · exact h.mutableOnly _ scope hscope

end Sees

/-- Scopes have been put inside those of the environment, and nothing else has changed that was there. -/
structure Extends (s s' : AnalysisState) : Prop where
  /-- The environment is the same. -/
  current : s'.current = s.current
  /-- Environments are still there. -/
  size : s.tree.size ≤ s'.tree.size
  /-- They stand where they stood. -/
  parents : ∀ x : EnvId, x.index < s.tree.size → s'.tree.parent? x = s.tree.parent? x
  /-- Other environments have the scopes that they had. -/
  others : ∀ x : EnvId, x.index < s.tree.size → x ≠ s.current → s'.tree.scopes x = s.tree.scopes x
  /-- So has this one, further out than its innermost scope. -/
  outer : s.tree.scopes s.current <:+ (s'.tree.scopes s.current).tail

namespace Extends

theorem pushScope (hc : s.current.index < s.tree.size) :
    s.Extends { s with tree := s.tree.pushScope s.current } where
  current := rfl
  size := by simp [EnvTree.pushScope]
  parents x _ := by simp [EnvTree.pushScope]
  others x _ hx := EnvTree.scopes_modifyScopes_of_ne _ hx
  outer := by
    show _ <:+ ((s.tree.pushScope s.current).scopes s.current).tail
    rw [EnvTree.pushScope, EnvTree.scopes_modifyScopes_self _ hc, List.tail_cons]

theorem continues {s'' : AnalysisState} (h : s.Extends s') (k : s'.Continues s'') : s.Extends s'' where
  current := k.current.trans h.current
  size := h.size.trans k.size
  parents x hx := (k.parents x (hx.trans_le h.size)).trans (h.parents x hx)
  others x hx hne := (k.others x (hx.trans_le h.size) (h.current.symm ▸ hne)).trans (h.others x hx hne)
  outer := by
    rw [← h.current, k.outer, h.current]
    exact h.outer

theorem bringIntoScope (h : s.Extends s') (hc : s.current.index < s.tree.size) (source : EnvId) :
    s.Extends { s' with tree := s'.tree.bringIntoScope s'.current source } where
  current := h.current
  size := by simpa [EnvTree.bringIntoScope] using h.size
  parents x hx := by simpa [EnvTree.bringIntoScope] using h.parents x hx
  others x hx hne := by
    have hne' : x ≠ s'.current := h.current.symm ▸ hne
    exact (EnvTree.scopes_modifyScopes_of_ne _ hne').trans (h.others x hx hne)
  outer := by
    show _ <:+ ((s'.tree.bringIntoScope s'.current source).scopes s.current).tail
    rw [h.current, EnvTree.bringIntoScope, EnvTree.scopes_modifyScopes_self _ (hc.trans_le h.size)]
    cases s'.tree.scopes source with
    | nil => exact h.outer
    | cons scope rest =>
      exact h.outer.trans ((List.tail_suffix _).trans (List.suffix_append rest _))

/-- Closing them brings back what was there. -/
theorem truncateScopes (h : s.Extends s') (hc : s.current.index < s.tree.size) :
    s.Restores { s' with tree := s'.tree.truncateScopes s'.current (s.tree.scopeCount s.current) } where
  current := h.current
  size := by simpa [EnvTree.truncateScopes] using h.size
  parents x hx := by simpa [EnvTree.truncateScopes] using h.parents x hx
  scopes x hx := by
    show (s'.tree.truncateScopes s'.current (s.tree.scopeCount s.current)).scopes x = s.tree.scopes x
    rw [h.current]
    by_cases hxc : x = s.current
    · subst hxc
      rw [EnvTree.truncateScopes, EnvTree.scopes_modifyScopes_self _ (hc.trans_le h.size)]
      exact (List.suffix_iff_eq_drop.1 (h.outer.trans (List.tail_suffix _))).symm
    · rw [EnvTree.truncateScopes, EnvTree.scopes_modifyScopes_of_ne _ hxc]
      exact h.others x hx hxc

end Extends

end AnalysisState

end DynScript
