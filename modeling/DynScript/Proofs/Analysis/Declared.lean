import Mathlib.Tactic
import DynScript.Proofs.Scope.Changes
import DynScript.Proofs.Tree.Scoping

/-!
# Declared names

The names that are declared where an analysis stands are those of the scopes of the current environment and of the
environments around it. A step that finds no error declares names in the innermost scope at most: `Continues` says
what it leaves alone, `Knows` bounds the names that are declared, and `Checks` says of a step how it leads from
names to names and what has been checked when it finds no error.
-/

namespace DynScript

namespace EnvTree

variable {t t' : EnvTree} {e x : EnvId} {name : String}

/-- A name is declared in an environment or in one around it. -/
inductive Declares (t : EnvTree) : EnvId → String → Prop where
  | here {e : EnvId} {name : String} {scope : Scope} (hs : scope ∈ t.scopes e) (hd : (scope.find? name).isSome) :
    Declares t e name
  | around {e p : EnvId} {name : String} (hp : t.parent? e = some p) (h : Declares t p name) : Declares t e name

theorem declares_of_lookup? (h : (t.lookup? e name).isSome) : t.Declares e name := by
  have hfrom (levels : Nat) (e : EnvId) (h : (t.lookupFrom? name levels e).isSome) : t.Declares e name := by
    induction levels generalizing e with
    | zero => cases h
    | succ levels ih =>
      rw [lookupFrom?, Option.isSome_or, Bool.or_eq_true] at h
      rcases h with h | h
      · obtain ⟨scope, hs, hd⟩ := List.findSome?_isSome_iff.1 h
        exact .here hs hd
      · obtain ⟨d, hd⟩ := Option.isSome_iff_exists.1 h
        obtain ⟨p, hp, hd⟩ := Option.bind_eq_some_iff.1 hd
        exact .around hp (ih p (Option.isSome_iff_exists.2 ⟨d, hd⟩))
  exact hfrom _ e h

/-- What is declared after a change was declared before, or it is new in a scope; `r` are the environments that
matter. -/
theorem Declares.before {r : EnvId → Prop} {P : Prop} (hr : ∀ x p, r x → t.parent? x = some p → r p)
    (hp : ∀ x, r x → t'.parent? x = t.parent? x)
    (hs : ∀ x, r x → ∀ scope ∈ t'.scopes x, (scope.find? name).isSome → t.Declares x name ∨ P)
    (hx : r x) (h : t'.Declares x name) : t.Declares x name ∨ P := by
  induction h with
  | here hscope hd => exact hs _ hx _ hscope hd
  | around hparent _ ih =>
    rw [hp _ hx] at hparent
    exact (ih hs (hr _ _ hx hparent)).imp_left (.around hparent)

end EnvTree

namespace AnalysisState

variable {s s' s'' : AnalysisState} {names names' : List String}

/-- An analysis takes back no error and no environment. -/
structure Advances (s s' : AnalysisState) : Prop where
  /-- Errors are not forgotten. -/
  errors : s.errors ≤ s'.errors
  /-- Environments are still there. -/
  size : s.tree.size ≤ s'.tree.size

/-- An analysis has found no error on its way, and there are numbers for all environments. -/
structure Clean (s s' : AnalysisState) : Prop where
  /-- No error. -/
  errors : s'.errors = s.errors
  /-- The numbers. -/
  fits : s'.tree.size ≤ UInt32.size

@[refl] theorem Advances.refl (s : AnalysisState) : s.Advances s := ⟨le_rfl, le_rfl⟩

theorem Advances.trans (h : s.Advances s') (k : s'.Advances s'') : s.Advances s'' :=
  ⟨h.errors.trans k.errors, h.size.trans k.size⟩

namespace Clean

variable (hc : s.Clean s'') (h : s.Advances s') (k : s'.Advances s'')
include hc h k

/-- What is clean is so from the beginning. -/
theorem left : s.Clean s' := by
  have hsame := hc.errors
  have hfirst := h.errors
  have hsecond := k.errors
  exact ⟨by omega, k.size.trans hc.fits⟩

/-- What is clean is so to the end. -/
theorem right : s'.Clean s'' := by
  have hsame := hc.errors
  have hfirst := h.errors
  have hsecond := k.errors
  exact ⟨by omega, hc.fits⟩

end Clean

/-- An analysis in an environment that it has just made. -/
def entered (s : AnalysisState) (name : String) : AnalysisState :=
  { s with
    tree := (s.tree.pushEnvironment s.current name).2
    current := (s.tree.pushEnvironment s.current name).1 }

theorem size_entered (s : AnalysisState) (name : String) : (s.entered name).tree.size = s.tree.size + 1 :=
  s.tree.size_pushEnvironment s.current name

/-- Only these names are declared where an analysis stands. -/
structure Knows (s : AnalysisState) (names : List String) : Prop where
  /-- The names. -/
  declared : ∀ name, s.tree.Declares s.current name → name ∈ names
  /-- The environment is there. -/
  current : s.current.index < s.tree.size
  /-- So are those around others. -/
  parents : ∀ x p, s.tree.parent? x = some p → p.index < s.tree.size

theorem Knows.more (h : s.Knows names) (hn : ∀ name ∈ names, name ∈ names') : s.Knows names' :=
  ⟨fun name hd => hn name (h.declared name hd), h.current, h.parents⟩

/-- An analysis goes on from a state to another one: declarations are added to the innermost scope, and
environments are made. -/
structure Continues (s s' : AnalysisState) : Prop where
  /-- The environment is the same. -/
  current : s'.current = s.current
  /-- Environments are still there. -/
  size : s.tree.size ≤ s'.tree.size
  /-- They stand where they stood. -/
  parents : ∀ x : EnvId, x.index < s.tree.size → s'.tree.parent? x = s.tree.parent? x
  /-- Other environments have the scopes that they had. -/
  others : ∀ x : EnvId, x.index < s.tree.size → x ≠ s.current → s'.tree.scopes x = s.tree.scopes x
  /-- So does this one, apart from the innermost scope. -/
  outer : (s'.tree.scopes s.current).tail = (s.tree.scopes s.current).tail

namespace Continues

@[refl] theorem refl (s : AnalysisState) : s.Continues s := ⟨rfl, le_rfl, fun _ _ => rfl, fun _ _ _ => rfl, rfl⟩

theorem trans (h : s.Continues s') (k : s'.Continues s'') : s.Continues s'' where
  current := k.current.trans h.current
  size := h.size.trans k.size
  parents x hx := (k.parents x (hx.trans_le h.size)).trans (h.parents x hx)
  others x hx hne := (k.others x (hx.trans_le h.size) (h.current.symm ▸ hne)).trans (h.others x hx hne)
  outer := by
    rw [← h.outer, ← h.current, k.outer]

end Continues

theorem Continues.modifyScopes (h : s.current.index < s.tree.size) {f : List Scope → List Scope}
    (hf : (f (s.tree.scopes s.current)).tail = (s.tree.scopes s.current).tail) :
    s.Continues { s with tree := s.tree.modifyScopes s.current f } where
  current := rfl
  size := by simp
  parents x _ := by simp
  others x _ hx := EnvTree.scopes_modifyScopes_of_ne f hx
  outer := by
    show ((s.tree.modifyScopes s.current f).scopes s.current).tail = _
    rw [EnvTree.scopes_modifyScopes_self f h, hf]

/-- An analysis has come back: the environments that were there have the scopes that they had. -/
structure Restores (s s' : AnalysisState) : Prop where
  /-- The environment is the same. -/
  current : s'.current = s.current
  /-- Environments are still there. -/
  size : s.tree.size ≤ s'.tree.size
  /-- They stand where they stood. -/
  parents : ∀ x : EnvId, x.index < s.tree.size → s'.tree.parent? x = s.tree.parent? x
  /-- They have the scopes that they had. -/
  scopes : ∀ x : EnvId, x.index < s.tree.size → s'.tree.scopes x = s.tree.scopes x

theorem Restores.continues (h : s.Restores s') (hc : s.current.index < s.tree.size) : s.Continues s' :=
  ⟨h.current, h.size, h.parents, fun x hx _ => h.scopes x hx, congrArg List.tail (h.scopes _ hc)⟩

/-- Closing the scope that was opened brings the scopes back. -/
theorem Continues.popScope (hc : s.current.index < s.tree.size)
    (h : Continues { s with tree := s.tree.pushScope s.current } s') :
    s.Restores { s' with tree := s'.tree.popScope s'.current } := by
  have hcurrent : s'.current = s.current := h.current
  have hsize : s.tree.size ≤ s'.tree.size := by simpa [EnvTree.pushScope] using h.size
  refine ⟨hcurrent, by simpa [EnvTree.popScope] using hsize, fun x hx => ?_, fun x hx => ?_⟩
  · have hx' := h.parents x (by simpa [EnvTree.pushScope] using hx)
    simpa [EnvTree.popScope, EnvTree.pushScope] using hx'
  · show (s'.tree.popScope s'.current).scopes x = s.tree.scopes x
    by_cases hxc : x = s.current
    · subst hxc
      rw [hcurrent, EnvTree.popScope, EnvTree.scopes_modifyScopes_self _ (hc.trans_le hsize)]
      exact h.outer.trans (congrArg List.tail (EnvTree.scopes_modifyScopes_self _ hc))
    · rw [hcurrent, EnvTree.popScope, EnvTree.scopes_modifyScopes_of_ne _ hxc]
      rw [h.others x (by simpa [EnvTree.pushScope] using hx) hxc]
      exact EnvTree.scopes_modifyScopes_of_ne _ hxc

/-- So does leaving the environment that was made. -/
theorem Continues.leave {name : String} (hc : s.current.index < s.tree.size) (hroom : s.tree.size < UInt32.size)
    (h : (s.entered name).Continues s') : s.Restores { s' with current := s.current } := by
  obtain ⟨hindex, -, -⟩ := s.tree.get?_pushEnvironment_self name hc hroom
  have hgrows : s.tree.size < (s.entered name).tree.size := s.size_entered name ▸ Nat.lt_succ_self _
  refine ⟨rfl, hgrows.le.trans h.size, fun x hx => ?_, fun x hx => ?_⟩
  · exact (h.parents x (hx.trans hgrows)).trans (s.tree.get?_pushEnvironment s.current name hx).2
  · refine (h.others x (hx.trans hgrows) ?_).trans (s.tree.get?_pushEnvironment s.current name hx).1
    rintro rfl
    exact lt_irrefl _ (hindex ▸ hx)

/-- When the scopes of all environments that were there are back, the same names are declared. -/
theorem Knows.restored (h : s.Knows names) (hr : s.Restores s')
    (hp : ∀ x p, s'.tree.parent? x = some p → p.index < s'.tree.size) : s'.Knows names where
  declared name hd := by
    rw [hr.current] at hd
    have hbefore := hd.before (r := fun x => x.index < s.tree.size) (P := False)
      (fun x p _ hx => h.parents x p hx) hr.parents
      (fun x hx scope hs hfound => .inl (.here (hr.scopes x hx ▸ hs) hfound)) h.current
    exact h.declared name (hbefore.resolve_right id)
  current := hr.current ▸ h.current.trans_le hr.size
  parents := hp

/-- The scopes of the environment change. -/
theorem Knows.modifyScopes (h : s.Knows names) (hn : ∀ name ∈ names, name ∈ names') {f : List Scope → List Scope}
    (hf : ∀ scope ∈ f (s.tree.scopes s.current), ∀ name, (scope.find? name).isSome →
      name ∈ names' ∨ ∃ scope ∈ s.tree.scopes s.current, (scope.find? name).isSome) :
    Knows { s with tree := s.tree.modifyScopes s.current f } names' where
  declared name hd := by
    have hbefore := EnvTree.Declares.before (t := s.tree) (r := fun _ => True) (P := name ∈ names')
      (fun _ _ _ _ => trivial) (fun x _ => s.tree.parent?_modifyScopes s.current f x)
      (fun x _ scope hscope hfound => ?_) trivial hd
    · exact hbefore.elim (fun hd => hn name (h.declared name hd)) id
    · by_cases hx : x = s.current
      · subst hx
        rw [EnvTree.scopes_modifyScopes_self f h.current] at hscope
        refine (hf scope hscope name hfound).symm.imp_left fun ⟨scope', hscope', hfound'⟩ => ?_
        exact .here hscope' hfound'
      · rw [EnvTree.scopes_modifyScopes_of_ne f hx] at hscope
        exact .inl (.here hscope hfound)
  current := by simpa using h.current
  parents x p hp := by
    rw [EnvTree.parent?_modifyScopes] at hp
    simpa using h.parents x p hp

end AnalysisState

namespace Analysis

variable {α β : Type} {a : Arena} {names names' names'' : List String} {J : α → Prop} {J' : β → Prop}

/-- A step over these nodes takes nothing back and leaves the nodes. If it finds no error, makes no more environments
than there are numbers for, and only some names are declared, it goes on so that only some others are, and its result
is right. -/
def Checks (a : Arena) (names : List String) (x : Analysis α) (names' : List String) (J : α → Prop) : Prop :=
  ∀ s : AnalysisState, s.arena = a → ∀ b s', x s = .ok (b, s') → s.Advances s' ∧ s'.arena = a ∧
    (s.Clean s' → s.Knows names → s'.Knows names' ∧ s.Continues s' ∧ J b)

theorem bind_ok {ε : Type} {e : Except ε α} {k : α → Except ε β} {b : β} (h : (e >>= k) = .ok b) :
    ∃ a, e = .ok a ∧ k a = .ok b := by
  cases e with
  | error => cases h
  | ok a => exact ⟨a, rfl, h⟩

theorem bind_eq {x : Analysis α} {k : α → Analysis β} {v : α} {s s' : AnalysisState} (h : x s = .ok (v, s')) :
    (x >>= k) s = k v s' := by
  simp only [Bind.bind, StateT.bind, h, Except.bind]

theorem node_eq {id : NodeId} {n : Node} {s : AnalysisState} (h : s.arena.get? id = some n) : node id s = .ok (n, s) := by
  rw [node, bind_eq (rfl : (get : Analysis AnalysisState) s = .ok (s, s)), h]
  rfl

/-- Looking at a node that is there before going on. -/
theorem node_ok {id : NodeId} {k : Node → Analysis α} {s : AnalysisState} {r : α × AnalysisState}
    (h : (node id >>= k) s = .ok r) : ∃ n, s.arena.get? id = some n ∧ k n s = .ok r := by
  obtain ⟨⟨n, s'⟩, hn, hk⟩ := bind_ok h
  cases hget : s.arena.get? id with
  | none =>
    rw [node, bind_eq (rfl : (get : Analysis AnalysisState) s = .ok (s, s)), hget] at hn
    cases hn
  | some m =>
    rw [node_eq hget] at hn
    cases hn
    exact ⟨_, rfl, hk⟩

/-- A declaration is added unless the name is final in the innermost scope, which is reported. -/
theorem declare_eq (d : Declaration) (s : AnalysisState) : declare d s = match s.tree.define s.current d with
    | .ok tree => .ok ((), { s with tree := tree })
    | .error _ => report (.finalRedeclaration d.name) d.position s := by
  show (match s.tree.define s.current d with
    | .ok tree => modify fun s => { s with tree := tree }
    | .error _ => report (.finalRedeclaration d.name) d.position : Analysis Unit) s = _
  cases s.tree.define s.current d <;> rfl

/-! ### Scopes and environments -/

theorem inScope_ok {x : Analysis Unit} {v : Unit} {s s' : AnalysisState} (h : inScope x s = .ok (v, s')) :
    ∃ t, x { s with tree := s.tree.pushScope s.current } = .ok ((), t) ∧
      s' = { t with tree := t.tree.popScope t.current } := by
  have hscope : inScope x s = (x { s with tree := s.tree.pushScope s.current } >>= fun r =>
      .ok ((), { r.2 with tree := r.2.tree.popScope r.2.current })) := rfl
  rw [hscope] at h
  obtain ⟨⟨⟨⟩, t⟩, ht, hrest⟩ := bind_ok h
  cases hrest
  exact ⟨t, ht, rfl⟩

theorem inEnvironment_eq (name : String) (x : Analysis Unit) (s : AnalysisState) :
    inEnvironment name x s = (x (s.entered name) >>= fun r => .ok ((), { r.2 with current := s.current })) := rfl

theorem inEnvironment_ok {name : String} {x : Analysis Unit} {v : Unit} {s s' : AnalysisState}
    (h : inEnvironment name x s = .ok (v, s')) :
    ∃ t, x (s.entered name) = .ok ((), t) ∧ s' = { t with current := s.current } := by
  rw [inEnvironment_eq] at h
  obtain ⟨⟨⟨⟩, t⟩, ht, hrest⟩ := bind_ok h
  cases hrest
  exact ⟨t, ht, rfl⟩

theorem allowingReturn_ok {allowed : Bool} {x : Analysis Unit} {v : Unit} {s s' : AnalysisState}
    (h : allowingReturn allowed x s = .ok (v, s')) :
    ∃ t, x { s with inFunction := allowed } = .ok ((), t) ∧ s' = { t with inFunction := s.inFunction } := by
  have hallowing : allowingReturn allowed x s = (x { s with inFunction := allowed } >>= fun r =>
      .ok ((), { r.2 with inFunction := s.inFunction })) := rfl
  rw [hallowing] at h
  obtain ⟨⟨⟨⟩, t⟩, ht, hrest⟩ := bind_ok h
  cases hrest
  exact ⟨t, ht, rfl⟩

namespace Checks

theorem pure {b : α} (h : J b) : Checks a names (Pure.pure b) names J := by
  intro s ha b' s' hrun
  cases hrun
  exact ⟨.refl s, ha, fun _ hs => ⟨hs, .refl s, h⟩⟩

/-- What has been checked first may be used of what is checked then. -/
theorem bind {x : Analysis α} {k : α → Analysis β} (hx : Checks a names x names' J)
    (hk : ∀ b, Checks a names' (k b) names'' fun r => J b → J' r) : Checks a names (x >>= k) names'' J' := by
  intro s ha r s' hrun
  simp only [Bind.bind, StateT.bind, Except.bind] at hrun
  split at hrun
  · cases hrun
  · rename_i v hv
    obtain ⟨hadvances, ha', hfirst⟩ := hx s ha v.1 v.2 hv
    obtain ⟨hadvances', ha'', hsecond⟩ := hk v.1 v.2 ha' r s' hrun
    refine ⟨hadvances.trans hadvances', ha'', fun hclean hs => ?_⟩
    obtain ⟨hknows, hcontinues, hj⟩ := hfirst (hclean.left hadvances hadvances') hs
    obtain ⟨hknows', hcontinues', hj'⟩ := hsecond (hclean.right hadvances hadvances') hknows
    exact ⟨hknows', hcontinues.trans hcontinues', hj' hj⟩

/-- Fewer names may be declared before, more afterwards, and less need be right. -/
theorem weaken {names₀ : List String} {J₀ : α → Prop} {x : Analysis α} (hx : Checks a names x names' J)
    (h₀ : ∀ name ∈ names₀, name ∈ names) (hn : ∀ name ∈ names', name ∈ names'') (hj : ∀ b, J b → J₀ b) :
    Checks a names₀ x names'' J₀ := by
  intro s ha b s' hrun
  obtain ⟨hadvances, ha', hrest⟩ := hx s ha b s' hrun
  refine ⟨hadvances, ha', fun hclean hs => ?_⟩
  obtain ⟨hknows, hcontinues, hright⟩ := hrest hclean (hs.more h₀)
  exact ⟨hknows.more hn, hcontinues, hj b hright⟩

theorem right {J₀ : α → Prop} {x : Analysis α} (hx : Checks a names x names' J) (hj : ∀ b, J b → J₀ b) :
    Checks a names x names' J₀ :=
  hx.weaken (fun _ h => h) (fun _ h => h) hj

/-- What is right at any depth is so for all. -/
theorem forAll {ι : Type} [Nonempty ι] {J : ι → α → Prop} {x : Analysis α}
    (hx : ∀ i, Checks a names x names' (J i)) : Checks a names x names' fun b => ∀ i, J i b := by
  intro s ha b s' hrun
  have hall (i : ι) := hx i s ha b s' hrun
  obtain ⟨hadvances, ha', hrest⟩ := hall (Classical.arbitrary ι)
  refine ⟨hadvances, ha', fun hclean hs => ?_⟩
  obtain ⟨hknows, hcontinues, -⟩ := hrest hclean hs
  exact ⟨hknows, hcontinues, fun i => ((hall i).2.2 hclean hs).2.2⟩

theorem node {id : NodeId} {k : Node → Analysis α}
    (hk : ∀ n, a.get? id = some n → Checks a names (k n) names' J) :
    Checks a names (Analysis.node id >>= k) names' J := by
  intro s ha b s' hrun
  obtain ⟨n, hn, hrun⟩ := node_ok hrun
  exact hk n (ha ▸ hn) s ha b s' hrun

theorem reading {k : AnalysisState → Analysis α} (hk : ∀ s, Checks a names (k s) names' J) :
    Checks a names (get >>= k) names' J :=
  fun s ha b s' hrun => hk s s ha b s' hrun

/-! ### Findings -/

/-- A step that finds an error need not go on. -/
theorem report (f : Finding) (position : Option Position) :
    Checks a names (Analysis.report f position) names fun _ => f.severity ≠ .error := by
  intro s ha b s' hrun
  cases hrun
  have hadvances : s.errors ≤ if f.severity = .error then s.errors + 1 else s.errors := by split <;> omega
  refine ⟨⟨hadvances, le_rfl⟩, ha, fun hclean hs => ?_⟩
  have hnone : (if f.severity = .error then s.errors + 1 else s.errors) = s.errors := hclean.errors
  refine ⟨⟨hs.declared, hs.current, hs.parents⟩, ⟨rfl, le_rfl, fun _ _ => rfl, fun _ _ _ => rfl, rfl⟩, fun hf => ?_⟩
  rw [if_pos hf] at hnone
  omega

theorem error {f : Finding} (hf : f.severity = .error) (position : Option Position) {J : Unit → Prop} :
    Checks a names (Analysis.report f position) names' J := by
  intro s ha b s' hrun
  have hreport : Checks a names (Analysis.report f position) names fun _ => f.severity ≠ .error := report f position
  obtain ⟨hadvances, ha', hrest⟩ := hreport s ha b s' hrun
  exact ⟨hadvances, ha', fun hclean hs => absurd hf (hrest hclean hs).2.2⟩

/-- What is an error was not the case. -/
theorem reportIf (p : Bool) (f : Finding) (position : Option Position) :
    Checks a names (Analysis.reportIf p f position) names fun _ => f.severity = .error → p = false := by
  cases p with
  | false => exact pure fun _ => rfl
  | true => exact (report f position).right fun _ h hf => absurd hf h

/-! ### Names -/

theorem lookup? (name : String) :
    Checks a names (Analysis.lookup? name) names fun d => d.isSome → name ∈ names := by
  intro s ha b s' hrun
  cases hrun
  exact ⟨.refl s, ha, fun _ hs => ⟨hs, .refl s, fun h => hs.declared name (EnvTree.declares_of_lookup? h)⟩⟩

theorem isBound (name : String) : Checks a names (Analysis.isBound name) names fun b => b → name ∈ names :=
  bind (lookup? name) fun _ => pure fun h hb => h hb

/-- A name that is declared is one more. -/
theorem declare (d : Declaration) : Checks a names (declare d) (d.name :: names) fun _ => True := by
  intro s ha b s' hrun
  rw [declare_eq] at hrun
  cases hdefine : s.tree.define s.current d with
  | error existing =>
    rw [hdefine] at hrun
    exact error (J := fun _ => True) rfl d.position s ha b s' hrun
  | ok tree =>
    rw [hdefine] at hrun
    cases hrun
    unfold EnvTree.define at hdefine
    split at hdefine
    · cases hdefine
    · obtain rfl := Except.ok.inj hdefine
      refine ⟨⟨le_rfl, by simp⟩, ha, fun _ hs => ⟨hs.modifyScopes (by simp +contextual) ?_, .modifyScopes hs.current ?_, trivial⟩⟩
      · intro scope hscope name hfound
        have hpush (before : Scope) (h : ((before.push d).find? name).isSome) :
            name ∈ d.name :: names ∨ (before.find? name).isSome := by
          by_cases hname : d.name = name
          · exact .inl (by simp [hname])
          · exact .inr (by simpa [Scope.find?, Scope.push, hname] using h)
        cases hscopes : s.tree.scopes s.current with
        | nil =>
          rw [hscopes] at hscope
          obtain rfl := List.mem_singleton.1 hscope
          exact .inl ((hpush .empty hfound).resolve_right (by simp [Scope.find?, Scope.empty]))
        | cons first outer =>
          rw [hscopes] at hscope
          rcases List.mem_cons.1 hscope with rfl | hscope
          · exact (hpush first hfound).imp_right fun h => ⟨first, by simp, h⟩
          · exact .inr ⟨scope, List.mem_cons_of_mem _ hscope, hfound⟩
      · cases s.tree.scopes s.current <;> rfl

/-! ### Scopes -/

/-- The declarations of a scope are gone when it has been closed. -/
theorem inScope {x : Analysis Unit} {J : Unit → Prop} (hx : Checks a names x names' J) :
    Checks a names (inScope x) names J := by
  intro s ha b s' hrun
  obtain ⟨t, ht, rfl⟩ := inScope_ok hrun
  let pushed : AnalysisState := { s with tree := s.tree.pushScope s.current }
  obtain ⟨hadvances, ha', hinner⟩ := hx pushed ha () t ht
  have hsize : s.tree.size ≤ t.tree.size := by simpa [pushed, EnvTree.pushScope] using hadvances.size
  refine ⟨⟨hadvances.errors, by simpa [EnvTree.popScope] using hsize⟩, ha', fun hclean hs => ?_⟩
  have hpushed : pushed.Knows names := by
    refine hs.modifyScopes (fun _ h => h) fun scope hscope name hfound => ?_
    rcases List.mem_cons.1 hscope with rfl | hscope
    · simp [Scope.find?, Scope.empty] at hfound
    · exact .inr ⟨scope, hscope, hfound⟩
  have hinside : pushed.Clean t := ⟨hclean.errors, by simpa [EnvTree.popScope] using hclean.fits⟩
  obtain ⟨hknows, hcontinues, hj⟩ := hinner hinside hpushed
  have hrestores := hcontinues.popScope hs.current
  refine ⟨hs.restored hrestores fun x p hp => ?_, hrestores.continues hs.current, hj⟩
  have hp' : t.tree.parent? x = some p := by simpa [EnvTree.popScope] using hp
  simpa [EnvTree.popScope] using hknows.parents x p hp'

/-- So are the declarations of an environment, as long as it is not opened. -/
theorem inEnvironment {x : Analysis Unit} {J : Unit → Prop} (name : String) (hx : Checks a names x names' J) :
    Checks a names (inEnvironment name x) names J := by
  intro s ha b s' hrun
  obtain ⟨t, ht, rfl⟩ := inEnvironment_ok hrun
  obtain ⟨hadvances, ha', hinner⟩ := hx (s.entered name) ha () t ht
  have hgrown := s.size_entered name
  have hsize : s.tree.size < t.tree.size := by
    have := hadvances.size
    omega
  refine ⟨⟨hadvances.errors, hsize.le⟩, ha', fun hclean hs => ?_⟩
  -- There is a number for the new environment, since there is one for every environment at the end.
  have hroom : s.tree.size < UInt32.size := hsize.trans_le hclean.fits
  obtain ⟨hindex, hempty, haround⟩ := s.tree.get?_pushEnvironment_self name hs.current hroom
  have hold (x : EnvId) (hx : x.index < s.tree.size) :
      (s.entered name).tree.scopes x = s.tree.scopes x ∧ (s.entered name).tree.parent? x = s.tree.parent? x :=
    s.tree.get?_pushEnvironment s.current name hx
  have hentered : (s.entered name).Knows names := by
    refine ⟨fun name' hd => ?_, ?_, fun x p hp => ?_⟩
    · cases hd with
      | here hscope hfound =>
        rw [show (s.entered name).tree.scopes (s.entered name).current = [.empty] from hempty] at hscope
        obtain rfl := List.mem_singleton.1 hscope
        simp [Scope.find?, Scope.empty] at hfound
      | around hp hd =>
        obtain rfl := Option.some.inj (haround.symm.trans hp)
        have hbefore := hd.before (r := fun x => x.index < s.tree.size) (P := False)
          (fun x p _ hx => hs.parents x p hx) (fun x hx => (hold x hx).2)
          (fun x hx scope hs hfound => .inl (.here ((hold x hx).1 ▸ hs) hfound)) hs.current
        exact hs.declared name' (hbefore.resolve_right id)
    · show (s.entered name).current.index < (s.entered name).tree.size
      rw [show (s.entered name).current.index = s.tree.size from hindex, hgrown]
      exact Nat.lt_succ_self _
    · rw [hgrown]
      rcases lt_trichotomy x.index s.tree.size with hx | hx | hx
      · exact (hs.parents x p ((hold x hx).2 ▸ hp)).trans (Nat.lt_succ_self _)
      · obtain rfl : x = (s.entered name).current := EnvId.ext_index (hx.trans hindex.symm)
        obtain rfl := Option.some.inj (haround.symm.trans hp)
        exact hs.current.trans (Nat.lt_succ_self _)
      · have hnone : (s.entered name).tree.get? x = none :=
          Array.getElem?_eq_none (show (s.entered name).tree.size ≤ x.index from hgrown ▸ hx)
        simp [EnvTree.parent?, hnone] at hp
  obtain ⟨hknows, hcontinues, hj⟩ := hinner ⟨hclean.errors, hclean.fits⟩ hentered
  have hrestores := hcontinues.leave hs.current hroom
  exact ⟨hs.restored hrestores hknows.parents, hrestores.continues hs.current, hj⟩

theorem allowingReturn {x : Analysis Unit} {J : Unit → Prop} (allowed : Bool) (hx : Checks a names x names' J) :
    Checks a names (allowingReturn allowed x) names' J := by
  intro s ha b s' hrun
  obtain ⟨t, ht, rfl⟩ := allowingReturn_ok hrun
  obtain ⟨hadvances, ha', hinner⟩ := hx { s with inFunction := allowed } ha () t ht
  refine ⟨⟨hadvances.errors, hadvances.size⟩, ha', fun hclean hs => ?_⟩
  obtain ⟨hknows, hcontinues, hj⟩ := hinner ⟨hclean.errors, hclean.fits⟩ ⟨hs.declared, hs.current, hs.parents⟩
  refine ⟨⟨hknows.declared, hknows.current, hknows.parents⟩, ?_, hj⟩
  exact ⟨hcontinues.current, hcontinues.size, hcontinues.parents, hcontinues.others, hcontinues.outer⟩

/-! ### Labels -/

variable {ι : Type} {label : ι → Label} {visit : ι → Bool → Analysis Unit}

/-- Labels that declare nothing. -/
theorem forLabels {J : ι → Prop} {items : List ι}
    (h : ∀ item ∈ items, ∀ again, Checks a names (visit item again) names fun _ => J item) :
    Checks a names (forLabels label visit items) names fun _ => ∀ item ∈ items, J item := by
  have hgo (seen : List String) : Checks a names (Analysis.forLabels.go label visit seen items) names
      fun _ => ∀ item ∈ items, J item := by
    induction items generalizing seen with
    | nil => exact pure (by simp)
    | cons item rest ih =>
      refine bind (h item (by simp) _) fun _ => ?_
      refine (ih (fun item hmem => h item (by simp [hmem])) _).right fun _ hrest hitem other hother => ?_
      rcases List.mem_cons.1 hother with rfl | hother
      · exact hitem
      · exact hrest other hother
  exact hgo []

/-- Labels that are declared. -/
theorem declaring {items : List ι} (h : ∀ (item : ι) (again : Bool) (names : List String),
      Checks a names (visit item again) ((label item).name :: names) fun _ => True) :
    Checks a names (Analysis.forLabels label visit items) (items.map (fun item => (label item).name) ++ names)
      fun _ => True := by
  have hgo (seen : List String) : Checks a names (Analysis.forLabels.go label visit seen items)
      (items.map (fun item => (label item).name) ++ names) fun _ => True := by
    induction items generalizing seen names with
    | nil => exact pure trivial
    | cons item rest ih =>
      refine bind (h item _ names) fun _ => (ih _).weaken (fun _ h => h) (fun name hname => ?_) fun _ h _ => h
      simp only [List.mem_append, List.map_cons, List.mem_cons] at hname ⊢
      tauto
  exact hgo []

end Checks

end Analysis

end DynScript