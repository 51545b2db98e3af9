import DynScript.Proofs.Analysis.Environments
import DynScript.Proofs.Analysis.Replay
import DynScript.Proofs.Session.Accepted

/-!
# Opening an environment

A statement `N.{ ... }` of the top level brings the scopes of the first environment called `N` into the scope of its
body. This is the environment of the object that the top level binds to `N`, unless an object called `N` stands
deeper in a statement before it: the search goes depth first, and it begins at the root, which has a name of its own.
-/

namespace DynScript

namespace Scope

variable {scopes : List Scope} {scope : Scope} {outer : List Scope} {d : Declaration} {name : String}

/-- A name is declared after its declaration, and names that are declared stay so. -/
theorem isSome_inForce?_declareIn :
    (inForce? (declareIn d scopes) name).isSome = (decide (d.name = name) || (inForce? scopes name).isSome) := by
  by_cases hname : d.name = name
  · subst hname
    cases scopes with
    | nil => simp [declareIn, find?_push_self rfl]
    | cons scope outer =>
      rw [declareIn]
      split
      · rename_i hfinal
        -- The name is final in this scope, so it is declared there already.
        cases hfound : scope.find? d.name with
        | none => simp [hfound] at hfinal
        | some e => simp [hfound]
      · simp [find?_push_self rfl]
  · rw [inForce?_declareIn_of_ne hname]
    simp [hname]

theorem isSome_inForce?_foldl {ds : List Declaration} :
    (inForce? (ds.foldl (fun scopes d => declareIn d scopes) scopes) name).isSome =
      ((ds.map Declaration.name).contains name || (inForce? scopes name).isSome) := by
  induction ds generalizing scopes with
  | nil => simp
  | cons d rest ih =>
    rw [List.foldl_cons, ih, isSome_inForce?_declareIn, List.map_cons, List.contains_cons]
    by_cases hname : d.name = name
    · subst hname
      simp
    · have hne : (name == d.name) = false := beq_eq_false_iff_ne.2 (Ne.symm hname)
      rw [hne, decide_eq_false hname, Bool.false_or, Bool.false_or]

end Scope

namespace Arena

variable {a : Arena} {scopes : List Scope} {name : String}

/-- Statements keep the names that are declared. -/
theorem isSome_inForce?_addsAll {ids : List NodeId} (h : (Scope.inForce? scopes name).isSome) :
    (Scope.inForce? (a.addsAll ids scopes) name).isSome := by
  induction ids generalizing scopes with
  | nil => exact h
  | cons c rest ih =>
    refine ih ?_
    show (Scope.inForce? (a.adds c scopes) name).isSome
    unfold adds
    split
    · rw [Scope.isSome_inForce?_declareIn, h, Bool.or_true]
    · exact h

/-- The parameters of an object are declared in its scope. -/
theorem isSome_objectScopes_param {params : List Param} {members : List NodeId} {q : Param} (hq : q ∈ params) :
    (Scope.inForce? (a.objectScopes params members scopes) q.name).isSome := by
  refine isSome_inForce?_addsAll ?_
  have hmem : q.name ∈ (params.map Param.ofClass).map Declaration.name := by
    rw [List.map_map]
    exact List.mem_map_of_mem hq
  rw [Scope.isSome_inForce?_foldl, List.contains_iff_mem.2 hmem, Bool.true_or]

/-- So are its members. -/
theorem isSome_objectScopes_member {params : List Param} {members : List NodeId} {m value : NodeId}
    {mode : BindingMode} {isFinal : Bool} (hm : m ∈ members)
    (hk : a.kind? m = some (.binding name mode isFinal value)) :
    (Scope.inForce? (a.objectScopes params members scopes) name).isSome := by
  obtain ⟨earlier, later, rfl⟩ := List.append_of_mem hm
  obtain ⟨position, hn⟩ := kind?_eq_some.1 hk
  rw [objectScopes, addsAll, List.foldl_append, List.foldl_cons, adds_binding hn]
  refine isSome_inForce?_addsAll ?_
  rw [Scope.isSome_inForce?_declareIn, decide_eq_true rfl, Bool.true_or]

end Arena

/-! ## The environment of an object -/

namespace EnvTree

variable {t : EnvTree} {e : EnvId} {name : String} {scope : Scope}

/-- No environment but the root has this name, and only such are listed by them and by the root. -/
structure Lacks (t : EnvTree) (name : String) : Prop where
  /-- The root has another name. -/
  root : ∃ node, t.get? root = some node ∧ node.name ≠ name ∧
    ∀ c ∈ node.children, c ≠ EnvTree.root ∧ c.index < t.size
  /-- All others have another name. -/
  others : ∀ x node, x ≠ EnvTree.root → t.get? x = some node → node.name ≠ name ∧
    ∀ c ∈ node.children, c ≠ EnvTree.root ∧ c.index < t.size

/-- An environment with one scope is the first of its name that is found below the root. -/
structure Shelves (t : EnvTree) (name : String) (e : EnvId) (scope : Scope) : Prop where
  /-- It is not the root. -/
  ne : e ≠ EnvTree.root
  /-- The environment. -/
  held : ∃ parent children, t.get? e = some ⟨name, parent, children, [scope]⟩
  /-- The root, which has another name, lists it after older ones. -/
  root : ∃ node older later, t.get? EnvTree.root = some node ∧ node.name ≠ name ∧
    node.children = older ++ e :: later ∧ ∀ c ∈ older, c ≠ EnvTree.root ∧ c.index < e.index
  /-- The older ones have other names and list only each other. -/
  older : ∀ x node, x ≠ EnvTree.root → x.index < e.index → t.get? x = some node → node.name ≠ name ∧
    ∀ c ∈ node.children, c ≠ EnvTree.root ∧ c.index < e.index

/-- It is found by its name. -/
theorem Shelves.findEnv? (h : t.Shelves name e scope) : t.findEnv? EnvTree.root name = some e := by
  obtain ⟨parent, children, hheld⟩ := h.held
  obtain ⟨node, older, later, hroot, hname, hlist, holder⟩ := h.root
  have hrootName : t.name? EnvTree.root ≠ some name := by
    rw [name?, hroot]
    exact fun heq => hname (Option.some.inj heq)
  have hrootList : t.children EnvTree.root = older ++ e :: later := by simp [EnvTree.children, hroot, hlist]
  have hbefore : t.Before e name := by
    constructor
    case names =>
      intro x hx hlt hxname
      obtain ⟨other, hother, heq⟩ := Option.map_eq_some_iff.1 hxname
      exact (h.older x other hx hlt hother).1 heq
    case children =>
      intro x hx hlt c hc
      cases hother : t.get? x with
      | none => simp [EnvTree.children, hother] at hc
      | some other =>
        refine (h.older x other hx hlt hother).2 c ?_
        simpa [EnvTree.children, hother] using hc
  exact findEnv?_root hrootName hrootList (by simp [name?, hheld]) h.ne hbefore holder

/-- What is declared in scopes that are brought in is declared. -/
theorem isBound_bringIntoScope {target source : EnvId} (ht : target.index < t.size)
    (h : (Scope.inForce? (t.scopes source) name).isSome) : (t.bringIntoScope target source).isBound target name := by
  obtain ⟨l, hl⟩ : ∃ l, t.size = l + 1 := ⟨t.size - 1, by omega⟩
  have hsize : (t.bringIntoScope target source).size = l + 1 := by rw [bringIntoScope, size_modifyScopes, hl]
  have hscopes : (t.bringIntoScope target source).scopes target = t.scopes source ++ t.scopes target :=
    scopes_modifyScopes_self _ ht
  have hfound : ((t.scopes source ++ t.scopes target).findSome? (·.find? name)).isSome := by
    rw [List.findSome?_append, Option.isSome_or, Bool.or_eq_true]
    exact .inl h
  rw [isBound, lookup?, hsize, lookupFrom?, hscopes, Option.isSome_or, hfound, Bool.true_or]

end EnvTree

namespace AnalysisState

variable {s s' : AnalysisState} {e : EnvId} {name : String} {scope : Scope} {names : String → Prop}

/-- Visits that make no environment of a name leave the tree without one. -/
theorem lacks_of_sprouts (h : s.tree.Lacks name) (hc : s.current = EnvTree.root)
    (hsprouts : s.Sprouts s' (· ≠ name)) : s'.tree.Lacks name := by
  obtain ⟨node, hnode, hname, hchildren⟩ := h.root
  have hsize := hsprouts.size
  have hpos : EnvTree.root.index < s.tree.size := EnvTree.lt_size_of_get? hnode
  constructor
  case root =>
    obtain ⟨more, scopes, hnode', hmore⟩ := hsprouts.here node (hc ▸ hnode)
    rw [hc] at hnode'
    refine ⟨_, hnode', hname, fun c hcm => ?_⟩
    rcases List.mem_append.1 hcm with hcm | hcm
    · obtain ⟨hne, hlt⟩ := hchildren c hcm
      exact ⟨hne, hlt.trans_le hsize⟩
    · obtain ⟨hge, hlt⟩ := hmore c hcm
      refine ⟨?_, hlt⟩
      rintro rfl
      omega
  case others =>
    intro x node' hx hnode'
    by_cases hold : x.index < s.tree.size
    · rw [hsprouts.others x hold (hc ▸ hx)] at hnode'
      obtain ⟨hname', hchildren'⟩ := h.others x node' hx hnode'
      refine ⟨hname', fun c hcm => ?_⟩
      obtain ⟨hne, hlt⟩ := hchildren' c hcm
      exact ⟨hne, hlt.trans_le hsize⟩
    · obtain ⟨hname', -, hchildren'⟩ := hsprouts.made x node' (by omega) hnode'
      refine ⟨hname', fun c hcm => ?_⟩
      obtain ⟨hgt, hlt⟩ := hchildren' c hcm
      refine ⟨?_, hlt⟩
      rintro rfl
      omega

/-- An object of the name that is made now is the first one. -/
theorem shelves_of_encloses (h : s.tree.Lacks name) (hc : s.current = EnvTree.root)
    (hencloses : Analysis.Encloses s s' name names scope) : s'.tree.Shelves name (.ofIndex s.tree.size) scope := by
  obtain ⟨node, hnode, hname, hchildren⟩ := h.root
  have hindex := hencloses.numbered
  have hpos : EnvTree.root.index < s.tree.size := EnvTree.lt_size_of_get? hnode
  have hother (x : EnvId) (hx : s.tree.name? x = some name) : x = EnvTree.root := by
    obtain ⟨node', hnode', heq⟩ := Option.map_eq_some_iff.1 hx
    by_contra hne
    exact (h.others x node' hne hnode').1 heq
  constructor
  case ne =>
    intro heq
    rw [← heq, hindex] at hpos
    exact lt_irrefl _ hpos
  case held =>
    obtain ⟨children, hheld⟩ := hencloses.made
    exact ⟨_, _, hheld⟩
  case root =>
    have hlisted := hencloses.listed node (hc ▸ hnode) fun c hcm heq => (hchildren c hcm).1 (hother c heq)
    rw [hc] at hlisted
    exact ⟨_, node.children, [], hlisted, hname, rfl, hindex.symm ▸ hchildren⟩
  case older =>
    intro x node' hx hlt hnode'
    rw [hindex] at hlt ⊢
    rw [hencloses.sprouts.others x hlt (hc ▸ hx)] at hnode'
    exact h.others x node' hx hnode'

/-- It stays the first one. -/
theorem shelves_of_sprouts (h : s.tree.Shelves name e scope) (hc : s.current = EnvTree.root)
    (hsprouts : s.Sprouts s' names) : s'.tree.Shelves name e scope := by
  obtain ⟨parent, children, hheld⟩ := h.held
  have he : e.index < s.tree.size := EnvTree.lt_size_of_get? hheld
  constructor
  case ne => exact h.ne
  case held => exact ⟨parent, children, by rw [hsprouts.others e he (hc ▸ h.ne), hheld]⟩
  case root =>
    obtain ⟨node, older, later, hnode, hname, hlist, holder⟩ := h.root
    obtain ⟨more, scopes, hnode', -⟩ := hsprouts.here node (hc ▸ hnode)
    rw [hc] at hnode'
    refine ⟨_, older, later ++ more, hnode', hname, ?_, holder⟩
    simp [hlist]
  case older =>
    intro x node hx hlt hnode
    rw [hsprouts.others x (hlt.trans he) (hc ▸ hx)] at hnode
    exact h.older x node hx hlt hnode

end AnalysisState

/-! ## The top level -/

namespace Analysis

variable {a : Arena} {region : NodeId → Prop} {visit : NodeId → Analysis Unit} {s s' : AnalysisState}

theorem bind_congr_run {α β : Type} {x y : Analysis α} {k : α → Analysis β} (h : x s = y s') :
    (x >>= k) s = (y >>= k) s' := by
  show (x s >>= fun r => k r.1 r.2) = (y s' >>= fun r => k r.1 r.2)
  rw [h]

theorem visitAll_append (visit : NodeId → Analysis Unit) (ids ids' : List NodeId) :
    visitAll visit (ids ++ ids') = (visitAll visit ids >>= fun _ => visitAll visit ids') := by
  induction ids with
  | nil => rfl
  | cons c rest ih =>
    show (visit c >>= fun _ => visitAll visit (rest ++ ids')) = _
    rw [ih, visitAll, bind_assoc]

/-- An environment-open up to its body. -/
def openScope (visit : NodeId → Analysis Unit) (target : NodeId) : Analysis Unit := do
  modifyTree EnvTree.pushScope
  visit target
  match (← node target).kind with
  | .ident name =>
    modifyTree fun tree current =>
      match tree.findEnv? current name with
      | some env => tree.bringIntoScope current env
      | none => tree
  | _ => pure ()

/-- What is left to do of it after the body. -/
def closeScope (saved : Nat) (allowed : Bool) : Analysis Unit := do
  modifyTree fun tree current => tree.truncateScopes current saved
  modify fun s => { s with inFunction := allowed }

/-- The body stands between the two. -/
theorem visitEnvOpen_eq (visit : NodeId → Analysis Unit) (target body : NodeId) (s : AnalysisState) :
    visitEnvOpen visit target body s =
      (openScope visit target >>= fun _ => visit body >>= fun _ =>
        closeScope (s.tree.scopeCount s.current) s.inFunction) { s with inFunction := false } := by
  have hsplit : visitEnvOpen visit target body s = ((modifyTree EnvTree.pushScope >>= fun _ =>
      visit target >>= fun _ => node target >>= fun n =>
        let rest : Unit → Analysis Unit := fun _ => visit body >>= fun _ =>
          modifyTree fun tree current => tree.truncateScopes current (s.tree.scopeCount s.current)
        match n.kind with
        | .ident name => (modifyTree fun tree current =>
            match tree.findEnv? current name with
            | some env => tree.bringIntoScope current env
            | none => tree) >>= rest
        | _ => pure () >>= rest) >>= fun _ => modify fun t => { t with inFunction := s.inFunction })
      { s with inFunction := false } := rfl
  rw [hsplit]
  refine congrFun ?_ _
  unfold openScope closeScope
  simp only [bind_assoc]
  congr
  funext _
  congr
  funext _
  congr
  funext n
  cases n.kind <;> simp only [bind_assoc, pure_bind]

/-- The analysis of a top level up to the body of an environment-open that follows some statements. -/
def visitUpTo (role : Role) (before : List NodeId) (target : NodeId) : Analysis Unit := do
  let levels := (← get).arena.size
  visitAll (visitWithin role (levels + 1)) before
  modify fun s => { s with inFunction := false }
  openScope (visitWithin role levels) target

section

variable (hv : ∀ c, region c → ∀ scopes, Tends a region (fun _ => True) scopes (visit c) (a.adds c scopes))
include hv

/-- After the value of a binding that is an object, the object has the first environment of the name. -/
theorem shelves_of_visitValue {name : String} {value : NodeId} {params : Option (List Param)} {composed : List Label}
    {members : List NodeId} (hvalue : region value)
    (hk : a.kind? value = some (.object params composed members)) (ha : a.Tame s.arena region)
    (hc : s.current = EnvTree.root) (hlacks : s.tree.Lacks name)
    (hrun : visitValue visit name value s = .ok ((), s')) (hroom : s'.tree.size ≤ UInt32.size) :
    ∃ e scope, s'.tree.Shelves name e scope ∧ a.objectScopes (params.getD []) members [.empty] = [scope] := by
  obtain ⟨position, hn⟩ := Arena.kind?_eq_some.1 hk
  have hn' : s.arena.get? value = some ⟨.object params composed members, position⟩ :=
    ha.outline.get?_of_not_joint hn rfl
  obtain ⟨n, hget, hrest⟩ := node_ok hrun
  obtain rfl := Option.some.inj (hn'.symm.trans hget)
  have hmembers : ∀ c ∈ members, region c := fun c hcm => ha.closed value c hvalue ⟨_, hn', hcm⟩
  obtain ⟨scope, hscope⟩ := a.exists_objectScopes (params.getD []) members .empty []
  have hobject : Tends a region (fun _ => True) [.empty] (visitObject visit params composed members) [scope] :=
    hscope ▸ Tends.visitObject hv params composed hmembers
  obtain ⟨root, hroot, -⟩ := hlacks.root
  have hlt : s.current.index < s.tree.size := hc ▸ EnvTree.lt_size_of_get? hroot
  obtain ⟨hencloses, -⟩ := encloses_inEnvironment trivial hobject ha hlt hrest hroom
  exact ⟨_, scope, AnalysisState.shelves_of_encloses hlacks hc hencloses, hscope⟩

/-- So it has after the whole binding. -/
theorem shelves_of_visitBinding {name : String} {mode : BindingMode} {isFinal : Bool} {value : NodeId}
    {position : Option Position} {params : Option (List Param)} {composed : List Label} {members : List NodeId}
    (hvalue : region value) (hk : a.kind? value = some (.object params composed members))
    (ha : a.Tame s.arena region) (hc : s.current = EnvTree.root) (hlacks : s.tree.Lacks name)
    (hrun : visitBinding visit name mode isFinal value position s = .ok ((), s'))
    (hroom : s'.tree.size ≤ UInt32.size) :
    ∃ e scope, s'.tree.Shelves name e scope ∧ a.objectScopes (params.getD []) members [.empty] = [scope] := by
  have hlt : s.current.index < s.tree.size := by
    obtain ⟨root, hroot, -⟩ := hlacks.root
    exact hc ▸ EnvTree.lt_size_of_get? hroot
  have hdeclare {scopes : List Scope} {names : String → Prop} : Tends a region names scopes
      (declare ⟨name, position, isFinal, mode = .mutable⟩) _ := Tends.declare _
  have hmain {scopes : List Scope} : Tends a region (fun _ => True) scopes (get >>= fun s =>
      reportIf (name = mainName && !isFinal && (s.current = EnvTree.root && s.tree.scopeCount EnvTree.root = 1))
        .mainNotFinal position) scopes := Tends.reading fun _ => Tends.reportIf _ _ _
  have hvisit (scopes : List Scope) : Tends a region (fun _ => True) scopes (visitValue visit name value) scopes :=
    Tends.visitValue hv hvalue ⟨_, hk, rfl⟩ fun _ _ _ _ => trivial
  have hafter {t t' : AnalysisState} (hct : t.current = EnvTree.root) (hat : a.Tame t.arena region)
      (hlackst : t.tree.Lacks name) (hvalueRun : visitValue visit name value t = .ok ((), t'))
      (hrest : ∀ scopes, ∃ x scopes', Tends a region (fun _ => True) scopes x scopes' ∧ x t' = .ok ((), s')) :
      ∃ e scope, s'.tree.Shelves name e scope ∧
        a.objectScopes (params.getD []) members [.empty] = [scope] := by
    obtain ⟨hat', -⟩ := (hvisit []).goes t () t' hat hvalueRun
    obtain ⟨x, scopes', htends, hx⟩ := hrest (t'.tree.scopes t'.current)
    have hfits : t'.tree.size ≤ UInt32.size := (htends.goes t' () s' hat' hx).2.trans hroom
    obtain ⟨e, scope, hshelves, hscope⟩ := shelves_of_visitValue hv hvalue hk hat hct hlackst hvalueRun hfits
    have hltt : t.current.index < t.tree.size := by
      obtain ⟨root, hroot, -⟩ := hlackst.root
      exact hct ▸ EnvTree.lt_size_of_get? hroot
    obtain ⟨hsprouts, -⟩ := (hvisit _).tends t () t' hat hltt rfl hvalueRun hfits
    have hct' : t'.current = EnvTree.root := hsprouts.current.trans hct
    have hltt' : t'.current.index < t'.tree.size := by
      rw [hsprouts.current]
      exact hltt.trans_le hsprouts.size
    obtain ⟨hsprouts', -⟩ := htends.tends t' () s' hat' hltt' rfl hx hroom
    exact ⟨e, scope, AnalysisState.shelves_of_sprouts hshelves hct' hsprouts', hscope⟩
  dsimp only [visitBinding] at hrun
  split at hrun
  · obtain ⟨⟨⟨⟩, t⟩, hdeclared, hrun⟩ := bind_ok hrun
    obtain ⟨⟨⟨⟩, t'⟩, hvalueRun, hrest⟩ := bind_ok hrun
    have hat : a.Tame t.arena region := (Stays.declare _ s () t hdeclared).1 ▸ ha
    have hlater : Tends a region (fun _ => True) [] (visitValue visit name value >>= fun _ => _) [] :=
      (hvisit []).bind fun _ => hmain
    have hfits : t.tree.size ≤ UInt32.size :=
      (hlater.goes t () s' hat ((bind_eq hvalueRun).trans hrest)).2.trans hroom
    obtain ⟨hsprouts, -⟩ := hdeclare.tends s () t ha hlt rfl hdeclared hfits
    exact hafter (hsprouts.current.trans hc) hat (AnalysisState.lacks_of_sprouts hlacks hc hsprouts) hvalueRun
      fun scopes => ⟨_, scopes, hmain, hrest⟩
  · obtain ⟨⟨⟨⟩, t'⟩, hvalueRun, hrest⟩ := bind_ok hrun
    exact hafter hc ha hlacks hvalueRun fun scopes => ⟨_, _, hdeclare.bind fun _ => hmain, hrest⟩

/-- Where the body of an environment-open begins, what the object declares is bound. -/
theorem isBound_of_openScope {name field : String} {target : NodeId} {e : EnvId} {scope : Scope}
    (htarget : region target) (hk : a.kind? target = some (.ident name)) (ha : a.Tame s.arena region)
    (hc : s.current = EnvTree.root) (hshelves : s.tree.Shelves name e scope)
    (hfield : (Scope.inForce? [scope] field).isSome) (hrun : openScope visit target s = .ok ((), s'))
    (hroom : s'.tree.size ≤ UInt32.size) :
    s'.tree.isBound s'.current field := by
  obtain ⟨⟨⟨⟩, t'⟩, hvisit, hrest⟩ := bind_ok hrun
  have hlt : s.current.index < s.tree.size := by
    obtain ⟨root, -, -, hroot, -⟩ := hshelves.root
    exact hc ▸ EnvTree.lt_size_of_get? hroot
  have hopened : Tends a region (fun _ => True) (s.tree.scopes s.current)
      (modifyTree EnvTree.pushScope >>= fun _ => visit target) _ :=
    (Tends.modifyScopes (Scope.empty :: ·)).bind fun _ => hv target htarget _
  obtain ⟨hat', -⟩ := hopened.goes s () t' ha hvisit
  obtain ⟨position, hn⟩ := Arena.kind?_eq_some.1 hk
  have hn' : t'.arena.get? target = some ⟨.ident name, position⟩ := hat'.outline.get?_of_not_joint hn rfl
  obtain ⟨n, hget, hbring⟩ := node_ok hrest
  obtain rfl := Option.some.inj (hn'.symm.trans hget)
  have hfits : t'.tree.size ≤ UInt32.size := ((Grows.idle (.bringing name)) t' () s' hbring).2.trans hroom
  obtain ⟨hsprouts, -⟩ := hopened.tends s () t' ha hlt rfl hvisit hfits
  have hc' : t'.current = EnvTree.root := hsprouts.current.trans hc
  have hshelves' : t'.tree.Shelves name e scope := AnalysisState.shelves_of_sprouts hshelves hc hsprouts
  have hfound : t'.tree.findEnv? t'.current name = some e := hc' ▸ hshelves'.findEnv?
  have hbrought : s' = { t' with tree := t'.tree.bringIntoScope t'.current e } := by
    have hresult := congrArg Prod.snd (Except.ok.inj hbring)
    simp only [hfound] at hresult
    exact hresult.symm
  rw [hbrought]
  refine EnvTree.isBound_bringIntoScope ?_ ?_
  · rw [hsprouts.current]
    exact hlt.trans_le hsprouts.size
  · obtain ⟨parent, children, hheld⟩ := hshelves'.held
    simpa [EnvTree.scopes, hheld] using hfield

end

end Analysis

open Analysis

/-- The tree of a program that has not been visited yet has only a root. -/
theorem EnvTree.lacks_initialTree {name : String} (h : name ≠ rootName) : initialTree.Lacks name := by
  have hroot : initialTree.get? root =
      some ⟨rootName, none, [], [Scope.empty.push ⟨hostName, none, true, false⟩]⟩ := rfl
  have hsize : initialTree.size = 1 := rfl
  constructor
  case root => exact ⟨_, hroot, h.symm, by simp⟩
  case others =>
    intro x node hx hnode
    have hlt := lt_size_of_get? hnode
    rw [hsize] at hlt
    exact absurd (EnvId.ext_index (Nat.lt_one_iff.1 hlt)) hx

section

variable {a : Arena} {region : NodeId → Prop} {role : Role} {levels : Nat} {s s' : AnalysisState}
  {before between : List NodeId} {first value : NodeId} {name : String} {mode : BindingMode} {isFinal : Bool}
  {params : Option (List Param)} {composed : List Label} {members : List NodeId}

/-- The environment of an object that the top level binds to a name is the first one of the name, after any more
statements, when no statement before the binding makes one. -/
theorem shelves_of_visitAll (hregion : ∀ i ∈ before ++ first :: between, region i)
    (hbefore : ∀ i, a.BelowAny before i → ¬ a.BindsObject i name)
    (hk : a.kind? first = some (.binding name mode isFinal value))
    (hvalue : a.kind? value = some (.object params composed members)) (ha : a.Tame s.arena region)
    (ha' : a.Tame s.arena (a.BelowAny before)) (hc : s.current = EnvTree.root) (hlacks : s.tree.Lacks name)
    (hrun : visitAll (visitWithin role (levels + 1)) (before ++ first :: between) s = .ok ((), s'))
    (hroom : s'.tree.size ≤ UInt32.size) :
    a.Tame s'.arena region ∧ s'.current = EnvTree.root ∧ ∃ e scope, s'.tree.Shelves name e scope ∧
      a.objectScopes (params.getD []) members [.empty] = [scope] := by
  have hv (levels : Nat) (c : NodeId) (hc : region c) (scopes : List Scope) :
      Tends a region (fun _ => True) scopes (visitWithin role levels c) (a.adds c scopes) :=
    Tends.visitWithin (fun _ _ _ _ => trivial) role levels hc
  have hlt : s.current.index < s.tree.size := by
    obtain ⟨root, hroot, -⟩ := hlacks.root
    exact hc ▸ EnvTree.lt_size_of_get? hroot
  rw [visitAll_append] at hrun
  obtain ⟨⟨⟨⟩, s₁⟩, hbeforeRun, hrun⟩ := bind_ok hrun
  obtain ⟨⟨⟨⟩, s₂⟩, hfirstRun, hbetweenRun⟩ := bind_ok hrun
  -- The statements before the binding make no environment of its name.
  have hv₁ (c : NodeId) (hc : a.BelowAny before c) (scopes : List Scope) :
      Tends a (a.BelowAny before) (· ≠ name) scopes (visitWithin role (levels + 1) c) (a.adds c scopes) := by
    refine Tends.visitWithin (fun x name' hx hbinds => ?_) role (levels + 1) hc
    rintro rfl
    exact hbefore x hx hbinds
  have hvisits {ids : List NodeId} (hids : ∀ c ∈ ids, region c) (scopes : List Scope) :
      Tends a region (fun _ => True) scopes (visitAll (visitWithin role (levels + 1)) ids) (a.addsAll ids scopes) :=
    Tends.visitStatements (hv (levels + 1)) hids
  have hbefore' := hvisits (fun c (hc : c ∈ before) => hregion c (by simp [hc]))
  have hbetween := hvisits (fun c (hc : c ∈ between) => hregion c (by simp [hc]))
  have hbinding := hv (levels + 1) first (hregion first (by simp))
  obtain ⟨ha₁, -⟩ := (hbefore' []).goes s () s₁ ha hbeforeRun
  obtain ⟨ha₂, hsize₁⟩ := (hbinding []).goes s₁ () s₂ ha₁ hfirstRun
  obtain ⟨ha₃, hsize₂⟩ := (hbetween []).goes s₂ () s' ha₂ hbetweenRun
  have hfits₂ : s₂.tree.size ≤ UInt32.size := hsize₂.trans hroom
  have hfits₁ : s₁.tree.size ≤ UInt32.size := hsize₁.trans hfits₂
  obtain ⟨hsprouts₁, -⟩ := (Tends.visitStatements hv₁ fun c hc => ⟨c, hc, .refl⟩).tends s () s₁ ha' hlt rfl hbeforeRun
    hfits₁
  have hlacks₁ : s₁.tree.Lacks name := AnalysisState.lacks_of_sprouts hlacks hc hsprouts₁
  have hc₁ : s₁.current = EnvTree.root := hsprouts₁.current.trans hc
  have hlt₁ : s₁.current.index < s₁.tree.size := by
    rw [hsprouts₁.current]
    exact hlt.trans_le hsprouts₁.size
  -- The binding makes one.
  have hfirst : region first := hregion first (by simp)
  obtain ⟨position, hn⟩ := Arena.kind?_eq_some.1 hk
  have hn₁ := ha₁.outline.get?_of_not_joint hn rfl
  obtain ⟨n, hget, hbindingRun⟩ := node_ok hfirstRun
  obtain rfl := Option.some.inj (hn₁.symm.trans hget)
  obtain ⟨e, scope, hshelves₂, hscope⟩ := shelves_of_visitBinding (hv levels)
    (ha₁.closed first value hfirst ⟨_, hn₁, by simp [NodeKind.children]⟩) hvalue ha₁ hc₁ hlacks₁ hbindingRun hfits₂
  obtain ⟨hsprouts₂, -⟩ := (hbinding _).tends s₁ () s₂ ha₁ hlt₁ rfl hfirstRun hfits₂
  have hc₂ : s₂.current = EnvTree.root := hsprouts₂.current.trans hc₁
  have hlt₂ : s₂.current.index < s₂.tree.size := by
    rw [hsprouts₂.current]
    exact hlt₁.trans_le hsprouts₂.size
  -- It stays the first one.
  obtain ⟨hsprouts₃, -⟩ := (hbetween _).tends s₂ () s' ha₂ hlt₂ rfl hbetweenRun hroom
  exact ⟨ha₃, hsprouts₃.current.trans hc₂, e, scope, AnalysisState.shelves_of_sprouts hshelves₂ hc₂ hsprouts₃, hscope⟩

end

/-- Where a statement of the top level opens an environment, every parameter and every member of the object that an
earlier statement binds to its name are bound at the start of the body. The name is not that of the root, and no
statement before the binding binds it to an object at any depth. -/
theorem opened_objects_are_in_scope (p : Numbered) (role : Role) (queue : Queue) {before between after : List NodeId}
    {first opening target body value : NodeId} {name : String} {mode : BindingMode} {isFinal : Bool}
    {params : Option (List Param)} {composed : List Label} {members : List NodeId}
    (hblock : p.program.arena.kind? p.program.body = some (.block (before ++ first :: between ++ opening :: after)))
    (hfirst : p.program.arena.kind? first = some (.binding name mode isFinal value))
    (hvalue : p.program.arena.kind? value = some (.object params composed members))
    (hopening : p.program.arena.kind? opening = some (.envOpen target body))
    (htarget : p.program.arena.kind? target = some (.ident name)) (hroot : name ≠ rootName)
    (hbefore : ∀ i, p.program.arena.BelowAny before i → ¬ p.program.arena.BindsObject i name) :
    ∃ s rest, (visitUpTo role (before ++ first :: between) target).run (initialState p.program.arena queue) =
        .ok ((), s) ∧
      (visitProgram role p.program.body).run (initialState p.program.arena queue) =
        (visitWithin role p.program.arena.size body >>= fun _ => rest).run s ∧
      (∀ q ∈ params.getD [], s.tree.isBound s.current q.name) ∧
      ∀ m ∈ members, ∀ field mode isFinal value, p.program.arena.kind? m = some (.binding field mode isFinal value) →
        s.tree.isBound s.current field := by
  let a := p.program.arena
  let s₀ := initialState a queue
  let visit := visitWithin role a.size
  let region := a.BelowAny [p.program.body]
  have hclosed : a.Closed region := a.closed_belowAny _
  obtain ⟨position, hn⟩ := Arena.kind?_eq_some.1 hblock
  have hstatement (i : NodeId) (hi : i ∈ before ++ first :: between ++ opening :: after) : region i :=
    hclosed p.program.body i (Arena.belowAny_singleton.2 .refl) ⟨_, hn, hi⟩
  -- The analysis comes to its end, so every part of it does.
  obtain ⟨r, hrun, hroom⟩ : ∃ r, visitProgram role p.program.body s₀ = .ok r ∧ r.2.tree.size ≤ UInt32.size := by
    obtain ⟨settled, found, -, -, -, hpass⟩ := analyse_settles p.laid role
    have hok := (hpass queue).1
    unfold analyse at hok
    cases hvisit : (visitProgram role p.program.body).run s₀ with
    | error defect =>
      rw [hvisit] at hok
      cases hok
    | ok r => exact ⟨r, hvisit, p.fits (hpass queue).1 (.inl rfl) hvisit⟩
  have hprogram : visitProgram role p.program.body s₀ = (visitAll (visitWithin role (a.size + 1))
      (before ++ first :: between) >>= fun _ => visitWithin role (a.size + 1) opening >>= fun _ =>
        visitAll (visitWithin role (a.size + 1)) after) s₀ := by
    have hnode : node p.program.body s₀ = .ok (_, s₀) := node_eq hn
    rw [visitProgram_eq, bind_eq hnode]
    show visitAll _ (before ++ first :: between ++ opening :: after) s₀ = _
    rw [visitAll_append]
    rfl
  rw [hprogram] at hrun
  obtain ⟨⟨⟨⟩, s₁⟩, hearlier, hrun⟩ := bind_ok hrun
  obtain ⟨⟨⟨⟩, s₃⟩, hopen, hlater⟩ := bind_ok hrun
  have hgrows (c : NodeId) : Grows (visitWithin role (a.size + 1) c) := .visitWithin role _ c
  have hfits₃ : s₃.tree.size ≤ UInt32.size := (Grows.visitAll hgrows after s₃ _ _ hlater).2.trans hroom
  have hfits₁ : s₁.tree.size ≤ UInt32.size := (hgrows opening s₁ () s₃ hopen).2.trans hfits₃
  obtain ⟨ha₁, hc₁, e, scope, hshelves, hscope⟩ := shelves_of_visitAll
    (fun i hi => hstatement i (List.mem_append_left _ hi)) hbefore hfirst hvalue (p.laid.tame hclosed)
    (p.laid.tame (a.closed_belowAny before)) rfl (EnvTree.lacks_initialTree hroot) hearlier hfits₁
  -- The environment is opened.
  obtain ⟨position₁, hn₁⟩ := Arena.kind?_eq_some.1 hopening
  have hopenRun : visitWithin role (a.size + 1) opening s₁ =
      (openScope visit target >>= fun _ => visit body >>= fun _ =>
        closeScope (s₁.tree.scopeCount s₁.current) s₁.inFunction) { s₁ with inFunction := false } := by
    have hnode : node opening s₁ = .ok (_, s₁) := node_eq (ha₁.outline.get?_of_not_joint hn₁ rfl)
    rw [← visitEnvOpen_eq]
    exact bind_eq hnode
  rw [hopenRun] at hopen
  obtain ⟨⟨⟨⟩, s₂⟩, hscopeRun, hbodyRun⟩ := bind_ok hopen
  have hclose : Grows (visit body >>= fun _ => closeScope (s₁.tree.scopeCount s₁.current) s₁.inFunction) :=
    (Grows.visitWithin role _ body).bind fun _ => (Grows.modifyScopes _).bind fun _ => .changing fun _ =>
      ⟨.refl _, le_rfl⟩
  have hfits₂ : s₂.tree.size ≤ UInt32.size := (hclose s₂ () s₃ hbodyRun).2.trans hfits₃
  have htargetRegion : region target :=
    hclosed opening target (hstatement opening (by simp)) ⟨_, hn₁, by simp [NodeKind.children]⟩
  have hv (c : NodeId) (hc : region c) (scopes : List Scope) :
      Tends a region (fun _ => True) scopes (visit c) (a.adds c scopes) :=
    Tends.visitWithin (fun _ _ _ _ => trivial) role a.size hc
  have hbound (field : String)
      (hfield : (Scope.inForce? (a.objectScopes (params.getD []) members [.empty]) field).isSome) :
      s₂.tree.isBound s₂.current field :=
    isBound_of_openScope (s := { s₁ with inFunction := false }) hv htargetRegion htarget ha₁ hc₁ hshelves
      (hscope ▸ hfield) hscopeRun hfits₂
  refine ⟨s₂, closeScope (s₁.tree.scopeCount s₁.current) s₁.inFunction >>= fun _ =>
    visitAll (visitWithin role (a.size + 1)) after, ?_, ?_, ?_, ?_⟩
  · show (visitAll (visitWithin role (a.size + 1)) (before ++ first :: between) >>= fun _ =>
      (modify fun s => { s with inFunction := false }) >>= fun _ => openScope visit target) s₀ = _
    rw [bind_eq hearlier]
    exact hscopeRun
  · show visitProgram role p.program.body s₀ = (visit body >>= fun _ => _) s₂
    rw [hprogram, bind_eq hearlier, bind_congr_run (hopenRun.trans (bind_eq hscopeRun)), bind_assoc]
  · exact fun q hq => hbound q.name (Arena.isSome_objectScopes_param hq)
  · exact fun m hm field mode isFinal value hk => hbound field (Arena.isSome_objectScopes_member hm hk)

/-- Objects of other names and an object of the name further down do not get in the way. -/
theorem opened_object_declares_its_parts : ∃ (p : Numbered) (s : AnalysisState),
    p.source = "let A = object { M: object { } }; let N = object(x) { p: 1 }; let B = object { N: object { } }; N.{ x };" ∧
      (visitUpTo .entry [⟨3⟩, ⟨7⟩, ⟨11⟩] ⟨12⟩).run (initialState p.program.arena .empty) = .ok ((), s) ∧
      s.tree.isBound s.current "x" ∧ s.tree.isBound s.current "p" := by
  have hsource : (parseSource
      "let A = object { M: object { } }; let N = object(x) { p: 1 }; let B = object { N: object { } }; N.{ x };"
      ).toOption.any (fun program : Program => decide
        (program.arena.size ≤ UInt32.size ∧ program.arena.kind? program.body = some (.block [⟨3⟩, ⟨7⟩, ⟨11⟩, ⟨15⟩]) ∧
          program.arena.kind? ⟨7⟩ = some (.binding "N" .plain false ⟨6⟩) ∧
          program.arena.kind? ⟨6⟩ = some (.object (some [⟨⟨"x", some ⟨⟨49, 50⟩, 1, 50⟩⟩, false⟩]) [] [⟨5⟩]) ∧
          program.arena.kind? ⟨5⟩ = some (.binding "p" .plain false ⟨4⟩) ∧
          program.arena.kind? ⟨15⟩ = some (.envOpen ⟨12⟩ ⟨14⟩) ∧ program.arena.kind? ⟨12⟩ = some (.ident "N") ∧
          ∀ i : Nat, i < 4 → ¬ program.arena.BindsObject ⟨i⟩ "N")) := by decide +kernel
  obtain ⟨program, hreads, hdecided⟩ := exists_of_any hsource
  obtain ⟨hnumbers, hblock, hfirst, hvalue, hmember, hopening, htarget, hnone⟩ := of_decide_eq_true hdecided
  let p : Numbered := ⟨⟨_, program, hreads⟩, hnumbers⟩
  have hbefore (i : NodeId) (hi : program.arena.BelowAny [⟨3⟩] i) : ¬ program.arena.BindsObject i "N" := by
    have hle : i.index ≤ 3 := p.laid.toIsForest.index_le (Arena.belowAny_singleton.1 hi)
    exact hnone i.index (by omega)
  have hblock' : program.arena.kind? program.body = some (.block ([⟨3⟩] ++ ⟨7⟩ :: [⟨11⟩] ++ ⟨15⟩ :: [])) := hblock
  obtain ⟨s, -, hrun, -, hparams, hmembers⟩ :=
    opened_objects_are_in_scope p .entry .empty hblock' hfirst hvalue hopening htarget (by decide) hbefore
  have hp := hmembers _ (List.mem_singleton_self _) _ _ _ _ hmember
  exact ⟨p, s, rfl, hrun, hparams _ (List.mem_singleton_self _), hp⟩

/-- An object of the name that stands deeper in an earlier statement is found first. The top level binds the name once,
and the members of its object are not in scope. -/
theorem opened_object_of_an_earlier_statement : ∃ (p : Numbered) (s : AnalysisState),
    p.source = "let A = object { N: object { q: 1 } }; let N = object { p: 1 }; N.{ print p; }" ∧
      p.program.arena.kind? p.program.body = some (.block [⟨5⟩, ⟨9⟩, ⟨14⟩]) ∧
      p.program.arena.kind? ⟨5⟩ = some (.binding "A" .plain false ⟨4⟩) ∧
      p.program.arena.kind? ⟨9⟩ = some (.binding "N" .plain false ⟨8⟩) ∧
      p.program.arena.kind? ⟨8⟩ = some (.object none [] [⟨7⟩]) ∧
      p.program.arena.kind? ⟨7⟩ = some (.binding "p" .plain false ⟨6⟩) ∧
      p.program.arena.kind? ⟨14⟩ = some (.envOpen ⟨10⟩ ⟨13⟩) ∧ p.program.arena.kind? ⟨10⟩ = some (.ident "N") ∧
      (visitUpTo .entry [⟨5⟩, ⟨9⟩] ⟨10⟩).run (initialState p.program.arena .empty) = .ok ((), s) ∧
      s.tree.isBound s.current "p" = false := by
  have hsource : (parseSource "let A = object { N: object { q: 1 } }; let N = object { p: 1 }; N.{ print p; }"
      ).toOption.any (fun program : Program => decide
        (program.arena.size ≤ UInt32.size ∧ program.arena.kind? program.body = some (.block [⟨5⟩, ⟨9⟩, ⟨14⟩]) ∧
          program.arena.kind? ⟨5⟩ = some (.binding "A" .plain false ⟨4⟩) ∧
          program.arena.kind? ⟨9⟩ = some (.binding "N" .plain false ⟨8⟩) ∧
          program.arena.kind? ⟨8⟩ = some (.object none [] [⟨7⟩]) ∧
          program.arena.kind? ⟨7⟩ = some (.binding "p" .plain false ⟨6⟩) ∧
          program.arena.kind? ⟨14⟩ = some (.envOpen ⟨10⟩ ⟨13⟩) ∧ program.arena.kind? ⟨10⟩ = some (.ident "N") ∧
          ((visitUpTo .entry [⟨5⟩, ⟨9⟩] ⟨10⟩).run (initialState program.arena .empty)).toOption.any
            (fun r => !r.2.tree.isBound r.2.current "p"))) := by decide +kernel
  obtain ⟨program, hreads, hdecided⟩ := exists_of_any hsource
  obtain ⟨hnumbers, hblock, hother, hfirst, hvalue, hmember, hopening, htarget, hany⟩ := of_decide_eq_true hdecided
  obtain ⟨⟨⟨⟩, s⟩, hrun, hunbound⟩ := exists_of_any hany
  refine ⟨⟨⟨_, program, hreads⟩, hnumbers⟩, s, rfl, hblock, hother, hfirst, hvalue, hmember, hopening, htarget, hrun, ?_⟩
  simpa using hunbound

end DynScript
