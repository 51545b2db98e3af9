import DynScript.Proofs.Analysis.Growing
import DynScript.Proofs.Analysis.Outlook
import DynScript.Proofs.Session.Accepted

/-!
# Analysis walks through the lexical scopes

`Analysis.Scans` follows a step over nodes that it does not change, from outlook to outlook, together with what the
step finds. Every node that stands somewhere is visited where the scopes searched are its outlook, so what
analysis says of a node can be read off the visit of that node alone.
-/

namespace DynScript

namespace Analysis

variable {α β : Type} {a : Arena} {o o' o'' : Outlook} {J K : Found → Prop}

/-- A step over these nodes leaves them and takes no environment back. Made where an outlook is seen, it goes on to
where another one is, if there are numbers for all environments, and what it has found makes something hold of all that
is found around it. -/
def Scans (a : Arena) (o : Outlook) (x : Analysis α) (o' : Outlook) (J : Found → Prop) : Prop :=
  ∀ s : AnalysisState, s.arena = a → ∀ b s', x s = .ok (b, s') → s'.arena = a ∧ s.tree.size ≤ s'.tree.size ∧
    (s'.tree.size ≤ UInt32.size → s.Sees o → s'.Sees o' ∧ s.Continues s' ∧
      ∃ found, s'.queue = s.queue.pushAll found ∧ s'.errors = s.errors + found.errors ∧
        ∀ all, found.Sublist all → J all)

namespace Scans

theorem imp {x : Analysis α} (hx : Scans a o x o' J) (h : ∀ found, J found → K found) : Scans a o x o' K := by
  intro s ha b s' hrun
  obtain ⟨ha', hsize, hgo⟩ := hx s ha b s' hrun
  refine ⟨ha', hsize, fun hroom hs => ?_⟩
  obtain ⟨hs', hc, found, hq, he, hj⟩ := hgo hroom hs
  exact ⟨hs', hc, found, hq, he, fun all hall => h all (hj all hall)⟩

/-- Nothing is said of what is found. -/
theorem nothing {x : Analysis α} (hx : Scans a o x o' J) : Scans a o x o' fun _ => True := hx.imp fun _ _ => trivial

theorem bind {x : Analysis α} {k : α → Analysis β} (hx : Scans a o x o' J) (hk : ∀ b, Scans a o' (k b) o'' K) :
    Scans a o (x >>= k) o'' fun found => J found ∧ K found := by
  intro s ha r s' hrun
  obtain ⟨⟨b, t⟩, hb, hrest⟩ := bind_ok hrun
  obtain ⟨ha', hsize, hgo⟩ := hx s ha b t hb
  obtain ⟨ha'', hsize', hgo'⟩ := hk b t ha' r s' hrest
  refine ⟨ha'', hsize.trans hsize', fun hroom hs => ?_⟩
  obtain ⟨hs', hc, found, hq, he, hj⟩ := hgo (hsize'.trans hroom) hs
  obtain ⟨hs'', hc', found', hq', he', hj'⟩ := hgo' hroom hs'
  refine ⟨hs'', hc.trans hc', found ++ found', ?_, ?_, fun all hall => ⟨?_, ?_⟩⟩
  · rw [hq', hq, Queue.pushAll_append]
  · rw [he', he, Found.errors_append, Nat.add_assoc]
  · exact hj all ((List.sublist_append_left found found').trans hall)
  · exact hj' all ((List.sublist_append_right found found').trans hall)

/-- Only the second step matters. -/
theorem first {x : Analysis α} {k : α → Analysis β} (hx : Scans a o x o' J) (hk : ∀ b, Scans a o' (k b) o'' K) :
    Scans a o (x >>= k) o'' K :=
  (bind hx hk).imp fun _ => And.right

/-- Only the first step matters. -/
theorem last {x : Analysis α} {k : α → Analysis β} (hx : Scans a o x o' J) (hk : ∀ b, Scans a o' (k b) o'' K) :
    Scans a o (x >>= k) o'' J :=
  (bind hx hk).imp fun _ => And.left

/-- A step that leaves everything. -/
theorem still {x : Analysis α} (hx : ∀ s b s', x s = .ok (b, s') → s' = s) : Scans a o x o fun _ => True := by
  intro s ha b s' hrun
  obtain rfl := hx s b s' hrun
  exact ⟨ha, le_rfl, fun _ hs => ⟨hs, .refl s', [], rfl, rfl, fun _ _ => trivial⟩⟩

theorem pure (b : α) : Scans a o (Pure.pure b) o fun _ => True := by
  apply still
  intro s b s' hrun
  cases hrun
  rfl

theorem reading {k : AnalysisState → Analysis α} (hk : ∀ s, Scans a o (k s) o' J) : Scans a o (get >>= k) o' J :=
  fun s ha b s' hrun => hk s s ha b s' hrun

theorem node {id : NodeId} {k : Node → Analysis α} (hk : ∀ n, a.get? id = some n → Scans a o (k n) o' J) :
    Scans a o (Analysis.node id >>= k) o' J := by
  intro s ha b s' hrun
  obtain ⟨n, hn, hrun⟩ := node_ok hrun
  exact hk n (ha ▸ hn) s ha b s' hrun

/-- A step that does not come to its end. -/
theorem throwing (d : Defect) : Scans a o (throw d : Analysis α) o' J := by
  intro s _ b s' hrun
  cases hrun

/-! ### Findings -/

theorem report (f : Finding) (position : Option Position) :
    Scans a o (Analysis.report f position) o fun found => (f, position) ∈ found := by
  intro s ha b s' hrun
  cases hrun
  refine ⟨ha, le_rfl, fun _ hs => ⟨⟨hs.current, hs.inside, hs.descends, hs.chain, hs.mutableOnly⟩, ?_,
    [(f, position)], rfl, ?_, ?_⟩⟩
  · exact ⟨rfl, le_rfl, fun _ _ => rfl, fun _ _ _ => rfl, rfl⟩
  · cases f <;> rfl
  · intro all hall
    exact hall.subset List.mem_cons_self

theorem reportIf (p : Bool) (f : Finding) (position : Option Position) :
    Scans a o (Analysis.reportIf p f position) o fun found => p = true → (f, position) ∈ found := by
  cases p with
  | false => exact (pure ()).imp fun _ _ h => nomatch h
  | true => exact (report f position).imp fun _ h _ => h

theorem lookup? (name : String) : Scans a o (Analysis.lookup? name) o fun _ => True := by
  apply still
  intro s b s' hrun
  cases hrun
  rfl

theorem isBound (name : String) : Scans a o (Analysis.isBound name) o fun _ => True := by
  apply still
  intro s b s' hrun
  cases hrun
  rfl

/-- A declaration of what the nodes declare. If the name is final in the innermost scope then that is reported. -/
theorem declare (d : Declaration) (hd : d.isMutable → a.Mutates d.name) : Scans a o (declare d) (o.declare d)
    fun found => ∀ scopes ∈ o, o.Fixes d.name → (.finalRedeclaration d.name, d.position) ∈ found := by
  intro s ha b s' hrun
  obtain ⟨harena, hsize⟩ := Stays.declare d s b s' hrun
  refine ⟨harena.trans ha, hsize.ge, fun hroom hs => ?_⟩
  subst ha
  obtain ⟨scope, outer, hscopes⟩ := List.exists_cons_of_ne_nil hs.inside
  have hstart (scopes : List Scope) (h : scopes ∈ o) : ∃ rest, scopes = scope :: rest := by
    cases hs.chain scopes h with
    | root _ => exact ⟨outer, hscopes⟩
    | child _ _ => exact ⟨_, by rw [hscopes, List.cons_append]⟩
  rw [declare_eq, EnvTree.define, EnvTree.finalInScope?, hscopes] at hrun
  dsimp only at hrun
  cases hfinal : (scope.find? d.name).filter Declaration.isFinal with
  | some existing =>
    -- The name is final in the innermost scope, which stays as it is.
    rw [hfinal] at hrun
    have hsame : o.declare d = o := by
      cases o with
      | none => rfl
      | some scopes =>
        obtain ⟨rest, rfl⟩ := hstart scopes rfl
        simp [Outlook.declare, Scope.declareIn, hfinal]
    rw [hsame]
    have hreport := (report (a := s.arena) (o := o) (.finalRedeclaration d.name) d.position) s rfl b s' hrun
    obtain ⟨hs', hc, found, hq, he, hj⟩ := hreport.2.2 hroom hs
    exact ⟨hs', hc, found, hq, he, fun all hall _ _ _ => hj all hall⟩
  | none =>
    rw [hfinal] at hrun
    cases hrun
    have hpushed (f : List Scope → List Scope) (hf : ∀ rest, f (scope :: rest) = scope.push d :: rest) :
        AnalysisState.Sees { s with tree := s.tree.modifyScopes s.current f } (o.declare d) := by
      have hseen := hs.modifyScopes (f := f) (by simp [hscopes, hf]) (by simp [hscopes, hf])
        fun scope' hscope' d' hd' => ?_
      · have hsame : o.map f = o.declare d := by
          cases o with
          | none => rfl
          | some scopes =>
            obtain ⟨rest, rfl⟩ := hstart scopes rfl
            simp [Outlook.declare, Scope.declareIn, hfinal, hf]
        rwa [hsame] at hseen
      · rw [hscopes, hf] at hscope'
        rcases List.mem_cons.1 hscope' with rfl | hscope'
        · rcases List.mem_cons.1 hd' with rfl | hd'
          · exact hd
          · exact hs.mutableOnly s.current scope (by simp [hscopes]) d' hd'
        · exact hs.mutableOnly s.current scope' (by simp [hscopes, hscope']) d' hd'
    refine ⟨hpushed _ ?_, .modifyScopes hs.current ?_, [], rfl, rfl, fun all _ scopes hmem hfixes => ?_⟩
    · exact fun _ => rfl
    · rw [hscopes]
      rfl
    · obtain ⟨scope', outer', rfl, hfixed⟩ := hfixes scopes hmem
      obtain ⟨rest, hrest⟩ := hstart _ hmem
      obtain ⟨rfl, -⟩ := List.cons.inj hrest
      rw [hfinal] at hfixed
      cases hfixed

/-! ### Scopes -/

/-- A step in a scope of its own. -/
theorem inScope {x : Analysis Unit} (hx : Scans a o.opened x o' J) : Scans a o (inScope x) o J := by
  intro s ha b s' hrun
  obtain ⟨t, ht, rfl⟩ := inScope_ok hrun
  obtain ⟨ha', hsize, hgo⟩ := hx { s with tree := s.tree.pushScope s.current } ha () t ht
  refine ⟨ha', by simpa [EnvTree.pushScope, EnvTree.popScope] using hsize, fun hroom hs => ?_⟩
  obtain ⟨hs', hc, found, hq, he, hj⟩ := hgo (by simpa [EnvTree.popScope] using hroom) hs.pushScope
  have hrestores := hc.popScope hs.current
  have hseen : AnalysisState.Sees { t with tree := t.tree.popScope t.current } o := by
    refine hs.restored hrestores (hs'.descends.modifyScopes _) (hs'.mutableOnly.modifyScopes fun scope hscope => ?_)
    exact hs'.mutableOnly _ scope (List.mem_of_mem_tail hscope)
  exact ⟨hseen, hrestores.continues hs.current, found, hq, he, hj⟩

/-- A step in an environment of its own. -/
theorem inEnvironment {x : Analysis Unit} (name : String) (hx : Scans a o.opened x o' J) :
    Scans a o (inEnvironment name x) o J := by
  intro s ha b s' hrun
  obtain ⟨t, ht, rfl⟩ := inEnvironment_ok hrun
  obtain ⟨ha', hsize, hgo⟩ := hx (s.entered name) ha () t ht
  have hentered := s.size_entered name
  refine ⟨ha', by dsimp only; omega, fun hroom hs => ?_⟩
  have hfits : s.tree.size < UInt32.size := by
    dsimp only at hroom
    omega
  obtain ⟨hs', hc, found, hq, he, hj⟩ := hgo hroom (hs.pushEnvironment hfits name)
  have hrestores := hc.leave hs.current hfits
  exact ⟨hs.restored hrestores hs'.descends hs'.mutableOnly, hrestores.continues hs.current, found, hq, he, hj⟩

theorem allowingReturn {x : Analysis Unit} (allowed : Bool) (hx : Scans a o x o' J) :
    Scans a o (allowingReturn allowed x) o' J := by
  intro s ha b s' hrun
  obtain ⟨t, ht, rfl⟩ := allowingReturn_ok hrun
  obtain ⟨ha', hsize, hgo⟩ := hx { s with inFunction := allowed } ha () t ht
  refine ⟨ha', hsize, fun hroom hs => ?_⟩
  obtain ⟨hs', hc, found, hq, he, hj⟩ :=
    hgo hroom ⟨hs.current, hs.inside, hs.descends, hs.chain, hs.mutableOnly⟩
  refine ⟨⟨hs'.current, hs'.inside, hs'.descends, hs'.chain, hs'.mutableOnly⟩, ?_, found, hq, he, hj⟩
  exact ⟨hc.current, hc.size, hc.parents, hc.others, hc.outer⟩

/-! ### Labels -/

/-- Labels that declare nothing. -/
theorem forLabels {ι : Type} {label : ι → Label} {visit : ι → Bool → Analysis Unit} {T : ι → Found → Prop}
    {items : List ι} (h : ∀ item ∈ items, ∀ again, Scans a o (visit item again) o (T item)) :
    Scans a o (Analysis.forLabels label visit items) o fun found => ∀ item ∈ items, T item found := by
  have hgo (seen : List String) : Scans a o (Analysis.forLabels.go label visit seen items) o
      fun found => ∀ item ∈ items, T item found := by
    induction items generalizing seen with
    | nil => exact (pure ()).imp fun _ _ => by simp
    | cons item rest ih =>
      obtain ⟨hitem, hrest⟩ := List.forall_mem_cons.1 h
      exact (bind (hitem _) fun _ => ih hrest _).imp fun _ h => by simpa using h
  exact hgo []

/-- Parameters: the first one of every name is declared, and it is final. -/
theorem forParams (declaration : Param → Declaration) (again : Param → Finding) {params : List Param}
    (hname : ∀ p, (declaration p).name = p.name) (hfinal : ∀ p, (declaration p).isFinal)
    (hm : ∀ p ∈ params, (declaration p).isMutable → a.Mutates p.name) :
    Scans a o (Analysis.forLabels Param.toLabel (fun param seen =>
      if seen then Analysis.report (again param) param.position else Analysis.declare (declaration param)) params)
      (o.declareAll (params.map declaration)) fun _ => True := by
  have hgo (seen : List String) (hseen : ∀ name ∈ seen, o.Fixes name) : Scans a o (Analysis.forLabels.go Param.toLabel
      (fun param seen => if seen then Analysis.report (again param) param.position
        else Analysis.declare (declaration param)) seen params)
      (o.declareAll (params.map declaration)) fun _ => True := by
    induction params generalizing seen o with
    | nil => exact pure ()
    | cons param rest ih =>
      obtain ⟨hparam, hrest⟩ := List.forall_mem_cons.1 hm
      have hnext : ∀ name ∈ param.name :: seen, (o.declare (declaration param)).Fixes name := by
        intro name hmem
        rcases List.mem_cons.1 hmem with rfl | hmem
        · exact hname param ▸ Outlook.fixes_declare (hfinal param)
        · exact (hseen name hmem).declare _
      refine first (J := fun _ => True) ?_ fun _ => ih hrest _ hnext
      cases hagain : seen.contains param.name with
      | true =>
        -- The name was declared by the parameter before, so nothing is declared now.
        have hfixed : o.Fixes (declaration param).name := by
          rw [hname]
          exact hseen _ (List.contains_iff_mem.1 hagain)
        rw [hfixed.declare_eq]
        exact (report _ _).nothing
      | false => exact (declare _ fun h => hname param ▸ hparam h).nothing
  exact hgo [] (by simp)

end Scans

/-! ## Visits -/

/-- A node has been visited where an outlook was seen, with numbers for all environments, and what the visit has found
is among all that was found. -/
def Visited (a : Arena) (role : Role) (found : Found) (o : Outlook) (id : NodeId) : Prop :=
  ∃ (levels : Nat) (s s' : AnalysisState) (own : Found), s.arena = a ∧ s.Sees o ∧ s'.tree.size ≤ UInt32.size ∧
    visitNode role (visitWithin role levels) id s = .ok ((), s') ∧ s'.queue = s.queue.pushAll own ∧
    s'.errors = s.errors + own.errors ∧ own.Sublist found

/-- So has every node at or below one, apart from object literals, which a binding may look into by itself. -/
def Surveyed (a : Arena) (role : Role) (found : Found) (o : Outlook) (id : NodeId) : Prop :=
  ∀ o' i node, a.Stands o id o' i → a.get? i = some node → node.kind.isObject = false → Visited a role found o' i

/-- The children of a node have been surveyed. -/
def SurveyedBelow (a : Arena) (role : Role) (found : Found) (o : Outlook) (node : Node) : Prop :=
  ∀ c oc, a.Places node o c oc → Surveyed a role found oc c

variable {role : Role} {p : NodeId} {node : Node} {found : Found}

theorem surveyed_of_below (hn : a.get? p = some node)
    (hself : node.kind.isObject = false → Visited a role found o p) (hc : SurveyedBelow a role found o node) :
    Surveyed a role found o p := by
  intro o' i inode hstands hinode hobject
  cases hstands with
  | here =>
    obtain rfl := Option.some.inj (hn.symm.trans hinode)
    exact hself hobject
  | deeper hn' hplaces hstands =>
    obtain rfl := Option.some.inj (hn.symm.trans hn')
    exact hc _ _ hplaces o' i inode hstands hinode hobject

namespace Scans

variable {visit : NodeId → Analysis Unit}
  (hv : ∀ o id, Scans a o (visit id) (a.past o id) fun found => Surveyed a role found o id)
include hv

/-- Statements, each in the scope of those before it. -/
theorem visitStatements (ids : List NodeId) : Scans a o (visitAll visit ids) (ids.foldl a.past o)
    fun found => ∀ c oc, a.InRow o ids c oc → Surveyed a role found oc c := by
  induction ids generalizing o with
  | nil => exact (pure ()).imp fun _ _ c oc h => nomatch h
  | cons id rest ih =>
    refine (bind (hv o id) fun _ => ih).imp fun found h c oc hrow => ?_
    cases hrow with
    | first => exact h.1
    | later hrow => exact h.2 c oc hrow

/-- Members of an object. -/
theorem visitMembers (members : List NodeId) (seen : List String) :
    Scans a o (visitObject.visitMembers visit seen members) (members.foldl a.past o)
      fun found => ∀ c oc, a.InRow o members c oc → Surveyed a role found oc c := by
  induction members generalizing o seen with
  | nil => exact (pure ()).imp fun _ _ c oc h => nomatch h
  | cons member rest ih =>
    refine node fun n _ => ?_
    split
    · refine first (reportIf _ _ _) fun _ => (bind (hv o member) fun _ => ih _).imp fun found h c oc hrow => ?_
      cases hrow with
      | first => exact h.1
      | later hrow => exact h.2 c oc hrow
    · exact throwing _

/-- An object, in the scope that has been opened for it. -/
theorem visitObject {params : Option (List Param)} {composed : List Label} {members : List NodeId}
    {position : Option Position} (hn : a.get? p = some ⟨.object params composed members, position⟩) :
    ∃ o', Scans a o.opened (visitObject visit params composed members) o'
      fun found => SurveyedBelow a role found o ⟨.object params composed members, position⟩ := by
  have hmutable : ∀ p ∈ params.getD [], p.ofClass.isMutable → a.Mutates p.name := by
    intro p hp hm
    refine ⟨_, Array.mem_of_getElem? hn, List.mem_map_of_mem ?_⟩
    exact List.mem_filter.2 ⟨hp, hm⟩
  have hparams := forParams (o := o.opened) Param.ofClass (fun p => .duplicateConstructorParameter p.name)
    (fun _ => rfl) (fun _ => rfl) hmutable
  have hcomposed {o : Outlook} : Scans a o (Analysis.forLabels id (fun source again => do
      Analysis.reportIf (!(← Analysis.isBound source.name)) (.unknownComposition source.name) source.position
      Analysis.reportIf again (.duplicateComposition source.name) source.position) composed) o fun _ => True := by
    refine (forLabels (T := fun _ _ => True) fun source _ again => ?_).nothing
    exact first (isBound _) fun _ => first (reportIf _ _ _) fun _ => (reportIf _ _ _).nothing
  refine ⟨_, first hparams fun _ => first hcomposed fun _ => (visitMembers hv members []).imp ?_⟩
  intro found h c oc hplaces
  cases hplaces with
  | member hrow => exact h c oc hrow
  | operand hflat => cases hflat

variable (ha : a.Settled)
include ha

/-- An operand. -/
theorem operand {c : NodeId} (hn : a.get? p = some node) (hc : c ∈ node.kind.operands) :
    Scans a o (visit c) o fun found => Surveyed a role found o c := by
  have hvisit := hv o c
  rwa [Arena.past_isOperand (ha.operands hn c hc)] at hvisit

/-- Operands. -/
theorem operands (hn : a.get? p = some node) (ids : List NodeId) (hc : ∀ c ∈ ids, c ∈ node.kind.operands) :
    Scans a o (visitAll visit ids) o fun found => ∀ c ∈ ids, Surveyed a role found o c := by
  induction ids with
  | nil => exact (pure ()).imp fun _ _ => by simp
  | cons c rest ih =>
    obtain ⟨hfirst, hrest⟩ := List.forall_mem_cons.1 hc
    exact (bind (operand hv ha hn hfirst) fun _ => ih hrest).imp fun _ => List.forall_mem_cons.2

/-- The value of a binding, also when it is an object, which is not visited as a node. -/
theorem visitValue (hn : a.get? p = some node) (value : NodeId) (hc : value ∈ node.kind.operands) (name : String) :
    Scans a o (visitValue visit name value) o fun found => Surveyed a role found o value := by
  refine Scans.node fun ⟨kind, position⟩ hvalue => ?_
  split
  · rename_i params composed members hkind
    obtain rfl : kind = .object params composed members := hkind
    obtain ⟨o', hobject⟩ := visitObject (o := o) hv hvalue
    exact (inEnvironment name hobject).imp fun found h => surveyed_of_below hvalue (by simp [NodeKind.isObject]) h
  · exact operand hv ha hn hc

/-- A binding, which is reported if the name is final in the innermost scope. -/
theorem visitBinding {name : String} {mode : BindingMode} {isFinal : Bool} {value : NodeId}
    {position : Option Position} (hn : a.get? p = some ⟨.binding name mode isFinal value, position⟩) :
    Scans a o (visitBinding visit name mode isFinal value position)
      (o.declare ⟨name, position, isFinal, mode = .mutable⟩)
      fun found => SurveyedBelow a role found o ⟨.binding name mode isFinal value, position⟩ ∧
        ∀ scopes ∈ o, o.Fixes name → (.finalRedeclaration name, position) ∈ found := by
  have hvalue (o : Outlook) := visitValue (o := o) hv ha hn value (by simp [NodeKind.operands, NodeKind.children]) name
  have hmain (o : Outlook) (main : AnalysisState → Bool) : Scans a o
      (get >>= fun s => Analysis.reportIf (main s) .mainNotFinal position) o fun _ => True :=
    reading fun s => (reportIf _ _ _).nothing
  have hdeclared : decide (mode = .mutable) = true → a.Mutates name := by
    intro hmode
    obtain rfl := of_decide_eq_true hmode
    exact ⟨_, Array.mem_of_getElem? hn, List.mem_singleton_self name⟩
  have hbelow {oc : Outlook} (hoc : oc = if mode = .recursive then o.declare ⟨name, position, isFinal, false⟩ else o)
      (found : Found) (h : Surveyed a role found oc value) :
      SurveyedBelow a role found o ⟨.binding name mode isFinal value, position⟩ := by
    intro c oc' hplaces
    cases hplaces with
    | value => exact hoc ▸ h
    | operand hflat => cases hflat
  dsimp only [Analysis.visitBinding]
  split
  · rename_i hmode
    refine (bind (declare _ hdeclared) fun _ => last ((hvalue _).imp (hbelow ?_)) fun _ => hmain _ _).imp
      fun _ => And.symm
    subst hmode
    rfl
  · rename_i hmode
    exact bind ((hvalue o).imp (hbelow (if_neg hmode).symm)) fun _ => last (declare _ hdeclared) fun _ => hmain _ _

theorem visitFunction {params : List Param} {body : NodeId} {position : Option Position}
    (hn : a.get? p = some ⟨.function params body, position⟩) : Scans a o (visitFunction visit params body) o
      fun found => SurveyedBelow a role found o ⟨.function params body, position⟩ := by
  have hparams := forParams (a := a) (o := o.opened) Param.ofFunction (fun p => .duplicateParameter p.name)
    (fun _ => rfl) (fun _ => rfl) (fun p (_ : p ∈ params) => nofun)
  have hbody (o : Outlook) := operand (o := o) hv ha hn (c := body) (by simp [NodeKind.operands, NodeKind.children])
  refine (allowingReturn true (inScope (first hparams fun _ => hbody _))).imp fun found h c oc hplaces => ?_
  cases hplaces with
  | body => exact h
  | operand hflat => cases hflat

theorem visitCall {callee : NodeId} {args : List NodeId} {position : Option Position}
    (hn : a.get? p = some ⟨.call callee args, position⟩) : Scans a o (visitCall visit callee args position) o
      fun found => ∀ c ∈ callee :: args, Surveyed a role found o c := by
  have hcallee := operand (o := o) hv ha hn (c := callee) (by simp [NodeKind.operands, NodeKind.children])
  have hargs := operands (o := o) hv ha hn args (by simp +contextual [NodeKind.operands, NodeKind.children])
  have hrest : Scans a o (visit callee >>= fun _ => Analysis.visitAll visit args) o
      fun found => ∀ c ∈ callee :: args, Surveyed a role found o c :=
    (bind hcallee fun _ => hargs).imp fun _ => List.forall_mem_cons.2
  refine node fun n _ => ?_
  split
  · exact first (report _ _) fun _ => hrest
  · exact hrest

theorem visitRecord {fields : List Field} {position : Option Position}
    (hn : a.get? p = some ⟨.record fields, position⟩) : Scans a o (visitRecord visit fields) o
      fun found => ∀ c ∈ fields.map Field.value, Surveyed a role found o c := by
  refine (forLabels (T := fun field found => Surveyed a role found o field.value) fun field hfield again => ?_).imp
    fun found h => List.forall_mem_map.2 h
  exact first (reportIf _ _ _) fun _ => operand hv ha hn (List.mem_map_of_mem hfield)

theorem visitLoop {start stop body : NodeId} {position : Option Position}
    (hn : a.get? p = some ⟨.loop start stop body, position⟩) : Scans a o (visitLoop visit start stop body) o
      fun found => SurveyedBelow a role found o ⟨.loop start stop body, position⟩ := by
  have hoperand {c : NodeId} (hc : c ∈ [start, stop, body]) (o : Outlook) := operand (o := o) hv ha hn hc
  refine (bind (hoperand (by simp) o) fun _ => bind (hoperand (by simp) o) fun _ =>
    inScope (first (declare ⟨loopName, none, true, false⟩ nofun) fun _ => hoperand (c := body) (by simp) _)).imp ?_
  rintro found ⟨hstart, hstop, hbody⟩ c oc hplaces
  cases hplaces with
  | bound hc =>
    rcases List.mem_pair.1 hc with rfl | rfl
    · exact hstart
    · exact hstop
  | round => exact hbody
  | operand hflat => cases hflat

theorem visitAssign {target value : NodeId} {position : Option Position}
    (hn : a.get? p = some ⟨.assign target value, position⟩) : Scans a o (visitAssign visit target value) o
      fun found => SurveyedBelow a role found o ⟨.assign target value, position⟩ := by
  have hoperand {c : NodeId} (hc : c ∈ [target, value]) := operand (o := o) hv ha hn hc
  have hbelow {found : Found} (hvalue : Surveyed a role found o value)
      (htarget : (∀ name, a.kind? target ≠ some (.ident name)) → Surveyed a role found o target) :
      SurveyedBelow a role found o ⟨.assign target value, position⟩ := by
    intro c oc hplaces
    cases hplaces with
    | assigned => exact hvalue
    | target hname => exact htarget hname
    | operand hflat => cases hflat
  refine node fun ⟨kind, position'⟩ htarget => ?_
  have hk : a.kind? target = some kind := Arena.kind?_eq_some.2 ⟨_, htarget⟩
  dsimp only
  split
  · refine (last (K := fun _ => True) (hoperand (by simp)) fun _ => first (lookup? _) fun d => ?_).imp fun found h =>
      hbelow h fun hname => absurd hk (hname _)
    split
    · exact (report _ _).nothing
    · exact (reportIf _ _ _).nothing
  · exact (bind (hoperand (by simp)) fun _ => hoperand (by simp)).imp fun found h => hbelow h.1 fun _ => h.2

omit hv ha in
/-- A step inside scopes that are closed after it. -/
theorem closing {x : Analysis Unit} (hx : Scans a none x none J) {s s₁ s' : AnalysisState} {b : Unit}
    (ha₁ : s₁.arena = a) (hrun : (x >>= fun _ => modifyTree fun tree current =>
      tree.truncateScopes current (s.tree.scopeCount s.current)) s₁ = .ok (b, s')) :
    s'.arena = a ∧ s₁.tree.size ≤ s'.tree.size ∧ (s'.tree.size ≤ UInt32.size → s.Sees o → s.Extends s₁ → s₁.Sees none →
      s'.Sees o ∧ s.Continues s' ∧ ∃ found, s'.queue = s₁.queue.pushAll found ∧
        s'.errors = s₁.errors + found.errors ∧ ∀ all, found.Sublist all → J all) := by
  obtain ⟨⟨⟨⟩, s₂⟩, hrunx, hrest⟩ := bind_ok hrun
  cases hrest
  obtain ⟨ha₂, hsize, hgo⟩ := hx s₁ ha₁ _ _ hrunx
  refine ⟨ha₂, by simpa [EnvTree.truncateScopes] using hsize, fun hroom hs he hs₁ => ?_⟩
  obtain ⟨hs₂, hc, found, hfound⟩ := hgo (by simpa [EnvTree.truncateScopes] using hroom) hs₁
  have hrestores := (he.continues hc).truncateScopes hs.current
  refine ⟨?_, hrestores.continues hs.current, found, hfound⟩
  refine hs.restored hrestores (hs₂.descends.modifyScopes _) (hs₂.mutableOnly.modifyScopes fun scope hscope => ?_)
  exact hs₂.mutableOnly _ scope (List.mem_of_mem_drop hscope)

/-- Of the body of a record that stands open no outlook is known. The scopes that were there are back afterwards. -/
theorem visitEnvOpen {target body : NodeId} {position : Option Position}
    (hn : a.get? p = some ⟨.envOpen target body, position⟩) : Scans a o (visitEnvOpen visit target body) o
      fun found => SurveyedBelow a role found o ⟨.envOpen target body, position⟩ := by
  have htarget := operand (o := o.opened) hv ha hn (c := target) (by simp [NodeKind.operands, NodeKind.children])
  have hbody := operand (o := none) hv ha hn (c := body) (by simp [NodeKind.operands, NodeKind.children])
  refine (allowingReturn (J := fun found => Surveyed a role found o.opened target ∧ Surveyed a role found none body)
    false ?_).imp ?_
  · intro s ha b s' hrun
    obtain ⟨⟨⟨⟩, s₂⟩, hrun₂, hrest⟩ := bind_ok (e := visit target { s with tree := s.tree.pushScope s.current }) hrun
    obtain ⟨ha₂, hsize₂, hgo₂⟩ := htarget { s with tree := s.tree.pushScope s.current } ha _ _ hrun₂
    have hsize : s.tree.size ≤ s₂.tree.size := by simpa [EnvTree.pushScope] using hsize₂
    -- It is enough to know what the body does in the scopes that have been brought in.
    have hfinish {s₃ : AnalysisState} (hrun : (visit body >>= fun _ => modifyTree fun tree current =>
          tree.truncateScopes current (s.tree.scopeCount s.current)) s₃ = .ok (b, s')) (ha₃ : s₃.arena = a)
        (hsize₃ : s₃.tree.size = s₂.tree.size) (hq₃ : s₃.queue = s₂.queue) (he₃ : s₃.errors = s₂.errors)
        (hbrought : s₂.Sees o.opened → s.Sees o → s.Extends s₂ → s.Extends s₃ ∧ s₃.Sees none) :
        s'.arena = a ∧ s.tree.size ≤ s'.tree.size ∧ (s'.tree.size ≤ UInt32.size → s.Sees o →
          s'.Sees o ∧ s.Continues s' ∧ ∃ found, s'.queue = s.queue.pushAll found ∧
            s'.errors = s.errors + found.errors ∧ ∀ all, found.Sublist all →
              Surveyed a role all o.opened target ∧ Surveyed a role all none body) := by
      obtain ⟨ha', hsize', hgo'⟩ := closing hbody ha₃ hrun
      rw [hsize₃] at hsize'
      refine ⟨ha', hsize.trans hsize', fun hroom hs => ?_⟩
      obtain ⟨hs₂, hc₂, found, hq, he, hj⟩ := hgo₂ (hsize'.trans hroom) hs.pushScope
      obtain ⟨hextends, hs₃⟩ := hbrought hs₂ hs ((AnalysisState.Extends.pushScope hs.current).continues hc₂)
      obtain ⟨hs', hc', found', hq', he', hj'⟩ := hgo' hroom hs hextends hs₃
      refine ⟨hs', hc', found ++ found', ?_, ?_, fun all hall => ⟨?_, ?_⟩⟩
      · rw [hq', hq₃, hq, Queue.pushAll_append]
      · rw [he', he₃, he, Found.errors_append, Nat.add_assoc]
      · exact hj all ((List.sublist_append_left found found').trans hall)
      · exact hj' all ((List.sublist_append_right found found').trans hall)
    obtain ⟨n, -, hrest⟩ := node_ok hrest
    split at hrest
    · rename_i name _
      have hmodify (f : EnvTree → EnvId → EnvTree) :
          modifyTree f s₂ = .ok ((), { s₂ with tree := f s₂.tree s₂.current }) := rfl
      dsimp only at hrest
      rw [bind_eq (hmodify _)] at hrest
      cases hfind : s₂.tree.findEnv? s₂.current name with
      | some env =>
        rw [hfind] at hrest
        refine hfinish hrest ha₂ (by simp [EnvTree.bringIntoScope]) rfl rfl fun hs₂ hs he => ?_
        exact ⟨he.bringIntoScope hs.current _, hs₂.bringIntoScope _⟩
      | none =>
        rw [hfind] at hrest
        exact hfinish hrest ha₂ rfl rfl rfl fun hs₂ _ he => ⟨he, hs₂.forget⟩
    · exact hfinish hrest ha₂ rfl rfl rfl fun hs₂ _ he => ⟨he, hs₂.forget⟩
  · rintro found ⟨htarget, hbody⟩ c oc hplaces
    cases hplaces with
    | record => exact htarget
    | inside => exact hbody
    | operand hflat => cases hflat

theorem visitReturn {value : Option NodeId} {position : Option Position}
    (hn : a.get? p = some ⟨.returns value, position⟩) : Scans a o (visitReturn visit value position) o
      fun found => ∀ c ∈ value.toList, Surveyed a role found o c := by
  refine reading fun s => first (reportIf _ _ _) fun _ => ?_
  cases value with
  | none => exact (pure ()).imp fun _ _ => by simp
  | some value =>
    exact (operand hv ha hn (c := value) (by simp [NodeKind.operands, NodeKind.children])).imp
      fun _ h => by simpa using h

omit hv ha in
theorem visitExport (role : Role) (names : List Label) (position : Option Position) :
    Scans a o (visitExport role names position) o fun _ => True := by
  refine first (reportIf _ _ _) fun _ => (forLabels (T := fun _ _ => True) fun label _ again => ?_).nothing
  exact first (isBound _) fun _ => first (reportIf _ _ _) fun _ => (reportIf _ _ _).nothing

/-- What is below a node has been surveyed after the visit of the node. -/
theorem visitBelow (hn : a.get? p = some node) : Scans a o (visitNode role visit p) (a.past o p)
    fun found => SurveyedBelow a role found o node := by
  obtain ⟨kind, position⟩ := node
  refine Scans.node fun n hn' => ?_
  obtain rfl := Option.some.inj (hn.symm.trans hn')
  have hk : a.kind? p = some kind := Arena.kind?_eq_some.2 ⟨_, hn⟩
  have hform {x : Analysis Unit} (hx : Scans a o x o fun found => SurveyedBelow a role found o ⟨kind, position⟩)
      (hoperand : kind.isOperand) :
      Scans a o x (a.past o p) fun found => SurveyedBelow a role found o ⟨kind, position⟩ := by
    rwa [Arena.past_isOperand ⟨kind, hk, hoperand⟩]
  -- All children of most nodes stand where the node does.
  have hflat {x : Analysis Unit} (hx : Scans a o x o fun found => ∀ c ∈ kind.children, Surveyed a role found o c)
      (hflat : kind.isFlat) : Scans a o x (a.past o p) fun found => SurveyedBelow a role found o ⟨kind, position⟩ := by
    have hoperand : kind.isOperand := by cases kind <;> first | rfl | cases hflat
    refine hform (hx.imp fun found h c oc hplaces => ?_) hoperand
    cases hplaces <;> first | cases hflat | exact h _ ‹_›
  have hall {ids : List NodeId} (hc : ∀ c ∈ ids, c ∈ kind.operands) := operands (o := o) hv ha hn ids hc
  have hone {c : NodeId} (hc : kind.operands = [c]) : Scans a o (visit c) o
      fun found => ∀ c ∈ kind.operands, Surveyed a role found o c :=
    (operand hv ha hn (by simp [hc])).imp fun found h => by simpa [hc] using h
  have hleaf (hc : kind.children = []) : Scans a o (Pure.pure () : Analysis Unit) o
      fun found => ∀ c ∈ kind.children, Surveyed a role found o c := (pure ()).imp fun _ _ => by simp [hc]
  cases kind with
  | block items =>
    refine hform ((inScope (visitStatements hv items)).imp fun found h c oc hplaces => ?_) rfl
    cases hplaces with
    | statement hrow => exact h c oc hrow
    | operand hflat => cases hflat
  | binding name mode isFinal value =>
    rw [Arena.past_binding hn]
    exact (visitBinding hv ha hn).imp fun _ => And.left
  | function params body => exact hform (visitFunction hv ha hn) rfl
  | call callee args => exact hflat (visitCall hv ha hn) rfl
  | ident name => exact hflat (first (isBound _) fun _ => (reportIf _ _ _).imp fun _ _ => nofun) rfl
  | literal value => exact hflat (hleaf rfl) rfl
  | list items => exact hflat (hall fun c hc => hc) rfl
  | record fields => exact hflat (visitRecord hv ha hn) rfl
  | index target i => exact hflat (hall fun c hc => hc) rfl
  | property target name => exact hflat (hone rfl) rfl
  | len operand => exact hflat (hone rfl) rfl
  | loop start stop body => exact hform (visitLoop hv ha hn) rfl
  | conditional condition thenBranch elseBranch => exact hflat (hall fun c hc => hc) rfl
  | assign target value => exact hform (visitAssign hv ha hn) rfl
  | logical op lhs rhs => exact hflat (hall fun c hc => hc) rfl
  | equality op lhs rhs => exact hflat (hall fun c hc => hc) rfl
  | comparison op lhs rhs => exact hflat (hall fun c hc => hc) rfl
  | arithmetic op lhs rhs => exact hflat (hall fun c hc => hc) rfl
  | negate operand => exact hflat (hone rfl) rfl
  | prepend item rest => exact hflat (hall fun c hc => hc) rfl
  | pipe lhs rhs mark =>
    obtain rfl := ha.pipes hk
    exact hflat (hone rfl) rfl
  | object params composed members =>
    obtain ⟨o', hobject⟩ := visitObject (o := o) hv hn
    exact hform (inScope hobject) rfl
  | clone operand => exact hflat (hone rfl) rfl
  | envOpen target body => exact hform (visitEnvOpen hv ha hn) rfl
  | imports root path => exact hflat (hleaf rfl) rfl
  | exports names => exact hflat ((visitExport role names position).imp fun _ _ => nofun) rfl
  | print args => exact hflat (hall fun c hc => hc) rfl
  | returns value => exact hflat (visitReturn hv ha hn) rfl

omit hv in
/-- A node and all that is below it have been surveyed after the visit of the node. -/
theorem visitWithin (role : Role) (levels : Nat) (p : NodeId) :
    Scans a o (visitWithin role levels p) (a.past o p) fun found => Surveyed a role found o p := by
  induction levels generalizing o p with
  | zero => exact throwing _
  | succ levels ih =>
    intro s hs b s' hrun
    cases hn : a.get? p with
    | none =>
      have hnode : Scans a o (visitNode role (Analysis.visitWithin role levels) p) (a.past o p)
          fun found => Surveyed a role found o p :=
        Scans.node fun n hn' => absurd (hn.symm.trans hn') nofun
      exact hnode s hs b s' hrun
    | some node =>
      obtain ⟨ha', hsize, hgo⟩ := visitBelow (fun o id => ih id) ha hn s hs b s' hrun
      refine ⟨ha', hsize, fun hroom hsees => ?_⟩
      obtain ⟨hs', hc, found, hq, he, hbelow⟩ := hgo hroom hsees
      refine ⟨hs', hc, found, hq, he, fun all hall => surveyed_of_below hn (fun _ => ?_) (hbelow all hall)⟩
      exact ⟨levels, s, s', found, hs, hsees, hroom, hrun, hq, he, hall⟩

end Scans

/-- The outlook at the top level, before anything is declared there. -/
def topOutlook : Outlook := some [⟨[⟨hostName, none, true, false⟩]⟩]

/-- It is seen before anything is visited. -/
theorem sees_initialState (a : Arena) (queue : Queue) : (initialState a queue).Sees topOutlook := by
  have htree : initialTree = ⟨#[⟨rootName, none, [], [⟨[⟨hostName, none, true, false⟩]⟩]⟩]⟩ := rfl
  have hparent (e : EnvId) : initialTree.parent? e = none := by
    obtain ⟨_ | i⟩ := e <;> rfl
  constructor
  case current => exact Nat.zero_lt_one
  case inside => exact List.cons_ne_nil _ _
  case descends => exact fun e p hp => nomatch (hparent e).symm.trans hp
  case chain =>
    rintro scopes hscopes
    obtain rfl := Option.some.inj hscopes
    exact .root (hparent EnvTree.root)
  case mutableOnly =>
    rintro ⟨_ | i⟩ scope hscope d hd hmutable
    · obtain rfl := List.mem_singleton.1 hscope
      obtain rfl := List.mem_singleton.1 hd
      cases hmutable
    · cases hscope

end Analysis

open Analysis

/-- What has been found in a program can be read off its nodes: every node has been visited where it stands. -/
structure Program.Surveyed (program : Program) (role : Role) (found : Found) : Prop where
  /-- Nothing is left to change. -/
  settled : program.arena.Settled
  /-- The program is a block. -/
  block : ∃ items, program.arena.kind? program.body = some (.block items)
  /-- Nodes have been visited, apart from object literals, which a binding may look into by itself. -/
  visited : ∀ {o : Outlook} {id : NodeId} {node : Node}, program.StandsIn topOutlook o id →
    program.arena.get? id = some node → node.kind.isObject = false → Visited program.arena role found o id
  /-- Nodes stand somewhere, apart from the block of the program and the names that are assigned. -/
  stands : ∀ {id : NodeId} {node : Node}, program.arena.get? id = some node → id ≠ program.body →
    (∀ name, node.kind ≠ .ident name) → ∃ o, program.StandsIn topOutlook o id

/-- Unless a pipe leads into something that is not a call, an analysis leaves nothing to change. -/
theorem Arena.Laid.settled {a settled : Arena} {roots : List Root} {found : Found} (ha : a.Laid roots)
    (hd : a.Desugars settled) (hv : settled.Vetted (fun x => x.index < settled.size) found)
    (hpipe : ¬ found.Has .pipeIntoNonCall) : settled.Settled := by
  refine ⟨fun hn c hc => hd.operands ha hn hc, fun {q lhs rhs mark} hk => ?_⟩
  obtain ⟨position, hn⟩ := kind?_eq_some.1 hk
  cases mark with
  | true => rfl
  | false =>
    have howed := hv hpipe q (lt_size_of_get? hn) _ hn .pipeIntoNonCall
    exact absurd (howed (by simp [NodeKind.owed])) hpipe

/-- Unless a pipe leads into something that is not a call, all nodes of a program are surveyed by its analysis. -/
theorem Numbered.surveyed (p : Numbered) {role : Role} {queue : Queue} {analysed : Analysed}
    (h : DynScript.analyse p.program role queue = .ok analysed) : ∃ found, analysed.queue = queue.pushAll found ∧
      analysed.errors = found.errors ∧
      (¬ found.Has .pipeIntoNonCall → analysed.program.Surveyed role found) := by
  obtain ⟨settled, found, hforest, hdesugars, hvetted, hpass⟩ := analyse_settles p.laid role
  obtain rfl := Except.ok.inj (h.symm.trans (hpass queue).1)
  by_cases hpipe : found.Has .pipeIntoNonCall
  · exact ⟨found, rfl, rfl, fun h => absurd hpipe h⟩
  obtain ⟨items, position, hn⟩ := p.laid.exists_block
  have hn' : settled.get? p.program.body = some ⟨.block items, position⟩ :=
    hdesugars.outline.get?_of_not_joint hn rfl
  have hk : settled.kind? p.program.body = some (.block items) := Arena.kind?_eq_some.2 ⟨_, hn'⟩
  have hsettled : settled.Settled := p.laid.settled hdesugars hvetted hpipe
  -- The second pass finds the same, and it leaves the nodes as they are.
  have hsecond := (hpass queue).2
  unfold DynScript.analyse at hsecond
  cases hrun : (visitProgram role p.program.body).run (initialState settled queue) with
  | error defect =>
    rw [hrun] at hsecond
    cases hsecond
  | ok result =>
    rw [hrun] at hsecond
    have hqueue : result.2.queue = queue.pushAll found := congrArg Analysed.queue (Except.ok.inj hsecond)
    have herrors : result.2.errors = found.errors := congrArg Analysed.errors (Except.ok.inj hsecond)
    rw [StateT.run, visitProgram_eq] at hrun
    have hscans : Scans settled topOutlook (Analysis.node p.program.body >>= fun n =>
        visitAll (visitWithin role (settled.size + 1)) (topItems p.program.body n))
        (items.foldl settled.past topOutlook)
        fun found => ∀ c oc, settled.InRow topOutlook items c oc → Surveyed settled role found oc c := by
      refine .node fun n hbody => ?_
      obtain rfl := Option.some.inj (hn'.symm.trans hbody)
      exact .visitStatements (fun o id => .visitWithin hsettled role _ id) items
    have hroom : result.2.tree.size ≤ UInt32.size :=
      p.fits (hpass queue).1 (.inr rfl) ((visitProgram_eq _ _ _).trans hrun)
    obtain ⟨-, -, hgo⟩ := hscans (initialState settled queue) rfl result.1 result.2 hrun
    obtain ⟨-, -, found', hq, he, hsurveyed⟩ := hgo hroom (sees_initialState settled queue)
    refine ⟨found', hqueue.symm.trans hq, herrors.symm.trans (he.trans (Nat.zero_add _)),
      fun _ => ⟨hsettled, ⟨_, hk⟩, ?_, ?_⟩⟩
    · rintro o id node ⟨items', c, o', hk', hrow, hstands⟩ hnode hobject
      obtain rfl := NodeKind.block.inj (Option.some.inj (hk.symm.trans hk'))
      exact hsurveyed found' (List.Sublist.refl _) c o' hrow o id node hstands hnode hobject
    · intro id node hnode hne hname
      refine Program.exists_standsIn hforest (fun id hlt hne => ?_) hk topOutlook hnode hne hname
      have hlt' : id.index < p.program.arena.size := hdesugars.outline.size_eq ▸ hlt
      rcases p.laid.covered id hlt' with hroot | ⟨q, hq⟩
      · exact absurd (List.mem_singleton.1 hroot) hne
      · exact hdesugars.exists_parent p.laid hq

end DynScript
