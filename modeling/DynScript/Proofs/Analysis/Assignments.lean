import DynScript.Proofs.Analysis.Lexical
import DynScript.Proofs.Tree.Reassigning

/-!
# What analysis says of assignments

A name may be assigned only where a declaration is in force that allows it. Inside a record that stands open nothing is
known of the declarations in force, but only what is declared to be mutable somewhere may be assigned even there.
-/

namespace DynScript

namespace Analysis

variable {a : Arena} {role : Role} {found : Found} {o : Outlook} {id : NodeId} {name : String}

/-- Where nothing is wrong, the name that is assigned has been found to be mutable. -/
theorem lookup?_of_visited (ha : a.Settled) (h : Visited a role found o id) (hclean : found.errors = 0)
    (hassign : a.AssignsAt name id) :
    ∃ (s : AnalysisState) (d : Declaration), s.arena = a ∧ s.Sees o ∧
      s.tree.lookup? s.current name = some d ∧ d.isMutable := by
  obtain ⟨levels, s, s', own, rfl, hs, hroom, hrun, -, he, hsub⟩ := h
  obtain ⟨target, value, hk, htarget⟩ := hassign
  obtain ⟨position, hn⟩ := Arena.kind?_eq_some.1 hk
  have hown : own.errors = 0 := by
    have hle : own.errors ≤ found.errors := hsub.countP_le
    omega
  rw [visitNode, Replays.node_bind hn] at hrun
  obtain ⟨targetNode, htargetNode, hrun⟩ := node_ok hrun
  obtain ⟨position', hn'⟩ := Arena.kind?_eq_some.1 htarget
  obtain rfl := Option.some.inj (htargetNode.symm.trans hn')
  obtain ⟨⟨⟨⟩, t⟩, hvalue, hrest⟩ := bind_ok hrun
  have hplace : s.arena.past o value = o :=
    Arena.past_isOperand (ha.operands hn value (by simp [NodeKind.operands, NodeKind.children]))
  have hsize : t.tree.size ≤ s'.tree.size :=
    (Grows.assigning (Grows.visitWithin role levels) target ⟨.ident name, position'⟩ t () s' hrest).2
  obtain ⟨hnodes, -, hgo⟩ := Scans.visitWithin (o := o) ha role levels value s rfl () t hvalue
  obtain ⟨hsees, -, first, -, hfirst, -⟩ := hgo (hsize.trans hroom) hs
  rw [hplace] at hsees
  -- The value has been visited, and now the name is looked up.
  dsimp only at hrest
  rw [bind_eq (rfl : lookup? name t = .ok (t.tree.lookup? t.current name, t))] at hrest
  have hquiet : s'.errors ≠ t.errors + 1 := by omega
  cases hd : t.tree.lookup? t.current name with
  | none =>
    rw [hd] at hrest
    cases hrest
    exact absurd rfl hquiet
  | some d =>
    rw [hd] at hrest
    cases hmutable : d.isMutable with
    | true => exact ⟨t, d, hnodes, hsees, hd, hmutable⟩
    | false =>
      dsimp only at hrest
      rw [hmutable] at hrest
      cases hrest
      exact absurd rfl hquiet

/-- Where nothing is wrong, a name that is bound is not final in the innermost scope. -/
theorem not_fixes_of_visited {scopes : List Scope} {mode : BindingMode} {isFinal : Bool} {value : NodeId}
    (ha : a.Settled) (h : Visited a role found (some scopes) id) (hclean : found.errors = 0)
    (hk : a.kind? id = some (.binding name mode isFinal value)) : ¬ Outlook.Fixes (some scopes) name := by
  intro hfixes
  obtain ⟨levels, s, s', own, rfl, hs, hroom, hrun, -, he, hsub⟩ := h
  obtain ⟨position, hn⟩ := Arena.kind?_eq_some.1 hk
  rw [visitNode, Replays.node_bind hn] at hrun
  have hbinding := Scans.visitBinding (o := some scopes) (fun o => Scans.visitWithin (o := o) ha role levels) ha hn
  obtain ⟨-, -, first, -, hfirst, hreported⟩ := (hbinding s rfl () s' hrun).2.2 hroom hs
  have hmem := (hreported first (List.Sublist.refl first)).2 scopes rfl hfixes
  have hpos : 0 < first.errors := List.countP_pos_iff.2 ⟨_, hmem, rfl⟩
  have hle : own.errors ≤ found.errors := hsub.countP_le
  omega

end Analysis

open Analysis

namespace Program

variable {program : Program} {o : Outlook} {id : NodeId} {name : String}

/-- In a unit that has been accepted nothing is left to change. -/
theorem Accepted.settled (h : program.Accepted) : program.arena.Settled := by
  obtain ⟨p, role, queue, analysed, hanalyse, hfailed, rfl⟩ := h
  obtain ⟨settled, found, -, hdesugars, hvetted, hpass⟩ := analyse_settles p.laid role
  obtain rfl := Except.ok.inj ((hpass queue).1.symm.trans hanalyse)
  have hclean : found.errors = 0 := by simpa [Analysed.failed] using hfailed
  exact p.laid.settled hdesugars hvetted (Found.not_has_of_errors hclean fun finding hcode => by
    cases finding <;> first | rfl | cases hcode)

section

variable (h : program.Accepted) (hsize : program.arena.size ≤ UInt32.size)
include h hsize

theorem Accepted.surveyed : ∃ role found, program.Surveyed role found ∧ found.errors = 0 := by
  obtain ⟨p, role, queue, analysed, hanalyse, hfailed, rfl⟩ := h
  obtain ⟨settled, found, -, hdesugars, -, hpass⟩ := analyse_settles p.laid role
  obtain rfl := Except.ok.inj ((hpass queue).1.symm.trans hanalyse)
  have hnumbers : p.program.arena.size ≤ UInt32.size := hdesugars.outline.size_eq ▸ hsize
  obtain ⟨found', -, herrors, hsurveyed⟩ := Numbered.surveyed ⟨p, hnumbers⟩ hanalyse
  have hclean : found'.errors = 0 := by
    rw [← herrors]
    simpa [Analysed.failed] using hfailed
  refine ⟨role, found', hsurveyed ?_, hclean⟩
  exact Found.not_has_of_errors hclean fun finding hcode => by cases finding <;> first | rfl | cases hcode

/-- What is assigned in a unit that has been accepted is declared to be mutable somewhere in it. -/
theorem Accepted.mutates (hassign : program.arena.AssignsAt name id) :
    program.arena.Mutates name := by
  obtain ⟨role, found, hsurveyed, hclean⟩ := h.surveyed hsize
  obtain ⟨target, value, hk, htarget⟩ := hassign
  obtain ⟨position, hn⟩ := Arena.kind?_eq_some.1 hk
  have hne : id ≠ program.body := by
    rintro rfl
    obtain ⟨items, hblock⟩ := hsurveyed.block
    cases hblock.symm.trans hk
  obtain ⟨o, hstands⟩ := hsurveyed.stands hn hne nofun
  obtain ⟨s, d, hs, hsees, hd, hmutable⟩ :=
    lookup?_of_visited hsurveyed.settled (hsurveyed.visited hstands hn rfl) hclean ⟨target, value, hk, htarget⟩
  rw [← hs]
  exact hsees.mutableOnly.of_lookup? hd hmutable

/-- In a unit that has been accepted a name is protected where it has been introduced so that it may not be assigned. -/
theorem Accepted.protects {scopes : List Scope} (hs : program.StandsIn topOutlook (some scopes) id)
    (hi : program.arena.Introduces name (some scopes) id o) : o.Protects name := by
  obtain ⟨role, found, hsurveyed, hclean⟩ := h.surveyed hsize
  refine hi.protects fun mode isFinal value hk => ?_
  obtain ⟨position, hn⟩ := Arena.kind?_eq_some.1 hk
  exact not_fixes_of_visited hsurveyed.settled (hsurveyed.visited hs hn rfl) hclean hk

/-- No assignment of a unit that has been accepted stands where the name is protected. -/
theorem Accepted.not_assignsAt (hs : program.StandsIn topOutlook o id) (ho : o.Protects name) :
    ¬ program.arena.AssignsAt name id := by
  intro hassign
  obtain ⟨role, found, hsurveyed, hclean⟩ := h.surveyed hsize
  obtain ⟨target, value, hk, htarget⟩ := hassign
  obtain ⟨position, hn⟩ := Arena.kind?_eq_some.1 hk
  obtain ⟨scopes, rfl, hprotects⟩ := ho
  obtain ⟨s, d, -, hsees, hd, hmutable⟩ :=
    lookup?_of_visited hsurveyed.settled (hsurveyed.visited hs hn rfl) hclean ⟨target, value, hk, htarget⟩
  rw [hsees.lookup?] at hd
  rw [hprotects d hd] at hmutable
  cases hmutable

/-- If an assignment belongs to a place where the name is protected then it stands inside a record that is opened. -/
theorem Accepted.reassignsInside (hs : program.StandsIn topOutlook o id) (ho : o.Protects name)
    (hr : program.arena.Reassigns name id) : program.arena.ReassignsInside name id := by
  refine hr.inside (P := fun o id => program.StandsIn topOutlook o id) ?_ (fun o id => h.not_assignsAt hsize) hs ho
  rintro o o' id c node ⟨items, first, o₁, hk, hrow, hstands⟩ hn hplaces
  exact ⟨items, first, o₁, hk, hrow, hstands.trans (.deeper hn hplaces .here)⟩

end

end Program

end DynScript
