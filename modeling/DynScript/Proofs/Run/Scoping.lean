import DynScript.Proofs.Analysis.Scoping
import DynScript.Proofs.Run.Termination

/-!
# Names that are in scope have values

A unit without imports, without classes and without records that are opened, of which all functions stand at the
top level, never comes upon a name without a value if analysis has found no error in it. Between two statements the
outermost frame has all the names that are known there. A function knows its parameters and names that were known
where it was made, and those still have values wherever it is called.
-/

namespace DynScript

/-! ## Realms of known names -/

namespace Arena

variable {a : Arena} {names names' : List String} {c : Context} {id : NodeId}

/-- A node is scoped, and the functions that it makes know only some names. -/
def ScopedIn (a : Arena) (names : List String) (c : Context) (id : NodeId) : Prop :=
  ∃ globals levels, (∀ name ∈ globals, name ∈ names) ∧ a.ScopedWithin globals levels c id

/-- A function literal makes functions that know only some names besides their parameters. -/
def MadeIn (a : Arena) (names : List String) (id : NodeId) : Prop :=
  ∃ globals levels params body, (∀ name ∈ globals, name ∈ names) ∧
    a.kind? id = some (.function params body) ∧ a.Makes globals levels params body

theorem MadeIn.more (h : a.MadeIn names id) (hn : ∀ name ∈ names, name ∈ names') : a.MadeIn names' id := by
  obtain ⟨globals, levels, params, body, hsub, hk, hmakes⟩ := h
  exact ⟨globals, levels, params, body, fun name hname => hn name (hsub name hname), hk, hmakes⟩

/-- A node that is scoped fits its context. -/
theorem ScopedIn.fits (h : a.ScopedIn names c id) : ∃ kind, a.kind? id = some kind ∧
    kind.Fits a False (fun _ params body => a.kind? id = some (.function params body) → a.MadeIn names id)
      (a.ScopedIn names) c := by
  obtain ⟨globals, levels, hsub, hscoped⟩ := h
  obtain ⟨kind, hk, hf⟩ := hscoped.fits
  refine ⟨kind, hk, hf.imp (fun params body hmakes hfunction => ?_) fun c i hi => ⟨globals, levels, hsub, hi⟩⟩
  exact ⟨globals, levels, params, body, hsub, hfunction, hmakes⟩

end Arena

namespace Realm

variable {ρ : Realm} {names names' : List String}

/-- The realm of runs at whose top level some names are known. No name without a value is to be met. -/
def knowing (ρ : Realm) (names : List String) : Realm :=
  { ρ with literal := ρ.arena.MadeIn names, globals := names, starves := True, misses := False }

/-- When more names are known there may be more functions. -/
theorem widens_knowing (hn : ∀ name ∈ names, name ∈ names') : (ρ.knowing names).Widens (ρ.knowing names') where
  literal h := h.more hn
  arena := rfl
  unit := rfl
  maxDepth := rfl
  base := rfl

end Realm

/-! ## Evaluation that refuses unknown names -/

/-- Whether a fault is about a name without a value. -/
def Cause.isUnbound : Cause → Bool
  | unboundName _ => true
  | _ => false

theorem Cause.Harmless.not_isUnbound {ρ : Realm} {cause : Cause} (h : cause.Harmless ρ) (hm : ¬ ρ.misses) :
    cause.isUnbound = false := by
  cases cause with
  | unboundName name => exact absurd (h.unbound name rfl) hm
  | _ => rfl

namespace Eval

open Machine (Sees Stable stable_sees)

variable {α β : Type} {ρ : Realm} {names names' : List String} {P P' : Machine → Prop} {Q : α → Prop}

/-- Refusing faults that do not occur makes no difference. -/
theorem Stays.refusing (hm : ¬ ρ.misses) (hP : Stable P) (id : NodeId) {x : Eval α} (hx : Stays ρ P x Q P') :
    Stays ρ P (Eval.refusing Cause.isUnbound id x) Q P' := by
  refine hx.finishing hP fun result n _ hend => ?_
  rcases result with ⟨fault | stuck⟩ | a
  · have hbound := Cause.Harmless.not_isUnbound hend hm
    dsimp only
    rw [if_neg (by simp [hbound])]
    exact ⟨rfl, hend⟩
  · exact ⟨rfl, hend⟩
  · exact ⟨rfl, hend⟩

theorem callable_knowing (ρ : Realm) (names : List String) (depth : Nat) :
    Callable (ρ.knowing names) (ρ.arena.ScopedIn names) depth := by
  rintro id ⟨globals, levels, params, body, hsub, hk, hmakes⟩
  exact ⟨params, body, globals, hk, hsub, fun _ => (hmakes (depth + 1)).imp fun _ _ h => ⟨globals, levels, hsub, h⟩⟩

/-- Nodes that are scoped are evaluated while names are known. -/
theorem evaluates_knowing (ρ : Realm) (names : List String) (load : Loader) (fuel : Nat) :
    Evaluates (ρ.knowing names) (ρ.arena.ScopedIn names) (refusingWithin Cause.isUnbound load fuel) := by
  induction fuel with
  | zero => exact fun c id _ _ m hm _ => ⟨.refl m, hm, rfl, trivial⟩
  | succ fuel ih =>
    intro c id h
    obtain ⟨kind, hk, hf⟩ := h.fits
    refine Stays.refusing not_false (stable_sees _ c) id ?_
    refine Stays.nodeStep ih load (callable_knowing ρ names c.depth) (fun params body hfunction hmade => ?_) hk hf
    exact hmade (hfunction ▸ hk)

end Eval

/-! ## Between statements -/

/-- In the only frame there is a name has a value in the outermost one. -/
theorem Environment.Binds.globally {env : Environment} {h : Heap} {name : String} (hb : env.Binds h name)
    (hd : env.depth = 1) : env.BindsGlobally h name := by
  obtain ⟨frame, hframe, hname⟩ := hb
  obtain ⟨i, hi⟩ := Array.mem_iff_getElem?.1 hframe
  have hlt : i < env.depth := (Array.getElem?_eq_some_iff.1 hi).1
  obtain rfl : i = 0 := by omega
  exact ⟨frame, hi, hname⟩

namespace Machine

open Machine (Sees)

variable {ρ : Realm} {names names' : List String} {m n : Machine}

/-- A machine in which no call is in progress and some names are known at the top level. -/
structure AtTop (ρ : Realm) (names : List String) (m : Machine) : Prop where
  /-- What the machine holds. -/
  within : m.Within (ρ.knowing names)
  /-- There is one frame. -/
  frame : m.env.depth = 1
  /-- There is no call. -/
  calls : m.calls.depth = 0
  /-- Names can be defined. -/
  definable : m.env.Definable m.world.heap

namespace AtTop

theorem sees (h : m.AtTop ρ names) : m.Sees (ρ.knowing names) ⟨0, names⟩ where
  depth := h.calls
  names := .inr fun name hname => (h.within.globals name hname).binds
  definable := .inr h.definable

/-- A step leads to such a machine. -/
theorem later (h : m.AtTop ρ names) (hext : m.Extends n) (hn : n.Within (ρ.knowing names)) : n.AtTop ρ names where
  within := hn
  frame := hext.env.depth.trans h.frame
  calls := by
    rw [hext.calls]
    exact h.calls
  definable := hext.env.definable hext.heap h.definable

/-- Names that have a value are known. -/
theorem more (h : m.AtTop ρ names) (hn : ∀ name ∈ names, name ∈ names') (hb : ∀ name ∈ names', m.Binds name) :
    m.AtTop ρ names' where
  within := h.within.widen (Realm.widens_knowing hn) fun name hname => (hb name hname).globally h.frame
  frame := h.frame
  calls := h.calls
  definable := h.definable

end AtTop

end Machine

namespace Eval

open Machine (Sees Stable stable_sees)

variable {α β : Type} {ρ : Realm} {names names' : List String} {Q : α → List String → Prop}
  {Q' : β → List String → Prop}

/-- How a step at the top level may end: in a value of which `Q` holds together with the names that are known, in a
fault about something else than a name without a value, or without fuel. -/
def Answers (Q : α → List String → Prop) (names : List String) : Except Interruption α → Prop
  | .ok a => Q a names
  | .error (.fault fault) => fault.cause.isUnbound = false
  | .error (.stuck stuck) => stuck = .outOfFuel

/-- A step at the top level leads back there, and some names are known then. -/
def Leads (ρ : Realm) (names : List String) (x : Eval α) (Q : α → List String → Prop) : Prop :=
  ∀ held (m : Machine), m.AtTop ρ names → ∃ names', (x.runFrom held m).2.AtTop ρ names' ∧
    Answers Q names' (x.runFrom held m).1

namespace Leads

/-- A step that stays within the realm leads to the names that have values after it. -/
theorem of_stays {x : Eval α} {R : α → Prop} (hn : ∀ name ∈ names, name ∈ names')
    (hx : Stays (ρ.knowing names) (Sees (ρ.knowing names) ⟨0, names⟩) x R (Sees (ρ.knowing names) ⟨0, names'⟩)) :
    Leads ρ names x fun a known => R a ∧ known = names' := by
  intro held m hm
  obtain ⟨hext, hwithin, hend⟩ := hx held m hm.within hm.sees
  have hlater := hm.later hext hwithin
  rcases hr : x.runFrom held m with ⟨⟨fault | stuck⟩ | a, n⟩ <;> rw [hr] at hend hlater
  · exact ⟨names, hlater, hend.not_isUnbound not_false⟩
  · exact ⟨names, hlater, hend.1⟩
  · exact ⟨names', hlater.more hn fun name hname => (hend.2.names.resolve_left not_false) name hname, hend.1, rfl⟩

theorem bind {x : Eval α} {k : α → Eval β} (hx : Leads ρ names x Q)
    (hk : ∀ a names', Q a names' → Leads ρ names' (k a) Q') : Leads ρ names (x >>= k) Q' := by
  intro held m hm
  obtain ⟨names', hn, hend⟩ := hx held m hm
  rw [runFrom_bind]
  rcases hr : x.runFrom held m with ⟨⟨fault | stuck⟩ | a, n⟩ <;> rw [hr] at hn hend
  · exact ⟨names', hn, hend⟩
  · exact ⟨names', hn, hend⟩
  · exact hk a names' hend held n hn

/-- Looking at the end of a step. -/
theorem finishing {x : Eval α} {f : Except Interruption α → Machine → Except Interruption β × Machine}
    (hx : Leads ρ names x Q) (hf : ∀ result names' n, Answers Q names' result →
      (f result n).2 = n ∧ Answers Q' names' (f result n).1) : Leads ρ names (Eval.finishing x f) Q' := by
  intro held m hm
  obtain ⟨names', hn, hend⟩ := hx held m hm
  obtain ⟨hsame, hend'⟩ := hf _ names' (x.runFrom held m).2 hend
  rw [runFrom_finishing]
  exact ⟨names', hsame.symm ▸ hn, hend'⟩

/-- Less may be said of the end. -/
theorem right {x : Eval α} {Q₀ : α → List String → Prop} (hx : Leads ρ names x Q)
    (hQ : ∀ a names', Q a names' → Q₀ a names') : Leads ρ names x Q₀ := by
  intro held m hm
  obtain ⟨names', hn, hend⟩ := hx held m hm
  refine ⟨names', hn, ?_⟩
  rcases hr : (x.runFrom held m).1 with ⟨fault | stuck⟩ | a <;> rw [hr] at hend
  · exact hend
  · exact hend
  · exact hQ a names' hend

/-- Looking at a machine and going on. -/
theorem reading {k : Machine → Eval α} (hk : ∀ m : Machine, m.AtTop ρ names → Leads ρ names (k m) Q) :
    Leads ρ names (get >>= k) Q :=
  fun held m hm => hk m hm held m hm

theorem nodeIn {id : NodeId} {kind : NodeKind} (hk : ρ.arena.kind? id = some kind) {k : Node → Eval α}
    (h : ∀ position, Leads ρ names (k ⟨kind, position⟩) Q) : Leads ρ names (nodeIn ρ.unit id >>= k) Q := by
  intro held m hm
  obtain ⟨position, hn⟩ := hm.within.node? hk
  rw [runFrom_nodeIn_bind, show m.world.node? ρ.unit id = some ⟨kind, position⟩ from hn]
  exact h position held m hm

theorem locating (position : Option Position) {x : Eval α} (hx : Leads ρ names x Q) :
    Leads ρ names (locating position x) Q := by
  refine hx.finishing fun result names' n hend => ?_
  rcases result with ⟨fault | stuck⟩ | a
  · refine ⟨rfl, ?_⟩
    show (if fault.isSignal then fault else fault.locatedAt position).cause.isUnbound = false
    split <;> exact hend
  · exact ⟨rfl, hend⟩
  · exact ⟨rfl, hend⟩

theorem refusing (id : NodeId) {x : Eval α} (hx : Leads ρ names x Q) :
    Leads ρ names (Eval.refusing Cause.isUnbound id x) Q := by
  refine hx.finishing fun result names' n hend => ?_
  rcases result with ⟨fault | stuck⟩ | a
  · dsimp only
    rw [if_neg (by simp [show fault.cause.isUnbound = false from hend])]
    exact ⟨rfl, hend⟩
  · exact ⟨rfl, hend⟩
  · exact ⟨rfl, hend⟩

/-- A return that leaves a statement is the end of the unit. -/
theorem returned {Q : Value → List String → Prop} {x : Eval Value} (hx : Leads ρ names x Q) :
    Leads ρ names (returned x) fun ended known => ended = false → ∃ v, Q v known := by
  refine hx.finishing fun result names' n hend => ?_
  split
  · exact ⟨rfl, fun _ => ⟨_, hend⟩⟩
  · exact ⟨rfl, by simp [Answers]⟩
  · rename_i interruption _
    cases interruption <;> exact ⟨rfl, hend⟩

/-! ### Statements -/

/-- A step towards the value of a node of the unit. -/
theorem nodeStep {load : Loader} {eval : Evaluator} {id : NodeId} {kind : NodeKind} {Q : Value → List String → Prop}
    (hk : ρ.arena.kind? id = some kind) (h : ∀ position, Leads ρ names
      (nodeKind (within ρ.unit eval) eval (load eval) ρ.unit id ⟨kind, position⟩) Q) :
    Leads ρ names (nodeStep load eval id) Q := by
  refine reading fun m hm => ?_
  rw [show m.unit = ρ.unit from hm.within.unit]
  exact nodeIn hk fun position => locating position (h position)

/-- The name of a recursive binding is known while its value is evaluated, and from then on. -/
theorem recursiveBinding {own : Evaluator} {name : String} {value : NodeId}
    (ho : Evaluates (ρ.knowing (name :: names)) (ρ.arena.ScopedIn (name :: names)) own)
    (hv : ρ.arena.ScopedIn (name :: names) ⟨0, name :: names⟩ value) :
    Leads ρ names (binding own name .recursive value) fun _ known => known = name :: names := by
  have hdefine : Stays (ρ.knowing names) (Sees (ρ.knowing names) ⟨0, names⟩) (Eval.define name .nil) Whatever
      (Sees (ρ.knowing names) ⟨0, name :: names⟩) := Stays.define name .nil
  have hvalue : Stays (ρ.knowing (name :: names)) (Sees (ρ.knowing (name :: names)) ⟨0, name :: names⟩)
      (do
        let value := (← own value).named name
        Eval.define name value
        return value) (Value.Within (ρ.knowing (name :: names)))
      (Sees (ρ.knowing (name :: names)) ⟨0, name :: names⟩) :=
    (Stays.bindingValue ho name hv).weaken (fun _ h => h) (fun _ h => h) fun m hm =>
      hm.fewer rfl fun other hother => List.mem_cons_of_mem _ hother
  unfold binding
  rw [if_pos rfl]
  refine bind (of_stays (fun _ h => List.mem_cons_of_mem _ h) hdefine) ?_
  rintro _ _ ⟨-, rfl⟩
  exact (of_stays (fun _ h => h) hvalue).right fun _ _ h => h.2

/-- A statement that is scoped makes its name known, if it has one. -/
theorem statement (load : Loader) (fuel : Nat) {levels : Nat} {id : NodeId}
    (h : ρ.arena.ScopedWithin (ρ.arena.visible ⟨0, names⟩ id).names levels ⟨0, names⟩ id) :
    Leads ρ names (refusingWithin Cause.isUnbound load fuel id)
      fun _ known => known = (ρ.arena.after ⟨0, names⟩ id).names := by
  obtain ⟨kind, hk, hf⟩ := h.fits
  by_cases hrec : ∃ name isFinal value, kind = .binding name .recursive isFinal value
  · obtain ⟨name, isFinal, value, rfl⟩ := hrec
    have hvisible : (ρ.arena.visible ⟨0, names⟩ id).names = name :: names := by
      simp [Arena.visible, hk, Context.forValue, Context.define]
    have hafter : (ρ.arena.after ⟨0, names⟩ id).names = name :: names := by
      simp [Arena.after, hk, NodeKind.introduced, Context.defineAll]
    rw [hvisible] at hf
    rw [hafter]
    cases fuel with
    | zero => exact fun held m hm => ⟨names, hm, rfl⟩
    | succ fuel =>
      have hvalue : ρ.arena.ScopedIn (name :: names) ⟨0, name :: names⟩ value := ⟨_, levels, fun _ h => h, hf⟩
      exact refusing id (nodeStep hk fun position =>
        recursiveBinding (Stays.within (evaluates_knowing ρ (name :: names) load fuel)) hvalue)
  · have hvisible : ρ.arena.visible ⟨0, names⟩ id = ⟨0, names⟩ := by
      unfold Arena.visible
      split
      · rename_i name mode isFinal value hbinding
        obtain rfl := Option.some.inj (hk.symm.trans hbinding)
        refine if_neg fun hmode => hrec ⟨name, isFinal, value, ?_⟩
        rw [hmode]
      · rfl
    rw [hvisible] at h
    have hstays := evaluates_knowing ρ names load fuel ⟨0, names⟩ id ⟨names, levels, fun _ h => h, h⟩
    exact (of_stays (fun _ hname => List.mem_append_right _ hname) hstays).right fun _ _ h => h.2

/-! ### Units -/

section

variable (load : Loader) (fuel : Nat)

/-- Statements make their names known one after the other. -/
theorem unitStatements {levels : Nat} {items : List NodeId} (h : ρ.arena.ScopedAtTop levels ⟨0, names⟩ items) :
    Leads ρ names (unitStatements (within ρ.unit (refusingWithin Cause.isUnbound load fuel)) items)
      fun _ _ => True := by
  induction items generalizing names with
  | nil => exact fun held m hm => ⟨names, hm, trivial⟩
  | cons id rest ih =>
    have hrequire : Leads ρ names (requireUnit ρ.unit id) fun _ known => known = names :=
      (of_stays (fun _ h => h) (Stays.requireUnit id)).right fun _ _ h => h.2
    have hstatement : Leads ρ names (within ρ.unit (refusingWithin Cause.isUnbound load fuel) id)
        fun _ known => known = (ρ.arena.after ⟨0, names⟩ id).names := by
      refine bind hrequire ?_
      rintro _ _ rfl
      exact statement load fuel h.1
    refine bind (returned hstatement) fun ended known hknown => ?_
    cases ended with
    | true => exact fun held m hm => ⟨known, hm, trivial⟩
    | false =>
      obtain ⟨-, rfl⟩ := hknown rfl
      exact ih h.2

theorem runUnit {body : NodeId} {levels : Nat} {items : List NodeId} (hk : ρ.arena.kind? body = some (.block items))
    (h : ρ.arena.ScopedAtTop levels ⟨0, names⟩ items) :
    Leads ρ names (runUnit (refusingWithin Cause.isUnbound load fuel) body) fun _ _ => True := by
  refine reading fun m hm => ?_
  rw [show m.unit = ρ.unit from hm.within.unit]
  refine bind (of_stays (fun _ h => h) (Stays.topLevel hk)) ?_
  rintro _ _ ⟨rfl, rfl⟩
  refine bind (unitStatements load fuel h) fun _ known _ => ?_
  exact (of_stays (fun _ h => h) (Stays.takeExports (stable_sees _ _))).right fun _ _ _ => trivial

theorem invokeMain : Leads ρ names (invokeMain (refusingWithin Cause.isUnbound load fuel)) fun _ _ => True :=
  (of_stays (fun _ h => h) (Stays.invokeMain (evaluates_knowing ρ names load fuel)
    (callable_knowing ρ names 0))).right fun _ _ _ => trivial

end

end Leads

end Eval

/-- A machine that is about to run a program knows the name of the host. -/
theorem Program.atTop_machine (program : Program) (world : World) (directory : Path) (maxDepth : Nat) :
    (program.machine world directory maxDepth).AtTop (program.realm world maxDepth True) [Analysis.hostName] := by
  have hunit : (world.addUnit program.arena).2.units[world.units.size]? = some program.arena := by
    simp [World.addUnit]
  have hwithin := Machine.within_start (ρ := (program.realm world maxDepth True).knowing [Analysis.hostName])
    hunit rfl (by simp [Realm.knowing, Analysis.hostName, Native.namespaceName]) directory
  let host := (world.addUnit program.arena).2.heap.newNamespace
  let started := Environment.new.put host.2 Native.namespaceName (.record host.1) Environment.new.innermost
  have henv : (program.machine world directory maxDepth).env = started.1 := rfl
  have hheap : (program.machine world directory maxDepth).world.heap = started.2 := rfl
  have hnew : Environment.new.Definable host.2 := by
    intro r hr
    cases (show some (Frame.locals .empty) = some (.record r) from hr)
  refine ⟨hwithin, ?_, rfl, ?_⟩
  · rw [henv]
    exact Eval.Plain.depth_put .new _ _ _ _
  · rw [henv, hheap]
    exact (Environment.GrowsTo.put .new _ _ _ _).definable (Environment.growsTo_put .new _ _ _ _) hnew

/-- What a program is asked for is done from a machine without coming upon a name without a value: no node ends in a
fault about one, for refusing such faults makes no difference, and neither does the whole. -/
def Program.FindsNames (program : Program) (imports : Imports) (m : Machine) (task : Task) : Prop :=
  ∀ fuel held, (task.run program.body (Eval.refusingWithin Cause.isUnbound imports.loader fuel)).runFrom held m =
      (task.run program.body (evalWithin imports.loader fuel)).runFrom held m ∧
    ∀ fault, ((task.run program.body (evalWithin imports.loader fuel)).runFrom held m).1 = .error (.fault fault) →
      ∀ name, fault.cause ≠ .unboundName name

/-- A step that leads back to the top level when unknown names are refused finds all names. -/
theorem Program.findsNames_of_leads {program : Program} {imports : Imports} {ρ : Realm} {names : List String}
    {task : Task} {m : Machine} (hm : m.AtTop ρ names) (h : ∀ fuel, Eval.Leads ρ names
      (task.run program.body (Eval.refusingWithin Cause.isUnbound imports.loader fuel)) fun _ _ => True) :
    program.FindsNames imports m task ∧ ∀ fuel held, ∃ names',
      ((task.run program.body (evalWithin imports.loader fuel)).runFrom held m).2.AtTop ρ names' := by
  have hrun (fuel : Nat) (held : List Value) :
      let refused := (task.run program.body (Eval.refusingWithin Cause.isUnbound imports.loader fuel)).runFrom held m
      refused = (task.run program.body (evalWithin imports.loader fuel)).runFrom held m ∧ ∃ names', refused.2.AtTop ρ names' ∧
        Eval.Answers (fun _ _ => True) names' refused.1 := by
    intro refused
    obtain ⟨names', hn, hend⟩ := h fuel held m hm
    have H : Eval.Congruence fun x y => Eval.Agrees x y := Eval.Agrees.congruence
    rcases H.task (Eval.Agrees.refusingWithin Cause.isUnbound imports fuel) program.body task held m with hsame | ⟨d, hd⟩
    · exact ⟨hsame, names', hn, hend⟩
    · rw [hd] at hend
      cases hend
  refine ⟨fun fuel held => ?_, fun fuel held => ?_⟩
  · obtain ⟨hsame, names', -, hend⟩ := hrun fuel held
    refine ⟨hsame, fun fault hfault name hname => ?_⟩
    rw [hsame, hfault] at hend
    have hbound : fault.cause.isUnbound = false := hend
    rw [hname] at hbound
    cases hbound
  · obtain ⟨hsame, names', hn, -⟩ := hrun fuel held
    exact ⟨names', hsame ▸ hn⟩

/-- Scope soundness. Where analysis has found no error in a program that was read from a text, and that has no
imports, no objects with parameters, no records that are opened, and functions at the top level only, no name without
a value is met: neither while its statements are evaluated nor in its function `main`, which is called in the machine
that they leave, however that came about. -/
theorem no_name_without_value (p : Numbered) (role : Role) (queue : Queue) (analysed : Analysed)
    (h : analyse p.program role queue = .ok analysed) (hfailed : analysed.failed = false)
    (hs : p.program.arena.SelfContained) (ho : p.program.arena.OpensNothing) (ht : p.program.FunctionsAtTop)
    (imports : Imports) (world : World) (directory : Path) (maxDepth : Nat) :
    let program := analysed.program
    let first := program.machine world directory maxDepth
    program.FindsNames imports first .statements ∧ ∀ fuel held,
      program.FindsNames imports
        ((Task.statements.run program.body (evalWithin imports.loader fuel)).runFrom held first).2 .main := by
  intro program first
  obtain ⟨levels, items, hk, hscoped⟩ := p.scoped h hfailed hs ho ht
  let ρ := program.realm world maxDepth True
  have hfirst : first.AtTop ρ [Analysis.hostName] := program.atTop_machine world directory maxDepth
  have hstatements (fuel : Nat) : Eval.Leads ρ [Analysis.hostName] (Task.statements.run program.body
      (Eval.refusingWithin Cause.isUnbound imports.loader fuel)) fun _ _ => True :=
    (Eval.Leads.runUnit imports.loader fuel hk hscoped).bind fun _ known _ _ m hm => ⟨known, hm, trivial⟩
  have hmain (names : List String) (fuel : Nat) : Eval.Leads ρ names (Task.main.run program.body
      (Eval.refusingWithin Cause.isUnbound imports.loader fuel)) fun _ _ => True :=
    (Eval.Leads.invokeMain imports.loader fuel).bind fun _ known _ _ m hm => ⟨known, hm, trivial⟩
  obtain ⟨hfinds, hleft⟩ := Program.findsNames_of_leads hfirst hstatements
  refine ⟨hfinds, fun fuel held => ?_⟩
  obtain ⟨names, hnames⟩ := hleft fuel held
  exact (Program.findsNames_of_leads hnames (hmain names)).1

/-- A function that calls itself knows its own name. -/
theorem recursion_finds_names : ∃ (p : Numbered) (analysed : Analysed),
    p.source = "let rec turn = fun(n) { if n == 0 then { n } else { turn(n - 1) } }; let main = fun() { turn(3); };" ∧
      analyse p.program .entry .empty = .ok analysed ∧ analysed.failed = false ∧
      p.program.arena.SelfContained ∧ p.program.arena.OpensNothing ∧ p.program.FunctionsAtTop ∧
      let first := analysed.program.machine (.new .silent .empty) ⟨"."⟩ 7
      analysed.program.FindsNames .unserved first .statements ∧ ∀ fuel held,
        analysed.program.FindsNames .unserved
          ((Task.statements.run analysed.program.body (evalWithin Loader.none fuel)).runFrom held first).2 .main := by
  let inside : List NodeId := (List.range 13 ++ [15, 16, 17, 18]).map NodeId.mk
  have hsource : (parseSource
      "let rec turn = fun(n) { if n == 0 then { n } else { turn(n - 1) } }; let main = fun() { turn(3); };").toOption.any
        (fun program => (analyse program .entry .empty).toOption.any fun analysed =>
          decide (program.arena.size ≤ UInt32.size ∧ analysed.failed = false ∧ program.arena.SelfContained ∧ program.arena.OpensNothing ∧
            program.Encloses inside)) := by decide +kernel
  obtain ⟨program, hparse, hprogram⟩ := exists_of_any hsource
  obtain ⟨analysed, hanalyse, htest⟩ := exists_of_any hprogram
  obtain ⟨hnumbers, hfailed, hs, ho, hinside⟩ := of_decide_eq_true htest
  let p : Numbered := ⟨⟨_, program, hparse⟩, hnumbers⟩
  refine ⟨p, analysed, rfl, hanalyse, hfailed, hs, ho, hinside.functionsAtTop, ?_⟩
  exact no_name_without_value p .entry .empty analysed hanalyse hfailed hs ho hinside.functionsAtTop .unserved
    (.new .silent .empty) ⟨"."⟩ 7

end DynScript
