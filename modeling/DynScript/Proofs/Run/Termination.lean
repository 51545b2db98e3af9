import DynScript.Proofs.Run.Moments
import DynScript.Proofs.Run.Staying
import DynScript.Proofs.Run.Strict
import DynScript.Proofs.Session.Accepted
import DynScript.Proofs.Session.Direct

/-!
# Runs come to an end

In a unit without imports and classes steps nest within a bound. A step from a node to one below it leads to a
smaller number, pipes or not, and a step into the body of a function leads to any node of the unit, but makes
one more call, of which there may only be so many. The rounds of a loop do not nest in each other. So with fuel
for this bound, everything that the unit is asked for comes to an end from every machine that it may get to.
-/

namespace DynScript

/-! ## The order of the nodes -/

namespace Arena

variable {a : Arena} {J : Context → NodeId → Prop} {c : Context}

/-- Children have smaller numbers, and members are bindings. -/
structure Ordered (a : Arena) : Prop where
  /-- The children. -/
  down : ∀ {p c : NodeId}, a.Parent p c → c.index < p.index
  /-- The members of objects. -/
  members : ∀ {id params composed members}, a.kind? id = some (.object params composed members) →
    ∀ m ∈ members, ∃ kind, a.kind? m = some kind ∧ kind.isBinding

theorem sequence_of_forall {ids : List NodeId} (h : ∀ c' : Context, c'.depth = c.depth → ∀ i ∈ ids, J c' i) :
    a.Sequence J c ids := by
  induction ids generalizing c with
  | nil => trivial
  | cons id rest ih => exact ⟨h c rfl id (by simp), ih fun c' hc i hi => h c' hc i (by simp [hi])⟩

namespace Ordered

variable (ho : a.Ordered)
include ho

theorem members_of_forall {bound : Nat} (hJ : ∀ c' i, c'.depth = c.depth → i.index < bound → J c' i)
    {ids : List NodeId} (hb : ∀ m ∈ ids, m.index < bound)
    (hm : ∀ m ∈ ids, ∃ kind, a.kind? m = some kind ∧ kind.isBinding) : a.Members J c ids := by
  induction ids generalizing c with
  | nil => trivial
  | cons member rest ih =>
    obtain ⟨kind, hk, hbinding⟩ := hm member (by simp)
    cases kind with
    | binding name mode isFinal value =>
      obtain ⟨position, hn⟩ := kind?_eq_some.1 hk
      have hvalue : value.index < member.index := ho.down ⟨_, hn, by simp [NodeKind.children]⟩
      refine ⟨name, mode, isFinal, value, hk, hJ _ value (by simp) (hvalue.trans (hb member (by simp))), ?_⟩
      exact ih hJ (fun m hmem => hb m (by simp [hmem])) fun m hmem => hm m (by simp [hmem])
    | _ => cases hbinding

/-- A node fits if all nodes with smaller numbers may be evaluated, in any context with as many calls. -/
theorem fits (hs : a.SelfContained) {id : NodeId} {kind : NodeKind} (hk : a.kind? id = some kind)
    {lenient : Prop} (hlenient : lenient) {made : Context → List Param → NodeId → Prop}
    (hmade : ∀ params body, made c params body)
    (hJ : ∀ c' i, c'.depth = c.depth → i.index < id.index → J c' i) : kind.Fits a lenient made J c := by
  obtain ⟨position, hn⟩ := kind?_eq_some.1 hk
  have hchild (i : NodeId) (hi : i ∈ kind.children) (c' : Context) (hc : c'.depth = c.depth) : J c' i :=
    hJ c' i hc (ho.down ⟨_, hn, hi⟩)
  have hbound (name : String) : c.Bound lenient name := .inr hlenient
  cases kind with
  | block items => exact sequence_of_forall fun c' hc i hi => hchild i hi c' hc
  | binding name mode isFinal value => exact hchild value (by simp [NodeKind.children]) _ (by simp)
  | function params body => exact hmade params body
  | call callee args =>
    exact ⟨hchild callee (by simp [NodeKind.children]) c rfl, fun i hi =>
      hchild i (by simp [NodeKind.children, hi]) c rfl⟩
  | ident name => exact hbound name
  | literal value => trivial
  | list items | print items => exact fun i hi => hchild i hi c rfl
  | record fields => exact fun field hfield => hchild _ (List.mem_map_of_mem hfield) c rfl
  | property target name => exact hchild target (by simp [NodeKind.children]) c rfl
  | len operand | negate operand | clone operand => exact hchild operand (by simp [NodeKind.children]) c rfl
  | loop start stop body =>
    exact ⟨hchild start (by simp [NodeKind.children]) c rfl, hchild stop (by simp [NodeKind.children]) c rfl,
      hchild body (by simp [NodeKind.children]) _ rfl⟩
  | conditional condition thenBranch elseBranch =>
    exact ⟨hchild condition (by simp [NodeKind.children]) c rfl,
      hchild thenBranch (by simp [NodeKind.children]) c rfl, fun branch hbranch =>
      hchild branch (by simp_all [NodeKind.children]) c rfl⟩
  | assign target value =>
    have htarget : target.index < id.index := ho.down ⟨_, hn, by simp [NodeKind.children]⟩
    obtain ⟨node, hnode⟩ := exists_get? (htarget.trans (lt_size_of_get? hn))
    refine ⟨hchild value (by simp [NodeKind.children]) c rfl, node.kind, by simp [Arena.kind?, hnode], ?_⟩
    obtain ⟨kind, position⟩ := node
    cases kind with
    | ident name => exact hbound name
    | property owner name =>
      have howner : owner.index < target.index := ho.down ⟨_, hnode, by simp [NodeKind.children]⟩
      exact hJ c owner rfl (howner.trans htarget)
    | _ => trivial
  | index lhs rhs | logical op lhs rhs | equality op lhs rhs | comparison op lhs rhs | arithmetic op lhs rhs
  | prepend lhs rhs =>
    exact ⟨hchild lhs (by simp [NodeKind.children]) c rfl, hchild rhs (by simp [NodeKind.children]) c rfl⟩
  | pipe lhs rhs desugared =>
    exact fun hd => hchild rhs (by simp [NodeKind.children, hd]) c rfl
  | object params composed members =>
    have hclass : params.isSome = false := (hs.kind? hk).2
    refine ⟨by simpa using hclass, fun label _ => hbound label.name, ?_⟩
    exact ho.members_of_forall hJ (fun m hm => ho.down ⟨_, hn, hm⟩) (ho.members hk)
  | envOpen target body =>
    exact ⟨hlenient, hchild target (by simp [NodeKind.children]) c rfl,
      hchild body (by simp [NodeKind.children]) c rfl⟩
  | imports root path => exact absurd (hs.kind? hk).1 (by simp [NodeKind.isImport])
  | exports names => exact fun label _ => hbound label.name
  | returns value => exact fun i hi => hchild i (by simp_all [NodeKind.children]) c rfl

end Ordered

end Arena

/-- A program that was read from a text, and maybe analysed. -/
inductive Parsed.Yields (p : Parsed) : Program → Prop where
  /-- The program as it was read. -/
  | read : Yields p p.program
  /-- The program after an analysis. -/
  | analysed {role : Role} {queue : Queue} {analysed : Analysed}
      (h : DynScript.analyse p.program role queue = .ok analysed) : Yields p analysed.program

namespace Parsed

variable {p : Parsed} {program : Program}

/-- Pipes do not change the order of the nodes. -/
theorem Yields.ordered (h : p.Yields program) : program.arena.Ordered ∧
    ∃ items, program.arena.kind? program.body = some (.block items) := by
  have hlaid := p.laid
  obtain ⟨items, position, hn⟩ := hlaid.exists_block
  have hmembers {id params composed members}
      (hk : p.program.arena.kind? id = some (.object params composed members)) :
      ∀ m ∈ members, ∃ kind, p.program.arena.kind? m = some kind ∧ kind.isBinding := by
    obtain ⟨position, hn⟩ := Arena.kind?_eq_some.1 hk
    exact hlaid.proper _ _ hn
  cases h with
  | read => exact ⟨⟨hlaid.down, hmembers⟩, items, Arena.kind?_eq_some.2 ⟨position, hn⟩⟩
  | @analysed role queue analysed h =>
    obtain ⟨settled, found, hforest, hdesugars, -, hpass⟩ := analyse_settles hlaid role
    obtain rfl := Except.ok.inj (h.symm.trans (hpass queue).1)
    have hbody := hdesugars.outline.get?_of_not_joint hn rfl
    refine ⟨⟨hforest.down, fun {id params composed members} hk m hm => ?_⟩, items,
      Arena.kind?_eq_some.2 ⟨position, hbody⟩⟩
    obtain ⟨position, hobject⟩ := Arena.kind?_eq_some.1 hk
    have hbefore := hdesugars.outline.symm.get?_of_not_joint hobject rfl
    refine hdesugars.exists_kind? (fun kind htest => ?_) (hmembers (Arena.kind?_eq_some.2 ⟨_, hbefore⟩) m hm)
    cases kind <;> first | rfl | cases htest

end Parsed

/-! ## Evaluation with fuel for the bound -/

namespace Realm

variable {ρ : Realm}

/-- How deeply steps may nest from a node on. -/
def need (ρ : Realm) (c : Context) (id : NodeId) : Nat :=
  (ρ.maxDepth - c.depth) * (ρ.arena.size + 1) + id.index + 1

/-- There is fuel for a node of the unit, if fuel is needed. -/
def Affords (ρ : Realm) (fuel : Nat) (c : Context) (id : NodeId) : Prop :=
  id.index < ρ.arena.size ∧ (ρ.starves ∨ ρ.need c id ≤ fuel)

/-- A step to a smaller number takes some fuel. -/
theorem Affords.down {fuel : Nat} {c c' : Context} {id i : NodeId} (h : ρ.Affords (fuel + 1) c id)
    (hc : c'.depth = c.depth) (hi : i.index < id.index) : ρ.Affords fuel c' i := by
  refine ⟨hi.trans h.1, h.2.imp_right fun hneed => ?_⟩
  unfold need at *
  rw [hc]
  omega

/-- A call takes the fuel for all the nodes there are. -/
theorem Affords.enter {fuel : Nat} {c c' : Context} {id i : NodeId} (h : ρ.Affords (fuel + 1) c id)
    (hc : c'.depth = c.depth + 1) (hlt : c.depth < ρ.maxDepth) (hi : i.index < ρ.arena.size) :
    ρ.Affords fuel c' i := by
  refine ⟨hi, h.2.imp_right fun hneed => ?_⟩
  have hmore : ρ.maxDepth - c.depth = ρ.maxDepth - c'.depth + 1 := by omega
  unfold need at *
  rw [hmore, Nat.succ_mul] at hneed
  omega

end Realm

namespace Eval

open Machine (Sees)

variable {α : Type} {ρ : Realm}

/-- Where a property holds of all machines of a realm, watching for it changes nothing. -/
theorem Stays.watching {p : Machine → Prop} (hp : ∀ m : Machine, m.Within ρ → p m) (id : NodeId) {x : Eval α}
    {P P' : Machine → Prop} {Q : α → Prop} (hx : Stays ρ P x Q P') : Stays ρ P (watching p id x) Q P' := by
  intro held m hm hpre
  have hend := hx held m hm hpre
  rw [runFrom_watching id (hp m hm) (hp _ hend.2.1)]
  exact hend

/-- A machine is met in a step if it makes a difference to watch that it is not. -/
def Meets (load : Loader) (x : Evaluator → Eval α) (fuel : Nat) (held : List Value) (m n : Machine) : Prop :=
  (x (watchedWithin (· ≠ n) load fuel)).runFrom held m ≠ (x (evalWithin load fuel)).runFrom held m

/-- The functions of the unit may be called with the fuel that a step leaves. -/
theorem callable_of_affords (ho : ρ.arena.Ordered)
    (hl : ∀ id, ρ.literal id ↔ ∃ params body, ρ.arena.kind? id = some (.function params body)) {fuel : Nat}
    {c : Context} {id : NodeId} (h : ρ.Affords (fuel + 1) c id) : Callable ρ (ρ.Affords fuel) c.depth := by
  intro literal hliteral
  obtain ⟨params, body, hk⟩ := (hl literal).1 hliteral
  refine ⟨params, body, [], hk, by simp, fun hlt => ?_⟩
  obtain ⟨position, hn⟩ := Arena.kind?_eq_some.1 hk
  have hbody : body.index < literal.index := ho.down ⟨_, hn, by simp [NodeKind.children]⟩
  have hsize := hbody.trans (Arena.lt_size_of_get? hn)
  obtain ⟨node, hnode⟩ := Arena.exists_get? hsize
  refine ⟨node.kind, Arena.kind?_eq_some.2 ⟨node.position, hnode⟩, ?_⟩
  split
  · rename_i items hitems
    refine Arena.sequence_of_forall fun c' hc i hi => h.enter hc hlt ?_
    exact (ho.down ⟨node, hnode, by rw [hitems]; exact hi⟩).trans hsize
  · exact h.enter rfl hlt hsize

/-- An evaluator that makes steps with the fuel that is left evaluates the nodes for which there is fuel. -/
theorem evaluates_of_steps (ho : ρ.arena.Ordered) (hs : ρ.arena.SelfContained)
    (hl : ∀ id, ρ.literal id ↔ ∃ params body, ρ.arena.kind? id = some (.function params body)) (hm : ρ.misses)
    (load : Loader) (eval : Nat → Evaluator) (hzero : ∀ id, eval 0 id = MonadExcept.throw (.stuck .outOfFuel))
    (hsucc : ∀ fuel id {P P' : Machine → Prop}, Stays ρ P (nodeStep load (eval fuel) id) (Value.Within ρ) P' →
      Stays ρ P (eval (fuel + 1) id) (Value.Within ρ) P') (fuel : Nat) :
    Evaluates ρ (ρ.Affords fuel) (eval fuel) := by
  induction fuel with
  | zero =>
    intro c id h
    rw [hzero]
    refine fun _ m hm _ => ⟨.refl m, hm, rfl, h.2.resolve_right ?_⟩
    unfold Realm.need
    omega
  | succ fuel ih =>
    intro c id h
    obtain ⟨node, hnode⟩ := Arena.exists_get? h.1
    have hk : ρ.arena.kind? id = some node.kind := Arena.kind?_eq_some.2 ⟨node.position, hnode⟩
    have hfits : node.kind.Fits ρ.arena ρ.misses (fun _ _ _ => True) (ρ.Affords fuel) c :=
      ho.fits hs hk hm (fun _ _ => trivial) fun c' i hc hi => h.down hc hi
    refine hsucc fuel id (Stays.nodeStep ih load (callable_of_affords ho hl h) (fun params body hfunction _ => ?_)
      hk hfits)
    exact (hl id).2 ⟨params, body, hfunction ▸ hk⟩

end Eval

/-! ## Runs -/

/-- What a unit may be asked for. -/
inductive Task where
  /-- To run its statements. -/
  | statements
  /-- To call its function `main`, if it has one. -/
  | main

/-- Do what a unit is asked for. -/
def Task.run (body : NodeId) (eval : Evaluator) : Task → Eval Unit
  | statements => Eval.runUnit eval body >>= fun _ => pure ()
  | main => Eval.invokeMain eval >>= fun _ => pure ()

namespace Eval

open Machine (Sees)

variable {ρ : Realm}

theorem Congruence.task {T : ∀ {α : Type}, Eval α → Eval α → Prop} (H : Congruence @T)
    {eval eval' : Evaluator} (he : ∀ id, T (eval id) (eval' id)) (body : NodeId) (task : Task) :
    T (task.run body eval) (task.run body eval') := by
  cases task with
  | statements => exact H.bind (H.runUnit he body) fun _ => H.plain (.pure _)
  | main => exact H.bind (H.invokeMain he) fun _ => H.plain (.pure _)

/-- A machine with any number of calls in progress does what a unit is asked for within the realm. -/
theorem Stays.task (ho : ρ.arena.Ordered)
    (hl : ∀ id, ρ.literal id ↔ ∃ params body, ρ.arena.kind? id = some (.function params body)) (hm : ρ.misses)
    {fuel : Nat} (hfuel : ρ.starves ∨ (ρ.maxDepth + 1) * (ρ.arena.size + 1) ≤ fuel) {eval : Evaluator}
    (he : Evaluates ρ (ρ.Affords fuel) eval) {body : NodeId} {items : List NodeId}
    (hk : ρ.arena.kind? body = some (.block items)) (task : Task) :
    Stays ρ (fun _ => True) (task.run body eval) Whatever fun _ => True := by
  obtain ⟨position, hn⟩ := Arena.kind?_eq_some.1 hk
  have haffords (c : Context) (id : NodeId) (hid : id.index < ρ.arena.size) : ρ.Affords fuel c id := by
    refine ⟨hid, hfuel.imp_right fun hfuel => ?_⟩
    have hdepth : (ρ.maxDepth - c.depth) * (ρ.arena.size + 1) ≤ ρ.maxDepth * (ρ.arena.size + 1) :=
      Nat.mul_le_mul_right _ (Nat.sub_le _ _)
    rw [Nat.succ_mul] at hfuel
    unfold Realm.need
    omega
  have hbody := Arena.lt_size_of_get? hn
  intro held m hwithin _
  let c : Context := ⟨m.calls.depth, []⟩
  have hsees : Sees ρ c m := ⟨rfl, .inl hm, .inl hm⟩
  have hrun : Stays ρ (Sees ρ c) (task.run body eval) Whatever fun _ => True := by
    cases task with
    | statements =>
      have hitems : ∀ i ∈ items, ρ.Affords fuel c i :=
        fun i hi => haffords c i ((ho.down ⟨_, hn, hi⟩).trans hbody)
      exact bind (Stays.runUnit he hk hitems) fun _ _ => weaken (pure trivial)
        (fun _ h => h) (fun _ h => h) fun _ _ => trivial
    | main =>
      have hmore : ρ.Affords (fuel + 1) c body :=
        ⟨hbody, (haffords c body hbody).2.imp_right fun h => h.trans (Nat.le_succ _)⟩
      exact bind (invokeMain he (callable_of_affords ho hl hmore)) fun _ _ => weaken (pure trivial)
        (fun _ h => h) (fun _ h => h) fun _ _ => trivial
  exact hrun held m hwithin hsees

end Eval

namespace Program

/-- The machines that a program may get to from a machine: those that it leaves when it has done what it was
asked for, and those that are met on the way. -/
inductive Reaches (program : Program) (load : Loader) (first : Machine) : Machine → Prop where
  /-- The first machine. -/
  | start : Reaches program load first first
  /-- A machine that is left. -/
  | left {m : Machine} (h : Reaches program load first m) (task : Task) (fuel : Nat) (held : List Value) :
      Reaches program load first ((task.run program.body (evalWithin load fuel)).runFrom held m).2
  /-- A machine that is met. -/
  | met {m n : Machine} (h : Reaches program load first m) (task : Task) (fuel : Nat) (held : List Value)
      (hn : Eval.Meets load (task.run program.body) fuel held m n) : Reaches program load first n

/-- How deeply the steps of a program may nest. -/
def nesting (program : Program) (maxDepth : Nat) : Nat := (maxDepth + 1) * (program.arena.size + 1)

/-- The realm of a program of which nothing but its nodes is known. -/
def realm (program : Program) (world : World) (maxDepth : Nat) (starves : Prop) : Realm where
  arena := program.arena
  unit := (world.addUnit program.arena).1
  literal id := ∃ params body, program.arena.kind? id = some (.function params body)
  base := world.heap.size
  maxDepth := maxDepth
  globals := []
  starves := starves
  misses := True

variable {program : Program} {imports : Imports} {world : World} {directory : Path} {maxDepth : Nat}
  {m : Machine}

/-- The nodes of a program are evaluated within its realm, as far as there is fuel. -/
theorem evaluates (imports : Imports) (world : World) (maxDepth : Nat) (ho : program.arena.Ordered)
    (hs : program.arena.SelfContained) (starves : Prop) (fuel : Nat) :
    Eval.Evaluates (program.realm world maxDepth starves) ((program.realm world maxDepth starves).Affords fuel)
      (evalWithin imports.loader fuel) :=
  Eval.evaluates_of_steps ho hs (fun _ => Iff.rfl) trivial imports.loader (evalWithin imports.loader)
    (fun _ => rfl) (fun _ _ _ _ hstep => hstep) fuel

/-- So they are when nothing outside the realm is to be met. -/
theorem evaluates_watched (imports : Imports) (ho : program.arena.Ordered) (hs : program.arena.SelfContained)
    (starves : Prop) {p : Machine → Prop}
    (hp : ∀ m : Machine, m.Within (program.realm world maxDepth starves) → p m) (fuel : Nat) :
    Eval.Evaluates (program.realm world maxDepth starves) ((program.realm world maxDepth starves).Affords fuel)
      (Eval.watchedWithin p imports.loader fuel) :=
  Eval.evaluates_of_steps ho hs (fun _ => Iff.rfl) trivial imports.loader (Eval.watchedWithin p imports.loader)
    (fun _ => rfl) (fun _ id _ _ hstep => hstep.watching hp id) fuel

/-- A program only gets to machines of its realm. -/
theorem Reaches.within (ho : program.arena.Ordered) (hs : program.arena.SelfContained) {items : List NodeId}
    (hk : program.arena.kind? program.body = some (.block items))
    (hm : program.Reaches imports.loader (program.machine world directory maxDepth) m) :
    m.Within (program.realm world maxDepth True) := by
  induction hm with
  | start =>
    have hunit : (world.addUnit program.arena).2.units[world.units.size]? = some program.arena := by
      simp [World.addUnit]
    exact Machine.within_start (ρ := program.realm world maxDepth True) hunit rfl (by simp [realm]) directory
  | left h task fuel held ih =>
    have he := evaluates imports world maxDepth ho hs True fuel
    exact (Eval.Stays.task ho (fun _ => Iff.rfl) trivial (.inl trivial) he hk task held _ ih trivial).2.1
  | @met m n h task fuel held hn ih =>
    by_contra hout
    -- If the machine were none of the realm then watching for it would change nothing.
    have hne (l : Machine) (hl : l.Within (program.realm world maxDepth True)) : l ≠ n := fun h => hout (h ▸ hl)
    have he := evaluates_watched imports ho hs True hne fuel
    obtain ⟨-, -, hend⟩ :=
      Eval.Stays.task ho (fun _ => Iff.rfl) trivial (.inl trivial) he hk task held _ ih trivial
    have hagrees (id : NodeId) : Eval.Agrees (evalWithin imports.loader fuel id)
        (Eval.watchedWithin (· ≠ n) imports.loader fuel id) :=
      Eval.Agrees.congruence.watchedWithin (fun _ _ => .refl _) (fun _ _ => .refl _)
        (fun id _ _ h => h.watching id) imports fuel id
    have H : Eval.Congruence fun x y => Eval.Agrees x y := Eval.Agrees.congruence
    rcases H.task hagrees program.body task held m with hsame | ⟨d, hd⟩
    · exact hn hsame
    · rcases hr : (task.run program.body (Eval.watchedWithin (· ≠ n) imports.loader fuel)).runFrom held m with
        ⟨result, l⟩
      rw [hr] at hend hd
      obtain rfl : result = _ := hd
      cases hend.1

end Program

/-- A unit that was read from a text, analysed or not, and that has neither imports nor objects with parameters
comes to an end whatever it is asked for: from every machine that it may get to, however deeply calls may nest,
its statements and its function `main` end in a value, in a fault or in a return. The steps nest no deeper than
the bound, and more fuel changes nothing. -/
theorem runs_come_to_an_end (p : Parsed) (program : Program) (hp : p.Yields program)
    (hs : program.arena.SelfContained) (imports : Imports) (world : World) (directory : Path) (maxDepth : Nat)
    (m : Machine) (hm : program.Reaches imports.loader (program.machine world directory maxDepth) m)
    (task : Task) (held : List Value) :
    ∃ (result : Except Interruption Unit) (n : Machine), (∀ stuck, result ≠ .error (.stuck stuck)) ∧
      ∀ fuel, program.nesting maxDepth ≤ fuel →
        (task.run program.body (evalWithin imports.loader fuel)).runFrom held m = (result, n) := by
  obtain ⟨ho, items, hk⟩ := hp.ordered
  have hwiden : (program.realm world maxDepth True).Widens (program.realm world maxDepth False) :=
    ⟨id, rfl, rfl, rfl, rfl⟩
  have hwithin := (hm.within ho hs hk).widen hwiden (by simp [Program.realm])
  have he := Program.evaluates imports world maxDepth ho hs False
    (program.nesting maxDepth)
  obtain ⟨-, -, hend⟩ :=
    Eval.Stays.task ho (fun _ => Iff.rfl) trivial (.inr le_rfl) he hk task held m hwithin trivial
  rcases hr : (task.run program.body (evalWithin imports.loader (program.nesting maxDepth))).runFrom held m with
    ⟨result, n⟩
  rw [hr] at hend
  have hstuck (stuck : Stuck) : result ≠ .error (.stuck stuck) := by
    rintro rfl
    exact hend.2
  refine ⟨result, n, hstuck, fun fuel hfuel => ?_⟩
  obtain ⟨more, rfl⟩ := Nat.exists_eq_add_of_le hfuel
  have H : Eval.Congruence fun x y => Eval.Follows Eq (#[], #[]) x y :=
    Eval.Follows.congruence Eval.coupling_eq
  have hfollows := H.task (Eval.follows_more_fuel imports (program.nesting maxDepth) more _) program.body task
  rw [hfollows.runFrom_eq (by rw [hr]; exact hstuck .outOfFuel), hr]

/-- A function that gets itself as an argument goes on calling it from a loop. -/
theorem self_application_comes_to_an_end :
    ∃ p : Parsed, p.source =
        "let turn = fun(f) { for 0 to 9 { f |> f(); }; }; let main = fun() { turn(turn); };" ∧
      p.program.arena.SelfContained ∧
      let first := p.program.machine (.new .silent .empty) ⟨"."⟩ 7
      let ready := ((Task.statements.run p.program.body (evalWithin Loader.none 99)).runFrom [] first).2
      ∃ (result : Except Interruption Unit) (n : Machine), (∀ stuck, result ≠ .error (.stuck stuck)) ∧
        ∀ fuel, p.program.nesting 7 ≤ fuel →
          (Task.main.run p.program.body (evalWithin Loader.none fuel)).runFrom [] ready = (result, n) := by
  have hsource : (parseSource
      "let turn = fun(f) { for 0 to 9 { f |> f(); }; }; let main = fun() { turn(turn); };").toOption.any
        (fun program => decide program.arena.SelfContained) := by decide +kernel
  obtain ⟨program, hparse, htest⟩ := exists_of_any hsource
  have hs : program.arena.SelfContained := of_decide_eq_true htest
  refine ⟨⟨_, program, hparse⟩, rfl, hs, ?_⟩
  exact runs_come_to_an_end ⟨_, program, hparse⟩ program .read hs .unserved (.new .silent .empty) ⟨"."⟩ 7 _
    (.left .start .statements 99 []) .main []

end DynScript
