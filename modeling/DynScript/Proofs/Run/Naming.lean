import DynScript.Proofs.Run.Assigning
import DynScript.Proofs.Run.Reassigning

/-!
# Steps that name nothing

A frame takes a new name only when a name is defined in it, and a name is defined only in the innermost frame. All that
evaluation opens stands in a frame of its own before a name is defined there. So `Eval.Tidy` says of a step that the
frames that stood when it began have taken no names, except perhaps the innermost `d` of them.
-/

namespace DynScript

/-! ## Frames -/

namespace Environment

variable {env env' : Environment} {h : Heap} {name other : String} {v : Value} {i : Nat}

/-- A frame has a variable of a name. -/
def HasVariable (env : Environment) (name : String) (i : Nat) : Prop := (env.variableAt? name i).isSome

theorem hasVariable_congr (he : env'.variableAt? name i = env.variableAt? name i) :
    env'.HasVariable name i ↔ env.HasVariable name i := by
  rw [HasVariable, he, HasVariable]

/-- Variables are not lost when frames grow. -/
theorem GrowsTo.hasVariable (he : env.GrowsTo env') (hv : env.HasVariable name i) : env'.HasVariable name i := by
  obtain ⟨value, hvalue⟩ := Option.isSome_iff_exists.1 hv
  obtain ⟨frame, hframe, hvariable⟩ := Option.bind_eq_some_iff.1 hvalue
  obtain ⟨frame', hframe', hgrows⟩ := he.frames i frame hframe
  cases frame with
  | record r => cases hvariable
  | locals names =>
    cases frame' with
    | record r => cases hgrows
    | locals names' =>
      rw [HasVariable, variableAt?, hframe']
      exact hgrows name (Option.isSome_of_eq_some hvariable)

/-- An assignment gives no frame a new name. -/
theorem hasVariable_put_target {holder : Holder} (ht : env.target? h name = some holder) :
    (env.put h name v holder).1.HasVariable other i ↔ env.HasVariable other i := by
  have hw := writes_put (isSome_slot?_of_target? ht) v
  exact Bool.eq_iff_iff.1 (hw.sameNames.slots other (.locals i))

/-- While frames grow the innermost one goes on to hold its names in the same way. -/
theorem GrowsTo.innermost (he : env.GrowsTo env') : env'.innermost = env.innermost := by
  obtain ⟨frame, hframe, hholder⟩ := env.exists_innermost
  obtain ⟨frame', hframe', hholder'⟩ := env'.exists_innermost
  obtain ⟨grown, hgrown, hgrows⟩ := he.frames _ _ hframe
  rw [he.depth, hgrown] at hframe'
  obtain rfl := Option.some.inj hframe'
  rw [hholder, hholder', he.depth]
  cases frame <;> cases grown <;> simp only [Frame.GrowsTo] at hgrows
  · rfl
  · rw [hgrows]

/-- What is defined is found in the innermost frame, if the record that stands open there is one. -/
theorem slot?_define (hd : env.Definable h) (name : String) (v : Value) :
    (env.define h name v).1.slot? (env.define h name v).2 name env.innermost = some (env.innermost.keeps v) := by
  obtain ⟨frame, hframe, hholder⟩ := env.exists_innermost
  unfold define
  rw [hholder]
  cases frame with
  | record r =>
    have hr : r.index < h.size := by
      apply hd
      rw [Array.back?_eq_getElem?]
      exact hframe
    exact (Heap.property?_set ⟨_, Array.getElem?_eq_getElem hr⟩ v r name).trans (if_pos ⟨rfl, rfl⟩)
  | locals names =>
    show (env.frames.modify (env.depth - 1) (Frame.setLocal name v))[env.depth - 1]?.bind _ = some v
    rw [Array.getElem?_modify, if_pos rfl, hframe]
    exact (names.get?_set name name v).trans (if_pos rfl)

/-- To define a name gives the innermost frame this name and no other one. -/
theorem hasVariable_define : (env.define h name v).1.HasVariable other i ↔
    env.HasVariable other i ∨ other = name ∧ env.innermost = .locals i := by
  by_cases hsame : other = name ∧ env.innermost = .locals i
  · obtain ⟨rfl, hholder⟩ := hsame
    refine iff_of_true ?_ (.inr ⟨rfl, hholder⟩)
    have hd : env.Definable h := by
      intro r hr
      rw [innermost, hr] at hholder
      cases hholder
    have hslot := slot?_define hd other v
    rw [hholder] at hslot
    exact Option.isSome_of_eq_some hslot
  · rw [or_iff_left hsame]
    refine hasVariable_congr ?_
    unfold define
    by_cases hother : other = name
    · cases hholder : env.innermost with
      | record r => rfl
      | locals index =>
        refine variableAt?_put fun hindex => hsame ⟨hother, ?_⟩
        rw [hholder, hindex]
    · exact variableAt?_put_of_ne hother

end Environment

namespace Arena

variable {a : Arena} {id c : NodeId} {node : Node} {name : String}

/-- Bindings are statements or members. -/
def Orderly (a : Arena) : Prop := ∀ p node, a.get? p = some node → ∀ c ∈ node.kind.operands,
  ∃ kind, a.kind? c = some kind ∧ kind.isOperand

/-- What is no statement and no member is no binding. -/
theorem Orderly.not_binds (ha : a.Orderly) (hn : a.get? id = some node) (hc : c ∈ node.kind.operands) (name : String) :
    ¬ a.Binds name c := by
  rintro ⟨mode, isFinal, value, hk⟩
  obtain ⟨kind, hkind, hoperand⟩ := ha _ _ hn c hc
  obtain rfl := Option.some.inj (hkind.symm.trans hk)
  cases hoperand

end Arena

namespace Machine

variable {d d' : Nat} {l m n : Machine}

/-- What stands open in the first machine stands open in the second one, and no frame has taken a name except perhaps
the innermost `d`. -/
structure Tidy (d : Nat) (m n : Machine) : Prop where
  /-- What stands open. -/
  restored : m.Restored n
  /-- The names. -/
  names : ∀ i < m.env.depth - d, ∀ name, n.env.HasVariable name i → m.env.HasVariable name i

namespace Tidy

@[refl] theorem refl (m : Machine) : m.Tidy d m := ⟨.refl m, fun _ _ _ h => h⟩

theorem trans (h : l.Tidy d m) (k : m.Tidy d n) : l.Tidy d n := by
  refine ⟨h.restored.trans k.restored, fun i hi name hn => h.names i hi name (k.names i ?_ name hn)⟩
  rw [h.restored.depth]
  exact hi

theorem weaken (h : m.Tidy d n) (hd : d ≤ d') : m.Tidy d' n :=
  ⟨h.restored, fun i hi => h.names i (by omega)⟩

/-- Where the frames stay so do their names. -/
theorem of_frames (hr : m.Restored n) (he : n.env.frames = m.env.frames) : m.Tidy d n :=
  ⟨hr, fun i _ name => (Environment.hasVariable_congr (Environment.variableAt?_congr (by rw [he]))).1⟩

/-- Changes before and after that have nothing to do with the frames make no difference. -/
theorem between {m' n' : Machine} (h : m'.Tidy d n') (hr : m.Restored n) (hm : m'.env.frames = m.env.frames)
    (hn : n.env.frames = n'.env.frames) : m.Tidy d n := by
  have hdepth : m'.env.depth = m.env.depth := congrArg Array.size hm
  have hsame {k k' : Machine} (hk : k'.env.frames = k.env.frames) (name : String) (i : Nat) :
      k'.env.HasVariable name i ↔ k.env.HasVariable name i :=
    Environment.hasVariable_congr (Environment.variableAt?_congr (by rw [hk]))
  refine ⟨hr, fun i hi name hname => (hsame hm name i).1 (h.names i ?_ name ((hsame hn name i).1 hname))⟩
  rwa [hdepth]

/-- A frame of its own takes names instead of those that stood before. -/
theorem inFrame {env : Environment} {frame : Frame} (hpush : env.frames = m.env.frames.push frame)
    (hactive : env.active = m.env.active) (h : Tidy 1 { m with env } n) :
    m.Tidy d { n with env := n.env.truncate m.env.depth } := by
  have hdepth : env.depth = m.env.depth + 1 := by
    unfold Environment.depth
    rw [hpush, Array.size_push]
  refine ⟨.inFrame hdepth hactive h.restored, fun i hi name hname => ?_⟩
  have hi' : i < m.env.depth := by omega
  have hbelow : env.frames[i]? = m.env.frames[i]? := by
    rw [hpush]
    exact Environment.getElem?_push hi'
  have hinner : n.env.HasVariable name i :=
    (Environment.hasVariable_congr (Environment.variableAt?_truncate hi')).1 hname
  refine (Environment.hasVariable_congr (Environment.variableAt?_congr hbelow)).1 (h.names i ?_ name hinner)
  show i < env.depth - 1
  omega

/-- A tidy step from one machine to a machine that has grown gives no frame a name and takes none away. -/
theorem hasVariable_iff (h : m.Tidy 0 n) (hg : m.env.GrowsTo n.env) (name : String) (i : Nat) :
    n.env.HasVariable name i ↔ m.env.HasVariable name i := by
  refine ⟨fun hname => ?_, hg.hasVariable⟩
  by_cases hi : i < m.env.depth
  · exact h.names i hi name hname
  · have hout : n.env.frames[i]? = none := Array.getElem?_eq_none (by
      have hdepth : n.env.frames.size = m.env.depth := h.restored.depth
      omega)
    rw [Environment.HasVariable, Environment.variableAt?, hout] at hname
    cases hname

end Tidy

end Machine

namespace Eval

variable {α β : Type} {P : Machine → Prop} {d : Nat}

/-- A step that is tidy when it begins where `P` holds. -/
def Tidy (P : Machine → Prop) (d : Nat) (x : Eval α) : Prop := ∀ held (m : Machine), P m → m.Tidy d (x.runFrom held m).2

namespace Tidy

theorem weaken {d' : Nat} {x : Eval α} (hx : Tidy P d x) (hd : d ≤ d') : Tidy P d' x :=
  fun held m hm => (hx held m hm).weaken hd

theorem anywhere {x : Eval α} (hx : Tidy (fun _ => True) d x) : Tidy P d x := fun held m _ => hx held m trivial

theorem restoring {x : Eval α} (hx : Tidy (fun _ => True) d x) : Restoring x :=
  fun held m => (hx held m trivial).restored

/-- A step that leaves the names alone. -/
theorem of_env {x : Eval α} (hr : Restoring x) (he : ∀ held (m : Machine), (x.runFrom held m).2.env = m.env) :
    Tidy P d x :=
  fun held m _ => .of_frames (hr held m) (by rw [he])

theorem still {x : Eval α} (hx : x.Still) : Tidy P d x := of_env (.ofPlain hx.toPlain) hx.env

theorem throw (e : Interruption) : Tidy P d (MonadExcept.throw e : Eval α) := fun _ m _ => .refl m

theorem looking {x : Eval α} (hx : Looks x) : Tidy P d x := fun held m _ => by
  rw [hx held m]

/-- Looking at a machine and going on. -/
theorem reading {k : Machine → Eval α} (hk : ∀ m, P m → Tidy P d (k m)) : Tidy P d (get >>= k) :=
  fun held m hm => hk m hm held m hm

theorem finishing {x : Eval α} {f : Except Interruption α → Machine → Except Interruption β × Machine}
    (hr : ∀ result (m : Machine), m.Restored (f result m).2) (he : ∀ result (m : Machine), (f result m).2.env = m.env)
    (hx : Tidy P d x) : Tidy P d (finishing x f) :=
  fun held m hm => (hx held m hm).trans (.of_frames (hr _ _) (congrArg Environment.frames (he _ _)))

theorem ending {f : Except Interruption α → Machine → Except Interruption β × Machine} (hf : Ending f) {x : Eval α}
    (hx : Tidy P d x) : Tidy P d (Eval.finishing x f) :=
  finishing hf.restored hf.env hx

section

variable (hP : ∀ {m n : Machine}, n.unit = m.unit → m.world.units.toList <+: n.world.units.toList → P m → P n)
include hP

theorem bind {x : Eval α} {k : α → Eval β} (hx : Tidy P d x) (hk : ∀ v, Tidy P d (k v)) : Tidy P d (x >>= k) := by
  intro held m hm
  have hm' := hx held m hm
  rw [runFrom_bind]
  rcases hr : x.runFrom held m with ⟨e | v, n⟩ <;> rw [hr] at hm'
  · exact hm'
  · exact hm'.trans (hk v held n (hP hm'.restored.unit hm'.restored.units hm))

theorem inFrame (push : Environment → Environment) (hpush : ∀ env, ∃ frame, (push env).frames = env.frames.push frame)
    (hactive : ∀ env, (push env).active = env.active) {x : Eval α} (hx : Tidy P 1 x) : Tidy P d (inFrame push x) := by
  intro held m hm
  obtain ⟨frame, hframe⟩ := hpush m.env
  exact .inFrame hframe (hactive m.env) (hx held _ (hP (m := m) rfl List.prefix_rfl hm))

theorem inScope {x : Eval α} (hx : Tidy P 1 x) : Tidy P d (inScope x) :=
  inFrame hP Environment.pushScope (fun _ => ⟨_, rfl⟩) (fun _ => rfl) hx

theorem inRecord (r : RecordId) {x : Eval α} (hx : Tidy P 1 x) : Tidy P d (inRecord r x) :=
  inFrame hP (·.pushRecord r) (fun _ => ⟨_, rfl⟩) (fun _ => rfl) hx

theorem composition (hd : d ≤ 1) : Composition fun x _ => Tidy P d x where
  still := still
  bind := bind hP
  holding g _ _ hx := fun held => hx (g held)
  inScope h := inScope hP (h.weaken hd)
  inRecord r _ _ h := inRecord hP r (h.weaken hd)

end

/-- Looking at a node of the unit and going on. -/
theorem nodeIn {unit : UnitId} {a : Arena} {id : NodeId} {k : Node → Eval α}
    (hk : ∀ node, a.get? id = some node → Tidy (Machine.Evaluates unit a) d (k node)) :
    Tidy (Machine.Evaluates unit a) d (Eval.nodeIn unit id >>= k) := by
  intro held m hm
  rw [runFrom_nodeIn_bind, hm.node?]
  cases hn : a.get? id with
  | none => exact .refl m
  | some node => exact hk node hn held m hm

/-! ### Names -/

theorem define (name : String) (v : Value) : Tidy P 1 (define name v) := by
  intro held m _
  refine ⟨Restoring.ofPlain (Simple.define name v).toPlain held m, fun i hi other hname => ?_⟩
  rcases Environment.hasVariable_define.1 hname with hname | ⟨-, hholder⟩
  · exact hname
  · have hlast := Environment.eq_of_innermost hholder
    omega

theorem assign (name : String) (v : Value) : Tidy P d (assign name v) := by
  intro held m _
  refine ⟨Restoring.ofPlain (Simple.assign name v).toPlain held m, fun i _ other hname => ?_⟩
  rw [Eval.assign, runFrom_bind, runFrom_target?] at hname
  dsimp only at hname
  cases ht : m.env.target? m.world.heap name with
  | some holder =>
    rw [ht] at hname
    exact (Environment.hasVariable_put_target ht).1 hname
  | none =>
    rw [ht] at hname
    exact hname

/-! ### Calls -/

theorem withActive (r : RecordId) {x : Eval α} (hx : Tidy (fun _ => True) d x) :
    Tidy (fun _ => True) d (withActive r x) := fun held m _ =>
  (hx held { m with env := m.env.enter r } trivial).between (Restoring.withActive r hx.restoring held m) rfl rfl

theorem inUnit (unit : UnitId) {x : Eval α} (hx : Tidy (fun _ => True) d x) : Tidy (fun _ => True) d (inUnit unit x) :=
  fun held m _ => (hx held { m with unit } trivial).between (Restoring.inUnit unit hx.restoring held m) rfl rfl

theorem inCall (frame : CallFrame) {x : Eval α} (hx : Tidy (fun _ => True) d x) :
    Tidy (fun _ => True) d (inCall frame x) := by
  have hmap : Tidy (fun _ => True) d (mapFault (fun m fault => m.calls.attachBacktrace m.world.heap fault) x) :=
    finishing (fun result m => by split <;> rfl) (fun result m => by split <;> rfl) hx
  have hcall : Tidy (fun _ => True) d (modify (fun m => { m with calls := m.calls.enter frame }) >>= fun _ =>
      afterwards (fun m => { m with calls := m.calls.pop })
        (mapFault (fun m fault => m.calls.attachBacktrace m.world.heap fault) x)) := by
    intro held m _
    have hn := hmap held { m with calls := m.calls.enter frame } trivial
    exact hn.between (Restoring.entering frame hmap.restoring held m) rfl rfl
  refine reading fun m _ => ?_
  split
  · exact bind (fun _ _ _ => trivial) (throw _) fun _ => hcall
  · exact hcall

/-- Calls are tidy where the bodies of functions and classes are. -/
theorem invoking (hd : d ≤ 1) : Invoking fun x _ => Tidy (fun _ => True) d x where
  toComposition := composition (fun _ _ _ => trivial) hd
  raise _ := throw _
  passing hf := ending hf.toEnding
  withActive r _ _ _ := withActive r
  inUnit unit _ _ := inUnit unit
  inCall frame _ _ := inCall frame
  blockItems? unit id := looking (.blockItems? unit id)
  functionParts f := looking (.functionParts f)
  memberParts unit id := looking (.memberParts unit id)
  templateParts t := looking (.templateParts t)

theorem calling : Calling fun x _ => Tidy (fun _ => True) 1 x where
  toInvoking := invoking le_rfl
  define := define
  assign := assign

/-- What is evaluated in a frame of its own gives no name to a frame around it. -/
theorem bodies {eval : Evaluator} (he : ∀ id, Tidy (fun _ => True) 1 (eval id)) :
    Bodies (fun x _ => Tidy (fun _ => True) 0 x) .usual .usual eval eval := by
  have H : Calling fun x _ => Tidy (fun _ => True) 1 x := calling
  have hwithin (unit : UnitId) := @Invoking.within _ H.toInvoking eval eval he unit
  constructor
  · intro _ unit bound id
    refine inScope (fun _ _ _ => trivial) (bind (fun _ _ _ => trivial) (@Calling.defineAll _ H bound) fun _ => ?_)
    exact @Invoking.body _ H.toInvoking (within unit eval) (within unit eval) (hwithin unit) unit id
  · intro unit r ids
    refine inRecord (fun _ _ _ => trivial) r ?_
    exact @Invoking.members _ H.toInvoking (within unit eval) (within unit eval) (hwithin unit) unit r ids

theorem callValue {eval : Evaluator} (he : ∀ id, Tidy (fun _ => True) 1 (eval id)) (callee : Value) (args : List Value)
    (callSite : Option Position) : Tidy (fun _ => True) 0 (Manner.usual.callValue eval callee args callSite) := by
  have H : Invoking fun x _ => Tidy (fun _ => True) 0 x := invoking (Nat.zero_le 1)
  exact @Invoking.callWith _ H .usual .usual (Invoking.usual H) eval eval (bodies he) callee args callSite

/-! ### Nodes -/

section

variable {a : Arena} (ha : a.Orderly) {unit : UnitId} {own eval : Evaluator}
  (hany : ∀ id, Tidy (fun _ => True) 1 (own id))
  (hown : ∀ c, (∀ name, ¬ a.Binds name c) → Tidy (Machine.Evaluates unit a) 0 (own c))

/-- Nothing else changes a machine so that it evaluates another unit. -/
theorem evaluates_later {m n : Machine} (hunit : n.unit = m.unit)
    (hunits : m.world.units.toList <+: n.world.units.toList) (hm : m.Evaluates unit a) : n.Evaluates unit a :=
  ⟨hunit.trans hm.current, getElem?_of_prefix hunits hm.nodes⟩

include ha

/-- The value of a member is no binding. -/
theorem yields_memberParts (m : NodeId) :
    Yields (fun x _ => Tidy (Machine.Evaluates unit a) 0 x) (memberParts unit m)
      fun parts => ∀ name, ¬ a.Binds name parts.2.2 := by
  have H : Composition fun x _ => Tidy (Machine.Evaluates unit a) 0 x := composition evaluates_later (Nat.zero_le 1)
  refine @Composition.yields_memberParts _ H unit a (fun _ _ _ _ => nodeIn) m (fun c => ∀ name, ¬ a.Binds name c) ?_
  intro name mode isFinal value hk
  obtain ⟨position, hn⟩ := Arena.kind?_eq_some.1 hk
  exact ha.not_binds hn (List.mem_singleton_self _)

/-- What there is to know of a node below which no binding stands. -/
theorem known {id : NodeId} {node : Node} (hn : a.get? id = some node) (hb : node.kind.isBinding = false)
    (hu : node.kind.isDeferred = false → node.kind.operands = node.kind.children)
    (ho : ∀ composed members, node.kind ≠ .object none composed members)
    (hl : ∀ start stop body, node.kind ≠ .loop start stop body) :
    Known (fun x _ => Tidy (Machine.Evaluates unit a) 0 x) .usual .usual (fun c => ∀ name, ¬ a.Binds name c) unit
      node.kind := by
  have H : Composition fun x _ => Tidy (Machine.Evaluates unit a) 0 x := composition evaluates_later (Nat.zero_le 1)
  exact {
    children := fun hd c hc => ha.not_binds hn (hu hd ▸ hc)
    defines := by
      intro name mode isFinal value hk
      rw [hk] at hb
      cases hb
    counts := fun start stop body hk => absurd hk (hl start stop body)
    target := by
      intro target value hk
      refine @Composition.yields_assignee _ H unit a (fun _ _ _ _ => nodeIn) target _ (fun _ _ => assign _) ?_
      intro owner property howner
      obtain ⟨position, htarget⟩ := Arena.kind?_eq_some.1 howner
      exact ha.not_binds htarget (List.mem_singleton_self _)
    members := fun composed members hk => absurd hk (ho composed members)
    composed := fun composed members hk => absurd hk (ho composed members)
    fields := fun _ _ _ _ => throw _
    names := fun names _ => @Composition.exportNames _ H .usual .usual (Composition.inside_usual H) names fun _ _ _ _ => throw _
    leaving := fun _ _ _ => throw _ }

include hown

/-- An object literal is filled while it stands open in a frame of its own. -/
theorem object (id : NodeId) (composed : List Label) (members : List NodeId) :
    Tidy (Machine.Evaluates unit a) 0 (Manner.usual.object own unit id false composed members) := by
  have H : Composition fun x _ => Tidy (Machine.Evaluates unit a) 0 x := composition evaluates_later (Nat.zero_le 1)
  have hfill (r : RecordId) : Tidy (Machine.Evaluates unit a) 0 (Manner.usual.construct own unit r [] composed members) :=
    @Composition.construct _ H _ own own hown .usual .usual unit r [] composed members
      (@Composition.compose _ H .usual .usual (Composition.inside_usual H) r composed fun _ _ _ _ => throw _)
      fun m _ => @yields_memberParts a ha unit m
  refine bind evaluates_later (still .newRecord) fun r => bind evaluates_later ?_ fun _ => still (.pure _)
  exact fun held => hfill r (.record r :: held)

include hany

/-- A node that is no binding gives no frame a name, for what it opens stands in a frame of its own. -/
theorem nodeKind {load : ImportRequest → Eval Value} {id : NodeId} {node : Node} (hn : a.get? id = some node)
    (hb : node.kind.isBinding = false)
    (hcall : ∀ function arguments, Tidy (fun _ => True) 0 (Manner.usual.callValue eval function arguments node.position))
    (hload : ∀ request, Tidy (fun _ => True) 0 (load request)) :
    Tidy (Machine.Evaluates unit a) 0 (Manner.usual.nodeKind own eval load unit id node) := by
  have H : Composition fun x _ => Tidy (Machine.Evaluates unit a) 0 x := composition evaluates_later (Nat.zero_le 1)
  have hinner (c : NodeId) : Tidy (Machine.Evaluates unit a) 1 (own c) := (hany c).anywhere
  have hflat (hu : node.kind.isDeferred = false → node.kind.operands = node.kind.children)
      (ho : ∀ composed members, node.kind ≠ .object none composed members)
      (hl : ∀ start stop body, node.kind ≠ .loop start stop body) :=
    @Composition.nodeKind _ H _ own own eval eval .usual .usual hown load load unit id node (known ha hn hb hu ho hl)
      (Composition.inside_usual H) (fun _ _ _ function arguments => (hcall function arguments).anywhere)
      fun _ _ _ _ => (hload _).anywhere
  -- Bindings stand in blocks and in object literals only, and loops bind the name of the counter.
  obtain ⟨kind, position⟩ := node
  cases kind with
  | binding => cases hb
  | block items =>
    have H' : Composition fun x _ => Tidy (Machine.Evaluates unit a) 1 x := composition evaluates_later le_rfl
    exact inScope evaluates_later
      (@Composition.statements _ H' (fun _ => True) own own (fun c _ => hinner c) items fun _ _ => trivial)
  | object params composed members =>
    cases params with
    | none => exact object ha hown id composed members
    | some params => exact hflat (by rintro ⟨⟩) (by rintro _ _ ⟨⟩) (by rintro _ _ _ ⟨⟩)
  | loop start stop body =>
    have hoperand (c : NodeId) (hc : c = start ∨ c = stop) : ∀ name, ¬ a.Binds name c := by
      refine ha.not_binds hn ?_
      rcases hc with rfl | rfl <;> simp [NodeKind.operands, NodeKind.children]
    refine @Composition.loop _ H _ own own hown start stop body (hoperand start (.inl rfl)) (hoperand stop (.inr rfl)) ?_
    exact fun v => inScope evaluates_later (bind evaluates_later (define "idx" v).anywhere fun _ => hinner body)
  | function params body => exact hflat (by rintro ⟨⟩) (by rintro _ _ ⟨⟩) (by rintro _ _ _ ⟨⟩)
  | _ => exact hflat (fun _ => rfl) (by rintro _ _ ⟨⟩) (by rintro _ _ _ ⟨⟩)

end

end Tidy

/-! ### Bindings -/

/-- The place of a fault has nothing to do with how a step ends otherwise. -/
theorem runFrom_locating_iff (position : Option Position) (x : Eval α) (held : List Value) (m : Machine) :
    ((locating position x).runFrom held m).2 = (x.runFrom held m).2 ∧
      ∀ v, ((locating position x).runFrom held m).1 = .ok v ↔ (x.runFrom held m).1 = .ok v := by
  rw [locating, mapFault, runFrom_finishing]
  rcases x.runFrom held m with ⟨⟨fault | stuck⟩ | v, n⟩ <;> simp

section

variable {unit : UnitId} {a : Arena} {own : Evaluator} {name : String} {mode : BindingMode} {value : NodeId}
  {held : List Value} {m : Machine} (hs : Shielding (own value)) (ht : Tidy (Machine.Evaluates unit a) 0 (own value))
  (hm : m.Evaluates unit a)
include hs ht hm

/-- The part of a binding that comes before its value is defined. -/
theorem runFrom_boundValue (name : String) (mode : BindingMode) (held : List Value) :
    let n := (((if mode = .recursive then Eval.define name .nil else pure ()) >>= fun _ => own value).runFrom held m).2
    m.Shields n ∧ ∀ other i, n.env.HasVariable other i ↔
      m.env.HasVariable other i ∨ other = name ∧ m.env.innermost = .locals i ∧ mode = .recursive := by
  by_cases hmode : mode = .recursive
  · subst hmode
    rw [if_pos rfl, runFrom_bind]
    have hdefine : (Eval.define name .nil).runFrom held m = (.ok (), { m with
        env := (m.env.define m.world.heap name .nil).1
        world := { m.world with heap := (m.env.define m.world.heap name .nil).2 } }) := rfl
    rw [hdefine]
    dsimp only
    have hshields := Machine.Shields.put_innermost m name .nil
    have hvalue := hs held { m with
      env := (m.env.define m.world.heap name .nil).1
      world := { m.world with heap := (m.env.define m.world.heap name .nil).2 } }
    have htidy := ht held { m with
      env := (m.env.define m.world.heap name .nil).1
      world := { m.world with heap := (m.env.define m.world.heap name .nil).2 } } ⟨hm.current, hm.nodes⟩
    refine ⟨hshields.trans hvalue, fun other i => ?_⟩
    rw [htidy.hasVariable_iff hvalue.env]
    exact Environment.hasVariable_define.trans (by simp)
  · rw [if_neg hmode, runFrom_bind, runFrom_pure]
    have hvalue := hs held m
    refine ⟨hvalue, fun other i => ?_⟩
    dsimp only
    rw [(ht held m hm).hasVariable_iff hvalue.env]
    simp [hmode]

/-- A binding gives the innermost frame its name when it succeeds, and a recursive one does so anyway. When it succeeds
the name has the value there. -/
theorem runFrom_binding (name : String) (mode : BindingMode) (held : List Value) :
    let run := (Eval.binding own name mode value).runFrom held m
    (∀ other i, run.2.env.HasVariable other i ↔ m.env.HasVariable other i ∨
      other = name ∧ m.env.innermost = .locals i ∧ ((∃ v, run.1 = .ok v) ∨ mode = .recursive)) ∧
    ∀ v, run.1 = .ok v → m.env.Definable m.world.heap →
      run.2.env.slot? run.2.world.heap name m.env.innermost = some (m.env.innermost.keeps v) := by
  obtain ⟨hshields, hnames⟩ := runFrom_boundValue hs ht hm name mode held
  intro run
  have hrun : run = _ := congrArg (fun x : Eval Value => x.runFrom held m) (SparingNodes.binding_eq own name mode value)
  rw [runFrom_bind] at hrun
  rcases hr : ((if mode = .recursive then Eval.define name .nil else pure ()) >>= fun _ => own value).runFrom held m
    with ⟨e | w, n⟩ <;> rw [hr] at hrun hshields hnames
  · -- The value is not there, so nothing has been defined but the name of a recursive binding.
    rw [hrun]
    refine ⟨fun other i => ?_, fun v hv => nomatch hv⟩
    simp [hnames]
  · have hdefined : run = (.ok (w.named name), { n with
        env := (n.env.define n.world.heap name (w.named name)).1
        world := { n.world with heap := (n.env.define n.world.heap name (w.named name)).2 } }) := hrun
    rw [hdefined]
    refine ⟨fun other i => ?_, fun v hv hd => ?_⟩
    · rw [Environment.hasVariable_define, hnames, hshields.env.innermost]
      simp only [Except.ok.injEq, exists_eq', true_or, and_true]
      tauto
    · obtain rfl := Except.ok.inj hv
      rw [← hshields.env.innermost]
      exact Environment.slot?_define (hshields.env.definable hshields.heap hd) name _

end

end Eval

end DynScript
