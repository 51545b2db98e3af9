import DynScript.Proofs.Run.Bodies
import DynScript.Proofs.Run.Depth

/-!
# Telling of the calls in progress

A fault gets its backtrace when it leaves a call, from the calls that the machine then holds. Here evaluation is handed
the calls in progress instead, a list that is longer by one frame in the body of a called function and the same
everywhere else. A fault tells of this list as soon as it leaves the innermost node that was being evaluated, and what
it tells is never changed.

`Eval.Tells` relates evaluation to evaluation that tells: they do the same, but for what faults have not told yet. No
such fault leaves the body of a function, so on calls they do exactly the same.
-/

namespace DynScript

/-- The evaluation of nodes amid calls in progress, the innermost first. -/
abbrev Teller : Type := List CallFrame → Evaluator

namespace Fault

/-- A fault amid calls in progress tells of them, with the records as they are, unless it has told already. -/
def told (inProgress : List CallFrame) (heap : Heap) (fault : Fault) : Fault :=
  if inProgress.isEmpty || fault.backtrace.isSome || fault.isSignal then fault
  else fault.withBacktrace ⟨inProgress.map fun frame => frame.toBacktrace heap⟩

/-- Nobody waits for what this fault tells: it is a signal or has told. -/
def HasTold (fault : Fault) : Prop := fault.isSignal = true ∨ fault.backtrace.isSome

/-- If a fault tells of calls then of one at least, and of no more than there may be. -/
def Limited (maxDepth : Nat) (fault : Fault) : Prop :=
  fault.isSignal = true ∨ ∀ b, fault.backtrace = some b → 1 ≤ b.size ∧ b.size ≤ maxDepth

end Fault

namespace Eval

variable {α β : Type}

/-! ## Evaluation that tells -/

/-- Faults that leave a step tell of the calls in progress. -/
def telling (inProgress : List CallFrame) (x : Eval α) : Eval α :=
  mapFault (fun m fault => fault.told inProgress m.world.heap) x

/-- Make a step as a call, and let its faults be. -/
def entering (frame : CallFrame) (x : Eval α) : Eval α := do
  if let some cause := (← get).calls.refusal? then fail cause
  modify fun m => { m with calls := m.calls.enter frame }
  afterwards (fun m => { m with calls := m.calls.pop }) x

end Eval

/-- The usual manner amid calls in progress: in the body of a called function there is one more of them, and the faults
that leave the call are let be. -/
def Manner.telling (eval : Teller) (inProgress : List CallFrame) : Manner :=
  { usual with
    inCall := Eval.entering
    inside := fun _ frame => eval (frame :: inProgress) }

namespace Eval

/-- The value of a node, given the evaluation of the nodes further down. No call is in progress where a module
begins to run. -/
def tellStep (load : Loader) (eval : Teller) (inProgress : List CallFrame) (id : NodeId) : Eval Value :=
  telling inProgress ((Manner.telling eval inProgress).nodeStep (fun _ => load (eval [])) (eval inProgress) id)

/-- The value of a node, when steps nest no deeper than a bound. -/
def tellingWithin (load : Loader) : Nat → Teller
  | 0 => fun _ _ => throw (.stuck .outOfFuel)
  | fuel + 1 => tellStep load (tellingWithin load fuel)

end Eval

/-! ## Faults that tell -/

namespace Fault

variable {inProgress : List CallFrame} {heap : Heap} {fault : Fault}

theorem told_of_hasTold (h : fault.HasTold) : fault.told inProgress heap = fault := by
  rcases h with h | h <;> simp [told, h]

@[simp] theorem cause_told : (fault.told inProgress heap).cause = fault.cause := by
  unfold told
  split <;> rfl

/-- Amid calls every fault tells. -/
theorem hasTold_told (h : inProgress ≠ []) : (fault.told inProgress heap).HasTold := by
  unfold told
  split
  · rename_i hcond
    simpa [HasTold, h, or_comm] using hcond
  · exact .inr rfl

@[simp] theorem told_told : (fault.told inProgress heap).told inProgress heap = fault.told inProgress heap := by
  cases inProgress with
  | nil => rfl
  | cons frame rest => exact told_of_hasTold (hasTold_told nofun)

/-- Where a fault was and how it was reached are told independently. -/
theorem leaving_told (node : Node) :
    (fault.told inProgress heap).leaving node = (fault.leaving node).told inProgress heap := by
  unfold told leaving locatedAt withBacktrace isSignal
  split_ifs <;> simp_all

theorem limited_of_none {maxDepth : Nat} (h : fault.backtrace = none) : fault.Limited maxDepth :=
  .inr fun b hb => by
    rw [h] at hb
    cases hb

theorem Limited.told {maxDepth : Nat} (h : fault.Limited maxDepth) (hdepth : inProgress.length ≤ maxDepth) :
    (fault.told inProgress heap).Limited maxDepth := by
  unfold Fault.told
  split
  · exact h
  · rename_i hcond
    refine .inr fun b hb => ?_
    obtain rfl := Option.some.inj hb
    simp only [Backtrace.size, List.length_map]
    refine ⟨?_, hdepth⟩
    rw [Nat.one_le_iff_ne_zero, Ne, List.length_eq_zero_iff]
    rintro rfl
    simp at hcond

theorem Limited.leaving {maxDepth : Nat} (h : fault.Limited maxDepth) (node : Node) :
    (fault.leaving node).Limited maxDepth := by
  unfold Fault.leaving
  split <;> exact h

end Fault

/-- These are the calls in progress, the innermost first, and there are no more of them than there may be. -/
structure Machine.Amid (inProgress : List CallFrame) (m : Machine) : Prop where
  /-- The calls. -/
  frames : m.calls.frames.toList = inProgress.reverse
  /-- There are no more than there may be. -/
  bounded : m.calls.Bounded

namespace Machine.Amid

variable {inProgress : List CallFrame} {m n : Machine}

theorem of_calls (h : m.Amid inProgress) (hcalls : n.calls = m.calls) : n.Amid inProgress :=
  ⟨hcalls ▸ h.frames, hcalls ▸ h.bounded⟩

theorem length_le (h : m.Amid inProgress) : inProgress.length ≤ m.calls.maxDepth := by
  have hsize : m.calls.frames.size = inProgress.length := by
    rw [← Array.length_toList, h.frames, List.length_reverse]
  exact hsize ▸ h.bounded

theorem enter (h : m.Amid inProgress) (hcalls : m.calls.refusal? = none) (frame : CallFrame) :
    Amid (frame :: inProgress) { m with calls := m.calls.enter frame } := by
  refine ⟨?_, CallStack.bounded_enter hcalls frame⟩
  simp [CallStack.enter, h.frames]

/-- What the calls of the machine tell is what is told amid them. -/
theorem attachBacktrace (h : m.Amid inProgress) (heap : Heap) (fault : Fault) :
    m.calls.attachBacktrace heap fault = fault.told inProgress heap := by
  have hempty : m.calls.isEmpty = inProgress.isEmpty := by
    rw [CallStack.isEmpty, ← Array.isEmpty_toList, h.frames, List.isEmpty_reverse]
  have hcapture : m.calls.capture heap = ⟨inProgress.map fun frame => frame.toBacktrace heap⟩ := by
    rw [CallStack.capture, h.frames, List.map_reverse, List.reverse_reverse]
  rw [CallStack.attachBacktrace, Fault.told, hempty, hcapture]

end Machine.Amid

namespace Eval

variable {inProgress : List CallFrame}

/-! ## Evaluating and telling -/

/-- Two steps have ended alike, but for what their faults have not told yet. -/
inductive EndsAlike (inProgress : List CallFrame) :
    Except Interruption α × Machine → Except Interruption α × Machine → Prop
  /-- They have ended in the same way. -/
  | same (r : Except Interruption α × Machine) : EndsAlike inProgress r r
  /-- Their faults are the same when they have told. -/
  | fault {f f' : Fault} {n : Machine} (h : f.told inProgress n.world.heap = f'.told inProgress n.world.heap) :
      EndsAlike inProgress (.error (.fault f), n) (.error (.fault f'), n)

/-- How a step has ended that began amid calls in progress, and how another one has. -/
structure TellsFrom (inProgress : List CallFrame) (m : Machine) (r r' : Except Interruption α × Machine) : Prop where
  /-- The same calls are in progress. -/
  calls : r.2.calls = m.calls
  /-- No fault tells of more calls than there may be. -/
  limited : ∀ fault, r.1 = .error (.fault fault) → fault.Limited m.calls.maxDepth
  /-- They have ended alike. -/
  alike : EndsAlike inProgress r r'

/-- Amid calls in progress the second step does what the first one does, but its faults may tell earlier. -/
def Tells (inProgress : List CallFrame) (x y : Eval α) : Prop :=
  ∀ held (m : Machine), m.Amid inProgress → TellsFrom inProgress m (x.runFrom held m) (y.runFrom held m)

/-- Amid no calls it does just the same. -/
theorem Tells.runFrom_eq {x y : Eval α} (h : Tells [] x y) (held : List Value) {m : Machine} (hm : m.Amid []) :
    y.runFrom held m = x.runFrom held m := by
  obtain ⟨-, -, halike⟩ := h held m hm
  generalize x.runFrom held m = r at halike
  generalize y.runFrom held m = r' at halike
  cases halike with
  | same r => rfl
  | @fault f f' n h =>
    obtain rfl : f = f' := h
    rfl

namespace TellsFrom

theorem ofOk {a : α} {m n : Machine} (hcalls : n.calls = m.calls) : TellsFrom inProgress m (.ok a, n) (.ok a, n) :=
  ⟨hcalls, fun _ hf => (by cases hf), .same _⟩

theorem ofStuck {stuck : Stuck} {m n : Machine} (hcalls : n.calls = m.calls) :
    TellsFrom inProgress m ((.error (.stuck stuck), n) : Except Interruption α × Machine) (.error (.stuck stuck), n) :=
  ⟨hcalls, fun _ hf => (by cases hf), .same _⟩

theorem after {m : Machine} {r r' : Except Interruption α × Machine} (h : TellsFrom inProgress m r r')
    (change : Machine → Machine) {m' : Machine} (hcalls : (change r.2).calls = m'.calls)
    (hdepth : m.calls.maxDepth = m'.calls.maxDepth) (hworld : ∀ n, (change n).world = n.world) :
    TellsFrom inProgress m' (r.1, change r.2) (r'.1, change r'.2) := by
  obtain ⟨-, hlimited, halike⟩ := h
  refine ⟨hcalls, fun fault hf => hdepth ▸ hlimited fault hf, ?_⟩
  cases halike with
  | same r => exact .same _
  | fault h => exact .fault (by rwa [hworld])

end TellsFrom

namespace Tells

/-- Steps that leave the calls alone, and whose faults tell of no calls yet. -/
theorem restoring {x : Eval α} (hx : Restoring x)
    (hf : Stops (fun fault => fault.isSignal = true ∨ fault.backtrace = none) x) : Tells inProgress x x :=
  fun held m _ => ⟨(hx held m).calls, fun fault h => (hf held m fault h).elim .inl Fault.limited_of_none, .same _⟩

theorem still {x : Eval α} (hx : x.Still) : Tells inProgress x x :=
  restoring (.ofPlain hx.toPlain) (.simple (fun _ h => .inr h.backtrace) hx.toSimple)

theorem simple {x : Eval α} (hx : x.Simple) : Tells inProgress x x :=
  restoring (.ofPlain hx.toPlain) (.simple (fun _ h => .inr h.backtrace) hx)

theorem failAt (position : Option Position) (cause : Cause) :
    Tells inProgress (failAt position cause : Eval α) (Eval.failAt position cause) := by
  refine restoring (.ofPlain (.throw _)) fun held m fault hf => .inr ?_
  obtain rfl : (Fault.ofCause cause).locatedAt position = fault := by
    cases hf
    rfl
  rfl

theorem bind {x y : Eval α} {k l : α → Eval β} (h : Tells inProgress x y) (hk : ∀ a, Tells inProgress (k a) (l a)) :
    Tells inProgress (x >>= k) (y >>= l) := by
  intro held m hm
  obtain ⟨hcalls, hlimited, halike⟩ := h held m hm
  rw [runFrom_bind, runFrom_bind]
  generalize x.runFrom held m = r at hcalls hlimited halike
  generalize y.runFrom held m = r' at halike
  cases halike with
  | fault h =>
    refine ⟨hcalls, fun fault hf => hlimited fault ?_, .fault h⟩
    obtain rfl := Interruption.fault.inj (Except.error.inj hf)
    rfl
  | same r =>
    rcases r with ⟨e | a, n⟩
    · refine ⟨hcalls, fun fault hf => hlimited fault ?_, .same _⟩
      obtain rfl := Except.error.inj hf
      rfl
    · obtain ⟨hcalls', hlimited', halike'⟩ := hk a held n (hm.of_calls hcalls)
      have hn : n.calls = m.calls := hcalls
      exact ⟨hcalls'.trans hn, hn ▸ hlimited', halike'⟩

theorem holding (g : List Value → List Value) {x y : Eval α} (h : Tells inProgress x y) :
    Tells inProgress (withReader g x) (withReader g y) :=
  fun held => h (g held)

/-- A step between an opening and a closing change, neither of which changes the calls. -/
theorem between {x y : Eval α} (f g : Machine → Machine) (hf : ∀ m, (f m).calls = m.calls)
    (hg : ∀ m, (g m).calls = m.calls) (hworld : ∀ m, (g m).world = m.world) (h : Tells inProgress x y) :
    Tells inProgress (modify f >>= fun _ => afterwards g x) (modify f >>= fun _ => afterwards g y) := by
  intro held m hm
  have hbody := h held (f m) (hm.of_calls (hf m))
  refine hbody.after g ?_ (congrArg _ (hf m)) hworld
  rw [hg, hbody.calls, hf]

theorem inFrame (push : Environment → Environment) {x y : Eval α} (h : Tells inProgress x y) :
    Tells inProgress (inFrame push x) (inFrame push y) :=
  fun held m => h.between (fun m => { m with env := push m.env })
    (fun n => { n with env := n.env.truncate m.env.depth }) (fun _ => rfl) (fun _ => rfl) (fun _ => rfl) held m

theorem inUnit (unit : UnitId) {x y : Eval α} (h : Tells inProgress x y) :
    Tells inProgress (inUnit unit x) (inUnit unit y) :=
  fun held m => h.between (fun m => { m with unit := unit })
    (fun n => { n with unit := m.unit }) (fun _ => rfl) (fun _ => rfl) (fun _ => rfl) held m

theorem asMethodOf (receiver : Option RecordId) {x y : Eval α} (h : Tells inProgress x y) :
    Tells inProgress (asMethodOf receiver x) (asMethodOf receiver y) := by
  cases receiver with
  | none => exact h
  | some r =>
    exact (h.inFrame (·.pushRecord r)).between _ _ (fun _ => rfl) (fun _ => rfl) fun _ => rfl

theorem composition : Composition fun x y => Tells inProgress x y where
  still := still
  bind := bind
  holding := holding
  inScope := inFrame _
  inRecord _ := inFrame _

/-- Looking at the faults of both steps, in a way that has nothing to do with what they tell. -/
theorem locating (node : Node) {x y : Eval α} (h : Tells inProgress x y) :
    Tells inProgress (locating node.position x) (locating node.position y) := by
  intro held m hm
  obtain ⟨hcalls, hlimited, halike⟩ := h held m hm
  simp only [Eval.locating, mapFault, runFrom_finishing]
  generalize x.runFrom held m = r at hcalls hlimited halike
  generalize y.runFrom held m = r' at halike
  have hleaving {f : Fault} {fault : Fault} (hf : f.Limited m.calls.maxDepth)
      (h : (Except.error (.fault (f.leaving node)) : Except Interruption α) = .error (.fault fault)) :
      fault.Limited m.calls.maxDepth := by
    obtain rfl := Interruption.fault.inj (Except.error.inj h)
    exact hf.leaving node
  cases halike with
  | fault h =>
    refine ⟨hcalls, fun fault => hleaving (hlimited _ rfl), .fault ?_⟩
    show (Fault.leaving node _).told _ _ = (Fault.leaving node _).told _ _
    rw [← Fault.leaving_told, ← Fault.leaving_told, h]
  | same r =>
    rcases r with ⟨⟨f | s⟩ | a, n⟩
    · exact ⟨hcalls, fun fault => hleaving (hlimited _ rfl), .same _⟩
    · exact .ofStuck hcalls
    · exact .ofOk hcalls

/-- The second step may tell at once. -/
theorem telling {x y : Eval α} (h : Tells inProgress x y) : Tells inProgress x (telling inProgress y) := by
  intro held m hm
  obtain ⟨hcalls, hlimited, halike⟩ := h held m hm
  refine ⟨hcalls, hlimited, ?_⟩
  simp only [Eval.telling, mapFault, runFrom_finishing]
  generalize x.runFrom held m = r at halike
  generalize y.runFrom held m = r' at halike
  cases halike with
  | fault h => exact .fault (h.trans Fault.told_told.symm)
  | same r =>
    rcases r with ⟨⟨f | s⟩ | a, n⟩
    · exact .fault Fault.told_told.symm
    · exact .same _
    · exact .same _

/-! ### Calls of functions -/

/-- Two steps do the same as a call, if no fault leaves the second one that has not told of the call, for those of the
first one tell of it when they leave the call. -/
theorem runFrom_entering {frame : CallFrame} {x y : Eval α} (h : Tells (frame :: inProgress) x y)
    (hy : Stops Fault.HasTold y) (held : List Value) {m : Machine} (hm : m.Amid inProgress) :
    (entering frame y).runFrom held m = (inCall frame x).runFrom held m := by
  cases hrefusal : m.calls.refusal? with
  | some cause =>
    rw [runFrom_inCall_refused hrefusal, entering, runFrom_bind, runFrom_get]
    dsimp only
    rw [hrefusal]
    rfl
  | none =>
    have hm' := hm.enter hrefusal frame
    obtain ⟨hcalls, -, halike⟩ := h held _ hm'
    have htold := hy held { m with calls := m.calls.enter frame }
    rw [runFrom_inCall_entered hrefusal, entering, runFrom_bind, runFrom_get]
    dsimp only
    rw [hrefusal]
    show (afterwards (fun m => { m with calls := m.calls.pop }) y).runFrom held
      { m with calls := m.calls.enter frame } = _
    simp only [afterwards, mapFault, runFrom_finishing]
    generalize x.runFrom held { m with calls := m.calls.enter frame } = r at hcalls halike
    generalize y.runFrom held { m with calls := m.calls.enter frame } = r' at halike htold
    have hattach (f f' : Fault) (n : Machine) (hn : n.calls = m.calls.enter frame) (hf' : f'.HasTold)
        (h : f.told (frame :: inProgress) n.world.heap = f'.told (frame :: inProgress) n.world.heap) :
        f' = n.calls.attachBacktrace n.world.heap f := by
      rw [(hm'.of_calls hn).attachBacktrace, h, Fault.told_of_hasTold hf']
    cases halike with
    | @fault f f' n h =>
      dsimp only
      rw [← hattach f f' n hcalls (htold f' rfl) h]
    | same r =>
      rcases r with ⟨⟨f | s⟩ | a, n⟩
      · dsimp only
        rw [← hattach f f n hcalls (htold f rfl) rfl]
      · rfl
      · rfl

/-- A call leaves the calls in progress as they were, and its faults tell of no more than there may be. -/
theorem limited_inCall {frame : CallFrame} {x y : Eval α} (h : Tells (frame :: inProgress) x y) (held : List Value)
    {m : Machine} (hm : m.Amid inProgress) :
    ((inCall frame x).runFrom held m).2.calls = m.calls ∧
      ∀ fault, ((inCall frame x).runFrom held m).1 = .error (.fault fault) → fault.Limited m.calls.maxDepth := by
  cases hrefusal : m.calls.refusal? with
  | some cause =>
    rw [runFrom_inCall_refused hrefusal]
    refine ⟨rfl, fun fault hf => Fault.limited_of_none ?_⟩
    obtain rfl := Interruption.fault.inj (Except.error.inj hf)
    rfl
  | none =>
    have hm' := hm.enter hrefusal frame
    obtain ⟨hcalls, hlimited, -⟩ := h held _ hm'
    have hpop {n : Machine} (hn : n.calls = m.calls.enter frame) : n.calls.pop = m.calls := by
      rw [hn]
      simp [CallStack.enter, CallStack.pop]
    rw [runFrom_inCall_entered hrefusal]
    simp only [afterwards, mapFault, runFrom_finishing]
    generalize x.runFrom held { m with calls := m.calls.enter frame } = r at hcalls hlimited
    rcases r with ⟨⟨f | s⟩ | a, n⟩
    · refine ⟨hpop hcalls, fun fault hf => ?_⟩
      obtain rfl := Interruption.fault.inj (Except.error.inj hf)
      show (n.calls.attachBacktrace n.world.heap f).Limited m.calls.maxDepth
      rw [(hm'.of_calls hcalls).attachBacktrace]
      exact (hlimited f rfl).told hm'.length_le
    · exact ⟨hpop hcalls, fun _ hf => by cases hf⟩
    · exact ⟨hpop hcalls, fun _ hf => by cases hf⟩

/-- So the two steps do the same when they are called. -/
theorem inCall {frame : CallFrame} {x y : Eval Value} (h : Tells (frame :: inProgress) x y)
    (hy : Stops Fault.HasTold y) :
    Tells inProgress (catchReturn (inCall frame x)) (catchReturn (entering frame y)) := by
  intro held m hm
  have hsame : (catchReturn (entering frame y)).runFrom held m =
      (catchReturn (Eval.inCall frame x)).runFrom held m := by
    rw [catchReturn, catchReturn, runFrom_finishing, runFrom_finishing, h.runFrom_entering hy held hm]
  obtain ⟨hcalls, hlimited⟩ := h.limited_inCall held hm
  rw [hsame, catchReturn, runFrom_finishing]
  generalize (Eval.inCall frame x).runFrom held m = r at hcalls hlimited
  rcases r with ⟨⟨⟨cause, position, backtrace⟩ | s⟩ | a, n⟩
  · cases cause
    case returning v => exact .ofOk hcalls
    all_goals exact ⟨hcalls, hlimited, .same _⟩
  · exact .ofStuck hcalls
  · exact .ofOk hcalls

/-! ### Calls of values -/

section

variable {eval : Evaluator} {eval' : Teller}

theorem within {own own' : Evaluator} (he : ∀ id, Tells inProgress (own id) (own' id)) (unit : UnitId) (id : NodeId) :
    Tells inProgress (Eval.within unit own id) (Eval.within unit own' id) :=
  bind (simple (.requireUnit ..)) fun _ => he id

theorem looking {x : Eval α} (hx : Restoring x) (hf : Faultless x) : Tells inProgress x x :=
  restoring hx fun held m fault h => (hf held m fault h).elim

theorem functionBody (he : ∀ frame id, Tells (frame :: inProgress) (eval id) (eval' (frame :: inProgress) id))
    (frame : CallFrame) (f : Function) (bound : List (String × Value)) (id : NodeId) :
    Tells (frame :: inProgress)
      (do
        let receiver ← receiverOf f
        Eval.inUnit f.unit <| Eval.asMethodOf receiver <| inScope do
          defineAll bound
          body (Eval.within f.unit eval) f.unit id)
      (do
        let receiver ← receiverOf f
        Eval.inUnit f.unit <| Eval.asMethodOf receiver <| inScope do
          defineAll bound
          body (Eval.within f.unit (eval' (frame :: inProgress))) f.unit id) := by
  refine bind (simple (.receiverOf f)) fun receiver => inUnit _ (asMethodOf _ (inFrame _ ?_))
  refine bind (simple (.defineAll bound)) fun _ => ?_
  refine bind (looking (Restoring.congruence.blockItems? f.unit id) (.blockItems? _ _)) fun found => ?_
  cases found with
  | some items =>
    exact composition.statements (D := fun _ => True) (fun c _ => within (he frame) f.unit c) fun _ _ => trivial
  | none => exact within (he frame) f.unit id

/-- In nodes other than calls the same is done as usual. -/
theorem inside_telling (tell : Teller) : AlikeInside (fun x y => Tells inProgress x y) .usual (.telling tell inProgress) :=
  { composition.inside_usual with }

theorem callFunction (he : ∀ frame id, Tells (frame :: inProgress) (eval id) (eval' (frame :: inProgress) id))
    (ht : ∀ frame id, Stops Fault.HasTold (eval' (frame :: inProgress) id)) (f : Function) (args : List Value)
    (callSite : Option Position) :
    Tells inProgress (Manner.usual.callFunction eval f args callSite)
      ((Manner.telling eval' inProgress).callFunction (eval' inProgress) f args callSite) := by
  refine bind (looking (Restoring.congruence.functionParts f) (.functionParts f)) fun (params, bodyId) => ?_
  refine composition.guarded _ (still (.fail nofun)) fun _ => ?_
  exact inCall (functionBody he _ f _ bodyId) (.functionBody (ht _) f _ bodyId)

theorem instantiate (he : ∀ id, Tells inProgress (eval id) (eval' inProgress id)) (cls : RecordId) (t : Template)
    (args : List Value) (callSite : Option Position) :
    Tells inProgress (Manner.usual.instantiate eval cls t args callSite)
      ((Manner.telling eval' inProgress).instantiate (eval' inProgress) cls t args callSite) := by
  refine bind (looking (Restoring.congruence.templateParts t) (.templateParts t)) fun (params, composed, ids) => ?_
  refine composition.guarded _ (failAt _ _) fun _ => bind (still (.newInstance cls)) fun r => ?_
  refine bind (holding _ (inUnit _ ?_)) fun _ => still (.pure _)
  refine composition.construct (D := fun _ => True) (fun id _ => within he t.unit id) r _
    (composition.compose (inside_telling eval') r fun _ _ _ _ => failAt _ _) fun member _ _ k k' hk => ?_
  exact bind (looking (Restoring.congruence.memberParts t.unit member) (.memberParts _ _)) fun parts => hk parts trivial

theorem callRecord (he : ∀ id, Tells inProgress (eval id) (eval' inProgress id)) (r : RecordId) (args : List Value)
    (callSite : Option Position) :
    Tells inProgress (Manner.usual.callRecord eval r args callSite)
      ((Manner.telling eval' inProgress).callRecord (eval' inProgress) r args callSite) := by
  refine bind (still .heapOf) fun heap => ?_
  split
  · exact instantiate he r _ args callSite
  · refine composition.guarded _ (still (.fail nofun)) fun _ => still ?_
    exact .bind (.shallowClone _) fun _ => .pure _

/-- Values are called alike, if nodes are evaluated alike amid the calls in progress, and amid one more of which all
faults tell. -/
theorem callValue (he : ∀ inProgress id, Tells inProgress (eval id) (eval' inProgress id))
    (ht : ∀ frame inProgress id, Stops Fault.HasTold (eval' (frame :: inProgress) id)) (callee : Value)
    (args : List Value) (callSite : Option Position) :
    Tells inProgress (Manner.usual.callValue eval callee args callSite)
      ((Manner.telling eval' inProgress).callValue (eval' inProgress) callee args callSite) := by
  refine holding _ (holding _ ?_)
  cases callee
  case function f => exact callFunction (fun frame => he _) (fun frame => ht frame _) f args callSite
  case native n => exact still (.callNative n args)
  case record r => exact callRecord (he _) r args callSite
  all_goals exact still (.fail nofun)

end

/-! ### Nodes -/

/-- Whatever there is to know of a node, its steps are the same. -/
theorem known (tell : Teller) (unit : UnitId) (kind : NodeKind) :
    Known (fun x y => Tells inProgress x y) .usual (.telling tell inProgress) (fun _ => True) unit kind where
  children _ _ _ := trivial
  defines name _ _ _ _ v := simple (.define name v)
  counts _ _ _ _ v := simple (.define "idx" v)
  target target _ _ := @fun _ k k' hk => by
    refine bind ?_ fun found => hk found ?_
    · refine restoring (Restoring.assignee unit target) ?_
      refine .bind (fun held m fault h => (Faultless.nodeOf unit target held m fault h).elim) fun node => ?_
      split
      · exact .simple (fun _ h => .inr h.backtrace) (.pure _)
      · exact .simple (fun _ h => .inr h.backtrace) (.pure _)
      · exact .simple (fun _ h => .inr h.backtrace) (.fail nofun)
    · cases found with
      | name name => exact fun v => simple (.assign name v)
      | property owner name => trivial
  members _ _ _ member _ := @fun _ k k' hk =>
    bind (looking (Restoring.congruence.memberParts unit member) (.memberParts _ _)) fun parts => hk parts trivial
  composed _ _ _ r := composition.compose (inside_telling tell) r fun _ _ _ _ => failAt _ _
  fields _ _ _ _ := failAt _ _
  names _ _ := composition.exportNames (inside_telling tell) fun _ _ _ _ => failAt _ _
  leaving _ _ v := failAt none (.returning v)

section

variable {load : Loader} {eval : Evaluator} {eval' : Teller}
  (he : ∀ inProgress id, Tells inProgress (eval id) (eval' inProgress id))
  (ht : ∀ frame inProgress id, Stops Fault.HasTold (eval' (frame :: inProgress) id))
include he ht

theorem nodeKind {load load' : ImportRequest → Eval Value}
    (hload : ∀ request, Tells inProgress (load request) (load' request)) (unit : UnitId) (id : NodeId) (node : Node) :
    Tells inProgress (Manner.usual.nodeKind (Eval.within unit eval) eval load unit id node)
      ((Manner.telling eval' inProgress).nodeKind (Eval.within unit (eval' inProgress)) (eval' inProgress) load' unit id
        node) :=
  composition.nodeKind (fun id _ => within (he inProgress) unit id) (known eval' unit node.kind) (inside_telling eval')
    (fun _ _ _ function arguments => callValue he ht function arguments node.position) fun _ _ _ _ => hload _

/-- A step towards the value of a node, if imports are served alike. -/
theorem nodeStep (hload : ∀ request, Tells inProgress (load eval request) (load (eval' []) request)) (id : NodeId) :
    Tells inProgress (nodeStep load eval id) (tellStep load eval' inProgress id) := by
  rw [← Manner.nodeStep_usual]
  refine telling (composition.reading fun m => ?_)
  refine bind (looking (Restoring.nodeIn m.unit id) (.nodeIn _ _)) fun node => ?_
  exact locating node (nodeKind he ht hload m.unit id node)

end

end Tells

/-- Amid calls, faults have told when they leave a node. -/
theorem Stops.telling (h : inProgress ≠ []) (x : Eval α) : Stops Fault.HasTold (telling inProgress x) := by
  intro held m fault hf
  rw [Eval.telling, mapFault, runFrom_finishing] at hf
  rcases hr : x.runFrom held m with ⟨⟨inner | stuck⟩ | a, n⟩ <;> rw [hr] at hf
  · obtain rfl := Interruption.fault.inj (Except.error.inj hf)
    exact Fault.hasTold_told h
  · cases hf
  · cases hf

theorem Stops.tellingWithin (load : Loader) (fuel : Nat) (frame : CallFrame) (id : NodeId) :
    Stops Fault.HasTold (tellingWithin load fuel (frame :: inProgress) id) := by
  cases fuel with
  | zero => exact fun held m fault hf => by cases hf
  | succ fuel => exact .telling (List.cons_ne_nil frame inProgress) _

end Eval

end DynScript
