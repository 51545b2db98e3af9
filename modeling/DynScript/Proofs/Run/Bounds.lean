import DynScript.Proofs.Run.Balance
import DynScript.Proofs.Run.Invariants
import DynScript.Proofs.Run.Termination

/-!
# Programs that fit under a bound

How many calls may be in progress is looked at only where a call is refused, and nothing that a unit does goes on after
a refusal. So a unit that is run under two bounds does the same under both up to the first call that the lower one
refuses (`Eval.Roomy`). What has been printed by then is printed under the higher one, too, because nothing that was
printed is ever taken back (`Eval.Growing`).
-/

namespace DynScript

namespace Eval

variable {α β : Type}

/-! ## What was printed stays -/

/-- Whatever a step does, what was printed before stays. -/
def Growing (x : Eval α) : Prop := ∀ held (m : Machine), m.world.printer.GrowsTo (x.runFrom held m).2.world.printer

namespace Growing

theorem ofPlain {x : Eval α} (hx : x.Plain) : Growing x := fun held m => (hx.keeps held m).printer

theorem looking {x : Eval α} (hx : Looks x) : Growing x := fun held m => by rw [hx held m]

theorem bind {x : Eval α} {k : α → Eval β} (hx : Growing x) (hk : ∀ a, Growing (k a)) : Growing (x >>= k) := by
  intro held m
  have hn := hx held m
  rw [runFrom_bind]
  rcases hr : x.runFrom held m with ⟨e | a, n⟩ <;> rw [hr] at hn
  · exact hn
  · exact hn.trans (hk a held n)

theorem finishing {f : Except Interruption α → Machine → Except Interruption β × Machine} {x : Eval α}
    (hf : ∀ result (m : Machine), (f result m).2.world.printer = m.world.printer) (hx : Growing x) :
    Growing (finishing x f) := by
  intro held m
  rw [runFrom_finishing, hf]
  exact hx held m

theorem changing {f : Machine → Machine} (hf : ∀ m, (f m).world.printer = m.world.printer) :
    Growing (modify f : Eval PUnit) := by
  intro held m
  rw [runFrom_modify, hf]

/-- A step between an opening and a closing change that print nothing. -/
theorem between {f g : Machine → Machine} {x : Eval α} (hf : ∀ m, (f m).world.printer = m.world.printer)
    (hg : ∀ m, (g m).world.printer = m.world.printer) (hx : Growing x) :
    Growing (modify f >>= fun _ => afterwards g x) :=
  (changing hf).bind fun _ => hx.finishing fun _ m => hg m

theorem inFrame {x : Eval α} (push : Environment → Environment) (hx : Growing x) : Growing (inFrame push x) :=
  (looking .get).bind fun _ => hx.between (fun _ => rfl) fun _ => rfl

theorem inCall {x : Eval α} (frame : CallFrame) (hx : Growing x) : Growing (inCall frame x) := by
  have hmap : Growing (mapFault (fun m fault => m.calls.attachBacktrace m.world.heap fault) x) :=
    hx.finishing fun result m => by split <;> rfl
  have hcall := hmap.between (f := fun m => { m with calls := m.calls.enter frame })
    (g := fun m => { m with calls := m.calls.pop }) (fun _ => rfl) fun _ => rfl
  refine (looking .get).bind fun m => ?_
  split
  · exact (ofPlain (.fail _)).bind fun _ => hcall
  · exact hcall

theorem loadOnce {x : Eval RecordId} (path : Path) (hx : Growing x) : Growing (loadOnce path x) := by
  refine (looking .get).bind fun m => ?_
  split
  · exact ofPlain (.pure _)
  · exact ofPlain (.fail _)
  · refine bind (changing fun _ => rfl) fun _ => bind ?_ fun record => ?_
    · exact hx.finishing fun _ _ => rfl
    · exact bind (changing fun _ => rfl) fun _ => ofPlain (.pure _)

/-- All of evaluation is put together so that what was printed stays. -/
theorem congruence : Congruence fun x _ => Growing x where
  plain := ofPlain
  bind := bind
  ending hf hx := hx.finishing fun result m => by rw [hf.world]
  holding g _ _ hx := fun held m => hx (g held) m
  inScope := inFrame _
  inRecord _ _ _ := inFrame _
  withActive _ _ _ _ hx := hx.between (fun _ => rfl) fun _ => rfl
  inUnit _ _ _ hx := (looking .get).bind fun _ => hx.between (fun _ => rfl) fun _ => rfl
  inCall frame _ _ := inCall frame
  blockItems? unit id := looking (.blockItems? unit id)
  functionParts f := looking (.functionParts f)
  memberParts unit id := looking (.memberParts unit id)
  templateParts t := looking (.templateParts t)
  inNewMachine unit maxDepth _ _ hx := fun held m => hx (m.kept held)
    (Machine.start (m.world.addUnit unit.program.arena).2 (m.world.addUnit unit.program.arena).1 unit.directory maxDepth)
  loadFile file _ _ hx := (ofPlain (.located file)).bind fun path => loadOnce path (hx path)

end Growing

/-! ## Steps that no bound makes a difference to -/

/-- Another bound on the calls makes no difference. -/
def Unbounded (x : Eval α) : Prop := ∀ held (m : Machine) maxDepth,
  x.runFrom held (m.withMaxDepth maxDepth) = ((x.runFrom held m).1, (x.runFrom held m).2.withMaxDepth maxDepth)

namespace Unbounded

theorem ofPlain {x : Eval α} (hx : x.Plain) : Unbounded x := hx.unbounded

theorem changing {f : Machine → Machine} (hf : ∀ m maxDepth, f (m.withMaxDepth maxDepth) = (f m).withMaxDepth maxDepth) :
    Unbounded (modify f : Eval PUnit) := by
  intro held m maxDepth
  rw [runFrom_modify, hf]
  rfl

theorem bind {x : Eval α} {k : α → Eval β} (hx : Unbounded x) (hk : ∀ a, Unbounded (k a)) : Unbounded (x >>= k) := by
  intro held m maxDepth
  rw [runFrom_bind, runFrom_bind, hx]
  rcases x.runFrom held m with ⟨e | a, n⟩
  · rfl
  · exact hk a held n maxDepth

theorem reading {k : Machine → Eval α} (hk : ∀ m, Unbounded (k m))
    (hb : ∀ m maxDepth, k (m.withMaxDepth maxDepth) = k m := by exact fun _ _ => rfl) : Unbounded (get >>= k) := by
  intro held m maxDepth
  have hm := hk m held m maxDepth
  rw [← hb] at hm
  simp only [runFrom_bind, runFrom_get]
  rw [hm, hb]

theorem finishing {f : Except Interruption α → Machine → Except Interruption β × Machine} {x : Eval α}
    (hf : ∀ result (m : Machine) maxDepth,
      f result (m.withMaxDepth maxDepth) = ((f result m).1, (f result m).2.withMaxDepth maxDepth))
    (hx : Unbounded x) : Unbounded (finishing x f) := by
  intro held m maxDepth
  rw [runFrom_finishing, hx, hf]
  rfl

theorem nodeIn (unit : UnitId) (id : NodeId) : Unbounded (nodeIn unit id) := by
  refine reading fun m => ?_
  split
  · exact ofPlain (.pure _)
  · exact ofPlain (.defect _)

theorem nodeOf (unit : UnitId) (id : NodeId) : Unbounded (nodeOf unit id) :=
  bind (ofPlain (.requireUnit unit id)) fun _ => nodeIn unit id

/-- A machine of its own has a bound of its own. -/
theorem inNewMachine (unit : CompiledUnit) (maxDepth : Nat) (x : Eval α) : Unbounded (inNewMachine unit maxDepth x) :=
  fun _ _ _ => rfl

theorem loadOnce {x : Eval RecordId} (path : Path) (hx : Unbounded x) : Unbounded (loadOnce path x) := by
  refine reading fun m => ?_
  split
  · exact ofPlain (.pure _)
  · exact ofPlain (.fail _)
  · refine bind (changing fun _ _ => rfl) fun _ => bind ?_ fun record => ?_
    · exact hx.finishing fun _ _ _ => rfl
    · exact bind (changing fun _ _ => rfl) fun _ => ofPlain (.pure _)

theorem moduleRecord (settings : Settings) (eval : Evaluator) (path : Path) (dotted : String) :
    Unbounded (moduleRecord settings eval path dotted) := by
  refine bind (ofPlain (Still.compiled ..).toPlain) fun result => ?_
  cases result with
  | error e => exact ofPlain (Still.importFailure ..).toPlain
  | ok unit =>
    refine bind ((inNewMachine unit _ _).finishing Ending.attempt.unbounded) fun result => ?_
    cases result with
    | ok exports => exact ofPlain (Still.ofEntries _).toPlain
    | error fault =>
      dsimp only
      split
      · exact ofPlain (.throw _)
      · exact ofPlain (Still.importFailure ..).toPlain

/-- An import is served alike under every bound: modules have bounds of their own. -/
theorem loader (imports : Imports) (eval : Evaluator) (request : ImportRequest) :
    Unbounded (imports.loader eval request) := by
  cases imports with
  | unserved => exact ofPlain (.fail _)
  | session settings roots =>
    show Unbounded (Loader.ofSession settings roots eval request)
    rw [ofSession_eq]
    refine bind (bind (ofPlain (.located _)) fun path => ?_) fun _ => ofPlain (.pure _)
    exact loadOnce path (moduleRecord settings eval path _)

end Unbounded

/-! ## Steps that may be given more room -/

/-- A step ends because there are as many calls as there may be. -/
def Exhausted (result : Except Interruption α) : Prop :=
  ∃ fault limit, result = .error (.fault fault) ∧ fault.cause = .stackExhausted limit

/-- Whether a step was stopped by the bound. -/
def isExhausted : Except Interruption α → Bool
  | .error (.fault ⟨.stackExhausted _, _, _⟩) => true
  | _ => false

theorem isExhausted_iff {result : Except Interruption α} : isExhausted result ↔ Exhausted result := by
  unfold isExhausted
  constructor
  · intro h
    split at h
    · exact ⟨_, _, rfl, rfl⟩
    · cases h
  · rintro ⟨⟨cause, position, backtrace⟩, limit, rfl, rfl⟩
    rfl

instance (result : Except Interruption α) : Decidable (Exhausted result) := decidable_of_iff _ isExhausted_iff

/-- From a machine a step does the same under another bound, unless there are too few calls for it; all that it has
printed by then is printed under the other bound, too. -/
def RoomyAt (x : Eval α) (held : List Value) (m : Machine) (maxDepth : Nat) : Prop :=
  x.runFrom held (m.withMaxDepth maxDepth) = ((x.runFrom held m).1, (x.runFrom held m).2.withMaxDepth maxDepth) ∨
    Exhausted (x.runFrom held m).1 ∧
      (x.runFrom held m).2.world.printer.GrowsTo (x.runFrom held (m.withMaxDepth maxDepth)).2.world.printer

/-- A step may be given more room. -/
structure Roomy (x : Eval α) : Prop where
  /-- What is opened is closed. -/
  restoring : Restoring x
  /-- What was printed stays. -/
  growing : Growing x
  /-- There may be more calls. -/
  raised : ∀ held (m : Machine) maxDepth, m.calls.maxDepth ≤ maxDepth → RoomyAt x held m maxDepth

namespace Roomy

theorem unbounded {x : Eval α} (hr : Restoring x) (hg : Growing x) (hx : Unbounded x) : Roomy x :=
  ⟨hr, hg, fun held m maxDepth _ => .inl (hx held m maxDepth)⟩

theorem ofPlain {x : Eval α} (hx : x.Plain) : Roomy x := unbounded (.ofPlain hx) (.ofPlain hx) (.ofPlain hx)

theorem bind {x : Eval α} {k : α → Eval β} (hx : Roomy x) (hk : ∀ a, Roomy (k a)) : Roomy (x >>= k) where
  restoring := hx.restoring.bind fun a => (hk a).restoring
  growing := hx.growing.bind fun a => (hk a).growing
  raised held m maxDepth hle := by
    unfold RoomyAt
    rw [runFrom_bind, runFrom_bind]
    have hcalls := (hx.restoring held m).calls
    rcases hx.raised held m maxDepth hle with hsame | ⟨hend, hprinted⟩
    · rw [hsame]
      rcases hr : x.runFrom held m with ⟨e | a, n⟩ <;> rw [hr] at hcalls
      · exact .inl rfl
      · exact (hk a).raised held n maxDepth (by rwa [hcalls])
    · obtain ⟨fault, limit, hfault, hcause⟩ := hend
      rcases hr : x.runFrom held m with ⟨r, n⟩
      rw [hr] at hfault hprinted
      obtain rfl : r = _ := hfault
      refine .inr ⟨⟨fault, limit, rfl, hcause⟩, ?_⟩
      rcases hr' : x.runFrom held (m.withMaxDepth maxDepth) with ⟨e | a, n'⟩ <;> rw [hr'] at hprinted
      · exact hprinted
      · exact hprinted.trans ((hk a).growing held n')

/-- Looking at the end of a step, when a refusal gets through. -/
theorem finishing {f : Except Interruption α → Machine → Except Interruption β × Machine} {x : Eval α} (hf : Passing f)
    (hx : Roomy x) : Roomy (finishing x f) where
  restoring := hx.restoring.finishing hf.restored
  growing := hx.growing.finishing fun result m => by rw [hf.world]
  raised held m maxDepth hle := by
    simp only [RoomyAt, runFrom_finishing, hf.world]
    rcases hx.raised held m maxDepth hle with hsame | ⟨⟨fault, limit, hfault, hcause⟩, hprinted⟩
    · exact .inl (by rw [hsame]; exact hf.unbounded ..)
    · obtain ⟨fault', hpasses, hcause'⟩ := hf.passes fault (x.runFrom held m).2 (by rw [hcause]; exact nofun)
      exact .inr ⟨⟨fault', limit, by rw [hfault, hpasses], hcause'.trans hcause⟩, hprinted⟩

/-- A step between an opening and a closing change which both have nothing to do with the bound. -/
theorem between {f g : Machine → Machine} {x : Eval α} {held : List Value} {m : Machine} {maxDepth : Nat} (hx : Roomy x)
    (hle : (f m).calls.maxDepth ≤ maxDepth)
    (hf : f (m.withMaxDepth maxDepth) = (f m).withMaxDepth maxDepth := by exact rfl)
    (hg : ∀ n, g (n.withMaxDepth maxDepth) = (g n).withMaxDepth maxDepth := by exact fun _ => rfl)
    (hw : ∀ n, (g n).world.printer = n.world.printer := by exact fun _ => rfl) :
    RoomyAt (modify f >>= fun _ => afterwards g x) held m maxDepth := by
  have hy (m : Machine) : (modify f >>= fun _ => afterwards g x : Eval α).runFrom held m =
    ((x.runFrom held (f m)).1, g (x.runFrom held (f m)).2) := rfl
  simp only [RoomyAt, hy, hf, hw]
  rcases hx.raised held (f m) maxDepth hle with hsame | hend
  · exact .inl (by rw [hsame, hg])
  · exact .inr hend

theorem inFrame {x : Eval α} {push : Environment → Environment} (hx : Roomy x)
    (hdepth : ∀ env, (push env).depth = env.depth + 1) (hactive : ∀ env, (push env).active = env.active) :
    Roomy (inFrame push x) where
  restoring := hx.restoring.inFrame hdepth hactive
  growing := hx.growing.inFrame push
  raised _ m _ := between (f := fun n => { n with env := push n.env })
    (g := fun n => { n with env := n.env.truncate m.env.depth }) hx

theorem withActive {x : Eval α} (r : RecordId) (hx : Roomy x) : Roomy (withActive r x) where
  restoring := hx.restoring.withActive r
  growing := hx.growing.between (fun _ => rfl) fun _ => rfl
  raised _ _ _ := between (f := fun n => { n with env := n.env.enter r }) (g := fun n => { n with env := n.env.leave }) hx

theorem inUnit {x : Eval α} (unit : UnitId) (hx : Roomy x) : Roomy (inUnit unit x) where
  restoring := hx.restoring.inUnit unit
  growing := Growing.bind (.looking .get) fun _ => hx.growing.between (fun _ => rfl) fun _ => rfl
  raised _ m _ := between (f := fun n => { n with unit := unit }) (g := fun n => { n with unit := m.unit }) hx

/-- The one place where the bound is looked at. -/
theorem inCall {x : Eval α} (frame : CallFrame) (hx : Roomy x) : Roomy (inCall frame x) where
  restoring := hx.restoring.inCall frame
  growing := hx.growing.inCall frame
  raised held m maxDepth hle := by
    have hgrows := hx.growing.inCall frame held (m.withMaxDepth maxDepth)
    have hmap : Roomy (mapFault (fun m fault => m.calls.attachBacktrace m.world.heap fault) x) := by
      refine hx.finishing (.mapFault (fun _ _ _ _ => rfl) fun m fault => ?_)
      unfold CallStack.attachBacktrace
      split <;> rfl
    by_cases hfull : m.calls.maxDepth ≤ m.calls.depth
    · right
      show Exhausted ((Eval.inCall frame x).runFrom held m).1 ∧ _
      have hm : m.calls.refusal? = some (.stackExhausted m.calls.maxDepth) := if_pos hfull
      rw [runFrom_inCall_refused hm]
      exact ⟨⟨_, m.calls.maxDepth, rfl, rfl⟩, hgrows⟩
    · have hm : m.calls.refusal? = none := if_neg hfull
      have hmore : (m.withMaxDepth maxDepth).calls.refusal? = none := if_neg fun h => hfull (hle.trans h)
      unfold RoomyAt
      rw [runFrom_inCall_entered hm, runFrom_inCall_entered hmore]
      exact between (f := fun m => { m with calls := m.calls.enter frame })
        (g := fun m => { m with calls := m.calls.pop }) hmap hle

theorem looking {x : Eval α} (hr : Restoring x) (hx : Looks x) (hu : Unbounded x) : Roomy x :=
  unbounded hr (.looking hx) hu

/-- All that a machine does is put together so that there may be more calls. -/
theorem calling : Calling fun x _ => Roomy x where
  still hx := ofPlain hx.toPlain
  define name value := ofPlain (Simple.define name value).toPlain
  assign name value := ofPlain (Simple.assign name value).toPlain
  raise _ := ofPlain (.throw _)
  bind := bind
  passing hf hx := hx.finishing hf
  holding g _ _ hx := ⟨fun held m => hx.restoring (g held) m, fun held m => hx.growing (g held) m,
    fun held m => hx.raised (g held) m⟩
  inScope hx := hx.inFrame Environment.depth_pushScope fun _ => rfl
  inRecord r _ _ hx := hx.inFrame (fun env => env.depth_pushRecord r) fun _ => rfl
  withActive r _ _ _ := withActive r
  inUnit unit _ _ := inUnit unit
  inCall frame _ _ := inCall frame
  blockItems? unit id := looking (Restoring.congruence.blockItems? unit id) (.blockItems? unit id) <|
    .bind (.nodeOf unit id) fun node => by split <;> exact .ofPlain (.pure _)
  functionParts f := looking (Restoring.congruence.functionParts f) (.functionParts f) <|
    .bind (.nodeIn f.unit f.node) fun node => by split <;> first | exact .ofPlain (.pure _) | exact .ofPlain (.defect _)
  memberParts unit id := looking (Restoring.congruence.memberParts unit id) (.memberParts unit id) <|
    .bind (.nodeOf unit id) fun node => by split <;> first | exact .ofPlain (.pure _) | exact .ofPlain (.defect _)
  templateParts t := looking (Restoring.congruence.templateParts t) (.templateParts t) <|
    .bind (.nodeIn t.unit t.node) fun node => by split <;> first | exact .ofPlain (.pure _) | exact .ofPlain (.defect _)

/-- Imports are served alike, whatever room there is. -/
theorem loader {eval : Evaluator} (he : ∀ id, Roomy (eval id)) (imports : Imports) (request : ImportRequest) :
    Roomy (imports.loader eval request) :=
  unbounded (@Loading.loader _ Restoring.congruence.toLoading eval eval (fun id => (he id).restoring) imports request)
    (@Loading.loader _ Growing.congruence.toLoading eval eval (fun id => (he id).growing) imports request)
    (.loader imports eval request)

theorem nodeIn (unit : UnitId) (id : NodeId) : Roomy (nodeIn unit id) :=
  looking (Restoring.nodeIn unit id) (.nodeIn unit id) (.nodeIn unit id)

theorem assignee (unit : UnitId) (id : NodeId) : Roomy (assignee unit id) :=
  looking (Restoring.assignee unit id) (.assignee unit id) <|
    .bind (.nodeOf unit id) fun node => by split <;> first | exact .ofPlain (.pure _) | exact .ofPlain (.fail _)

/-- However deep evaluation goes, under a higher bound it does the same, or it is stopped by the lower one. -/
theorem evalWithin (imports : Imports) (fuel : Nat) (id : NodeId) : Roomy (evalWithin imports.loader fuel id) := by
  induction fuel generalizing id with
  | zero => exact ofPlain (.throw _)
  | succ fuel ih =>
    exact @Calling.nodeStep _ calling (DynScript.evalWithin imports.loader fuel) (DynScript.evalWithin imports.loader fuel)
      ih imports.loader imports.loader (loader ih imports) nodeIn assignee id

theorem runAs (imports : Imports) (fuel : Nat) (role : Role) (bodyId : NodeId) :
    Roomy (runAs role (DynScript.evalWithin imports.loader fuel) bodyId) :=
  @Calling.runAs _ calling (DynScript.evalWithin imports.loader fuel) (DynScript.evalWithin imports.loader fuel)
    (evalWithin imports fuel) role bodyId

end Roomy

/-- A unit that comes to an end does so with every larger amount of fuel. -/
theorem Finishes.runAs_eq {imports : Imports} {role : Role} {bodyId : NodeId} {held : List Value} {m : Machine}
    {result : Except Interruption (Bindings × Option Value) × Machine}
    (h : Finishes imports (runAs role · bodyId) held m result) :
    ∃ fuel, ∀ more, (runAs role (evalWithin imports.loader (fuel + more)) bodyId).runFrom held m = result := by
  obtain ⟨hne, fuel, hrun⟩ := h
  refine ⟨fuel, fun more => ?_⟩
  have H : Calling fun x y => Follows Eq (#[], #[]) x y := (Follows.congruence coupling_eq).toCalling
  have hfollows := H.runAs (follows_more_fuel imports fuel more _) role bodyId
  rw [hfollows.runFrom_eq (by rw [hrun]; exact hne), hrun]

end Eval

/-- A program is run under two bounds on nested calls, its statements first and then its `main`. If the lower bound does
not stop it then it ends in the same way under the higher one: with the same exports, the same result of `main` or the
same fault, in the same machine, so that the same has been printed. If the lower bound stops it and it comes to an end
under the higher one, then what it has printed goes on from what it had printed when it was stopped. -/
theorem raising_the_bound_changes_no_program_that_fits (imports : Imports) (program : Program) (role : Role)
    (world : World) (directory : Path) (held : List Value) (maxDepth more : Nat) :
    let ends (maxDepth : Nat) := Eval.Finishes imports (Eval.runAs role · program.body) held
      (program.machine world directory maxDepth)
    (∀ result m, ends maxDepth (result, m) → ¬ Eval.Exhausted result →
      ends (maxDepth + more) (result, m.withMaxDepth (maxDepth + more))) ∧
    ∀ result m result' m', ends maxDepth (result, m) → Eval.Exhausted result →
      ends (maxDepth + more) (result', m') →
        ∃ text, m'.world.printer.output = m.world.printer.output ++ text := by
  intro ends
  have hroomy (fuel : Nat) := (Eval.Roomy.runAs imports fuel role program.body).raised held
    (program.machine world directory maxDepth) (maxDepth + more) (Nat.le_add_right ..)
  refine ⟨fun result m hends hfits => ?_, fun result m result' m' hends hstopped hends' => ?_⟩
  · obtain ⟨hne, fuel, hrun⟩ := hends
    rcases hroomy fuel with hsame | ⟨hstopped, -⟩
    · exact ⟨hne, fuel, hsame.trans (by rw [hrun])⟩
    · rw [hrun] at hstopped
      exact absurd hstopped hfits
  · obtain ⟨fuel, hrun⟩ := hends.runAs_eq
    obtain ⟨fuel', hrun'⟩ := hends'.runAs_eq
    have hrun'' := hrun' fuel
    rw [Nat.add_comm] at hrun''
    rcases hroomy (fuel + fuel') with hsame | ⟨-, hprinted⟩
    · have hend := hrun''.symm.trans hsame
      rw [hrun] at hend
      exact ⟨"", by rw [(Prod.mk.inj hend).2]; exact (String.append_empty).symm⟩
    · rw [hrun] at hprinted
      have hsame : (program.machine world directory maxDepth).withMaxDepth (maxDepth + more) =
        program.machine world directory (maxDepth + more) := rfl
      rw [hsame, hrun''] at hprinted
      exact hprinted.output

/-- A call inside a call, with room for one of them, for two and for five. -/
theorem raising_the_bound_for_a_call_in_a_call :
    ∃ p : Parsed, p.source = "(fun() \x7b print \"b\"; (fun() \x7b print \"c\"; \x7d)(); \x7d)();" ∧
      let ends (maxDepth : Nat) := Eval.Finishes .unserved (Eval.runAs .module · p.program.body) []
        (p.program.machine (.new .empty .empty) ⟨"."⟩ maxDepth)
      ∃ stopped m result n, ends 1 (stopped, m) ∧ Eval.Exhausted stopped ∧ ends (1 + 1) (result, n) ∧
        ¬ Eval.Exhausted result ∧ (∃ text, n.world.printer.output = m.world.printer.output ++ text) ∧
        ends (2 + 3) (result, n.withMaxDepth (2 + 3)) := by
  have hsource : (parseSource "(fun() \x7b print \"b\"; (fun() \x7b print \"c\"; \x7d)(); \x7d)();").toOption.any fun program =>
      let run (maxDepth : Nat) := (Eval.runAs .module (evalWithin Loader.none 30) program.body).runFrom []
        (program.machine (.new .empty .empty) ⟨"."⟩ maxDepth)
      Eval.Exhausted (run 1).1 ∧ (run 2).1.toOption.isSome := by decide +kernel
  obtain ⟨program, hparse, htest⟩ := exists_of_any hsource
  obtain ⟨hstopped, hfits⟩ := of_decide_eq_true htest
  refine ⟨⟨_, program, hparse⟩, rfl, ?_⟩
  have h (maxDepth more : Nat) := raising_the_bound_changes_no_program_that_fits .unserved program .module
    (.new .empty .empty) ⟨"."⟩ [] maxDepth more
  rcases hone : (Eval.runAs .module (evalWithin Loader.none 30) program.body).runFrom []
    (program.machine (.new .empty .empty) ⟨"."⟩ 1) with ⟨stopped, m⟩
  rcases htwo : (Eval.runAs .module (evalWithin Loader.none 30) program.body).runFrom []
    (program.machine (.new .empty .empty) ⟨"."⟩ 2) with ⟨result, n⟩
  simp only [hone] at hstopped
  simp only [htwo] at hfits
  obtain ⟨value, rfl⟩ : ∃ value, result = .ok value := by
    cases result with
    | ok value => exact ⟨value, rfl⟩
    | error => cases hfits
  have hfits : ¬ Eval.Exhausted (Except.ok value : Except Interruption (Bindings × Option Value)) := by
    rintro ⟨_, _, ⟨⟩, -⟩
  have hends : stopped ≠ .error (.stuck .outOfFuel) := by
    rintro rfl
    obtain ⟨_, _, ⟨⟩, -⟩ := hstopped
  exact ⟨stopped, m, .ok value, n, ⟨hends, 30, hone⟩, hstopped, ⟨by simp, 30, htwo⟩, hfits,
    (h 1 1).2 stopped m (.ok value) n ⟨hends, 30, hone⟩ hstopped ⟨by simp, 30, htwo⟩,
    (h 2 3).1 (.ok value) n ⟨by simp, 30, htwo⟩ hfits⟩

end DynScript
