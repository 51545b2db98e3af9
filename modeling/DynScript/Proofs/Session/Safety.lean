import DynScript.Proofs.Run.Safety
import DynScript.Proofs.Run.Strict
import DynScript.Session.Basic

/-!
# Sessions are safe

What a session compiles and accepts can run, so all that it evaluates is evaluated safely: its entry units,
the modules that these import, and the functions and classes that they hand to each other.
-/

namespace DynScript

namespace Sight

variable {σ : Sight}

/-- The sight after a unit was added. -/
def withUnit (σ : Sight) (a : Arena) : Sight := { σ with units := σ.units.push a }

theorem grows_withUnit (σ : Sight) (a : Arena) : σ.Grows (σ.withUnit a) :=
  ⟨by simp [withUnit], le_rfl, rfl⟩

theorem kind?_withUnit (σ : Sight) (a : Arena) (unit : UnitId) :
    (σ.withUnit a).kind? unit = if unit.index = σ.units.size then a.kind? else σ.kind? unit := by
  funext id
  simp only [withUnit, kind?, Array.getElem?_push]
  split <;> rfl

end Sight

/-- What was found may be printed. -/
theorem World.Sound.emit {σ : Sight} {w : World} (hw : w.Sound σ) (queue : Queue) (path : Path) :
    (w.emit queue path).Sound σ := by
  unfold World.emit
  induction queue.flush.1 generalizing w with
  | nil => exact hw
  | cons d rest ih => exact ih (hw.of_same rfl rfl rfl)

/-- A unit that can run may be added. -/
theorem World.Sound.addUnit {σ : Sight} {w : World} (hw : w.Sound σ) {unit : CompiledUnit}
    (hu : unit.Runnable) : (w.addUnit unit.program.arena).2.Sound (σ.withUnit unit.program.arena) where
  units := by simp [World.addUnit, Sight.withUnit, hw.units]
  runnable {u id kind} hk := by
    rw [Sight.kind?_withUnit] at hk ⊢
    by_cases hi : u.index = σ.units.size
    · rw [if_pos hi] at hk ⊢
      exact hu.arena id kind hk
    · rw [if_neg hi] at hk ⊢
      exact hw.runnable hk
  heap := {
    size := hw.heap.size
    shown := fun hr hg => (hw.heap.shown hr hg).mono (σ.grows_withUnit unit.program.arena).within
    hidden := hw.heap.hidden
    all := fun hg => (hw.heap.all hg).mono (σ.grows_withUnit unit.program.arena).bare }
  cache entry he := (σ.grows_withUnit unit.program.arena).within.shows (hw.cache entry he)

namespace Machine

/-- A machine for a unit that can run is sound before the unit runs. -/
theorem sound_start {σ : Sight} {w : World} (hw : w.Sound σ) {unit : CompiledUnit} (hu : unit.Runnable)
    (maxDepth : Nat) : ∃ σ', σ.Grows σ' ∧ σ'.Holds (w.addUnit unit.program.arena).1 unit.program.body ∧
      (start (w.addUnit unit.program.arena).2 (w.addUnit unit.program.arena).1 unit.directory
        maxDepth).Sound σ' (w.addUnit unit.program.arena).1 := by
  have hgrows := σ.grows_withUnit unit.program.arena
  have hnew : (σ.withUnit unit.program.arena).kind? (w.addUnit unit.program.arena).1 =
      unit.program.arena.kind? := by
    rw [Sight.kind?_withUnit, if_pos (by simp [World.addUnit, hw.units])]
  have hadded := hw.addUnit hu
  obtain ⟨σ', hσ, hsame, hheap, hshown⟩ := hadded.heap.newNamespace
  have henv := Environment.sound_new σ'
  obtain ⟨henv, hheap⟩ := henv.put hheap henv.innermost (.record hshown) Native.namespaceName
  obtain ⟨kind, hbody⟩ := hu.body
  exact ⟨σ', hgrows.trans hσ, ⟨kind, hσ.within.kinds (hnew ▸ hbody)⟩, hadded.withHeap hσ hsame hheap, henv,
    Bindings.sound_empty σ', rfl⟩

end Machine

namespace Eval

namespace Safe

variable {α : Type} {unit : UnitId} {σ : Sight} {Q : Sight → α → Prop}

/-- A step in a new machine is safe when it is so in the machine for the unit. -/
theorem inNewMachine {other : CompiledUnit} (hu : other.Runnable) (maxDepth : Nat) {x : Eval α}
    (hx : ∀ id σ', σ'.Holds id other.program.body → Safe id σ' x Q) :
    Safe unit σ (inNewMachine other maxDepth x) Q := by
  intro held m hm
  obtain ⟨σ₁, h₁, hbody, hstart⟩ := Machine.sound_start hm.world hu maxDepth
  obtain ⟨σ', hσ, hn, hland⟩ := hx _ _ hbody (m.kept held) _ hstart
  exact ⟨σ', h₁.trans hσ, hm.withWorld (h₁.trans hσ) hn.world, hland⟩

theorem modifyWorld {f : World → World} (hf : ∀ w : World, w.Sound σ → (f w).Sound σ) :
    Safe unit σ (Eval.modifyWorld f) Anything :=
  change fun _ hm => ⟨σ, .refl σ, hm.withWorld (.refl σ) (hf _ hm.world), trivial⟩

theorem importFailure (dotted : String) (e : LoadError) : Safe unit σ (Eval.importFailure dotted e) Q :=
  bind (modifyWorld fun _ hw => hw.of_same rfl rfl rfl) fun _ _ _ _ => fail (Cause.sound_of rfl rfl)

/-- What is compiled and accepted can run. -/
theorem compiled (path : Path) (role : Role) :
    Safe unit σ (Eval.compiled path role) fun _ result => ∀ u, result = .ok u → u.Runnable := by
  refine reading fun m hm => ?_
  obtain ⟨c, hc, hrun⟩ := compileFile_runnable m.world.host.disk path role
  rw [hc]
  exact bind (modifyWorld fun w hw => hw.emit c.queue path) fun _ _ _ _ => pure hrun

theorem loadOnce (path : Path) {make : Eval RecordId}
    (hmake : ∀ σ, Safe unit σ make fun σ r => σ.Shows r) :
    Safe unit σ (Eval.loadOnce path make) fun σ r => σ.Shows r := by
  refine reading fun m hm => ?_
  split
  · rename_i record hstatus
    refine pure ?_
    unfold ModuleCache.status at hstatus
    split at hstatus
    · rename_i known hknown
      obtain rfl := ModuleStatus.loaded.inj hstatus
      obtain ⟨before, after, hmem, -⟩ := List.lookup_eq_some_iff.1 hknown
      exact hm.world.cache (path.key, known) (by rw [hmem]; simp)
    · split at hstatus <;> cases hstatus
  · exact fail (Cause.sound_of rfl rfl)
  · refine bind (modifyWorld fun w hw => hw.of_same rfl rfl rfl) fun σ₁ _ _ _ => ?_
    refine bind ((hmake σ₁).finishing fun σ₂ result n _ hn hland => ⟨?_, hland⟩) fun σ₃ _ record hrecord => ?_
    · exact ⟨hn.world.of_same rfl rfl rfl, hn.env, hn.exports, hn.unit⟩
    · refine bind (modifyWorld fun w hw => ⟨hw.units, hw.runnable, hw.heap, fun entry he => ?_⟩)
        fun σ₄ h₄ _ _ => pure (h₄.within.shows hrecord)
      rcases List.mem_cons.1 he with rfl | he
      · exact hrecord
      · exact hw.cache entry (List.mem_of_mem_filter he)

theorem unitStatements {eval : Evaluator} (he : SafeIn unit eval) {items : List NodeId}
    (hi : ∀ i ∈ items, σ.Holds unit i) : Safe unit σ (unitStatements eval items) Anything := by
  induction items generalizing σ with
  | nil => exact pure trivial
  | cons statement rest ih =>
    refine bind (returned (he _ _ (hi _ (by simp)))) fun σ' hσ ended _ => ?_
    split
    · exact pure trivial
    · exact ih fun i hmem => (hi i (by simp [hmem])).later hσ

section

variable {eval : Evaluator} (he : SafeEverywhere eval)
include he

theorem runUnit {bodyId : NodeId} (hb : σ.Holds unit bodyId) :
    Safe unit σ (runUnit eval bodyId) fun σ exports => exports.Sound σ := by
  refine reading fun m hm => ?_
  rw [hm.unit]
  have htop : Safe unit σ (topLevel bodyId) fun σ items => ∀ i ∈ items, σ.Holds unit i := by
    refine reading fun m hm => ?_
    rw [hm.unit]
    refine bind (blockItems? hb) fun σ' hσ items hi => pure fun i hmem => ?_
    cases items with
    | some items => exact hi items rfl i hmem
    | none =>
      obtain rfl := List.mem_singleton.1 hmem
      exact hb.later hσ
  refine bind htop fun σ₁ _ items hi => ?_
  refine bind (unitStatements (fun σ id h => within (he unit) h) hi) fun σ₂ _ _ _ => ?_
  exact change fun n hn => ⟨σ₂, .refl σ₂, ⟨hn.world, hn.env, Bindings.sound_empty σ₂, hn.unit⟩, hn.exports⟩

theorem invokeMain : Safe unit σ (invokeMain eval) Anything := by
  refine bind (lookup? mainName) fun σ₁ _ value hv => ?_
  split
  · rename_i f
    have hf : f.Sound σ₁ := by cases hv _ rfl; assumption
    refine bind (functionParts hf) fun σ₂ h₂ parts _ => ?_
    dsimp only
    split
    · exact bind (callValue he (.function (hf.later h₂)) (by simp) none) fun _ _ _ _ => pure trivial
    · exact pure trivial
  · exact pure trivial

theorem moduleRecord (settings : Settings) (path : Path) (dotted : String) :
    Safe unit σ (moduleRecord settings eval path dotted) fun σ r => σ.Shows r := by
  refine bind (compiled path .module) fun σ₁ _ result hrun => ?_
  cases result with
  | error e => exact importFailure dotted e
  | ok other =>
    have hrunnable := hrun other rfl
    refine bind (attempt (inNewMachine hrunnable _ fun id σ' hb => runUnit he hb)) fun σ₂ _ result hr => ?_
    cases result with
    | ok exports => exact adding fun h hh => hh.ofEntries fun e hmem => hr e.2 (List.mem_map.2 ⟨e, hmem, rfl⟩)
    | error fault =>
      dsimp only
      split
      · exact throw hr
      · exact importFailure dotted _

theorem ofSession (settings : Settings) (roots : Option SearchRoots) (request : ImportRequest) :
    Safe unit σ (Loader.ofSession settings roots eval request) Sounds := by
  refine reading fun m hm => bind (Q := Anything) (ofExcept ?_) fun σ₁ _ path _ => ?_
  · unfold Disk.canonicalModule
    split
    · trivial
    · exact Cause.sound_of rfl rfl
    · exact Cause.sound_of rfl rfl
  · refine bind (loadOnce path fun σ => moduleRecord he settings path request.dotted) fun _ _ r hr => ?_
    exact pure (.record hr)

end

theorem strictly {x : Eval α} (id : NodeId) (hx : Safe unit σ x Q) : Safe unit σ (strictly id x) Q := by
  refine hx.finishing fun σ' result m hσ hm hland => ?_
  rcases result with ⟨fault | stuck⟩ | a
  · have hcause : fault.cause.isRuledOut = false := hland.1
    simp only [hcause]
    exact ⟨hm, hland⟩
  · exact ⟨hm, hland⟩
  · exact ⟨hm, hland⟩

/-- In a session all nodes are evaluated safely, even strictly. -/
theorem strictWithin (settings : Settings) (roots : Option SearchRoots) (fuel : Nat) :
    SafeEverywhere (strictWithin (.ofSession settings roots) fuel) := by
  induction fuel with
  | zero => exact fun unit σ id _ held m hm => ⟨σ, .refl σ, hm, rfl⟩
  | succ fuel ih =>
    intro unit σ id hid
    have hstep : SafeEverywhere (Eval.nodeStep (.ofSession settings roots) (Eval.strictWithin _ fuel)) :=
      nodeStep ih fun _ _ _ => ofSession ih settings roots _
    exact strictly id (hstep unit σ id hid)

end Safe

end Eval

namespace Eval

/-- In sessions an evaluation is safe, and it does what evaluation does unless it meets a defect. -/
structure SafelyAgrees (evaluation : Loader → Evaluator) (fuel : Nat) : Prop where
  /-- It is safe. -/
  safe : ∀ settings roots, SafeEverywhere (evaluation (.ofSession settings roots))
  /-- It does what evaluation does. -/
  agrees : ∀ (imports : Imports) id, Agrees (evalWithin imports.loader fuel id) (evaluation imports.loader id)

theorem SafelyAgrees.strictly (fuel : Nat) : SafelyAgrees (strictWithin · fuel) fuel where
  safe settings roots := Safe.strictWithin settings roots fuel
  agrees imports id := Agrees.strictWithin imports fuel id

section

variable {α : Type} {p : Machine → Prop} (hp : ∀ {σ unit m}, Machine.Sound σ unit m → p m)
include hp

/-- What holds of sound machines may be watched. -/
theorem Safe.watching {unit : UnitId} {σ : Sight} {Q : Sight → α → Prop} {x : Eval α} (id : NodeId)
    (hx : Safe unit σ x Q) : Safe unit σ (Eval.watching p id x) Q := by
  intro held m hm
  obtain ⟨σ', hσ, hn, hland⟩ := hx held m hm
  rw [runFrom_watching id (hp hm) (hp hn)]
  exact ⟨σ', hσ, hn, hland⟩

theorem SafelyAgrees.watched (fuel : Nat) : SafelyAgrees (watchedWithin p · fuel) fuel where
  safe settings roots := by
    induction fuel with
    | zero => exact fun unit σ id _ held m hm => ⟨σ, .refl σ, hm, rfl⟩
    | succ fuel ih =>
      intro unit σ id hid
      have hstep : SafeEverywhere (nodeStep (.ofSession settings roots) (watchedWithin p _ fuel)) :=
        Safe.nodeStep ih fun _ _ _ => Safe.ofSession ih settings roots _
      exact Safe.watching hp id (hstep unit σ id hid)
  agrees imports id :=
    Agrees.congruence.watchedWithin (fun _ _ => .refl _) (fun _ _ => .refl _) (fun id _ _ h => h.watching id)
      imports fuel id

end

end Eval

/-! ## Sessions -/

namespace Session

/-- Something that happens in a session. -/
inductive Operation where
  /-- An entry unit is compiled and run. -/
  | run (path : Path)
  /-- A file is checked. -/
  | check (path : Path) (role : Role)
  /-- A module is loaded. -/
  | load (request : ImportRequest)
  /-- The files are changed from outside. -/
  | edit (disk : Disk)

/-- What comes of an operation. -/
inductive Outcome where
  /-- How an entry unit ended. -/
  | ran (result : Except LoadError RunStatus)
  /-- Whether a file was accepted. -/
  | checked (result : Except LoadError Unit)
  /-- The record of a module. -/
  | loaded (result : Except Fault Value)
  /-- The files have been changed. -/
  | edited

/-- Carry out an operation. A failure is reported. -/
def perform (s : Session) (evaluation : Loader → Evaluator) : Operation → Except Stuck (Outcome × Session)
  | .run path => do
    match ← s.runEntryBy evaluation path with
    | (.error e, s) => return (.ran (.error e), s.report e)
    | (.ok status, s) => return (.ran (.ok status), s)
  | .check path role => do
    match ← s.check path role with
    | (.error e, s) => return (.checked (.error e), s.report e)
    | (.ok (), s) => return (.checked (.ok ()), s)
  | .load request => do
    let (result, s) ← s.loadBy evaluation request
    return (.loaded result, s)
  | .edit disk =>
    return (.edited, { s with world := { s.world with host := { s.world.host with disk := disk } } })

/-- Carry out operations one after the other. -/
def performAll (s : Session) (evaluation : Loader → Evaluator) :
    List Operation → Except Stuck (List Outcome × Session)
  | [] => return ([], s)
  | operation :: rest => do
    let (outcome, s) ← s.perform evaluation operation
    let (outcomes, s) ← s.performAll evaluation rest
    return (outcome :: outcomes, s)

/-- All that a session holds is sound, and its units can run. -/
def Sound (s : Session) : Prop := ∃ σ, s.world.Sound σ

/-- An operation leads to a sound session, or it runs out of fuel. -/
def Lands {α : Type} : Except Stuck (α × Session) → Prop
  | .ok result => result.2.Sound
  | .error stuck => stuck = .outOfFuel

/-- An operation lands, and another one does the same. -/
def Safe {α : Type} (e e' : Except Stuck (α × Session)) : Prop := Lands e ∧ e = e'

namespace Safe

variable {α β : Type}

theorem pure {a : α} {s : Session} (hs : s.Sound) : Safe (Pure.pure (a, s)) (Pure.pure (a, s)) := ⟨hs, rfl⟩

theorem bind {e e' : Except Stuck (α × Session)} {k k' : α × Session → Except Stuck (β × Session)}
    (he : Safe e e') (hk : ∀ result, e = .ok result → result.2.Sound → Safe (k result) (k' result)) :
    Safe (e >>= k) (e' >>= k') := by
  obtain ⟨hland, rfl⟩ := he
  cases e with
  | ok result => exact hk result rfl hland
  | error stuck => exact ⟨hland, rfl⟩

end Safe

/-- At its beginning a session holds nothing. -/
theorem sound_new (settings : Settings) (printer : Printer) (host : Host) :
    (new settings printer host).Sound := by
  refine ⟨⟨#[], 0, []⟩, rfl, fun {u id kind} hk => ?_, ?_, fun e he => ?_⟩
  · simp [Sight.kind?] at hk
  · refine ⟨rfl, fun {r data} hr hg => ?_, fun hm => ?_, fun hg => ?_⟩
    · exact absurd hr.1 (Nat.not_lt_zero _)
    · cases hm
    · cases hg
  · cases he

/-- What changes neither the units nor the records nor the modules leaves a session sound. -/
theorem Sound.of_world {s : Session} (hs : s.Sound) {s' : Session} (hu : s'.world.units = s.world.units)
    (hh : s'.world.heap = s.world.heap) (hc : s'.world.cache.modules = s.world.cache.modules) : s'.Sound := by
  obtain ⟨σ, hw⟩ := hs
  exact ⟨σ, hw.of_same hu hh hc⟩

section

variable {s : Session} (hs : s.Sound)
include hs

/-- A safe step that another one agrees with is the same in a session. -/
theorem outsideUnits_safe {α : Type} {x y : Eval α} (hy : ∀ σ, Eval.Safe ⟨0⟩ σ y Eval.Anything)
    (hxy : Eval.Agrees x y) : Safe (s.outsideUnits y) (s.outsideUnits x) := by
  obtain ⟨σ, hw⟩ := hs
  obtain ⟨σ', hσ, hn, hland⟩ := hy σ [] (Machine.idle s.world)
    ⟨hw, Environment.sound_new σ, Bindings.sound_empty σ, rfl⟩
  have hrun (z : Eval α) : z.runOn (Machine.idle s.world) = z.runFrom [] (Machine.idle s.world) := rfl
  unfold outsideUnits
  rw [hrun, hrun]
  have hsame : y.runFrom [] (Machine.idle s.world) = x.runFrom [] (Machine.idle s.world) := by
    refine (hxy _ _).resolve_right ?_
    rintro ⟨d, hd⟩
    rw [hd] at hland
    cases hland
  rw [← hsame]
  rcases hr : y.runFrom [] (Machine.idle s.world) with ⟨⟨fault | stuck⟩ | a, n⟩ <;> rw [hr] at hn hland
  · exact ⟨⟨σ', hn.world⟩, rfl⟩
  · exact ⟨hland, rfl⟩
  · exact ⟨⟨σ', hn.world⟩, rfl⟩

/-- Compiling always ends, and what is accepted can run. -/
theorem compile_safe (path : Path) (role : Role) :
    ∃ result s', s.compile path role = .ok (result, s') ∧ s'.Sound ∧
      ∀ unit, result = .ok unit → unit.Runnable := by
  obtain ⟨σ, hw⟩ := hs
  obtain ⟨c, hc, hrun⟩ := compileFile_runnable s.world.host.disk path role
  refine ⟨c.result, { s with world := s.world.emit c.queue path }, ?_, ⟨σ, hw.emit ..⟩, hrun⟩
  simp [compile, hc]

variable {evaluation : Loader → Evaluator} {fuel : Nat} (he : Eval.SafelyAgrees evaluation fuel)
include he

theorem loadBy_safe (request : ImportRequest) :
    Safe (s.loadBy evaluation request) (s.loadBy (evalWithin · fuel) request) := by
  have hsafe := he.safe s.settings s.roots
  have hagrees := he.agrees (.session s.settings s.roots)
  refine outsideUnits_safe hs (fun σ => (Eval.Safe.ofSession hsafe s.settings s.roots request).anyway) ?_
  exact Eval.Agrees.congruence.ofSession hagrees s.settings s.roots request

theorem runUnit_safe {unit : CompiledUnit} (hu : unit.Runnable) :
    Safe (s.runUnit evaluation unit) (s.runUnit (evalWithin · fuel) unit) := by
  let roots : Option SearchRoots := some (s.settings.rootsFor unit.directory)
  have hsafe := he.safe s.settings roots
  have hagrees := he.agrees (.session s.settings roots)
  have H : Eval.Congruence fun x y => Eval.Agrees x y := Eval.Agrees.congruence
  have hroots : Sound { s with roots := roots } := hs
  unfold runUnit
  refine Safe.bind (outsideUnits_safe hroots (fun σ => ?_) ?_) fun result _ hs₁ => ?_
  · refine .bind (.modifyWorld fun w hw => hw.of_same rfl rfl rfl) fun _ _ _ _ => ?_
    refine .inNewMachine hu _ fun id σ' hb => .bind (.runUnit hsafe hb) fun _ _ _ _ => ?_
    exact .bind (.invokeMain hsafe) fun _ _ _ _ => .pure trivial
  · refine H.bind (Eval.Agrees.refl _) fun _ => H.inNewMachine unit _ ?_
    exact H.bind (H.runUnit hagrees _) fun _ => H.bind (H.invokeMain hagrees) fun _ => H.plain (.pure _)
  · obtain ⟨result, s₁⟩ := result
    have hs₂ : Sound { s₁ with world := { s₁.world with cache := s₁.world.cache.stop unit.path } } :=
      Sound.of_world hs₁ rfl rfl rfl
    dsimp only
    split
    · exact .pure hs₂
    · split <;> exact .pure hs₂

theorem runEntryBy_safe (path : Path) :
    Safe (s.runEntryBy evaluation path) (s.runEntryBy (evalWithin · fuel) path) := by
  unfold runEntryBy
  split
  · exact .pure hs
  · rename_i path _
    obtain ⟨result, s', hcompile, hs', hrun⟩ := compile_safe hs path .entry
    rw [hcompile]
    cases result with
    | error e => exact .pure hs'
    | ok unit => exact runUnit_safe hs' he (hrun unit rfl)

omit he in
theorem report_sound (e : LoadError) : (s.report e).Sound := hs.of_world rfl rfl rfl

theorem perform_safe (operation : Operation) :
    Safe (s.perform evaluation operation) (s.perform (evalWithin · fuel) operation) := by
  cases operation with
  | run path =>
    refine (runEntryBy_safe hs he path).bind fun result _ hs' => ?_
    obtain ⟨result, s'⟩ := result
    cases result with
    | error e => exact .pure (report_sound hs' e)
    | ok status => exact .pure hs'
  | check path role =>
    obtain ⟨result, s', hcompile, hs', -⟩ := compile_safe hs path role
    unfold perform check
    simp only [hcompile]
    cases result with
    | error e => exact .pure (report_sound hs' e)
    | ok unit => exact .pure hs'
  | load request => exact (loadBy_safe hs he request).bind fun _ _ hs' => .pure hs'
  | edit disk => exact .pure (hs.of_world rfl rfl rfl)

theorem performAllBy_safe (operations : List Operation) :
    Safe (s.performAll evaluation operations) (s.performAll (evalWithin · fuel) operations) := by
  induction operations generalizing s with
  | nil => exact .pure hs
  | cons operation rest ih =>
    exact (perform_safe hs he operation).bind fun _ _ hs₁ => (ih hs₁).bind fun _ _ hs₂ => .pure hs₂

omit he in
theorem performAll_safe (fuel : Nat) (operations : List Operation) :
    Safe (s.performAll (Eval.strictWithin · fuel) operations) (s.performAll (evalWithin · fuel) operations) :=
  performAllBy_safe hs (.strictly fuel) operations

end

/-- What holds of sound machines holds whenever a session evaluates something. -/
theorem performAll_watched {p : Machine → Prop} (hp : ∀ {σ unit m}, Machine.Sound σ unit m → p m)
    (settings : Settings) (printer : Printer) (host : Host) (fuel : Nat) (operations : List Operation) :
    (new settings printer host).performAll (Eval.watchedWithin p · fuel) operations =
      (new settings printer host).performAll (evalWithin · fuel) operations :=
  (performAllBy_safe (sound_new settings printer host) (.watched hp fuel) operations).2

end Session

/-- Analysing a parsed program never meets a defect. However a session goes on from its beginning, with
whatever files, settings and operations, it never meets one either: no number of a node is looked up in
another unit than the one that it comes from, and wherever the node of a member, a function or a class is
looked up it is one. Nor does the evaluation of any node end in a fault that analysis rules out, for strict
evaluation makes no difference. -/
theorem accepted_units_run_safely :
    (∀ (p : Parsed) role queue, ∃ analysed, analyse p.program role queue = .ok analysed) ∧
      ∀ settings printer host fuel operations,
        let start := Session.new settings printer host
        (∀ d, start.performAll (evalWithin · fuel) operations ≠ .error (.defect d)) ∧
          start.performAll (Eval.strictWithin · fuel) operations =
            start.performAll (evalWithin · fuel) operations := by
  refine ⟨fun p role queue => ?_, fun settings printer host fuel operations => ?_⟩
  · obtain ⟨analysed, h, -⟩ := p.analyse role queue
    exact ⟨analysed, h⟩
  · obtain ⟨hland, heq⟩ := Session.performAll_safe (Session.sound_new settings printer host) fuel operations
    refine ⟨fun d hd => ?_, heq⟩
    rw [heq, hd] at hland
    cases hland

end DynScript
