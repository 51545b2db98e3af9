import DynScript.Proofs.Session.Loading

/-!
# Every module is evaluated once

A session keeps the record of a module that it has evaluated to completion, and evaluates it never again. In the manner
`Manner.once` a mark is put into the cache as soon as the top level of a module has been evaluated to completion, and
evaluation gets stuck where there is a mark or a record already. This makes no difference: the path of a module gets
its record right after the mark, and while the module is evaluated its path is in progress, so nothing else can get one
for it.
-/

namespace DynScript

namespace ModuleCache

/-- What stands for the record of a module that has been evaluated to completion until there is one. -/
def mark : RecordId := ⟨0⟩

/-- Only the last record that a path gets is kept. -/
theorem insert_stop_insert (c : ModuleCache) (path : Path) (first second : RecordId) :
    ((c.insert path first).stop path).insert path second = (c.stop path).insert path second := by
  simp [insert, stop, List.filter_filter]

end ModuleCache

/-- The usual manner, except that the top level of a module may be evaluated to completion only if its path has neither
a record nor a mark, and it gets a mark then. Otherwise evaluation gets stuck, for a reason that is given. -/
def Manner.once (why : Stuck) : Manner :=
  { usual with
    top := fun path x => do
      let exports ← x
      if ((← get).world.cache.get? path).isSome then throw (.stuck why)
      Eval.modifyWorld fun w => { w with cache := w.cache.insert path ModuleCache.mark }
      return exports }

/-- The machine after a module has been loaded: its path is in progress no longer, and it has a record. -/
def Machine.loaded (m : Machine) (path : Path) (record : RecordId) : Machine :=
  m.withCache fun c => (c.stop path).insert path record

namespace Eval

variable {α : Type}

/-! ## Imports -/

/-- What comes of importing a module by its canonical path, when a step is given that makes its record. -/
inductive Imported (make : Eval RecordId) (path : Path) (held : List Value) (m : Machine) :
    Except Interruption Value × Machine → Prop where
  /-- The module has a record, which comes back, and nothing is evaluated. -/
  | known {record : RecordId} : m.world.cache.get? path = some record →
      Imported make path held m (.ok (.record record), m)
  /-- The unit is in progress and has no record; nothing is evaluated. -/
  | refused : m.world.cache.get? path = none → path.key ∈ m.world.cache.loading →
      Imported make path held m (.error (.fault (.ofCause (.circularImport path.text))), m)
  /-- The module had no record. It is evaluated once and to completion, and now it has one. -/
  | completed {record : RecordId} {n : Machine} : m.world.cache.get? path = none → path.key ∉ m.world.cache.loading →
      make.runFrom held (m.withCache (·.start path)) = (.ok record, n) →
        m.world.Loads (n.loaded path record).world → (n.loaded path record).world.cache.get? path = some record →
          Imported make path held m (.ok (.record record), n.loaded path record)
  /-- The module had no record. It is evaluated once, and this is interrupted; it still has none. -/
  | interrupted {e : Interruption} {n : Machine} : m.world.cache.get? path = none →
      path.key ∉ m.world.cache.loading → make.runFrom held (m.withCache (·.start path)) = (.error e, n) →
        m.world.Loads (n.withCache (·.stop path)).world → (n.withCache (·.stop path)).world.cache.get? path = none →
          Imported make path held m (.error e, n.withCache (·.stop path))

/-- An import of a module that is not in progress and has no record is the only one that evaluates anything. -/
theorem imported {make : Eval RecordId} (hmake : LoadsOnce .empty none make make) (held : List Value) {m : Machine}
    (hm : m.world.Orderly) {file path : Path} (hpath : m.world.host.disk.canonical file = .ok path) :
    Imported make path held m ((loadOnce path make >>= fun record => pure (.record record)).runFrom held m) := by
  rw [runFrom_bind, runFrom_loadOnce]
  cases hstatus : m.world.cache.status path with
  | loaded record => exact .known (ModuleCache.status_eq_loaded hstatus)
  | inProgress =>
    obtain ⟨hnone, hmem⟩ := ModuleCache.status_eq_inProgress hstatus
    exact .refused hnone hmem
  | unknown =>
    obtain ⟨hnone, hfree⟩ := ModuleCache.status_eq_unknown hstatus
    obtain ⟨hloads, -⟩ := hmake held (m.withCache (·.start path)) (hm.start hfree hpath)
    dsimp only
    rcases hr : make.runFrom held (m.withCache (·.start path)) with ⟨e | record, n⟩ <;> rw [hr] at hloads
    · exact .interrupted hnone hfree hr (hloads.stop hfree) (hloads.get?_started hnone)
    · refine .completed hnone hfree hr (hloads.insert hfree hnone record) ?_
      exact (ModuleCache.get?_insert ..).trans (if_pos rfl)

/-- So it is for the imports of a session. -/
theorem imported_ofSession (settings : Settings) (roots : Option SearchRoots) (fuel : Nat)
    (request : ImportRequest) (held : List Value) {m : Machine} (hm : m.world.Orderly) {path : Path}
    (hpath : m.world.host.disk.canonicalModule ((roots.getD (settings.rootsFor request.directory)).moduleFile
      request.root request.path request.directory) = .ok path) :
    let eval := evalWithin (.ofSession settings roots) fuel
    Imported (moduleRecord settings eval path request.dotted) path held m
      ((Loader.ofSession settings roots eval request).runFrom held m) := by
  intro eval
  have H : Congruence fun x y => LoadsOnce .empty none x y := LoadsOnce.congruence
  have heval (id : NodeId) : LoadsOnce .empty none (eval id) (eval id) :=
    H.evalWithin LoadsOnce.nodeIn LoadsOnce.assignee (.session settings roots) fuel id
  have hmake := H.moduleRecord heval settings path request.dotted
  rw [ofSession_eq, loadFile, bind_assoc, runFrom_bind, runFrom_located, hpath]
  unfold Disk.canonicalModule at hpath
  split at hpath
  · rename_i found hfound
    obtain rfl := Except.ok.inj hpath
    exact imported hmake held hm hfound
  · cases hpath
  · cases hpath

/-! ## Marks -/

/-- The same end of a step, with a mark for a path if the step has been made to completion. -/
def marked (path : Path) : Except Interruption α × Machine → Except Interruption α × Machine
  | (.ok a, m) => (.ok a, m.withCache (·.insert path ModuleCache.mark))
  | result => result

theorem runFrom_top_once (why : Stuck) (path : Path) (x : Eval Bindings) (held : List Value) {m : Machine}
    (hnone : (x.runFrom held m).2.world.cache.get? path = none) :
    ((Manner.once why).top path x).runFrom held m = marked path (x.runFrom held m) := by
  show (x >>= _).runFrom held m = _
  rw [runFrom_bind]
  rcases hx : x.runFrom held m with ⟨e | exports, n⟩
  · rfl
  · rw [hx] at hnone
    dsimp only
    rw [runFrom_bind, runFrom_get]
    dsimp only
    rw [hnone]
    rfl

section

variable {settings : Settings} {why : Stuck} {path : Path} {eval eval' : Evaluator}
  (he : ∀ id, LoadsOnce .empty none (eval id) (eval' id))
include he

/-- A module in progress is evaluated as usual, and marked if this comes to an end. -/
theorem runFrom_moduleRecord_once (dotted : String) (held : List Value) {m : Machine} (hm : m.world.Orderly)
    (hmem : path.key ∈ m.world.cache.loading) (hnone : m.world.cache.get? path = none) :
    ((Manner.once why).moduleRecord settings eval' path dotted).runFrom held m =
      marked path ((moduleRecord settings eval path dotted).runFrom held m) := by
  have H : Congruence fun x y => LoadsOnce .empty none x y := LoadsOnce.congruence
  rw [Manner.moduleRecord, moduleRecord, runFrom_bind, runFrom_bind]
  have hkeeps : m.world.Keeps ((compiled path .module).runFrom held m).2.world :=
    (Still.compiled path .module).toPlain.keeps held m
  rcases hc : (compiled path .module).runFrom held m with ⟨e | e | unit, p⟩ <;> rw [hc] at hkeeps
  · rfl
  · rfl
  · have hrun := H.runUnit he unit.program.body
    let start := Machine.start (p.world.addUnit unit.program.arena).2 (p.world.addUnit unit.program.arena).1
      unit.directory settings.maxDepth
    have hstart : m.world.Keeps start.world := hkeeps.trans ⟨rfl, .refl _, .refl _⟩
    obtain ⟨hloads, hsame⟩ := hrun (p.kept held) start (hstart.loads.orderly hm)
    have hfree : ((runUnit eval' unit.program.body).runFrom (p.kept held) start).2.world.cache.get? path = none := by
      rw [hsame (fun _ _ h => nomatch h) fun _ h => nomatch h]
      exact (hstart.loads.trans hloads).pending path hmem hnone
    have hinner : (inNewMachine unit settings.maxDepth ((Manner.once why).top path
        (runUnit eval' unit.program.body))).runFrom held p =
          marked path ((inNewMachine unit settings.maxDepth (runUnit eval unit.program.body)).runFrom held p) := by
      have hnew (x : Eval Bindings) : (inNewMachine unit settings.maxDepth x).runFrom held p =
          ((x.runFrom (p.kept held) start).1, { p with world := (x.runFrom (p.kept held) start).2.world }) := rfl
      rw [hnew, hnew, runFrom_top_once why path _ _ hfree, hsame (fun _ _ h => nomatch h) fun _ h => nomatch h]
      rcases (runUnit eval unit.program.body).runFrom (p.kept held) start with ⟨_ | _, _⟩ <;> rfl
    dsimp only
    rw [runFrom_bind, runFrom_bind, runFrom_attempt, runFrom_attempt, hinner]
    rcases (inNewMachine unit settings.maxDepth (runUnit eval unit.program.body)).runFrom held p
      with ⟨⟨fault | reason⟩ | exports, n⟩
    · dsimp only [marked]
      split <;> rfl
    · rfl
    · rfl

/-- The mark is replaced by the record at once. -/
theorem runFrom_loadOnce_once (dotted : String) {file : Path} (held : List Value) {m : Machine} (hm : m.world.Orderly)
    (hpath : m.world.host.disk.canonical file = .ok path) :
    (loadOnce path ((Manner.once why).moduleRecord settings eval' path dotted)).runFrom held m =
      (loadOnce path (moduleRecord settings eval path dotted)).runFrom held m := by
  rw [runFrom_loadOnce, runFrom_loadOnce]
  cases hstatus : m.world.cache.status path with
  | loaded record => rfl
  | inProgress => rfl
  | unknown =>
    obtain ⟨hnone, hfree⟩ := ModuleCache.status_eq_unknown hstatus
    dsimp only
    rw [runFrom_moduleRecord_once he dotted held (m := m.withCache (·.start path)) (hm.start hfree hpath)
      List.mem_cons_self hnone]
    rcases (moduleRecord settings eval path dotted).runFrom held (m.withCache (·.start path)) with ⟨e | record, n⟩
    · rfl
    · exact congrArg (fun cache => ((.ok record, n.withCache fun _ => cache) : Except Interruption RecordId × Machine))
        (n.world.cache.insert_stop_insert path ModuleCache.mark record)

/-- Modules are loaded as usual when their top levels may be evaluated to completion only once. -/
theorem LoadsOnce.loader_once (roots : Option SearchRoots) (request : ImportRequest) :
    LoadsOnce .empty none (Loader.ofSession settings roots eval request)
      ((Manner.once why).loader settings roots eval' request) := by
  have H : Congruence fun x y => LoadsOnce .empty none x y := LoadsOnce.congruence
  intro held m hm
  refine ⟨(H.ofSession he settings roots request held m hm).1, fun _ _ => ?_⟩
  rw [loader_eq, show (Manner.once why).known = Eval.loadOnce from rfl, ofSession_eq, ← Settings.fileOf, Eval.loadFile,
    runFrom_bind, runFrom_bind, runFrom_bind, runFrom_bind, runFrom_located]
  unfold Disk.canonicalModule
  cases hpath : m.world.host.disk.canonical (settings.fileOf roots request) with
  | ok path =>
    dsimp only [ofExcept, runFrom_pure]
    rw [runFrom_loadOnce_once he request.dotted held hm hpath]
  | error e => cases e <;> rfl

end

end Eval

/-- Nodes are evaluated as usual. -/
theorem Manner.usual_once (why : Stuck) : Eval.Alike (fun x y => Eval.LoadsOnce .empty none x y) usual (once why) := by
  have H : Eval.Congruence fun x y => Eval.LoadsOnce .empty none x y := Eval.LoadsOnce.congruence
  exact { H.usual with }

/-- A session in which modules may be evaluated to completion only once does the same as usual. -/
theorem Session.Conduct.LoadsOnce.once (why : Stuck) (fuel : Nat) :
    (Conduct.ofManner (.once why) fuel).LoadsOnce .empty none fuel := by
  have H : Eval.Congruence fun x y => Eval.LoadsOnce .empty none x y := Eval.LoadsOnce.congruence
  have heval (settings : Settings) (roots : Option SearchRoots) (id : NodeId) :
      Eval.LoadsOnce .empty none (evalWithin (.ofSession settings roots) fuel id)
        ((Manner.once why).evaluator ((Manner.once why).loader settings roots) fuel id) := by
    rw [← Manner.evaluator_usual]
    exact H.evaluatorInManner (Manner.usual_once why) (fun he request => .loader_once he roots request) Eval.LoadsOnce.nodeIn
      Eval.LoadsOnce.assignee fuel id
  exact {
    eval := heval
    load := fun settings roots request => .loader_once (heval settings roots) roots request
    main := fun settings roots => by
      rw [← Manner.invokeMain_usual]
      exact H.invokeMainInManner (heval settings roots) (Manner.usual_once why) }

/-- However a session has gone on from its beginning, between two operations no unit is in progress. Whatever
is done next, at every moment of it the units in progress have different canonical paths, and every record that
a path has is the one it had before and the one it has in the end, so a path keeps its record for ever. The top level of
a module is evaluated to completion only if its path has no record yet and the same has not happened before.

Wherever the units in progress are in order, there are no more of them than canonical paths, and whatever is
evaluated leaves them as they are and keeps all records. An import there evaluates something only if the
module neither has a record nor is in progress. Then it evaluates the module once, and the module has a record
afterwards if this comes to an end, and none otherwise. -/
theorem modules_are_loaded_once (settings : Settings) (printer : Printer) (host : Host) (fuel : Nat)
    (before : List Session.Operation) (outcomes : List Session.Outcome) (s : Session)
    (hs : (Session.new settings printer host).performAll (evalWithin · fuel) before = .ok (outcomes, s)) :
    s.world.cache.loading = [] ∧
      (∀ after,
        s.performAll (Eval.watchedWithin (·.Between s.world.cache none) · fuel) after =
            s.performAll (evalWithin · fuel) after ∧
          (∀ outcomes' s', s.performAll (evalWithin · fuel) after = .ok (outcomes', s') →
            s.world.cache.KeptIn s'.world.cache ∧
              s.performAll (Eval.watchedWithin (·.Between s.world.cache (some s'.world.cache)) · fuel) after =
                .ok (outcomes', s')) ∧
          ∀ why, s.performAllAs (after.map (·, .ofManner (.once why) fuel)) = s.performAll (evalWithin · fuel) after) ∧
      ∀ roots held (m : Machine), m.world.Orderly →
        (∀ known : Finset PathKey,
          (∀ file path, m.world.host.disk.canonical file = .ok path → path.key ∈ known) →
            m.world.cache.loading.length ≤ known.card) ∧
        (∀ id, m.world.Loads ((evalWithin (.ofSession settings roots) fuel id).runFrom held m).2.world) ∧
        ∀ (request : ImportRequest) path,
          m.world.host.disk.canonicalModule ((roots.getD (settings.rootsFor request.directory)).moduleFile
              request.root request.path request.directory) = .ok path →
            let eval := evalWithin (.ofSession settings roots) fuel
            Eval.Imported (Eval.moduleRecord settings eval path request.dotted) path held m
              ((Loader.ofSession settings roots eval request).runFrom held m) := by
  have hidle : s.world.cache.loading = [] := Session.idle_of_performAll rfl hs
  have hwatched (last : Option ModuleCache) (after : List Session.Operation) :=
    Session.LoadsOnce.performAll (.watching s.world.cache last fuel) hidle after
  simp only [Session.performAllAs_evaluating] at hwatched
  refine ⟨hidle, fun after => ⟨?_, fun outcomes' s' he => ?_, fun why => ?_⟩,
    fun roots held m hm => ⟨?_, fun id => ?_, ?_⟩⟩
  · exact (hwatched none after).same (.refl _) fun _ h => nomatch h
  · have hafter := hwatched (some s'.world.cache) after
    refine ⟨(hafter.lands _ _ he).2, ?_⟩
    rw [hafter.same (.refl _) fun d hd => ⟨outcomes', s', he, ?_⟩, he]
    obtain rfl := Option.mem_some.1 hd
    exact .refl _
  · exact (Session.LoadsOnce.performAll (.once why fuel) hidle after).same (fun _ _ h => nomatch h) fun _ h => nomatch h
  · exact fun known hk => hm.length_loading_le known hk
  · exact (Eval.LoadsOnce.watchedWithin .empty none (.session settings roots) fuel id
      held m hm).1
  · exact fun request path hpath => Eval.imported_ofSession settings roots fuel request held hm hpath

/-- A module is loaded from one that fails afterwards and from one in a cycle of imports, and then by itself. It is
evaluated once. -/
theorem modules_are_loaded_once_where_some_fail :
    let disk : Disk := ⟨[(["ok.blu"], .file "print 1; let x = 2; export x;".toUTF8),
      (["bad.blu"], .file "import ok; nil();".toUTF8), (["a.blu"], .file "import b;".toUTF8),
      (["b.blu"], .file "import ok; import a;".toUTF8)], []⟩
    let load (name : String) : Session.Operation := .load ⟨.relative, [name], ⟨"/"⟩⟩
    let start := Session.new .standard .empty ⟨disk, [], .still⟩
    ∃ outcomes s record outcomes', ∃ s' : Session,
      start.performAll (evalWithin · 12) [load "bad", load "a"] = .ok (outcomes, s) ∧ s.world.cache.loading = [] ∧
      s.world.cache.get? ⟨"/ok.blu"⟩ = some record ∧ s.world.cache.get? ⟨"/bad.blu"⟩ = none ∧
      s.world.cache.get? ⟨"/a.blu"⟩ = none ∧ s.world.cache.get? ⟨"/b.blu"⟩ = none ∧
      s.world.printer.output = "1\n" ++
        "error[E6001]: Trying to call non-function value of kind nil in /bad.blu at 1:15\n" ++
        "error[E6012]: Circular import of '/a.blu' in /b.blu at 1:12\n" ++
        "error[E6011]: Failed to import 'b': Circular import of '/a.blu' in /a.blu at 1:1\n" ∧
      s.performAll (evalWithin · 12) [load "ok", load "bad"] = .ok (outcomes', s') ∧
      s'.world.cache.get? ⟨"/ok.blu"⟩ = some record ∧
      ∀ why, s.performAllAs ([load "ok", load "bad"].map (·, .ofManner (.once why) 12)) = .ok (outcomes', s') := by
  intro disk load start
  have hrun : (start.performAll (evalWithin · 12) [load "bad", load "a"]).toOption.any fun r =>
      let cache := r.2.world.cache
      cache.get? ⟨"/ok.blu"⟩ = some ⟨6⟩ && (cache.get? ⟨"/bad.blu"⟩ = none &&
        (cache.get? ⟨"/a.blu"⟩ = none && (cache.get? ⟨"/b.blu"⟩ = none && (r.2.world.printer.output = "1\n" ++
          "error[E6001]: Trying to call non-function value of kind nil in /bad.blu at 1:15\n" ++
          "error[E6012]: Circular import of '/a.blu' in /b.blu at 1:12\n" ++
          "error[E6011]: Failed to import 'b': Circular import of '/a.blu' in /a.blu at 1:1\n" &&
        (r.2.performAll (evalWithin · 12) [load "ok", load "bad"]).toOption.any fun _ => true)))) := by
    decide +kernel
  obtain ⟨⟨outcomes, s⟩, hs, htest⟩ := exists_of_any hrun
  simp only [Bool.and_eq_true, decide_eq_true_eq] at htest
  obtain ⟨hok, hbad, ha, hb, hprinted, hafter⟩ := htest
  obtain ⟨⟨outcomes', s'⟩, hs', -⟩ := exists_of_any hafter
  obtain ⟨hidle, hnext, -⟩ := modules_are_loaded_once .standard .empty ⟨disk, [], .still⟩ 12 [load "bad", load "a"]
    outcomes s hs
  obtain ⟨-, hkept, honce⟩ := hnext [load "ok", load "bad"]
  exact ⟨outcomes, s, ⟨6⟩, outcomes', s', hs, hidle, hok, hbad, ha, hb, hprinted, hs',
    (hkept outcomes' s' hs').1 _ _ hok, fun why => (honce why).trans hs'⟩

end DynScript
