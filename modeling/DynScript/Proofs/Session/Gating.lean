import DynScript.Proofs.Run.Moments
import DynScript.Proofs.Session.Failures
import DynScript.Proofs.Session.Units

/-!
# Only what has been compiled is evaluated

A unit is compiled when its text is a program in which analysis has found no error; warnings do not count, nor does what
was in the queue before. When a unit cannot be compiled, as an entry unit or as a module, all that happens is that lines
are printed: what was found in it and the failure. Whatever is evaluated in a session has been compiled.
-/

namespace DynScript

/-! ## Compiling -/

namespace Queue

theorem count_pushAll (q : Queue) (found : Found) : (q.pushAll found).count .error = q.count .error + found.errors := by
  rw [count, toList_pushAll, List.countP_append, List.countP_map]
  rfl

end Queue

/-- The count of errors that comes with a failure is the number of errors among the diagnostics that were added. -/
theorem Found.countP_toDiagnostic (found : Found) :
    (found.map fun entry => entry.1.toDiagnostic entry.2).countP (·.severity = .error) = found.errors :=
  List.countP_map

/-- How a text is compiled when this is added to a queue. -/
structure Compilation.Gated (path : Path) (source : String) (queue : Queue) (added : List Diagnostic) (c : Compilation) :
    Prop where
  /-- What was in the queue before is there still, and the diagnostics come after it. -/
  queue : c.queue.toList = queue.toList ++ added
  /-- A unit can run if its text is a program and no error is added. -/
  accepted : (∃ unit, c.result = .ok unit) ↔
    (∃ tokens program, lex source = .ok tokens ∧ parse tokens = .ok program) ∧ ∀ d ∈ added, d.severity ≠ .error
  /-- Where there is no program nothing is added. -/
  malformed : ∀ e, parseSource source = .error e → c.result = .error (.malformed path e) ∧ added = []
  /-- Where there is one, the errors that are added are counted. -/
  rejected : ∀ program, parseSource source = .ok program → (∃ d ∈ added, d.severity = .error) →
    c.result = .error (.rejected path (added.countP (·.severity = .error)))

theorem parseSource_eq_ok {source : String} {program : Program} :
    parseSource source = .ok program ↔ ∃ tokens, lex source = .ok tokens ∧ parse tokens = .ok program := by
  unfold parseSource
  cases lex source with
  | error e => simp
  | ok tokens => cases hparse : parse tokens <;> simp [hparse]

/-- Compiling a text adds the same to every queue, and it is decided by this alone. -/
theorem compile_gated (path : Path) (source : String) (role : Role) : ∃ added, ∀ queue, ∃ c,
    compile path source role queue = .ok c ∧ c.Gated path source queue added := by
  cases hparse : parseSource source with
  | error e =>
    refine ⟨[], fun queue => ⟨⟨.error (.malformed path e), queue⟩, by rw [compile, hparse], ?_⟩⟩
    refine ⟨(List.append_nil _).symm, ⟨?_, ?_⟩, fun e' he => ?_, fun program hp => ?_⟩
    · rintro ⟨unit, ⟨⟩⟩
    · rintro ⟨⟨tokens, program, hprogram⟩, -⟩
      rw [parseSource_eq_ok.2 ⟨tokens, hprogram⟩] at hparse
      cases hparse
    · rw [hparse] at he
      obtain rfl := Except.error.inj he
      exact ⟨rfl, rfl⟩
    · rw [hparse] at hp
      cases hp
  | ok program =>
    let p : Parsed := ⟨source, program, hparse⟩
    obtain ⟨settled, found, -, -, -, hpass⟩ := analyse_settles p.laid role
    let added := found.map fun entry => entry.1.toDiagnostic entry.2
    have hfree : found.errors = 0 ↔ ∀ d ∈ added, d.severity ≠ .error := by
      rw [← found.countP_toDiagnostic, List.countP_eq_zero]
      simp [added]
    have hprogram : ∃ tokens program, lex source = .ok tokens ∧ parse tokens = .ok program := by
      obtain ⟨tokens, htokens⟩ := parseSource_eq_ok.1 hparse
      exact ⟨tokens, program, htokens⟩
    have hnot (e : SyntaxError) : parseSource source ≠ .error e := by
      rw [hparse]
      simp
    refine ⟨added, fun queue => ?_⟩
    have hcompile : compile path source role queue =
        if found.errors > 0 then .ok ⟨.error (.rejected path found.errors), queue.pushAll found⟩
        else .ok ⟨.ok ⟨path, source, role, ⟨settled, program.body⟩⟩, queue.pushAll found⟩ := by
      have hanalyse : analyse program role queue =
        .ok ⟨⟨settled, program.body⟩, queue.pushAll found, found.errors⟩ := (hpass queue).1
      simp only [compile, hparse, hanalyse, Analysed.failed, Queue.count_pushAll, Nat.add_sub_cancel_left,
        decide_eq_true_eq]
    by_cases herrors : found.errors > 0
    · rw [if_pos herrors] at hcompile
      refine ⟨_, hcompile, queue.toList_pushAll found, ⟨?_, fun h => ?_⟩, fun e he => absurd he (hnot e),
        fun _ _ _ => ?_⟩
      · rintro ⟨unit, ⟨⟩⟩
      · exact absurd (hfree.2 h.2) (Nat.ne_of_gt herrors)
      · rw [found.countP_toDiagnostic]
    · rw [if_neg herrors] at hcompile
      have hno := hfree.1 (Nat.eq_zero_of_not_pos herrors)
      refine ⟨_, hcompile, queue.toList_pushAll found, ⟨fun _ => ⟨hprogram, hno⟩, fun _ => ⟨_, rfl⟩⟩,
        fun e he => absurd he (hnot e), ?_⟩
      rintro _ _ ⟨d, hd, herror⟩
      exact absurd herror (hno d hd)

/-! ## Failures to compile -/

/-- What is printed for a unit that cannot be compiled: what was found in it and the failure. -/
def Compilation.lines (c : Compilation) (path : Path) (e : LoadError) : List String :=
  c.queue.flush.1.map (·.render path.text) ++ [e.report]

namespace World

/-- Print lines. -/
def printing (w : World) (lines : List String) : World :=
  { w with printer := lines.foldl (fun printer line => printer.println line) w.printer }

theorem foldl_println (lines : List String) (w : World) : lines.foldl World.println w = w.printing lines := by
  induction lines generalizing w with
  | nil => rfl
  | cons line rest ih => exact ih (w.println line)

theorem report_emit (w : World) (c : Compilation) (path : Path) (e : LoadError) :
    (w.emit c.queue path).report e = w.printing (c.lines path e) := by
  rw [← foldl_println, Compilation.lines, List.foldl_append, List.foldl_map]
  rfl

end World

namespace Session

variable (s : Session) (evaluation : Loader → Evaluator)

/-- Only lines are printed. -/
def printing (lines : List String) : Session := { s with world := s.world.printing lines }

theorem compile_of_error {path : Path} {role : Role} {c : Compilation} {e : LoadError}
    (hc : compileFile s.world.host.disk path role = .ok c) (he : c.result = .error e) :
    s.compile path role = .ok (.error e, { s with world := s.world.emit c.queue path }) := by
  rw [Session.compile, hc, ← he]

/-- An entry unit that cannot be compiled is not run. -/
theorem perform_run_uncompiled {path file : Path} {c : Compilation} {e : LoadError}
    (hfile : s.world.host.disk.canonical path = .ok file) (hc : compileFile s.world.host.disk file .entry = .ok c)
    (he : c.result = .error e) :
    s.perform evaluation (.run path) = .ok (.ran (.error e), s.printing (c.lines file e)) := by
  have hentry : s.runEntryBy evaluation path = .ok (.error e, { s with world := s.world.emit c.queue file }) := by
    rw [runEntryBy, hfile]
    dsimp only
    rw [s.compile_of_error hc he]
    rfl
  rw [perform, hentry, printing, ← World.report_emit]
  rfl

/-- Nor is a file that is checked. -/
theorem perform_check_uncompiled {path : Path} {role : Role} {c : Compilation} {e : LoadError}
    (hc : compileFile s.world.host.disk path role = .ok c) (he : c.result = .error e) :
    s.perform evaluation (.check path role) = .ok (.checked (.error e), s.printing (c.lines path e)) := by
  have hcheck : s.check path role = .ok (.error e, { s with world := s.world.emit c.queue path }) := by
    rw [check, s.compile_of_error hc he]
    rfl
  rw [perform, hcheck, printing, ← World.report_emit]
  rfl

end Session

namespace Eval

/-- A module that cannot be compiled is not run, and the import fails. -/
theorem runFrom_moduleRecord_uncompiled {settings : Settings} {eval : Evaluator} {path : Path} {dotted : String}
    {held : List Value} {m : Machine} {c : Compilation} {e : LoadError}
    (hc : compileFile m.world.host.disk path .module = .ok c) (he : c.result = .error e) :
    (moduleRecord settings eval path dotted).runFrom held m =
      (.error (.fault (.ofCause (.importFailed dotted e.reason))),
        { m with world := m.world.printing (c.lines path e) }) := by
  rw [moduleRecord, runFrom_bind, runFrom_compiled held hc]
  dsimp only
  rw [he]
  dsimp only
  rw [runFrom_importFailure, World.report_emit]

/-- Nothing stays in the cache of it. -/
theorem runFrom_ofSession_uncompiled {settings : Settings} {roots : Option SearchRoots} {eval : Evaluator}
    {request : ImportRequest} {held : List Value} {m : Machine} {path : Path} {c : Compilation} {e : LoadError}
    (hpath : m.world.host.disk.canonicalModule ((roots.getD (settings.rootsFor request.directory)).moduleFile
      request.root request.path request.directory) = .ok path)
    (hstatus : m.world.cache.status path = .unknown) (hc : compileFile m.world.host.disk path .module = .ok c)
    (he : c.result = .error e) :
    (Loader.ofSession settings roots eval request).runFrom held m =
      (.error (.fault (.ofCause (.importFailed request.dotted e.reason))),
        { m with world := m.world.printing (c.lines path e) }) := by
  obtain ⟨-, hfree⟩ := ModuleCache.status_eq_unknown hstatus
  have hstop : (m.world.cache.start path).stop path = m.world.cache :=
    congrArg (ModuleCache.mk m.world.cache.modules) (ModuleCache.loading_stop hfree rfl)
  have hrecord : (moduleRecord settings eval path request.dotted).runFrom held (m.withCache (·.start path)) = _ :=
    runFrom_moduleRecord_uncompiled hc he
  rw [ofSession_eq, runFrom_bind, loadFile, runFrom_bind, runFrom_located, hpath, ofExcept, runFrom_pure]
  dsimp only
  rw [runFrom_loadOnce, hstatus]
  dsimp only
  rw [hrecord]
  exact congrArg (fun cache => ((.error _, { m with world := { m.world.printing (c.lines path e) with cache } }) :
    Except Interruption Value × Machine)) hstop

end Eval

/-! ## Whatever is evaluated has been compiled -/

theorem bind_eq_of_ok {ε α β : Type} {e : Except ε α} {k l : α → Except ε β} (h : ∀ a, e = .ok a → k a = l a) :
    e >>= k = e >>= l := by
  cases e with
  | error => rfl
  | ok a => exact h a rfl

namespace Session

variable {s : Session} (hs : s.world.EachUnit Arena.Accepted) (fuel : Nat)
include hs

theorem runUnit_vetted {unit : CompiledUnit} (hu : unit.program.Accepted) :
    s.runUnit (Eval.watchedWithin Machine.Vetted · fuel) unit = s.runUnit (evalWithin · fuel) unit := by
  have hbegun : ((Machine.idle s.world).withCache (·.start unit.path)).Vetted := hs
  have hentry := s.entry_vetted (evalWithin · fuel) (Eval.watchedWithin Machine.Vetted · fuel) hu
    fun imports id => Eval.SameWhile.watchedWithin_vetted imports fuel id
  rw [runUnit_eq, runUnit_eq, (hentry [] _ hbegun).2]

theorem runEntryBy_vetted (path : Path) :
    s.runEntryBy (Eval.watchedWithin Machine.Vetted · fuel) path = s.runEntryBy (evalWithin · fuel) path := by
  unfold runEntryBy
  split
  · rfl
  · rename_i file _
    refine bind_eq_of_ok fun (result, s') hcompile => ?_
    cases result with
    | error e => rfl
    | ok unit =>
      exact runUnit_vetted ((invariant_vetted fuel).compile hs file .entry _ _ hcompile) fuel (accepted_of_compile hcompile)

theorem perform_vetted (operation : Operation) :
    s.perform (Eval.watchedWithin Machine.Vetted · fuel) operation = s.perform (evalWithin · fuel) operation := by
  cases operation with
  | run path => rw [perform, perform, runEntryBy_vetted hs fuel path]
  | check path role => rfl
  | load request =>
    have heval (id : NodeId) := Eval.SameWhile.watchedWithin_vetted (.session s.settings s.roots) fuel id
    have hload := Eval.SameWhile.loader_vetted heval (.session s.settings s.roots) request [] (Machine.idle s.world) hs
    have hsame : s.loadBy (Eval.watchedWithin Machine.Vetted · fuel) request = s.loadBy (evalWithin · fuel) request := by
      rw [loadBy, loadBy, outsideUnits_eq, outsideUnits_eq]
      exact congrArg s.left hload.2
    rw [perform, perform, hsame]
  | edit disk => rfl

/-- At every moment of every session, all units have been accepted. -/
theorem performAll_vetted (operations : List Operation) :
    s.performAll (Eval.watchedWithin Machine.Vetted · fuel) operations = s.performAll (evalWithin · fuel) operations := by
  induction operations generalizing s with
  | nil => rfl
  | cons operation rest ih =>
    rw [performAll, performAll, perform_vetted hs fuel operation]
    refine bind_eq_of_ok fun result hperform => ?_
    obtain ⟨outcome, s'⟩ := result
    dsimp only
    rw [ih ((invariant_vetted fuel).perform hs operation _ _ hperform)]

end Session

/-- A text is compiled to a unit that can run exactly when it is a program and analysis adds no error to the queue. What
is added does not depend on what was in the queue before, which stays as it was; a unit that analysis rejects comes with
the number of errors that were added.

When a session runs, checks or imports a unit that cannot be compiled, at whatever moment, in whatever session and
whatever evaluation does, then its diagnostics and the failure are printed and nothing else happens: what all units share
is the same afterwards, with the modules that have been loaded, apart from what has been printed. In every session, all
units that there are at the beginning or the end of the evaluation of a node have been accepted. -/
theorem only_compiled_units_are_evaluated :
    (∀ path source role, ∃ added, ∀ queue, ∃ c,
      compile path source role queue = .ok c ∧ c.Gated path source queue added) ∧
    (∀ (s : Session) evaluation path file c e, s.world.host.disk.canonical path = .ok file →
      compileFile s.world.host.disk file .entry = .ok c → c.result = .error e →
        s.perform evaluation (.run path) = .ok (.ran (.error e), s.printing (c.lines file e))) ∧
    (∀ (s : Session) evaluation path role c e, compileFile s.world.host.disk path role = .ok c → c.result = .error e →
      s.perform evaluation (.check path role) = .ok (.checked (.error e), s.printing (c.lines path e))) ∧
    (∀ settings (roots : Option SearchRoots) eval (request : ImportRequest) held (m : Machine) path c e,
      m.world.host.disk.canonicalModule ((roots.getD (settings.rootsFor request.directory)).moduleFile request.root
        request.path request.directory) = .ok path → m.world.cache.status path = .unknown →
      compileFile m.world.host.disk path .module = .ok c → c.result = .error e →
        (Loader.ofSession settings roots eval request).runFrom held m =
          (.error (.fault (.ofCause (.importFailed request.dotted e.reason))),
            { m with world := m.world.printing (c.lines path e) })) ∧
    ∀ settings printer host fuel operations,
      (Session.new settings printer host).performAll (Eval.watchedWithin Machine.Vetted · fuel) operations =
        (Session.new settings printer host).performAll (evalWithin · fuel) operations := by
  refine ⟨compile_gated, fun s evaluation _ _ _ _ => s.perform_run_uncompiled evaluation,
    fun s evaluation _ _ _ _ => s.perform_check_uncompiled evaluation,
    fun _ _ _ _ _ _ _ _ _ => Eval.runFrom_ofSession_uncompiled, fun settings printer host fuel operations => ?_⟩
  have hnew : (Session.new settings printer host).world.EachUnit Arena.Accepted := fun i a ha => by cases ha
  exact Session.performAll_vetted hnew fuel operations

/-- A name that is unknown keeps a unit from running, as an entry unit and as a module. -/
theorem unit_with_an_unknown_name_is_not_evaluated :
    let disk : Disk := ⟨[(["a.blu"], .file "x;".toUTF8)], []⟩
    let s := Session.new .standard .empty ⟨disk, [], .still⟩
    ∃ c e, compileFile disk ⟨"/a.blu"⟩ .entry = .ok c ∧ c.result = .error e ∧
      s.perform (evalWithin · 9) (.run ⟨"/a.blu"⟩) = .ok (.ran (.error e), s.printing (c.lines ⟨"/a.blu"⟩ e)) := by
  intro disk s
  have hcanonical : (disk.canonical ⟨"/a.blu"⟩).toOption.any fun file => file = ⟨"/a.blu"⟩ := by decide +kernel
  have hrejected : (compileFile disk ⟨"/a.blu"⟩ .entry).toOption.any fun c => c.result.toOption.isNone := by
    decide +kernel
  obtain ⟨file, hfile, htest⟩ := exists_of_any hcanonical
  obtain rfl := of_decide_eq_true htest
  obtain ⟨c, hc, hresult⟩ := exists_of_any hrejected
  cases he : c.result with
  | error e => exact ⟨c, e, hc, he, only_compiled_units_are_evaluated.2.1 s _ ⟨"/a.blu"⟩ _ c e hfile hc he⟩
  | ok unit =>
    rw [he] at hresult
    cases hresult

end DynScript
