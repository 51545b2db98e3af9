import DynScript.Proofs.Session.Exits
import DynScript.Proofs.Session.Reports

/-!
# What is reported when modules fail

A module that fails is reported where that happens, and its importer gets a fault. If nothing catches the fault, and
nothing does, the importer fails in turn when it is a module itself. So a run that ends in a fault has printed one report
for each module that was being loaded when the first one failed, the innermost first. `Loader.breaking` serves imports
without any reports: it gets stuck where a module fails, and everything that the run has to report comes after that.
-/

namespace DynScript

/-- A module that has failed. -/
structure Failure where
  /-- The import that asked for it. -/
  request : ImportRequest
  /-- The file. -/
  path : Path
  /-- What went wrong. -/
  error : LoadError

namespace Failure

/-- What the importer gets. -/
def cause (f : Failure) : Cause := .importFailed f.request.dotted f.error.reason

/-- A message about a place in the file of a failure, with notes. -/
def located (f : Failure) (code : Code) (message : String) (position : Option Position) (notes : List String) : String :=
  "error[" ++ code.text ++ "]: " ++ message ++ " in " ++ f.path.text ++
    ((position.map fun p => " at " ++ p.text).getD "") ++ String.join (notes.map fun note => "\n  = note: " ++ note)

/-- What is printed about a failure. It names the file of the module and what went wrong in it. -/
def line (f : Failure) : String :=
  match f.error with
  | .unreadable _ error => "error: cannot read '" ++ f.path.text ++ "': " ++ error.text
  | .rejected _ count => "error: could not run '" ++ f.path.text ++ "' due to " ++ toString count ++ " previous error(s)"
  | .malformed _ error => f.located error.toDiagnostic.code error.message error.toDiagnostic.position []
  | .faulted _ fault =>
    f.located fault.cause.code fault.cause.message fault.position ((fault.backtrace.map Backtrace.notes).getD [])

/-- A failure that names the file of the module is reported so. -/
theorem report_eq_line {f : Failure} (h : f.error.path = f.path) : f.error.report = f.line := by
  obtain ⟨request, path, error⟩ := f
  obtain rfl : error.path = path := h
  cases error with
  | unreadable path error => rfl
  | rejected path count => rfl
  | malformed path error => cases error <;> rfl
  | faulted path fault =>
    obtain ⟨cause, position, backtrace⟩ := fault
    cases position <;> rfl

end Failure

/-- One module after the other fails, because the one before it has failed; the last one gives this cause to its
importer. -/
inductive Cascade : List Failure → Cause → Prop where
  /-- The first module fails by itself. -/
  | first (f : Failure) : Cascade [f] f.cause
  /-- The next one fails by the cause that it gets. -/
  | next {failures : List Failure} {fault : Fault} {f : Failure} :
      Cascade failures fault.cause → f.error = .faulted f.path fault → Cascade (failures ++ [f]) f.cause

namespace World

/-- Print several lines. -/
def printAll (w : World) (lines : List String) : World := lines.foldl println w

/-- A module failed after its diagnostics had been printed, and the failure is that of its own file: it could not be
compiled, or its run ended in a fault that is no signal. In the world `w` its loading had not begun, and in the world
`broken` nothing has been reported. -/
structure Breaks (w broken : World) (f : Failure) : Prop where
  /-- The failure names the file. -/
  path : f.error.path = f.path
  /-- The file was compiled in a world between the two, and what was found was printed. -/
  compiled : ∃ (before : World) (c : Compilation), w.printer.GrowsTo before.printer ∧
    compileFile before.host.disk f.path .module = .ok c ∧
    (before.emit c.queue f.path).printer.GrowsTo broken.printer ∧
    (c.result = .error f.error ∨
      ∃ unit fault, c.result = .ok unit ∧ f.error = .faulted f.path fault ∧ fault.isSignal = false)

theorem Breaks.earlier {v w broken : World} (h : v.printer.GrowsTo w.printer) {f : Failure} (hf : w.Breaks broken f) :
    v.Breaks broken f where
  path := hf.path
  compiled := by
    obtain ⟨before, c, hbefore, hc⟩ := hf.compiled
    exact ⟨before, c, h.trans hbefore, hc⟩

/-- Modules fail, the last of them those in `own`. In the world `broken` the first one has failed and has not been
reported; the others are being loaded, apart from those in `own`, from the files that the imports mean. In the world
`ended` a line has been printed about each and none is in progress. -/
def FailsIn (file : ImportRequest → Path) (own : List Failure) (w broken ended : World) (cause : Cause) : Prop :=
  ∃ failures, w.Amid (failures.map (·.path.key)) broken ∧ Cascade (failures ++ own) cause ∧
    ended = (broken.printAll ((failures ++ own).map Failure.line)).withLoading w.cache.loading ∧
    (∀ f ∈ failures ++ own, w.Breaks broken f) ∧
    ∀ f ∈ failures, broken.host.disk.canonicalModule (file f.request) = .ok f.path

/-- Modules fail that were not in progress before. -/
abbrev Fails (file : ImportRequest → Path) : World → World → World → Cause → Prop := FailsIn file []

end World

/-- A file that a module has been found in is where it was. -/
theorem Disk.Extends.canonicalModule {d d' : Disk} (h : d.Extends d') {file path : Path}
    (hpath : d.canonicalModule file = .ok path) : d'.canonicalModule file = .ok path := by
  unfold Disk.canonicalModule at hpath ⊢
  split at hpath
  · rename_i found hfound
    rw [h.canonical hfound]
    exact hpath
  · cases hpath
  · cases hpath

theorem Cascade.isSignal {failures : List Failure} {cause : Cause} (h : Cascade failures cause) :
    cause.isSignal = false := by
  cases h <;> rfl

namespace World

variable {file : ImportRequest → Path}

variable (file) in
theorem FailsIn.retold (own : List Failure) : Eval.Retold (FailsIn file own) := by
  rintro w w' broken ended cause hw ⟨failures, hamid, hcascade, hended, hbreaks, hfound⟩
  exact ⟨failures, hamid.earlier hw, hcascade, hw.loading ▸ hended, fun f hf => (hbreaks f hf).earlier hw.printer,
    hfound⟩

theorem printAll_append (w : World) (lines more : List String) :
    w.printAll (lines ++ more) = (w.printAll lines).printAll more := List.foldl_append ..

/-- The module in progress is given up and has failed like the others. -/
theorem FailsIn.stop {request : ImportRequest} {path : Path} {w broken ended : World} {cause : Cause}
    (hpath : w.host.disk.canonicalModule (file request) = .ok path) (hfree : path.key ∉ w.cache.loading)
    (hnone : w.cache.get? path = none)
    (h : ∃ error, FailsIn file [⟨request, path, error⟩] (w.withCache (·.start path)) broken ended cause) :
    Fails file w broken (ended.withCache (·.stop path)) cause := by
  obtain ⟨error, failures, hamid, hcascade, rfl, hbreaks, hfound⟩ := h
  have hstart := hamid.start hfree hnone
  unfold Fails FailsIn
  refine ⟨failures ++ [⟨request, path, error⟩], ?_, ?_⟩
  · rw [List.map_append]
    exact hstart
  · rw [List.append_nil, stop_withLoading hfree]
    have hprinter : w.printer.GrowsTo (w.withCache (·.start path)).printer := .refl _
    refine ⟨hcascade, rfl, fun f hf => (hbreaks f hf).earlier hprinter, fun f hf => ?_⟩
    rcases List.mem_append.1 hf with hf | hf
    · exact hfound f hf
    · rw [List.mem_singleton.1 hf]
      exact hstart.disk.canonicalModule hpath

/-- The first module that fails. -/
theorem FailsIn.first {w broken : World} {f : Failure} (hw : w.Proceeds broken) (hf : w.Breaks broken f) :
    FailsIn file [f] w broken (broken.report f.error) f.cause := by
  refine ⟨[], .ofProceeds hw, .first f, ?_, fun g hg => List.mem_singleton.1 hg ▸ hf, fun _ hg => nomatch hg⟩
  rw [← hw.loading, World.report, Failure.report_eq_line hf.path]
  rfl

/-- A module that fails because another one has failed. -/
theorem FailsIn.next {w broken ended : World} {fault : Fault} {f : Failure} (h : Fails file w broken ended fault.cause)
    (herror : f.error = .faulted f.path fault) (hf : w.Breaks broken f) :
    FailsIn file [f] w broken (ended.report f.error) f.cause := by
  obtain ⟨failures, hamid, hcascade, rfl, hbreaks, hfound⟩ := h
  simp only [List.append_nil] at hcascade hbreaks ⊢
  refine ⟨failures, hamid, .next hcascade herror, ?_, fun g hg => ?_, hfound⟩
  · rw [World.report, Failure.report_eq_line hf.path, List.map_append, printAll_append]
    rfl
  · rcases List.mem_append.1 hg with hg | hg
    · exact hbreaks g hg
    · exact List.mem_singleton.1 hg ▸ hf

end World

/-- A failure to compile names the file. -/
theorem path_of_compileFile_error {disk : Disk} {path : Path} {role : Role} {c : Compilation} {e : LoadError}
    (h : compileFile disk path role = .ok c) (he : c.result = .error e) : e.path = path := by
  unfold compileFile DynScript.compile at h
  split at h
  · obtain rfl := Except.ok.inj h
    obtain rfl := Except.error.inj he
    rfl
  · split at h
    · obtain rfl := Except.ok.inj h
      obtain rfl := Except.error.inj he
      rfl
    · split at h
      · cases h
      · split at h <;> obtain rfl := Except.ok.inj h
        · obtain rfl := Except.error.inj he
          rfl
        · cases he

namespace Eval

variable {α β : Type}

/-- A failure is reported, and the importer gets its cause. -/
theorem runFrom_importFailure (dotted : String) (e : LoadError) (held : List Value) (m : Machine) :
    (importFailure dotted e : Eval α).runFrom held m =
      (.error (.fault (.ofCause (.importFailed dotted e.reason))), { m with world := m.world.report e }) := rfl

/-- Compiling a file that cannot be analysed. -/
theorem runFrom_compiled_error {path : Path} {role : Role} {m : Machine} {d : Defect} (held : List Value)
    (h : compileFile m.world.host.disk path role = .error d) :
    (compiled path role).runFrom held m = (.error (.stuck (.defect d)), m) := by
  rw [compiled, runFrom_bind, runFrom_get]
  dsimp only
  rw [h]
  rfl

end Eval

/-- The usual manner, except that evaluation gets stuck where a module fails, and that the modules that are being loaded
there stay in progress. -/
def Manner.breaking (why : Stuck) : Manner :=
  { usual with
    known := Eval.loadOrHalt
    failed := fun _ _ => throw (.stuck why) }

/-- Load modules as a session does, but get stuck where a module fails. -/
def Loader.breaking (settings : Settings) (roots : Option SearchRoots) (why : Stuck) : Loader :=
  (Manner.breaking why).loader settings roots

namespace Eval.Halts

open World (Fails FailsIn)

variable {file : ImportRequest → Path}

/-- A module fails as the first one, or because another one has. -/
theorem moduleRecord_breaking {eval eval' : Evaluator} (he : ∀ id, Halts (Fails file) (eval id) (eval' id))
    (settings : Settings) (why : Stuck) (path : Path) (request : ImportRequest) :
    Halts (fun w broken ended cause => ∃ error, FailsIn file [⟨request, path, error⟩] w broken ended cause)
      (moduleRecord settings eval path request.dotted)
      ((Manner.breaking why).moduleRecord settings eval' path request.dotted) := by
  have himport (e : LoadError) : (Cause.importFailed request.dotted e.reason).Quiet := by simp [Cause.Quiet]
  have H : Calling fun x y => Halts (Fails file) x y := calling (FailsIn.retold file [])
  intro held m hm
  cases hc : compileFile m.world.host.disk path .module with
  | error d =>
    rw [moduleRecord, Manner.moduleRecord, runFrom_bind, runFrom_bind, runFrom_compiled_error held hc]
    exact .stuck rfl rfl
  | ok c =>
    let compiledIn : Machine := { m with world := m.world.emit c.queue path }
    have hkeeps : m.world.Keeps compiledIn.world := Plain.keeps_emit m.world c.queue path
    rw [moduleRecord, Manner.moduleRecord, runFrom_bind, runFrom_bind, runFrom_compiled held hc]
    dsimp only
    cases hu : c.result with
    | error e =>
      refine .halted rfl (himport e) rfl ⟨e, .first (f := ⟨request, path, e⟩) hkeeps.proceeds ?_⟩
      exact ⟨path_of_compileFile_error hc hu, m.world, c, .refl _, hc, .refl _, .inl hu⟩
    | ok unit =>
      have hbreaks {fault : Fault} {broken : World} (hsignal : fault.isSignal = false)
          (hbroken : compiledIn.world.printer.GrowsTo broken.printer) :
          m.world.Breaks broken ⟨request, path, .faulted path fault⟩ :=
        ⟨rfl, m.world, c, .refl _, hc, hbroken, .inr ⟨unit, fault, hu, rfl, hsignal⟩⟩
      have hruns := inNewMachine (FailsIn.retold file []) unit settings.maxDepth (H.runUnit he unit.program.body) held
        compiledIn (hkeeps.loads.orderly hm)
      have htop : (Manner.breaking why).top path (runUnit eval' unit.program.body) = runUnit eval' unit.program.body := rfl
      dsimp only
      rw [htop, runFrom_bind, runFrom_bind, runFrom_attempt, runFrom_attempt]
      rcases hx : (Eval.inNewMachine unit settings.maxDepth (runUnit eval unit.program.body)).runFrom held compiledIn
        with ⟨rx, n⟩
      rcases hy : (Eval.inNewMachine unit settings.maxDepth (runUnit eval' unit.program.body)).runFrom held compiledIn
        with ⟨ry, n'⟩
      rw [hx, hy] at hruns
      cases hruns with
      | same hproceeds heq =>
        obtain ⟨rfl, rfl⟩ := Prod.mk.inj heq
        have hall := hkeeps.proceeds.trans hproceeds
        rcases ry with ⟨fault | reason⟩ | exports
        · dsimp only
          cases hsignal : fault.isSignal with
          | true => exact .same hall rfl
          | false =>
            exact .halted rfl (himport _) rfl ⟨.faulted path fault, .first hall (hbreaks hsignal hproceeds.printer)⟩
        · exact .stuck rfl rfl
        · have hkept : n'.world.Keeps { n'.world with heap := (n'.world.heap.ofEntries exports.entries).2 } :=
            ⟨rfl, .refl _, .refl _⟩
          exact .same (hall.trans hkept.proceeds) rfl
      | stuck hfirst hsecond =>
        obtain rfl : rx = _ := hfirst
        obtain rfl : ry = _ := hsecond
        exact .stuck rfl rfl
      | halted hfirst hquiet hsecond hends =>
        obtain rfl : rx = _ := hfirst
        obtain rfl : ry = _ := hsecond
        have hfails := FailsIn.retold file [] hkeeps.proceeds hends
        obtain ⟨failures, hamid, hcascade, -⟩ := hends
        have hsignal : Fault.isSignal _ = false := hcascade.isSignal
        dsimp only
        rw [hsignal]
        exact .halted rfl (himport _) rfl ⟨_, hfails.next rfl (hbreaks hsignal hamid.printer)⟩

end Eval.Halts

/-- What the loader of a session does against the one that gets stuck where a module fails. -/
theorem Eval.Halts.breaking (settings : Settings) (roots : Option SearchRoots) (why : Stuck) {eval eval' : Evaluator}
    (he : ∀ id, Halts (World.Fails (settings.fileOf roots)) (eval id) (eval' id)) (request : ImportRequest) :
    Halts (World.Fails (settings.fileOf roots)) (Loader.ofSession settings roots eval request)
      (Loader.breaking settings roots why eval' request) :=
  .loader (World.FailsIn.retold _ []) rfl (fun path request => .moduleRecord_breaking he settings why path request)
    (fun _ hpath hfree hnone h => .stop hpath hfree hnone h) request

namespace Eval

end Eval

end DynScript
