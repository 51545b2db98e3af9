import DynScript.Analysis.Visit
import DynScript.Fault.Basic
import DynScript.Files.Disk
import DynScript.Grammar.Program

/-!
# Units on their way to evaluation

A unit is read from a file, parsed and analysed; only when all of this succeeds can it run. What analysis
finds is added to a queue either way.
-/

namespace DynScript

/-- A unit that can run. -/
structure CompiledUnit where
  /-- The file. -/
  path : Path
  /-- The text of the file. -/
  source : String
  /-- What the unit is for. -/
  role : Role
  /-- The nodes, with the pipes desugared. -/
  program : Program

namespace CompiledUnit

/-- The directory that relative imports start from. -/
def directory (u : CompiledUnit) : Path := u.path.parent?.getD ⟨"."⟩

end CompiledUnit

/-- Why a unit has no exports. -/
inductive LoadError where
  /-- The file cannot be read. -/
  | unreadable (path : Path) (error : FileError)
  /-- The text is no program. -/
  | malformed (path : Path) (error : SyntaxError)
  /-- Analysis found errors. -/
  | rejected (path : Path) (count : Nat)
  /-- The unit ran into a fault. -/
  | faulted (path : Path) (fault : Fault)

namespace LoadError

/-- The file of the unit. -/
def path : LoadError → Path
  | unreadable path _ | malformed path _ | rejected path _ | faulted path _ => path

/-- The failure in words. -/
def message : LoadError → String
  | unreadable path error => "cannot read '" ++ path.text ++ "': " ++ error.text
  | malformed path error => "syntax error in '" ++ path.text ++ "': " ++ error.message
  | rejected path count => "analysis of '" ++ path.text ++ "' failed with " ++ toString count ++ " error(s)"
  | faulted path fault => "runtime error in '" ++ path.text ++ "': " ++ fault.cause.message

/-- The failure in words that do not name the file. -/
def reason : LoadError → String
  | unreadable _ error => error.text
  | malformed _ error => error.message
  | rejected _ count => toString count ++ " analysis error(s)"
  | faulted _ fault => fault.cause.message

/-- The failure as it is shown to the user. -/
def report (e : LoadError) : String :=
  match e with
  | unreadable _ _ => "error: " ++ e.message
  | malformed path error => error.toDiagnostic.render path.text
  | rejected path count =>
    "error: could not run '" ++ path.text ++ "' due to " ++ toString count ++ " previous error(s)"
  | faulted path fault => fault.toDiagnostic.render path.text

end LoadError

/-- What compiling a unit leaves behind. -/
structure Compilation where
  /-- The unit, if it can run. -/
  result : Except LoadError CompiledUnit
  /-- The queue with what was found added at its end. -/
  queue : Queue

/-- Parse and analyse a text. -/
def compile (path : Path) (source : String) (role : Role) (queue : Queue) : Except Defect Compilation :=
  match parseSource source with
  | .error e => .ok ⟨.error (.malformed path e), queue⟩
  | .ok program =>
    match analyse program role queue with
    | .error d => .error d
    | .ok a =>
      if a.failed then .ok ⟨.error (.rejected path (a.queue.count .error - queue.count .error)), a.queue⟩
      else .ok ⟨.ok ⟨path, source, role, a.program⟩, a.queue⟩

/-- Read and compile a file. -/
def compileFile (disk : Disk) (path : Path) (role : Role) : Except Defect Compilation :=
  match disk.read path with
  | .error e => .ok ⟨.error (.unreadable path e), .empty⟩
  | .ok source => compile path source role .empty

end DynScript
