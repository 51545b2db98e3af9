import DynScript.Session.Basic

/-!
# The command line

What the command does with its arguments: it runs a program, checks a file, or tells about itself. A file with
the extension of units may stand in the place of a command, and is run.
-/

namespace DynScript

/-- What a command asks for. -/
inductive Command where
  /-- Tell how the command is used. -/
  | help
  /-- Tell the version. -/
  | version
  /-- Run a program. -/
  | run (path : Path)
  /-- Check a file. -/
  | check (path : Path) (role : Role)
  /-- A command that lacks its file. -/
  | incomplete (usage : String)
  /-- A command that there is not. -/
  | unknown (name : String)
deriving DecidableEq, Repr

/-- What a command leaves behind: its status, and what it has written. -/
structure CommandResult where
  /-- The status; zero is success. -/
  status : Nat
  /-- What was written for the user. -/
  output : String
  /-- What was written about a wrong use. -/
  complaint : String
  /-- The files after the command. -/
  disk : Disk

namespace Command

/-- The version of the command. -/
def versionText : String := "Blu 0.1.0\n"

/-- How the command is used. -/
def usage : String := "\n".intercalate [
  "Blu interpreter",
  "",
  "Usage: blu <command> [options]",
  "",
  "Commands:",
  "  run <file.blu>     Run a Blu program",
  "  check <file.blu>   Analyse a module without running it",
  "    --entry          Analyse it as a program entry point instead",
  "  help               Show this help message",
  "  version            Show version information",
  "",
  "Environment:",
  "  BLU_STDLIB           Standard library directory (default: <entry dir>/library)",
  "  BLU_MAX_CALL_DEPTH   Maximum call depth (default: 10000)",
  "  RUST_LOG             Enable tracing, e.g. RUST_LOG=blu_eval=debug",
  "  BLU_LOG_TREE         Print tracing spans as a tree",
  "",
  "Examples:",
  "  blu main.blu",
  "  blu run main.blu",
  "  blu check lib/math.blu",
  "  blu check --entry main.blu",
  ""]

/-- Whether a word is a file that can be run. -/
def isUnitFile (word : String) : Bool :=
  match Path.extension? ⟨word⟩ with
  | some extension => extension.toLower = unitExtension
  | none => false

/-- The command that the arguments ask for. -/
def ofArgs : List String → Command
  | [] => .help
  | "run" :: path :: _ => .run ⟨path⟩
  | ["run"] => .incomplete "Usage: blu run <file.blu>"
  | ["check"] | ["check", "--entry"] => .incomplete "Usage: blu check [--entry] <file.blu>"
  | "check" :: "--entry" :: path :: _ => .check ⟨path⟩ .entry
  | "check" :: path :: _ => .check ⟨path⟩ .module
  | word :: _ =>
    if word ∈ ["help", "--help", "-h"] then .help
    else if word ∈ ["version", "--version", "-V"] then .version
    else if isUnitFile word then .run ⟨word⟩
    else .unknown word

/-- The result of an operation of a session, whose failure is reported. -/
def finish (s : Session) : Except LoadError Nat → CommandResult
  | .ok status => ⟨status, s.world.printer.output, "", s.world.host.disk⟩
  | .error e =>
    let s := s.report e
    ⟨1, s.world.printer.output, "", s.world.host.disk⟩

/-- The status of a run. Of an exit code only the lowest eight bits are kept. -/
def statusOf : RunStatus → Nat
  | .completed => 0
  | .exited code => (code % 256).toNat

/-- Carry out a command. -/
def perform (fuel : Nat) (host : Host) : Command → Except Stuck CommandResult
  | help => .ok ⟨0, usage, "", host.disk⟩
  | version => .ok ⟨0, versionText, "", host.disk⟩
  | run path => do
    let session := Session.new (.ofVariables host.valueOf?) .empty host
    let (result, s) ← session.runEntry fuel path
    return finish s (result.map statusOf)
  | check path role => do
    let session := Session.new (.ofVariables host.valueOf?) .empty host
    let (result, s) ← session.check path role
    return finish s (result.map fun _ => 0)
  | incomplete line => .ok ⟨1, "", line ++ "\n", host.disk⟩
  | unknown name => .ok ⟨1, usage, "Unknown command: " ++ name ++ "\n\n", host.disk⟩

end Command

end DynScript
