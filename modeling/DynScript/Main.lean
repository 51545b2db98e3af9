import DynScript.CommandLine

/-!
# The program

The command with the host around it. A command works on a picture of the host that is taken before it starts:
the variables, the clock, and the files below the working directory, the directory of the given file and the
one of the standard library. The files that the command has changed are written at its end.
-/

namespace DynScript

/-- How deep the picture of a directory goes. -/
def maxDirectoryDepth : Nat := 32

/-- How deeply the steps of a command may nest. -/
def commandFuel : Nat := 1000000000000000000

/-- The names on the way from the root to a path. -/
def locationOf (path : String) : Location := (path.splitOn "/").filter (· ≠ "")

/-- The variables of the process. -/
def readVariables : IO (List (String × String)) := do
  let content ← IO.FS.readBinFile "/proc/self/environ"
  let entries := (String.fromUTF8? content).getD ""
  return (entries.splitOn "\x00").filterMap fun entry =>
    match entry.splitOn "=" with
    | name :: value@(_ :: _) => some (name, "=".intercalate value)
    | _ => none

/-- The clock, as the picture has it: it starts at the time at which the process was started and moves on a little
with every reading. -/
def readClock : IO Clock := do
  let ⟨seconds, nanoseconds⟩ := (← (← IO.FS.realPath "/proc/self").metadata).modified
  let start := seconds * 1000000000 + nanoseconds.toNat
  return ⟨fun n => ⟨start + 100 * n, 100 * n⟩, 0⟩

/-- Add a file, a directory with all that lies below it, or a link with what it leads to, to a picture. -/
def addToDisk : Nat → Disk → String → IO Disk
  | 0, disk, _ => return disk
  | depth + 1, disk, path => do
    let there ← IO.FS.realPath path
    if there.toString ≠ path then
      let disk := disk.addLink (locationOf path) ⟨there.toString⟩
      if (disk.entry? (locationOf there.toString)).isSome then return disk
      addToDisk depth disk there.toString
    else if ← there.isDir then
      (← there.readDir).foldlM (fun disk entry => do
        try addToDisk depth disk entry.path.toString catch _ => return disk)
        (disk.addDirectory (locationOf path))
    else
      return disk.addFile (locationOf path) (← IO.FS.readBinFile path)

/-- Add what lies below a path, if there is something. -/
def addIfThere (disk : Disk) (path : String) : IO Disk := do
  try addToDisk maxDirectoryDepth disk (← IO.FS.realPath path).toString catch _ => return disk

/-- The directories of the files that the arguments name. -/
def directoriesOf (args : List String) : List String :=
  args.filterMap fun arg => (Path.parent? ⟨arg⟩).map fun dir => if dir.text = "" then "." else dir.text

/-- The picture of the host. -/
def readHost (args : List String) : IO Host := do
  let vars ← readVariables
  let working := (← IO.FS.realPath ".").toString
  let stdDir := (vars.lookup Settings.stdDirVariable).toList
  let roots := working :: directoriesOf args ++ stdDir
  let disk ← roots.foldlM addIfThere Disk.empty
  return ⟨{ disk with working := locationOf working }, vars, ← readClock⟩

/-- Write the files that differ from those of an earlier picture. -/
def writeChanges (before after : Disk) : IO Unit :=
  after.entries.forM fun (place, entry) =>
    match entry, before.entry? place with
    | .file content, some (.file old) =>
      if content.toList = old.toList then pure ()
      else IO.FS.writeBinFile (Disk.pathOf place).text content
    | .file content, _ => IO.FS.writeBinFile (Disk.pathOf place).text content
    | .directory, _ | .link _, _ => pure ()

end DynScript

open DynScript in
/-- Carry out the command that the arguments ask for. -/
def main (args : List String) : IO UInt32 := do
  let host ← readHost args
  match (Command.ofArgs args).perform commandFuel host with
  | .ok result =>
    IO.eprint result.complaint
    IO.print result.output
    writeChanges host.disk result.disk
    return result.status.toUInt32
  | .error _ =>
    IO.eprintln "internal error: the evaluation is stuck"
    return 1
