import DynScript.Fault.Cause
import DynScript.Run.World
import DynScript.Value.Display

/-!
# Native functions

What the functions of the host do. `World.callNative` is a call with its arguments; `Heap.newNamespace` makes
the record under which a program finds these functions.
-/

namespace DynScript

namespace Native

/-- All native functions, by group. -/
def all : List Native :=
  [ioRead, ioWrite, ioExists, systemAssert, systemClock, systemNow, systemElapsed, systemEnv, systemTypeOf,
    systemExit]

/-- The names of the parameters. -/
def params : Native → List String
  | ioRead | ioExists => ["path"]
  | ioWrite => ["path", "content"]
  | systemAssert => ["cond", "msg"]
  | systemClock | systemNow => []
  | systemElapsed => ["start"]
  | systemEnv => ["name"]
  | systemTypeOf => ["value"]
  | systemExit => ["code"]

/-- How many arguments a call has. -/
def arity (n : Native) : Nat := n.params.length

/-- The names of the groups. -/
def groups : List String := ["io", "system"]

/-- The name of the record that holds the groups. -/
def namespaceName : String := "blu"

/-- The functions of a group, with their names in it. -/
@[irreducible]
def inGroup (group : String) : List (String × Native) :=
  (all.filter fun n => n.group = group).map fun n => (n.shortName, n)

/-- An argument that has to be a string. -/
def expectString (n : Native) (value : Value) : Except Cause String :=
  match value with
  | .string s => .ok s
  | other => .error (.wrongOperand n.name "string" other.kindName)

/-- An argument that has to be a number. -/
def expectNumber (n : Native) (value : Value) : Except Cause Float :=
  match value with
  | .number x => .ok x
  | other => .error (.wrongOperand n.name "number" other.kindName)

/-- A failure of a native function. -/
def failure (n : Native) (message : String) : Cause := .nativeFailed n.name message

/-- The exit code that a number stands for: its fraction is dropped, and it is kept within the range of 32
bits. -/
def exitCode (x : Float) : Int := x.toModel.toInt32.toInt

end Native

/-- A record that holds the groups of native functions. -/
def Heap.newNamespace (h : Heap) : RecordId × Heap :=
  let (entries, h) := Native.groups.foldl (fun (entries, h) group =>
    let functions := (Native.inGroup group).map fun (name, n) => (name, Value.native n)
    let (r, h) := Heap.ofEntries h functions
    (entries ++ [(group, Value.record r)], h)) (([] : List (String × Value)), h)
  h.ofEntries entries

namespace World

/-- Read the clock. -/
def readClock (w : World) : Reading × World :=
  let (reading, clock) := w.host.clock.read
  (reading, { w with host := { w.host with clock := clock } })

/-- The seconds since the start of 1970. A clock that shows a time before has none. -/
def secondsOf (reading : Reading) : Except Cause Value :=
  match reading.wall with
  | .ofNat nanoseconds => .ok (.number (Clock.seconds nanoseconds))
  | .negSucc _ => .error (Native.systemClock.failure "second time provided was later than self")

/-- Read a file. -/
def readFile (w : World) (path : String) : Except Cause Value :=
  match w.host.disk.read ⟨path⟩ with
  | .ok content => .ok (.string content)
  | .error e => .error (Native.ioRead.failure ("cannot read '" ++ path ++ "': " ++ e.text))

/-- Write a file. -/
def writeFile (w : World) (path content : String) : Except Cause Value × World :=
  match w.host.disk.write ⟨path⟩ content with
  | .ok disk => (.ok .nil, { w with host := { w.host with disk := disk } })
  | .error e => (.error (Native.ioWrite.failure ("cannot write '" ++ path ++ "': " ++ e.text)), w)

/-- Complain with a message unless a condition holds. -/
def assert (condition message : Value) : Except Cause Value :=
  match condition with
  | .bool true => .ok .nil
  | .bool false => do
    let message ← Native.systemAssert.expectString message
    .error (Native.systemAssert.failure ("assertion failed: " ++ message))
  | other => .error (.wrongOperand Native.systemAssert.name "bool" other.kindName)

/-- Call a native function. What it does to the world it has done, also if it fails then. -/
def callNative (w : World) (n : Native) (args : List Value) : Except Cause Value × World :=
  match n, args with
  | .ioRead, [path] => (do w.readFile (← n.expectString path), w)
  | .ioWrite, [path, content] =>
    match n.expectString path, n.expectString content with
    | .ok path, .ok content => w.writeFile path content
    | .ok _, .error cause => (.error cause, w)
    | .error cause, _ => (.error cause, w)
  | .ioExists, [path] => (do return .bool (w.host.disk.reaches ⟨← n.expectString path⟩), w)
  | .systemAssert, [condition, message] => (assert condition message, w)
  | .systemClock, [] =>
    let (reading, w) := w.readClock
    (secondsOf reading, w)
  | .systemNow, [] =>
    let (reading, w) := w.readClock
    (.ok (.host (.instant reading.steady)), w)
  | .systemElapsed, [start] =>
    match start with
    | .host (.instant past) =>
      let (reading, w) := w.readClock
      (.ok (.number (Clock.seconds (reading.steady - past))), w)
    | other => (.error (.wrongOperand n.name "instant" other.kindName), w)
  | .systemEnv, [name] => (do return ((w.host.valueOf? (← n.expectString name)).map Value.string).getD .nil, w)
  | .systemTypeOf, [value] => (.ok (.string value.kindName), w)
  | .systemExit, [code] => (do throw (.exiting (Native.exitCode (← n.expectNumber code))), w)
  | n, args => (.error (.arityMismatch n.name n.arity args.length), w)

end World

end DynScript
