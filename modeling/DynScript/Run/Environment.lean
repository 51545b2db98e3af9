import DynScript.Value.Heap

/-!
# Environments

The names that a unit sees while it runs. An environment is a stack of frames: variables of a scope, or a
record whose properties stand open. A called function finds its caller's frames below its own, so a free name
means whatever it means where the call is made.

Beside the frames an environment keeps the receivers of the calls in progress. The innermost of them, the
active record, comes first in an assignment and last in a lookup.

A `Holder` is what a name has its value in. Looking a name up, defining it and assigning to it differ in the
holder that they choose; `Environment.get?` and `Environment.put` do the rest.
-/

namespace DynScript

/-- A place in which names stand. -/
inductive Frame where
  /-- The variables of a scope. -/
  | locals (names : Bindings)
  /-- The properties of a record. -/
  | record (r : RecordId)
deriving Inhabited

/-- What a name has its value in. -/
inductive Holder where
  /-- A frame of variables, by its number from the outermost one on. -/
  | locals (index : Nat)
  /-- A record. -/
  | record (r : RecordId)
deriving DecidableEq, Repr

namespace Frame

/-- The names of a frame with their values. -/
def names (heap : Heap) : Frame → Bindings
  | locals names => names
  | record r => heap.properties r

/-- The value that a frame gives to a name. -/
def get? (heap : Heap) (name : String) (frame : Frame) : Option Value := (frame.names heap).get? name

/-- Whether a frame gives a value to a name with this mark. -/
def hasMarked (heap : Heap) (m : UInt64) (name : String) (frame : Frame) : Bool :=
  (frame.names heap).hasMarked m name

/-- Whether a frame gives a value to a name can be told with the mark of the name. -/
theorem hasMarked_mark (heap : Heap) (name : String) (frame : Frame) :
    frame.hasMarked heap (mark name) name = (frame.get? heap name).isSome :=
  (frame.names heap).hasMarked_mark name

/-- What holds the names of a frame with this number. -/
def holder (index : Nat) : Frame → Holder
  | locals _ => .locals index
  | record r => .record r

/-- Give a variable a value; a record stays as it is. -/
def setLocal (name : String) (value : Value) : Frame → Frame
  | locals names => locals (names.set name value)
  | record r => record r

end Frame

/-- The frames of a unit and the receivers of its calls. -/
structure Environment where
  /-- The frames, the outermost first. -/
  frames : Array Frame
  /-- The receivers of the calls in progress, innermost first. -/
  active : List RecordId
  /-- The global frame is always there. -/
  nonempty : 0 < frames.size

namespace Environment

/-- An environment with nothing but a global frame. -/
def new : Environment := ⟨#[.locals .empty], [], by simp⟩

instance : Inhabited Environment := ⟨new⟩

/-- How many frames there are. -/
def depth (env : Environment) : Nat := env.frames.size

/-- Open a scope. -/
def pushScope (env : Environment) : Environment :=
  { env with frames := env.frames.push (.locals .empty), nonempty := by simp }

/-- Open a record. -/
def pushRecord (env : Environment) (r : RecordId) : Environment :=
  { env with frames := env.frames.push (.record r), nonempty := by simp }

/-- Drop frames until `depth` of them are left; one always is. -/
def truncate (env : Environment) (depth : Nat) : Environment :=
  { env with
    frames := env.frames.shrink (max depth 1)
    nonempty := by have := env.nonempty; rw [Array.size_shrink]; omega }

/-- Drop the innermost frame, but never the last one. -/
def pop (env : Environment) : Environment :=
  if h : env.depth ≤ 1 then env
  else { env with frames := env.frames.pop, nonempty := by simp only [depth] at h; simp; omega }

/-- Make a record the active one. -/
def enter (env : Environment) (r : RecordId) : Environment := { env with active := r :: env.active }

/-- Make the record active that was so before. -/
def leave (env : Environment) : Environment := { env with active := env.active.tail }

/-- The receiver of the innermost call that has one. -/
def active? (env : Environment) : Option RecordId := env.active.head?

/-! ## Holders -/

/-- The value of a name in its holder. -/
def get? (env : Environment) (heap : Heap) (name : String) : Holder → Option Value
  | .locals index => env.frames[index]?.bind (Frame.get? heap name)
  | .record r => heap.property? r name

/-- Give a name a value in a holder. -/
def put (env : Environment) (heap : Heap) (name : String) (value : Value) : Holder → Environment × Heap
  | .locals index =>
    ({ env with
        frames := env.frames.modify index (Frame.setLocal name value)
        nonempty := by simpa using env.nonempty }, heap)
  | .record r => (env, heap.set r name value)

/-- What the innermost frame holds names in. -/
def innermost (env : Environment) : Holder :=
  (env.frames.back?.map (Frame.holder (env.depth - 1))).getD (.locals 0)

/-- What holds a name with this mark in the innermost of the first `n` frames that has it. -/
def holderBelow? (env : Environment) (heap : Heap) (m : UInt64) (name : String) : Nat → Option Holder
  | 0 => none
  | n + 1 =>
    match env.frames[n]? with
    | some frame =>
      if frame.hasMarked heap m name then some (frame.holder n) else env.holderBelow? heap m name n
    | none => env.holderBelow? heap m name n

/-- What holds a name in the innermost frame that has it. -/
def holder? (env : Environment) (heap : Heap) (name : String) : Option Holder :=
  env.holderBelow? heap (mark name) name env.depth

/-! ## Names -/

/-- Give a name a value in the innermost frame. -/
def define (env : Environment) (heap : Heap) (name : String) (value : Value) : Environment × Heap :=
  env.put heap name value env.innermost

/-- The value of a name: the innermost frame that has it tells, and after all frames the active record. -/
def lookup (env : Environment) (heap : Heap) (name : String) : Option Value :=
  match env.holder? heap name with
  | some holder => env.get? heap name holder
  | none => env.active?.bind fun r => heap.property? r name

/-- Whether a name has a value. -/
def isBound (env : Environment) (heap : Heap) (name : String) : Bool := (env.lookup heap name).isSome

/-- What an assignment to a name changes: the active record if it has the name, the innermost frame that has
it otherwise. -/
def target? (env : Environment) (heap : Heap) (name : String) : Option Holder :=
  match env.active?.filter fun r => heap.has r name with
  | some r => some (.record r)
  | none => env.holder? heap name

/-- Give a name a new value where it has one. Nothing comes back for a name without a value. -/
def assign (env : Environment) (heap : Heap) (name : String) (value : Value) :
    Option (Environment × Heap) :=
  (env.target? heap name).map fun holder => env.put heap name value holder

/-- The names of the outermost frame. -/
def globals (env : Environment) (heap : Heap) : Bindings :=
  (env.frames[0]?.map (Frame.names heap)).getD .empty

/-! ## What lives -/

/-- The values that the environment keeps. -/
def kept (env : Environment) : List Value :=
  env.active.map Value.record ++ env.frames.toList.flatMap fun
    | .locals names => names.values
    | .record r => [.record r]

/-- Whether a record stands open. -/
def opens (env : Environment) (r : RecordId) : Bool :=
  env.frames.any fun
    | .locals _ => false
    | .record q => q = r

end Environment

end DynScript
