import DynScript.Fault.Basic
import DynScript.Value.Display

/-!
# Call stacks

The calls of functions in progress, with the values that their parameters were given. They bound how deeply
calls may nest, and they tell how a fault was reached.
-/

namespace DynScript

/-- A call in progress. -/
structure CallFrame where
  /-- The name of the function, if it has one. -/
  name : Option String
  /-- The parameters with the arguments. -/
  params : List (String × Value)
  /-- The position of the call. -/
  callSite : Option Position
deriving Inhabited

namespace CallFrame

/-- A call as a backtrace shows it: the arguments are written as they are now. -/
def toBacktrace (frame : CallFrame) (heap : Heap) : BacktraceFrame :=
  ⟨frame.name.getD BacktraceFrame.anonymous,
    frame.params.map fun (name, value) => name ++ " = " ++ heap.text value,
    frame.callSite⟩

end CallFrame

/-- The calls in progress and how many there may be. -/
structure CallStack where
  /-- The calls, the outermost first. -/
  frames : Array CallFrame
  /-- How many calls there may be. -/
  maxDepth : Nat
deriving Inhabited

namespace CallStack

/-- How deeply calls may nest unless something else is asked for. -/
def defaultMaxDepth : Nat := 10000

/-- No calls. -/
def ofMaxDepth (maxDepth : Nat) : CallStack := ⟨#[], maxDepth⟩

/-- How many calls are in progress. -/
def depth (calls : CallStack) : Nat := calls.frames.size

/-- Whether no call is in progress. -/
def isEmpty (calls : CallStack) : Bool := calls.frames.isEmpty

/-- Why no further call may begin: there are as many as there may be. -/
def refusal? (calls : CallStack) : Option Cause :=
  if calls.maxDepth ≤ calls.depth then some (.stackExhausted calls.maxDepth) else none

/-- Begin a call, however many there are. -/
def enter (calls : CallStack) (frame : CallFrame) : CallStack :=
  { calls with frames := calls.frames.push frame }

/-- Begin a call, unless there are as many as there may be. -/
def push (calls : CallStack) (frame : CallFrame) : Except Cause CallStack :=
  match calls.refusal? with
  | some cause => .error cause
  | none => .ok (calls.enter frame)

/-- End the innermost call. -/
def pop (calls : CallStack) : CallStack := { calls with frames := calls.frames.pop }

/-- The calls as a backtrace shows them, the innermost first. -/
def capture (calls : CallStack) (heap : Heap) : Backtrace :=
  ⟨(calls.frames.toList.map fun frame => frame.toBacktrace heap).reverse⟩

/-- Add a backtrace to a fault, unless it has one, is a signal, or no call is in progress. -/
def attachBacktrace (calls : CallStack) (heap : Heap) (fault : Fault) : Fault :=
  if calls.isEmpty || fault.backtrace.isSome || fault.isSignal then fault
  else fault.withBacktrace (calls.capture heap)

/-- The values that the calls keep. -/
def kept (calls : CallStack) : List Value :=
  calls.frames.toList.flatMap fun frame => frame.params.map Prod.snd

end CallStack

end DynScript
