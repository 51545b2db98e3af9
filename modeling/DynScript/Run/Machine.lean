import DynScript.Fault.Basic
import DynScript.Run.CallStack
import DynScript.Run.Environment
import DynScript.Run.World
import DynScript.Tree.Defect
import DynScript.Value.Liveness

/-!
# Machines

The state in which a unit is evaluated, and the steps that evaluation is made of. A step ends in a value or is
interrupted; whatever happened before an interruption stays. What a step opens, a scope or a call, it closes
again also when it is interrupted: `Eval.afterwards` is the only way in which this is said, and
`Eval.finishing` the only way in which a step looks at the end of another.

Steps also carry the values that unfinished expressions around them hold, because a function that is stored
in a record does not keep the record, and what it sees depends on what else does.
-/

namespace DynScript

/-- The state in which a unit is evaluated. -/
structure Machine where
  /-- What all units share. -/
  world : World
  /-- The names that the unit sees. -/
  env : Environment
  /-- The calls in progress. -/
  calls : CallStack
  /-- The unit whose nodes are being evaluated. -/
  unit : UnitId
  /-- What the unit has exported so far. -/
  exports : Bindings
  /-- The directory that relative imports start from. -/
  directory : Path
deriving Inhabited

/-- Why an evaluation cannot go on although the program is not at fault. -/
inductive Stuck where
  /-- A defect of the tree. -/
  | defect (d : Defect)
  /-- The bound on the nesting of steps was too small. -/
  | outOfFuel
deriving DecidableEq, Repr, Inhabited

/-- Why a step has no value. -/
inductive Interruption where
  /-- A fault of the program, or a signal. -/
  | fault (f : Fault)
  /-- The evaluation is stuck. -/
  | stuck (s : Stuck)
deriving Inhabited

/-- A step of an evaluation, given the values that unfinished expressions hold. -/
abbrev Eval (α : Type) : Type := ReaderT (List Value) (ExceptT Interruption (StateM Machine)) α

namespace Machine

/-- The values that are kept when unfinished expressions hold the given ones. -/
def kept (m : Machine) (held : List Value) : List Value :=
  held ++ m.env.kept ++ m.calls.kept ++ m.exports.values ++ m.world.cache.kept

/-- Whether a record is the receiver of a call, held, or stands open: the common reasons to live. -/
def shows (m : Machine) (held : List Value) (r : RecordId) : Bool :=
  m.env.active.contains r || (held.any fun v => v.record? = some r) || m.env.opens r

/-- Let the heap find out which records have died. -/
def sweep (m : Machine) (held : List Value) : Machine :=
  { m with world := { m.world with heap := m.world.heap.sweep (m.kept held) } }

/-- Whether a record lives. Only if nothing tells it at once, the heap finds out about all records. -/
def lives (m : Machine) (held : List Value) (r : RecordId) : Bool × Machine :=
  if !m.world.heap.present.contains r then (false, m)
  else if m.shows held r then (true, m)
  else if (m.kept held).any (·.keepsRecord r) then (true, m)
  else
    let m := m.sweep held
    (m.world.heap.present.contains r, m)

end Machine

namespace Eval

/-- Make a step from a machine, when no value is held. -/
def runOn (x : Eval α) (m : Machine) : Except Interruption α × Machine := (x []).run.run m

/-- Make a step and go on, in whatever way it ended. -/
def finishing (x : Eval α)
    (f : Except Interruption α → Machine → Except Interruption β × Machine) : Eval β := fun held =>
  ExceptT.mk fun m =>
    let (result, m) := (x held).run.run m
    pure (f result m)

/-! ## Interruptions -/

/-- Stop with a fault whose place is not known yet. -/
def fail (cause : Cause) : Eval α := throw (.fault (.ofCause cause))

/-- Stop with a fault at a place. -/
def failAt (position : Option Position) (cause : Cause) : Eval α :=
  throw (.fault ((Fault.ofCause cause).locatedAt position))

/-- Stop because a node is not there, or stands where it may not stand. -/
def defect (d : Defect) : Eval α := throw (.stuck (.defect d))

/-- Take a value, or stop with a fault. -/
def ofExcept : Except Cause α → Eval α
  | .ok a => pure a
  | .error cause => fail cause

/-- Make a change to the machine after a step, however the step ends. -/
def afterwards (change : Machine → Machine) (x : Eval α) : Eval α :=
  finishing x fun result m => (result, change m)

/-- Change the faults that a step ends in, signals included. -/
def mapFault (f : Machine → Fault → Fault) (x : Eval α) : Eval α :=
  finishing x fun
    | .error (.fault fault), m => (.error (.fault (f m fault)), m)
    | result, m => (result, m)

/-- Where a fault has no place yet, it gets this one. -/
def locating (position : Option Position) (x : Eval α) : Eval α :=
  mapFault (fun _ fault => if fault.isSignal then fault else fault.locatedAt position) x

/-- A return that leaves a step is the value of the step. -/
def catchReturn (x : Eval Value) : Eval Value :=
  finishing x fun
    | .error (.fault ⟨.returning value, _, _⟩), m => (.ok value, m)
    | result, m => (result, m)

/-- Make a step and tell whether a return left it. -/
def returned (x : Eval Value) : Eval Bool :=
  finishing x fun
    | .ok _, m => (.ok false, m)
    | .error (.fault ⟨.returning _, _, _⟩), m => (.ok true, m)
    | .error interruption, m => (.error interruption, m)

/-- Make a step and look at the fault that it ends in, if it does. -/
def attempt (x : Eval α) : Eval (Except Fault α) :=
  finishing x fun
    | .ok a, m => (.ok (.ok a), m)
    | .error (.fault fault), m => (.ok (.error fault), m)
    | .error interruption, m => (.error interruption, m)

/-- Make a step while a value is held. -/
def holding (value : Value) (x : Eval α) : Eval α := withReader (value :: ·) x

/-- Make a step while several values are held. -/
def holdingAll (values : List Value) (x : Eval α) : Eval α := withReader (values ++ ·) x

/-! ## Nodes and records -/

/-- A node of a unit. -/
def nodeIn (unit : UnitId) (id : NodeId) : Eval Node := do
  match (← get).world.node? unit id with
  | some node => return node
  | none => defect (.missingNode id)

/-- The number of a node means something only while the unit that it comes from is evaluated. -/
def requireUnit (unit : UnitId) (id : NodeId) : Eval Unit := do
  if (← get).unit ≠ unit then defect (.foreignNode id)

/-- A node of the unit that is being evaluated, by a number that comes from a unit. -/
def nodeOf (unit : UnitId) (id : NodeId) : Eval Node := do
  requireUnit unit id
  nodeIn unit id

/-- The statements of a block; nothing for any other node. -/
def blockItems? (unit : UnitId) (id : NodeId) : Eval (Option (List NodeId)) := do
  match (← nodeOf unit id).kind with
  | .block items => return some items
  | _ => return none

/-- The records. -/
def heap : Eval Heap := return (← get).world.heap

/-- Change the records. -/
def modifyHeap (f : Heap → Heap) : Eval Unit :=
  modify fun m => { m with world := { m.world with heap := f m.world.heap } }

/-- Work in the world. -/
def onWorld (f : World → α × World) : Eval α :=
  modifyGet fun m =>
    let (a, world) := f m.world
    (a, { m with world := world })

/-- Change the records and take what comes back. -/
def onHeap (f : Heap → α × Heap) : Eval α :=
  modifyGet fun m =>
    let (a, heap) := f m.world.heap
    (a, { m with world := { m.world with heap := heap } })

/-- Make a list. -/
def newList (items : Array Value) : Eval Value := onHeap (Heap.newList · items)

/-- Give a property of a record a value. -/
def setProperty (r : RecordId) (name : String) (value : Value) : Eval Unit :=
  modifyHeap fun h => h.set r name value

/-- Whether a record lives. -/
def lives (r : RecordId) : Eval Bool := do
  let held ← read
  modifyGet fun m => m.lives held r

/-- A function as it is read out of a record, which lives: the function keeps the record that it sees. -/
def holdReceiver (owner : RecordId) (f : Function) : Eval Function :=
  holding (.record owner) (f.holding fun r => if r = owner then pure true else lives r)

/-- The record that a function sees. -/
def receiverOf (f : Function) : Eval (Option RecordId) := f.receiver? lives

/-! ## Names -/

/-- The value of a name, if it has one. -/
def lookup? (name : String) : Eval (Option Value) := do
  let m ← get
  return m.env.lookup m.world.heap name

/-- What an assignment to a name changes. -/
def target? (name : String) : Eval (Option Holder) := do
  let m ← get
  return m.env.target? m.world.heap name

/-- Give a name a value in a holder. -/
def put (holder : Holder) (name : String) (value : Value) : Eval Unit :=
  modify fun m =>
    let (env, heap) := m.env.put m.world.heap name value holder
    { m with env := env, world := { m.world with heap := heap } }

/-- Give a name a value in the innermost frame. -/
def define (name : String) (value : Value) : Eval Unit := do
  put (← get).env.innermost name value

/-- Give a name a new value where it has one. -/
def assign (name : String) (value : Value) : Eval Unit := do
  match ← target? name with
  | some holder => put holder name value
  | none => fail (.unboundName name)

/-! ## What is opened and closed -/

/-- Make a step after `push` has opened a frame. Then the frames are cut back to those that stood before. -/
def inFrame (push : Environment → Environment) (x : Eval α) : Eval α := do
  let depth := (← get).env.depth
  modify fun m => { m with env := push m.env }
  afterwards (fun m => { m with env := m.env.truncate depth }) x

/-- Make a step in a scope of its own. -/
def inScope (x : Eval α) : Eval α := inFrame Environment.pushScope x

/-- Make a step with the properties of a record standing open. -/
def inRecord (r : RecordId) (x : Eval α) : Eval α := inFrame (·.pushRecord r) x

/-- Make a step with a record as the active one. -/
def withActive (r : RecordId) (x : Eval α) : Eval α := do
  modify fun m => { m with env := m.env.enter r }
  afterwards (fun m => { m with env := m.env.leave }) x

/-- Make a step as the method of a record, if there is one: the record stands open and is active. -/
def asMethodOf (receiver : Option RecordId) (x : Eval α) : Eval α :=
  match receiver with
  | some r => withActive r (inRecord r x)
  | none => x

/-- Make a step with the nodes of another unit. -/
def inUnit (unit : UnitId) (x : Eval α) : Eval α := do
  let outer := (← get).unit
  modify fun m => { m with unit := unit }
  afterwards (fun m => { m with unit := outer }) x

/-- Make a step as a call. Faults that leave it tell how it was reached. -/
def inCall (frame : CallFrame) (x : Eval α) : Eval α := do
  if let some cause := (← get).calls.refusal? then fail cause
  modify fun m => { m with calls := m.calls.enter frame }
  afterwards (fun m => { m with calls := m.calls.pop })
    (mapFault (fun m fault => m.calls.attachBacktrace m.world.heap fault) x)

end Eval

end DynScript
