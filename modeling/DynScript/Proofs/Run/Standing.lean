import Mathlib.Data.List.ReduceOption
import DynScript.Proofs.Run.Assigning
import DynScript.Proofs.Run.Moments

/-!
# What stands open

A method has its receiver as the active record and as a frame below its own. Inside of it scopes and records are opened
and cut off again, and in the end its frames are cut off before the receiver is left. What stands open in an environment
are its `Openings`: the records of the frames, and the active records. They are covered if each active record has a frame
of its own, in the same order. Then the frames alone tell the value of a name, for whatever the active record has is
found in a frame already.

`Eval.Covering` relates two steps that do the same and leave open what stood open, where this was covered. Evaluation is
put together so that it keeps this relation. After the frames of a method are cut off and before its receiver is left the
receiver is active without a frame, but nothing is looked up there.
-/

namespace DynScript

/-- What stands open, whatever the variables are. -/
structure Openings where
  /-- The record of each frame and nothing for the variables of a scope, the innermost frame first. -/
  frames : List (Option RecordId)
  /-- The active records, the innermost first. -/
  active : List RecordId
deriving DecidableEq

namespace Openings

variable {o : Openings}

/-- Each active record has a frame of its own, and they are in the same order. -/
def Covered (o : Openings) : Prop := o.active.Sublist o.frames.reduceOption

instance : DecidablePred Covered := fun o => inferInstanceAs (Decidable (o.active.Sublist o.frames.reduceOption))

/-- One more frame. -/
def push (o : Openings) (frame : Option RecordId) : Openings := { o with frames := frame :: o.frames }

/-- One more active record. -/
def enter (o : Openings) (r : RecordId) : Openings := { o with active := r :: o.active }

theorem Covered.push (ho : o.Covered) (frame : Option RecordId) : (o.push frame).Covered := by
  cases frame with
  | none => exact ho
  | some r => exact ho.cons r

/-- The record of a method is active and stands open. -/
theorem Covered.method (ho : o.Covered) (r : RecordId) : ((o.enter r).push (some r)).Covered := ho.cons_cons r

/-- The innermost active record stands open somewhere. -/
theorem Covered.head (ho : o.Covered) {r : RecordId} (hr : o.active.head? = some r) : some r ∈ o.frames :=
  List.reduceOption_mem_iff.1 (ho.subset (List.mem_of_head? hr))

/-- The order of the frames matters: here the method of one record has called that of another one. -/
example : Openings.Covered ⟨[none, some ⟨1⟩, none, some ⟨0⟩, none], [⟨1⟩, ⟨0⟩]⟩ ∧
    ¬Openings.Covered ⟨[none, some ⟨1⟩, none, some ⟨0⟩, none], [⟨0⟩, ⟨1⟩]⟩ := by
  decide

end Openings

/-- The record whose properties are the names of a frame. -/
def Frame.record? : Frame → Option RecordId
  | locals _ => none
  | record r => some r

namespace Environment

variable {env : Environment} {h : Heap} {name : String}

/-- What stands open in an environment. -/
def openings (env : Environment) : Openings := ⟨(env.frames.toList.map Frame.record?).reverse, env.active⟩

/-- The value of a name by a search of the frames alone: the innermost frame that has it tells. -/
def seek (env : Environment) (h : Heap) (name : String) : Option Value :=
  env.frames.toList.reverse.findSome? (Frame.get? h name)

/-! ## Opening and closing -/

@[simp] theorem openings_pushScope (env : Environment) : env.pushScope.openings = env.openings.push none := by
  simp [openings, pushScope, Openings.push, Frame.record?]

@[simp] theorem openings_pushRecord (env : Environment) (r : RecordId) :
    (env.pushRecord r).openings = env.openings.push (some r) := by
  simp [openings, pushRecord, Openings.push, Frame.record?]

/-- Giving a name a value opens nothing. -/
@[simp] theorem openings_put (env : Environment) (h : Heap) (name : String) (v : Value) (holder : Holder) :
    (env.put h name v holder).1.openings = env.openings := by
  cases holder with
  | record r => rfl
  | locals index =>
    have hrecord (frame : Frame) : (frame.setLocal name v).record? = frame.record? := by cases frame <;> rfl
    have hmap : (env.frames.modify index (Frame.setLocal name v)).toList.map Frame.record? =
        env.frames.toList.map Frame.record? := by
      refine List.ext_getElem? fun i => ?_
      rw [List.getElem?_map, List.getElem?_map, Array.getElem?_toList, Array.getElem?_toList, Array.getElem?_modify]
      split
      · rw [Option.map_map]
        exact congrArg (Option.map · _) (funext hrecord)
      · rfl
    exact congrArg (fun frames => (⟨frames.reverse, env.active⟩ : Openings)) hmap

/-- A frame that was opened last is cut off. -/
theorem openings_truncate {inner : Environment} {frame : Option RecordId}
    (hinner : inner.openings = env.openings.push frame) : (inner.truncate env.depth).openings = env.openings := by
  have hframes := congrArg Openings.frames hinner
  have hdepth : max env.depth 1 = env.depth := Nat.max_eq_left env.nonempty
  have hlength : inner.frames.size - env.depth = 1 := by
    have := congrArg List.length hframes
    simp only [openings, Openings.push, List.length_reverse, List.length_map, Array.length_toList,
      List.length_cons] at this
    unfold depth
    omega
  refine congrArg₂ Openings.mk ?_ (congrArg Openings.active hinner)
  calc ((inner.frames.shrink (max env.depth 1)).toList.map Frame.record?).reverse
      = inner.openings.frames.drop 1 := by
        rw [hdepth, Array.toList_shrink, List.map_take, List.reverse_take, List.length_map, Array.length_toList, hlength]
        rfl
    _ = env.openings.frames := by rw [hframes]; rfl

/-! ## Looking names up -/

/-- The frame that has a name tells its value. -/
theorem Finds.seek {i : Nat} {frame : Frame} (hf : env.Finds h name i frame) :
    env.seek h name = (frame.names h).get? name := by
  have hi : i < env.frames.toList.length := (Array.getElem?_eq_some_iff.1 hf.there).1
  have hframe : env.frames.toList[i] = frame := (Array.getElem?_eq_some_iff.1 hf.there).2
  have hsplit : env.frames.toList = env.frames.toList.take i ++ frame :: env.frames.toList.drop (i + 1) := by
    rw [← hframe, List.getElem_cons_drop, List.take_append_drop]
  have hinner : (env.frames.toList.drop (i + 1)).reverse.findSome? (Frame.get? h name) = none := by
    refine List.findSome?_eq_none_iff.2 fun inner hinner => ?_
    obtain ⟨j, hj, rfl⟩ := List.mem_drop_iff_getElem.1 (List.mem_reverse.1 hinner)
    refine Option.not_isSome_iff_eq_none.1 (hf.innermost (i + 1 + j) _ (by omega) ?_)
    exact Array.getElem?_eq_getElem _
  obtain ⟨v, hv⟩ := Option.isSome_iff_exists.1 hf.has
  have hvalue : frame.get? h name = some v := hv
  rw [Environment.seek, hsplit, List.reverse_append, List.reverse_cons, List.append_assoc, List.findSome?_append, hinner,
    Option.none_or, List.singleton_append, List.findSome?_cons, hvalue, hv]

/-- A lookup searches the frames, and then comes to the active record. -/
theorem lookup_eq_seek_or (env : Environment) (h : Heap) (name : String) :
    env.lookup h name = (env.seek h name).or (env.active?.bind fun r => h.property? r name) := by
  rcases env.finds_or_none h name with ⟨i, frame, hf⟩ | hnone
  · obtain ⟨v, hv⟩ := Option.isSome_iff_exists.1 hf.has
    rw [hf.lookup, hf.seek, hv, Option.some_or]
  · have hseek : env.seek h name = none := by
      refine List.findSome?_eq_none_iff.2 fun frame hframe => ?_
      exact Option.not_isSome_iff_eq_none.1 (hnone frame (Array.mem_toList_iff.1 (List.mem_reverse.1 hframe)))
    rw [lookup_of_none hnone, hseek, Option.none_or]

/-- Where the active records have their frames, the frames alone tell the value of a name. -/
theorem lookup_of_covered (hc : env.openings.Covered) (h : Heap) (name : String) :
    env.lookup h name = env.seek h name := by
  rw [lookup_eq_seek_or]
  cases hs : env.seek h name with
  | some v => rfl
  | none =>
    rw [Option.none_or]
    refine Option.bind_eq_none_iff.2 fun r hr => ?_
    -- The frame of the active record has been searched as well.
    obtain ⟨frame, hframe, hrecord⟩ := List.mem_map.1 (List.mem_reverse.1 (hc.head hr))
    cases frame with
    | locals names => cases hrecord
    | record q =>
      obtain rfl := Option.some.inj hrecord
      exact List.findSome?_eq_none_iff.1 hs _ (List.mem_reverse.2 hframe)

/-- For a record that is active without a frame the two differ. -/
example : (new.enter ⟨0⟩).lookup (Heap.empty.newRecord.2.set ⟨0⟩ "x" .nil) "x" = some .nil ∧
    (new.enter ⟨0⟩).seek (Heap.empty.newRecord.2.set ⟨0⟩ "x" .nil) "x" = none :=
  ⟨rfl, rfl⟩

end Environment

namespace Machine

/-- The active records have their frames, and the frames alone tell the value of each name. -/
structure Covered (m : Machine) : Prop where
  /-- Each active record has a frame of its own, in the same order. -/
  openings : m.env.openings.Covered
  /-- The active record does not decide what a name means. -/
  lookup : ∀ name, m.env.lookup m.world.heap name = m.env.seek m.world.heap name

theorem covered_of_openings {m : Machine} (h : m.env.openings.Covered) : m.Covered :=
  ⟨h, Environment.lookup_of_covered h m.world.heap⟩

/-- In a machine for a unit only the global frame stands open. -/
theorem openings_start (world : World) (unit : UnitId) (directory : Path) (maxDepth : Nat) :
    (start world unit directory maxDepth).env.openings = ⟨[none], []⟩ := by
  have hput := Environment.new.openings_put world.heap.newNamespace.2 Native.namespaceName
    (.record world.heap.newNamespace.1) Environment.new.innermost
  exact hput.trans rfl

end Machine

namespace Eval

variable {α β : Type}

/-- Where what stands open is covered, the second step does what the first one does, and as much stands open afterwards. -/
def Covering (x y : Eval α) : Prop := ∀ o : Openings, o.Covered → SameWhile (fun m => m.env.openings = o) x y

/-- A frame is opened and cut off again. -/
theorem SameWhile.inOpening {o : Openings} {frame : Option RecordId} {push : Environment → Environment}
    (hpush : ∀ env, (push env).openings = env.openings.push frame) {x y : Eval α}
    (h : SameWhile (fun m => m.env.openings = o.push frame) x y) :
    SameWhile (fun m => m.env.openings = o) (Eval.inFrame push x) (Eval.inFrame push y) := by
  rintro held m rfl
  obtain ⟨hn, hsame⟩ := h held { m with env := push m.env } (hpush m.env)
  exact ⟨Environment.openings_truncate hn,
    congrArg (fun r => (r.1, { r.2 with env := r.2.env.truncate m.env.depth })) hsame⟩

/-- A record is made the active one and left again. -/
theorem SameWhile.whileActive {o : Openings} (r : RecordId) {x y : Eval α}
    (h : SameWhile (fun m => m.env.openings = o.enter r) x y) :
    SameWhile (fun m => m.env.openings = o) (withActive r x) (withActive r y) :=
  h.between (fun _ hm => congrArg (Openings.enter · r) hm) fun _ hm =>
    congrArg (fun o : Openings => { o with active := o.active.tail }) hm

namespace Covering

variable {x y : Eval α}

theorem keeping (h : ∀ held (m : Machine), (x.runFrom held m).2.env.openings = m.env.openings) : Covering x x :=
  fun _ _ => .keeping fun held m hm => (h held m).trans hm

theorem still (hx : x.Still) : Covering x x := keeping fun held m => congrArg Environment.openings (hx.env held m)

theorem looking (hx : Looks x) : Covering x x := fun _ _ => .looking hx

theorem bind {k l : α → Eval β} (h : Covering x y) (hk : ∀ a, Covering (k a) (l a)) :
    Covering (x >>= k) (y >>= l) :=
  fun o ho => (h o ho).bind fun a => hk a o ho

theorem put (holder : Holder) (name : String) (v : Value) : Covering (put holder name v) (Eval.put holder name v) :=
  keeping fun _ m => m.env.openings_put m.world.heap name v holder

theorem define (name : String) (v : Value) : Covering (define name v) (Eval.define name v) :=
  bind (looking .get) fun _ => put _ _ _

theorem assign (name : String) (v : Value) : Covering (assign name v) (Eval.assign name v) := by
  refine bind (bind (looking .get) fun _ => looking (.pure _)) fun holder => ?_
  cases holder with
  | some holder => exact put _ _ _
  | none => exact looking (.throw _)

theorem inFrame {frame : Option RecordId} {push : Environment → Environment}
    (hpush : ∀ env, (push env).openings = env.openings.push frame) (h : Covering x y) :
    Covering (inFrame push x) (Eval.inFrame push y) :=
  fun o ho => .inOpening hpush (h (o.push frame) (ho.push frame))

/-- The record of a method stands open when it is the active one. -/
theorem withActive (r : RecordId) (h : Covering x y) :
    Covering (withActive r (inRecord r x)) (Eval.withActive r (inRecord r y)) :=
  fun _ ho => .whileActive r (.inOpening (fun env => env.openings_pushRecord r) (h _ (ho.method r)))

/-- A machine of its own has nothing to do with what stands open around it. -/
theorem inNewMachine (unit : CompiledUnit) (maxDepth : Nat) (h : Covering x y) :
    Covering (inNewMachine unit maxDepth x) (Eval.inNewMachine unit maxDepth y) := by
  intro _ _ held m hm
  obtain ⟨-, hsame⟩ := h ⟨[none], []⟩ (List.nil_sublist _) (m.kept held) _
    (Machine.openings_start (m.world.addUnit unit.program.arena).2 (m.world.addUnit unit.program.arena).1
      unit.directory maxDepth)
  exact ⟨hm, congrArg (fun r => (r.1, { m with world := r.2.world })) hsame⟩

theorem ending {f : Except Interruption α → Machine → Except Interruption β × Machine} (hf : Ending f)
    (h : Covering x y) : Covering (finishing x f) (finishing y f) :=
  fun o ho => (h o ho).finishing fun result m hm => (congrArg Environment.openings (hf.env result m)).trans hm

/-- All that a machine does is put together so that the active records keep their frames. -/
theorem loading : Loading fun x y => Covering x y where
  still := still
  bind := bind
  holding g _ _ h := fun o ho held m => h o ho (g held) m
  inScope := inFrame Environment.openings_pushScope
  inRecord r _ _ := inFrame fun env => env.openings_pushRecord r
  raise _ := looking (.throw _)
  define := define
  assign := assign
  ending := ending
  withActive r _ _ h _ := withActive r h
  inUnit unit _ _ h := fun o ho => .inUnit (fun _ _ hm => hm) unit (h o ho)
  inCall frame _ _ h := fun o ho => .inCall (fun _ _ hm => hm) frame (h o ho)
  blockItems? unit id := looking (.blockItems? unit id)
  functionParts f := looking (.functionParts f)
  memberParts unit id := looking (.memberParts unit id)
  templateParts t := looking (.templateParts t)
  inNewMachine unit maxDepth _ _ := inNewMachine unit maxDepth
  loadFile file _ _ h := bind (still (.located file)) fun path o ho => .loadOnce (fun _ _ hm => hm) path (h path o ho)

/-- At every moment the active records have their frames. -/
theorem watching (alarm : NodeId) (h : Covering x y) : Covering x (watching Machine.Covered alarm y) := by
  rintro _ ho held m rfl
  obtain ⟨hn, hsame⟩ := h _ ho held m rfl
  have hend : (y.runFrom held m).2.Covered := Machine.covered_of_openings (by rwa [hsame, hn])
  exact ⟨hn, (runFrom_watching alarm (Machine.covered_of_openings ho) hend).trans hsame⟩

end Covering

end Eval

end DynScript
