import DynScript.Proofs.Run.Frames
import DynScript.Proofs.Run.Operations
import DynScript.Proofs.Run.Steps
import DynScript.Proofs.Tree.Layout
import DynScript.Proofs.Value.Within
import DynScript.Run.Unit

/-!
# Machines of one unit

A machine is within a realm when all that it holds is, and when it evaluates the unit of the realm. What a step
does to such a machine is told by `Machine.Extends`: frames and records may take more names, and records may be
added. A name that has a value in a frame keeps one, and a step may be looked up in terms of names alone.
-/

namespace DynScript

/-! ## Frames -/

/-- All that a frame holds is within a realm. -/
def Frame.Within (ρ : Realm) : Frame → Prop
  | .locals names => names.Within ρ
  | .record r => ρ.Owns r

/-- The first frame may become the second one: variables may be added. -/
def Frame.GrowsTo : Frame → Frame → Prop
  | .locals names, .locals names' => names.GrowsTo names'
  | .record r, .record r' => r' = r
  | _, _ => False

/-- A holder may be changed. -/
def Holder.Within (ρ : Realm) : Holder → Prop
  | .locals _ => True
  | .record r => ρ.Owns r

namespace Frame

variable {ρ ρ' : Realm} {frame frame' : Frame} {h h' : Heap}

theorem Within.names (hf : frame.Within ρ) (hh : h.Within ρ) : (frame.names h).Within ρ := by
  cases frame with
  | locals names => exact hf
  | record r => exact hh.properties hf

theorem Within.holder (hf : frame.Within ρ) (index : Nat) : (frame.holder index).Within ρ := by
  cases frame with
  | locals names => trivial
  | record r => exact hf

theorem Within.setLocal (hf : frame.Within ρ) {v : Value} (hv : v.Within ρ) (name : String) :
    (frame.setLocal name v).Within ρ := by
  cases frame with
  | locals names => exact Bindings.Within.set hf hv name
  | record r => exact hf

theorem Within.widen (hρ : ρ.Widens ρ') (hf : frame.Within ρ) : frame.Within ρ' := by
  cases frame with
  | locals names => exact fun v hv => (hf v hv).widen hρ
  | record r => exact hρ.owns hf

theorem GrowsTo.refl (frame : Frame) : frame.GrowsTo frame := by
  cases frame with
  | locals names => exact fun _ hname => hname
  | record r => rfl

theorem GrowsTo.trans {frame'' : Frame} (hf : frame.GrowsTo frame') (hk : frame'.GrowsTo frame'') :
    frame.GrowsTo frame'' := by
  cases frame <;> cases frame' <;> cases frame'' <;> simp only [GrowsTo] at hf hk ⊢
  · exact Bindings.GrowsTo.trans hf hk
  · exact hk.trans hf

/-- The names of a frame have values later, too. -/
theorem GrowsTo.names (hf : frame.GrowsTo frame') (hh : h.GrowsTo h') :
    (frame.names h).GrowsTo (frame'.names h') := by
  cases frame <;> cases frame' <;> simp only [GrowsTo] at hf
  · exact hf
  · subst hf
    exact hh.has _

theorem growsTo_setLocal (frame : Frame) (name : String) (v : Value) :
    frame.GrowsTo (frame.setLocal name v) := by
  cases frame with
  | locals names => exact names.growsTo_set name v
  | record r => rfl

end Frame

/-! ## Environments -/

namespace Environment

/-- All that an environment holds is within a realm. -/
structure Within (ρ : Realm) (env : Environment) : Prop where
  /-- The frames. -/
  frames : ∀ frame ∈ env.frames, frame.Within ρ
  /-- The receivers. -/
  active : ∀ r ∈ env.active, ρ.Owns r

/-- The first environment may become the second one: frames may take more names. -/
structure GrowsTo (env env' : Environment) : Prop where
  /-- There are as many frames. -/
  depth : env'.depth = env.depth
  /-- Every frame may have grown. -/
  frames : ∀ (i : Nat) (frame : Frame), env.frames[i]? = some frame →
    ∃ frame', env'.frames[i]? = some frame' ∧ frame.GrowsTo frame'

/-- A name has a value in some frame. -/
def Binds (env : Environment) (heap : Heap) (name : String) : Prop :=
  ∃ frame ∈ env.frames, (frame.names heap).has name

/-- A name has a value in the outermost frame. -/
def BindsGlobally (env : Environment) (heap : Heap) (name : String) : Prop :=
  ∃ frame, env.frames[0]? = some frame ∧ (frame.names heap).has name

/-- A name has a value in the innermost frame. -/
def BindsInnermost (env : Environment) (heap : Heap) (name : String) : Prop :=
  ∃ frame, env.frames[env.depth - 1]? = some frame ∧ (frame.names heap).has name

/-- What is defined in the innermost frame can be found there: if that is a record, the record is there. -/
def Definable (env : Environment) (heap : Heap) : Prop :=
  ∀ r, env.frames.back? = some (.record r) → r.index < heap.size

variable {ρ ρ' : Realm} {env env' : Environment} {h h' : Heap} {name : String}

theorem BindsGlobally.binds (hb : env.BindsGlobally h name) : env.Binds h name := by
  obtain ⟨frame, hframe, hname⟩ := hb
  exact ⟨frame, Array.mem_of_getElem? hframe, hname⟩

theorem BindsInnermost.binds (hb : env.BindsInnermost h name) : env.Binds h name := by
  obtain ⟨frame, hframe, hname⟩ := hb
  exact ⟨frame, Array.mem_of_getElem? hframe, hname⟩

namespace GrowsTo

@[refl] theorem refl (env : Environment) : env.GrowsTo env := ⟨rfl, fun _ frame hf => ⟨frame, hf, .refl frame⟩⟩

theorem trans {env'' : Environment} (he : env.GrowsTo env') (hk : env'.GrowsTo env'') : env.GrowsTo env'' := by
  refine ⟨hk.depth.trans he.depth, fun i frame hf => ?_⟩
  obtain ⟨frame', hf', hgrows⟩ := he.frames i frame hf
  obtain ⟨frame'', hf'', hgrows'⟩ := hk.frames i frame' hf'
  exact ⟨frame'', hf'', hgrows.trans hgrows'⟩

theorem binds (he : env.GrowsTo env') (hh : h.GrowsTo h') (hb : env.Binds h name) : env'.Binds h' name := by
  obtain ⟨frame, hframe, hname⟩ := hb
  obtain ⟨i, hi⟩ := Array.mem_iff_getElem?.1 hframe
  obtain ⟨frame', hframe', hgrows⟩ := he.frames i frame hi
  exact ⟨frame', Array.mem_of_getElem? hframe', hgrows.names hh name hname⟩

theorem bindsGlobally (he : env.GrowsTo env') (hh : h.GrowsTo h') (hb : env.BindsGlobally h name) :
    env'.BindsGlobally h' name := by
  obtain ⟨frame, hframe, hname⟩ := hb
  obtain ⟨frame', hframe', hgrows⟩ := he.frames 0 frame hframe
  exact ⟨frame', hframe', hgrows.names hh name hname⟩

theorem innermost_record (he : env.GrowsTo env') {r : RecordId} (hr : env.frames[env.depth - 1]? = some (.record r)) :
    env'.frames[env'.depth - 1]? = some (.record r) := by
  obtain ⟨frame', hframe', hgrows⟩ := he.frames _ _ hr
  cases frame' with
  | locals names => cases hgrows
  | record r' =>
    obtain rfl : r' = r := hgrows
    rwa [he.depth]

theorem opens (he : env.GrowsTo env') {r : RecordId} (hr : Frame.record r ∈ env.frames) :
    Frame.record r ∈ env'.frames := by
  obtain ⟨i, hi⟩ := Array.mem_iff_getElem?.1 hr
  obtain ⟨frame', hframe', hgrows⟩ := he.frames i _ hi
  cases frame' with
  | locals names => cases hgrows
  | record r' =>
    obtain rfl : r' = r := hgrows
    exact Array.mem_of_getElem? hframe'

theorem definable (he : env.GrowsTo env') (hh : h.GrowsTo h') (hd : env.Definable h) : env'.Definable h' := by
  intro r hr
  rw [Array.back?_eq_getElem?] at hr
  obtain ⟨frame, hframe, -⟩ := env.exists_innermost
  obtain ⟨frame', hframe', hgrows⟩ := he.frames _ _ hframe
  rw [← he.depth] at hframe'
  obtain rfl : frame' = .record r := Option.some.inj (hframe'.symm.trans hr)
  cases frame with
  | locals names => cases hgrows
  | record q =>
    obtain rfl : r = q := hgrows
    exact (hd r (Array.back?_eq_getElem?.trans hframe)).trans_le hh.size

/-- A change of one variable. -/
theorem put (env : Environment) (h : Heap) (name : String) (v : Value) (holder : Holder) :
    env.GrowsTo (env.put h name v holder).1 := by
  cases holder with
  | locals index =>
    refine ⟨Eval.Plain.depth_put env h name v _, fun i frame hf => ?_⟩
    show ∃ frame', (env.frames.modify index (Frame.setLocal name v))[i]? = some frame' ∧ _
    rw [Array.getElem?_modify, hf]
    split
    · exact ⟨_, rfl, frame.growsTo_setLocal name v⟩
    · exact ⟨_, rfl, .refl frame⟩
  | record r => exact refl env

/-- Frames that are opened and cut off again leave those that stood before. -/
theorem of_inner {inner : Environment} (hsize : inner.frames.size = env.frames.size + 1)
    (hsame : ∀ i, i < env.frames.size → inner.frames[i]? = env.frames[i]?) (hg : inner.GrowsTo env') :
    env.GrowsTo (env'.truncate env.depth) := by
  have hpos := env.size_frames_pos
  have hmax : max env.depth 1 = env.frames.size := max_eq_left hpos
  have hsize' : env'.frames.size = env.frames.size + 1 := hg.depth.trans hsize
  refine ⟨?_, fun i frame hf => ?_⟩
  · have hshrink : (env'.truncate env.depth).depth = min (max env.depth 1) env'.depth := Array.size_shrink
    rw [hshrink, hmax]
    show min env.frames.size env'.frames.size = env.frames.size
    omega
  · have hi : i < env.frames.size := (Array.getElem?_eq_some_iff.1 hf).1
    rw [getElem?_truncate (by omega)]
    exact hg.frames i frame ((hsame i hi).trans hf)

end GrowsTo

namespace Within

theorem pushScope (he : env.Within ρ) : env.pushScope.Within ρ where
  frames frame hf := by
    rcases Array.mem_push.1 hf with hf | rfl
    · exact he.frames frame hf
    · exact Bindings.within_empty ρ
  active := he.active

theorem pushRecord (he : env.Within ρ) {r : RecordId} (hr : ρ.Owns r) : (env.pushRecord r).Within ρ where
  frames frame hf := by
    rcases Array.mem_push.1 hf with hf | rfl
    · exact he.frames frame hf
    · exact hr
  active := he.active

theorem truncate (he : env.Within ρ) (depth : Nat) : (env.truncate depth).Within ρ :=
  ⟨fun frame hf => he.frames frame (mem_frames_truncate hf), he.active⟩

theorem enter (he : env.Within ρ) {r : RecordId} (hr : ρ.Owns r) : (env.enter r).Within ρ where
  frames := he.frames
  active q hq := by
    rcases List.mem_cons.1 hq with rfl | hq
    · exact hr
    · exact he.active q hq

theorem leave (he : env.Within ρ) : env.leave.Within ρ :=
  ⟨he.frames, fun r hr => he.active r (List.mem_of_mem_tail hr)⟩

theorem widen (hρ : ρ.Widens ρ') (he : env.Within ρ) : env.Within ρ' :=
  ⟨fun frame hf => (he.frames frame hf).widen hρ, fun r hr => hρ.owns (he.active r hr)⟩

theorem innermost (he : env.Within ρ) : env.innermost.Within ρ := by
  obtain ⟨frame, hframe, hholder⟩ := env.exists_innermost
  rw [hholder]
  exact (he.frames frame (Array.mem_of_getElem? hframe)).holder _

end Within

/-! ### Finding names -/

/-- A name that has a value in some frame is found in the innermost one that has it. -/
theorem Binds.finds (hb : env.Binds h name) : ∃ i frame, env.Finds h name i frame := by
  obtain ⟨frame, hframe, hname⟩ := hb
  exact (env.finds_or_none h name).resolve_right fun hnone => hnone frame hframe hname

/-- It has a value. -/
theorem Binds.lookup (hb : env.Binds h name) : ∃ v, env.lookup h name = some v := by
  obtain ⟨i, frame, hf⟩ := hb.finds
  rw [hf.lookup]
  exact Option.isSome_iff_exists.1 hf.has

/-- It can be assigned to. -/
theorem Binds.target? (hb : env.Binds h name) : ∃ holder, env.target? h name = some holder := by
  obtain ⟨i, frame, hf⟩ := hb.finds
  unfold Environment.target?
  split
  · exact ⟨_, rfl⟩
  · exact ⟨_, hf.holder?⟩

namespace Within

theorem target? (he : env.Within ρ) {holder : Holder} (ht : env.target? h name = some holder) :
    holder.Within ρ := by
  rcases target?_cases ht with ⟨r, hr, -, rfl⟩ | ⟨-, hholder⟩
  · exact he.active r (List.mem_of_head? hr)
  · obtain ⟨i, frame, hf, rfl⟩ := finds_of_holder? hholder
    exact (he.frames frame hf.mem).holder i

theorem lookup (he : env.Within ρ) (hh : h.Within ρ) {v : Value} (hv : env.lookup h name = some v) :
    v.Within ρ := by
  rcases lookup_cases hv with ⟨frame, hframe, hv⟩ | ⟨r, hr, hv⟩
  · exact ((he.frames frame hframe).names hh).get? hv
  · exact hh.property? (he.active r (List.mem_of_head? hr)) hv

theorem put (he : env.Within ρ) (hh : h.Within ρ) {holder : Holder} (hs : holder.Within ρ) {v : Value}
    (hv : v.Within ρ) (name : String) :
    (env.put h name v holder).1.Within ρ ∧ (env.put h name v holder).2.Within ρ := by
  cases holder with
  | locals index =>
    refine ⟨⟨fun frame hf => ?_, he.active⟩, hh⟩
    rcases mem_frames_put hf with hf | ⟨old, hold, rfl⟩
    · exact he.frames frame hf
    · exact (he.frames old hold).setLocal hv name
  | record r => exact ⟨he, hh.set hs hv name⟩

end Within

theorem growsTo_put (env : Environment) (h : Heap) (name : String) (v : Value) (holder : Holder) :
    h.GrowsTo (env.put h name v holder).2 := by
  cases holder with
  | locals index => exact .refl h
  | record r => exact .set h r name v

/-- A name that is defined has a value in the innermost frame. -/
theorem bindsInnermost_define (hd : env.Definable h) (name : String) (v : Value) :
    (env.put h name v env.innermost).1.BindsInnermost (env.put h name v env.innermost).2 name := by
  obtain ⟨frame, hframe, hholder⟩ := env.exists_innermost
  unfold BindsInnermost
  rw [Eval.Plain.depth_put, hholder]
  cases frame with
  | locals names =>
    refine ⟨.locals (names.set name v), ?_, names.has_set_self name v⟩
    show (env.frames.modify (env.depth - 1) (Frame.setLocal name v))[env.depth - 1]? = _
    rw [Array.getElem?_modify, if_pos rfl, hframe]
    rfl
  | record r =>
    have hlast : env.frames.back? = some (.record r) := Array.back?_eq_getElem?.trans hframe
    exact ⟨.record r, hframe, Heap.has_set_self (hd r hlast) name v⟩

/-- A name that is defined has a value. -/
theorem binds_define (hd : env.Definable h) (name : String) (v : Value) :
    (env.put h name v env.innermost).1.Binds (env.put h name v env.innermost).2 name :=
  (bindsInnermost_define hd name v).binds

end Environment

/-! ## Machines -/

namespace Machine

/-- A machine that evaluates the unit of a realm, and all that it holds is within the realm. -/
structure Within (ρ : Realm) (m : Machine) : Prop where
  /-- The unit. -/
  unit : m.unit = ρ.unit
  /-- Its nodes. -/
  arena : m.world.units[ρ.unit.index]? = some ρ.arena
  /-- The records. -/
  heap : m.world.heap.Within ρ
  /-- The names. -/
  env : m.env.Within ρ
  /-- The exports. -/
  exports : m.exports.Within ρ
  /-- How deeply calls may nest. -/
  maxDepth : m.calls.maxDepth = ρ.maxDepth
  /-- The outermost frame has the names that it is to have. -/
  globals : ∀ name ∈ ρ.globals, m.env.BindsGlobally m.world.heap name

/-- The first machine may become the second one by a step: names, records and properties may be added. -/
structure Extends (m n : Machine) : Prop where
  /-- The frames. -/
  env : m.env.GrowsTo n.env
  /-- The records. -/
  heap : m.world.heap.GrowsTo n.world.heap
  /-- The calls in progress are the same. -/
  calls : n.calls = m.calls

namespace Extends

@[refl] theorem refl (m : Machine) : m.Extends m := ⟨.refl _, .refl _, rfl⟩

theorem trans {l m n : Machine} (h : l.Extends m) (k : m.Extends n) : l.Extends n :=
  ⟨h.env.trans k.env, h.heap.trans k.heap, k.calls.trans h.calls⟩

end Extends

/-- The value of a name is found in a machine. -/
def Binds (m : Machine) (name : String) : Prop := m.env.Binds m.world.heap name

theorem Binds.later {m n : Machine} {name : String} (hb : m.Binds name) (h : m.Extends n) : n.Binds name :=
  h.env.binds h.heap hb

namespace Within

variable {ρ ρ' : Realm} {m : Machine}

/-- A node of the unit is there. -/
theorem node? (hm : m.Within ρ) {id : NodeId} {kind : NodeKind} (hk : ρ.arena.kind? id = some kind) :
    ∃ position, m.world.node? ρ.unit id = some ⟨kind, position⟩ := by
  obtain ⟨position, hn⟩ := Arena.kind?_eq_some.1 hk
  exact ⟨position, Option.bind_eq_some_iff.2 ⟨ρ.arena, hm.arena, hn⟩⟩

/-- Records may change and be added. -/
theorem withHeap (hm : m.Within ρ) {h : Heap} (hh : h.Within ρ) (hg : m.world.heap.GrowsTo h) :
    Machine.Within ρ { m with world := { m.world with heap := h } } where
  unit := hm.unit
  arena := hm.arena
  heap := hh
  env := hm.env
  exports := hm.exports
  maxDepth := hm.maxDepth
  globals name hname := Environment.GrowsTo.bindsGlobally (.refl _) hg (hm.globals name hname)

/-- The names in force become others, those of the outermost frame included. -/
theorem withEnv (hm : m.Within ρ) {env : Environment} (he : env.Within ρ)
    (hglobal : env.frames[0]? = m.env.frames[0]?) : Machine.Within ρ { m with env := env } where
  unit := hm.unit
  arena := hm.arena
  heap := hm.heap
  env := he
  exports := hm.exports
  maxDepth := hm.maxDepth
  globals name hname := by
    obtain ⟨frame, hframe, hhas⟩ := hm.globals name hname
    exact ⟨frame, hglobal.trans hframe, hhas⟩

/-- The calls in progress do not matter, if they may nest as deeply. -/
theorem withCalls (hm : m.Within ρ) {calls : CallStack} (hc : calls.maxDepth = m.calls.maxDepth) :
    Machine.Within ρ { m with calls := calls } where
  unit := hm.unit
  arena := hm.arena
  heap := hm.heap
  env := hm.env
  exports := hm.exports
  maxDepth := hc.trans hm.maxDepth
  globals := hm.globals

/-- A change of the world apart from its units and records. -/
theorem withWorld (hm : m.Within ρ) {w : World} (hu : w.units = m.world.units) (hh : w.heap = m.world.heap) :
    Machine.Within ρ { m with world := w } where
  unit := hm.unit
  arena := hu ▸ hm.arena
  heap := hh ▸ hm.heap
  env := hm.env
  exports := hm.exports
  maxDepth := hm.maxDepth
  globals name hname := by
    show m.env.BindsGlobally w.heap name
    rw [hh]
    exact hm.globals name hname

/-- What is within a realm is within a wider one, if the outermost frame has the names that it is to have. -/
theorem widen (hρ : ρ.Widens ρ') (hm : m.Within ρ)
    (hglobals : ∀ name ∈ ρ'.globals, m.env.BindsGlobally m.world.heap name) : m.Within ρ' where
  unit := hm.unit.trans hρ.unit.symm
  arena := by
    rw [hρ.unit, hρ.arena]
    exact hm.arena
  heap := hm.heap.widen hρ
  env := hm.env.widen hρ
  exports v hv := (hm.exports v hv).widen hρ
  maxDepth := hm.maxDepth.trans hρ.maxDepth.symm
  globals := hglobals

end Within

/-- A unit starts without records of its own, and the only name that has a value is that of the host. -/
theorem within_start {ρ : Realm} {world : World} (hunits : world.units[ρ.unit.index]? = some ρ.arena)
    (hbase : ρ.base = world.heap.size) (hglobals : ∀ name ∈ ρ.globals, name = Native.namespaceName)
    (directory : Path) : (start world ρ.unit directory ρ.maxDepth).Within ρ := by
  obtain ⟨hheap, howns⟩ := (Heap.within_of_base hbase).newNamespace
  have hvalue : (Value.record world.heap.newNamespace.1).Within ρ := .record howns
  have hnew : Environment.new.Within ρ := by
    refine ⟨fun frame hframe => ?_, by simp [Environment.new]⟩
    obtain rfl : frame = .locals .empty := by simpa [Environment.new] using hframe
    exact Bindings.within_empty ρ
  obtain ⟨henv, hheap'⟩ := hnew.put hheap hnew.innermost hvalue Native.namespaceName
  refine ⟨rfl, hunits, hheap', henv, Bindings.within_empty ρ, rfl, fun name hname => ?_⟩
  obtain rfl := hglobals name hname
  exact ⟨_, rfl, Bindings.has_set_self .empty Native.namespaceName _⟩

end Machine

/-! ## Causes -/

/-- A fault that a run in a realm may end in. -/
structure Cause.Harmless (ρ : Realm) (cause : Cause) : Prop where
  /-- Names without a value may not be met, unless the realm says so. -/
  unbound : ∀ name, cause = .unboundName name → ρ.misses
  /-- A value that is returned is within the realm. -/
  returning : ∀ v, cause = .returning v → v.Within ρ

/-- What operations on values of a unit give is a value of the unit. -/
theorem Realm.accepts (ρ : Realm) : Accepts (Value.Within ρ) (Cause.Harmless ρ) where
  plain {v} hv := by
    cases v with
    | list id items => cases hv
    | function f => cases hv
    | record r => cases hv
    | _ => constructor
  list := by
    refine ⟨fun h => ?_, .list⟩
    cases h with
    | list hitems => exact hitems
  ordinary {cause} h := by
    constructor
    · rintro name rfl
      cases h
    · rintro v rfl
      cases h

end DynScript
