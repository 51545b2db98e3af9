import DynScript.Proofs.Run.Composing
import DynScript.Proofs.Run.Naming
import DynScript.Proofs.Value.Avoiding

/-!
# Machines that hide a record

A machine hides a record when no value that it holds is the record, although it may stand open and functions may see it.
`Machine.Leaves` says what may happen while nothing gets hold of the record: it takes no new names, and a property of it
changes only by an assignment to the name.
-/

namespace DynScript

variable {r q : RecordId}

/-! ## Machines -/

/-- No variable of a frame is a record. -/
def Frame.Avoids (r : RecordId) : Frame → Prop
  | .locals names => names.Avoids r
  | .record _ => True

theorem Frame.Avoids.setLocal {frame : Frame} (hf : frame.Avoids r) {v : Value} (hv : v.Avoids r) (name : String) :
    (frame.setLocal name v).Avoids r := by
  cases frame with
  | locals names => exact Bindings.Avoids.set hf hv name
  | record q => trivial

/-- Some unit has an assignment to a name. -/
def World.Assigns (w : World) (name : String) : Prop := ∃ unit id target value position position',
  w.node? unit id = some ⟨.assign target value, position⟩ ∧ w.node? unit target = some ⟨.ident name, position'⟩

namespace World

variable {w w' : World} {unit : UnitId} {id : NodeId} {node : Node} {name : String}

/-- The nodes of a unit stay when others are added. -/
theorem node?_later (h : w.units.toList <+: w'.units.toList) (hn : w.node? unit id = some node) :
    w'.node? unit id = some node := by
  obtain ⟨a, ha, hn⟩ := Option.bind_eq_some_iff.1 hn
  exact Option.bind_eq_some_iff.2 ⟨a, getElem?_of_prefix h ha, hn⟩

theorem Assigns.later (h : w.units.toList <+: w'.units.toList) (ha : w.Assigns name) : w'.Assigns name := by
  obtain ⟨unit, id, target, value, position, position', hassign, htarget⟩ := ha
  exact ⟨unit, id, target, value, position, position', node?_later h hassign, node?_later h htarget⟩

end World

namespace Machine

variable {l m n : Machine} {v : Value} {name : String} {holder : Holder}

/-- No value that a machine holds is a record. -/
structure Veils (r : RecordId) (m : Machine) : Prop where
  /-- The properties. -/
  heap : m.world.heap.Avoids r
  /-- The records of the modules. -/
  modules : ∀ entry ∈ m.world.cache.modules, entry.2 ≠ r
  /-- The variables. -/
  frames : ∀ frame ∈ m.env.frames, frame.Avoids r
  /-- The exports. -/
  exports : m.exports.Avoids r

/-- A record is there, and no value that a machine holds is the record. -/
structure Hides (r : RecordId) (m : Machine) : Prop extends Veils r m where
  /-- The record is there. -/
  there : r.index < m.world.heap.size

/-- The second machine may come of the first one without anything getting hold of a record. -/
structure Leaves (r : RecordId) (m n : Machine) : Prop where
  /-- What stands open. -/
  env : m.env.GrowsTo n.env
  /-- The unit that is evaluated. -/
  unit : n.unit = m.unit
  /-- The nodes of the units. -/
  units : m.world.units.toList <+: n.world.units.toList
  /-- The names of the record. -/
  record : m.world.heap.Gains r [] n.world.heap
  /-- A property changes by an assignment. -/
  values : ∀ name, n.world.heap.property? r name = m.world.heap.property? r name ∨ n.world.Assigns name

/-- Nothing has changed that has to do with names, nodes and records. -/
structure Unmoved (m n : Machine) : Prop where
  /-- The records. -/
  records : n.world.heap.records = m.world.heap.records
  /-- The modules that have been loaded. -/
  modules : n.world.cache.modules = m.world.cache.modules
  /-- The units. -/
  units : n.world.units = m.world.units
  /-- The frames. -/
  frames : n.env.frames = m.env.frames
  /-- The exports. -/
  exports : n.exports = m.exports
  /-- The unit that is evaluated. -/
  unit : n.unit = m.unit

namespace Leaves

theorem trans (h : l.Leaves r m) (k : m.Leaves r n) : l.Leaves r n where
  env := h.env.trans k.env
  unit := k.unit.trans h.unit
  units := h.units.trans k.units
  record := h.record.trans k.record
  values name := by
    rcases k.values name with hk | hk
    · rcases h.values name with hh | hh
      · exact .inl (hk.trans hh)
      · exact .inr (hh.later k.units)
    · exact .inr hk

/-- Where the frames stay and the record is spared. -/
theorem of_spares (hf : n.env.frames = m.env.frames) (hunit : n.unit = m.unit)
    (hunits : m.world.units.toList <+: n.world.units.toList) (hs : m.world.heap.Spares r n.world.heap) :
    m.Leaves r n where
  env := ⟨congrArg Array.size hf, fun _ frame h => ⟨frame, hf ▸ h, .refl frame⟩⟩
  unit := hunit
  units := hunits
  record := hs.gains
  values name := .inl (hs.property? name)

/-- Frames that are opened and cut off again make no difference. -/
theorem inFrame {env : Environment} {frame : Frame} (hpush : env.frames = m.env.frames.push frame)
    (h : Leaves r { m with env } n) : m.Leaves r { n with env := n.env.truncate m.env.depth } where
  env := .of_inner (by rw [hpush, Array.size_push]) (fun i hi => by rw [hpush, Environment.getElem?_push hi]) h.env
  unit := h.unit
  units := h.units
  record := h.record
  values := h.values

/-- A name is defined in the innermost frame, in which the record does not stand open. -/
theorem define (ho : m.env.innermost ≠ .record r) (name : String) (v : Value) :
    m.Leaves r { m with
      env := (m.env.put m.world.heap name v m.env.innermost).1
      world := { m.world with heap := (m.env.put m.world.heap name v m.env.innermost).2 } } := by
  have hs : m.world.heap.Spares r (m.env.put m.world.heap name v m.env.innermost).2 := by
    cases hholder : m.env.innermost with
    | locals index => exact .refl _
    | record q =>
      refine .set (fun hq => ho ?_) name v
      rw [hholder, hq]
  exact ⟨.put .., rfl, List.prefix_rfl, hs.gains, fun other => .inl (hs.property? other)⟩

/-- A name is given a new value where it has one. -/
theorem assign (ht : m.env.target? m.world.heap name = some holder) (ha : m.world.Assigns name) (v : Value) :
    m.Leaves r { m with
      env := (m.env.put m.world.heap name v holder).1
      world := { m.world with heap := (m.env.put m.world.heap name v holder).2 } } := by
  have hw := Environment.writes_put (Environment.isSome_slot?_of_target? ht) v
  have hrecord : m.world.heap.Gains r [] (m.env.put m.world.heap name v holder).2 := by
    refine ⟨hw.size.ge, fun other => ?_, hw.template r, hw.parent r, fun other f hf => ?_⟩
    · exact (Bool.eq_iff_iff.1 (hw.sameNames.slots other (.record r))).trans (or_iff_left List.not_mem_nil).symm
    · by_cases hslot : other = name ∧ Holder.record r = holder
      · obtain ⟨rfl, rfl⟩ := hslot
        -- What is kept in a record is bound to it.
        exact .inr (Value.receiver_of_boundTo (Option.some.inj (hw.now.symm.trans hf)))
      · exact .inl ((hw.others other (.record r) hslot).symm.trans hf)
  refine ⟨.put .., rfl, List.prefix_rfl, hrecord, fun other => ?_⟩
  by_cases hother : other = name
  · subst hother
    exact .inr ha
  · exact .inl (hw.others other (.record r) fun hsame => hother hsame.1)

end Leaves

namespace Unmoved

@[refl] theorem refl (m : Machine) : m.Unmoved m := ⟨rfl, rfl, rfl, rfl, rfl, rfl⟩

/-- Whether a record lives makes no difference to what it has. -/
theorem lives (m : Machine) (held : List Value) (q : RecordId) : m.Unmoved (m.lives held q).2 := by
  have hrecords := m.records_lives held q
  rw [m.snd_lives]
  exact ⟨hrecords, rfl, rfl, rfl, rfl, rfl⟩

theorem leaves (h : m.Unmoved n) : m.Leaves r n :=
  .of_spares h.frames h.unit (by rw [h.units]) (.of_records h.records)

theorem hides (h : m.Unmoved n) (hm : m.Hides r) : n.Hides r where
  heap := hm.heap.of_records h.records
  modules := by rw [h.modules]; exact hm.modules
  frames := by rw [h.frames]; exact hm.frames
  exports := by rw [h.exports]; exact hm.exports
  there := by
    unfold Heap.size
    rw [h.records]
    exact hm.there

end Unmoved

namespace Veils

/-- Another heap in which no property is the record. -/
theorem withHeap (hm : m.Veils r) {h : Heap} (hh : h.Avoids r) : Veils r (m.withHeap h) :=
  ⟨hh, hm.modules, hm.frames, hm.exports⟩

/-- What a name stands for is not the record. -/
theorem lookup (hm : m.Veils r) (hv : m.env.lookup m.world.heap name = some v) : v.Avoids r := by
  rw [Environment.lookup_eq] at hv
  obtain ⟨holder, -, hv⟩ := Option.bind_eq_some_iff.1 hv
  cases holder with
  | record q => exact hm.heap.property? hv
  | locals index =>
    obtain ⟨frame, hframe, hv⟩ := Option.bind_eq_some_iff.1 hv
    have havoids := hm.frames frame (Array.mem_of_getElem? hframe)
    cases frame with
    | locals names => exact Bindings.Avoids.get? havoids hv
    | record q => cases hv

end Veils

namespace Hides

/-- Another heap in which the record is spared. -/
theorem withHeap (hm : m.Hides r) {h : Heap} (hs : m.world.heap.Spares r h) (hh : h.Avoids r) : Hides r (m.withHeap h) :=
  ⟨hm.toVeils.withHeap hh, hm.there.trans_le hs.size⟩

/-- A property is given a value, perhaps of the record itself. -/
theorem set (hm : m.Hides r) (hv : v.Avoids r) (q : RecordId) (name : String) :
    Hides r (m.withHeap (m.world.heap.set q name v)) :=
  ⟨hm.toVeils.withHeap (hm.heap.set hv q name), hm.there.trans_eq (Heap.size_set ..).symm⟩

/-- A frame is opened. -/
theorem push (hm : m.Hides r) {env : Environment} {frame : Frame} (hpush : env.frames = m.env.frames.push frame)
    (hf : frame.Avoids r) : Hides r { m with env } where
  heap := hm.heap
  modules := hm.modules
  frames := by
    rw [hpush]
    intro other ho
    rcases Array.mem_push.1 ho with ho | rfl
    · exact hm.frames other ho
    · exact hf
  exports := hm.exports
  there := hm.there

/-- Frames are cut off. -/
theorem truncate (hm : m.Hides r) (depth : Nat) : Hides r { m with env := m.env.truncate depth } where
  heap := hm.heap
  modules := hm.modules
  frames frame hf := hm.frames frame (Environment.mem_frames_truncate hf)
  exports := hm.exports
  there := hm.there

/-- A name is given a value. -/
theorem put (hm : m.Hides r) (hv : v.Avoids r) (holder : Holder) (name : String) :
    Hides r { m with
      env := (m.env.put m.world.heap name v holder).1
      world := { m.world with heap := (m.env.put m.world.heap name v holder).2 } } := by
  cases holder with
  | locals index =>
    refine ⟨⟨hm.heap, hm.modules, fun frame hf => ?_, hm.exports⟩, hm.there⟩
    rcases Environment.mem_frames_put hf with hf | ⟨old, hold, rfl⟩
    · exact hm.frames frame hf
    · exact (hm.frames old hold).setLocal hv name
  | record q => exact hm.set hv q name

end Hides

/-- The record does not stand open in the innermost frame. -/
def Apart (r : RecordId) (m : Machine) : Prop := m.env.innermost ≠ .record r

/-- A property of machines that stays while nothing gets hold of a record. -/
def Lasting (r : RecordId) (P : Machine → Prop) : Prop := ∀ m n : Machine, m.Leaves r n → P m → P n

theorem lasting_true : Lasting r fun _ => True := fun _ _ _ _ => trivial

theorem lasting_apart : Lasting r (Apart r) := fun _ _ h hm => by
  unfold Apart
  rw [h.env.innermost]
  exact hm

theorem lasting_evaluates (unit : UnitId) (a : Arena) : Lasting r (Evaluates unit a) := fun _ _ h hm =>
  ⟨h.unit.trans hm.current, getElem?_of_prefix h.units hm.nodes⟩

/-- A node that has been looked at stays. -/
theorem Lasting.knowing {P : Machine → Prop} (hP : Lasting r P) (unit : UnitId) (id : NodeId) (node : Node) :
    Lasting r fun m => P m ∧ m.world.node? unit id = some node :=
  fun _ _ h hm => ⟨hP _ _ h hm.1, World.node?_later h.units hm.2⟩

end Machine

end DynScript
