import DynScript.Proofs.Run.Frames
import DynScript.Proofs.Run.Operations
import DynScript.Proofs.Run.Steps
import DynScript.Proofs.Session.Accepted
import DynScript.Proofs.Value.Sound

/-!
# Sound machines

In a sound machine all values are sound and all units can run. What names stand for is then sound, and so is
what an operator or a function of the host makes of sound values, unless it stops for a cause that analysis
does not rule out.
-/

namespace DynScript

/-! ## Environments -/

/-- All values that a frame shows are sound. -/
def Frame.Sound (σ : Sight) : Frame → Prop
  | .locals names => names.Sound σ
  | .record r => σ.Shows r

/-- A holder may be changed. -/
def Holder.Sound (σ : Sight) : Holder → Prop
  | .locals _ => True
  | .record r => σ.Shows r

/-- All values that an environment shows are sound. -/
structure Environment.Sound (σ : Sight) (env : Environment) : Prop where
  /-- The frames. -/
  frames : ∀ frame ∈ env.frames, frame.Sound σ
  /-- The receivers. -/
  active : ∀ r ∈ env.active, σ.Shows r

namespace Frame

variable {σ σ' : Sight} {frame : Frame} {h : Heap}

theorem Sound.mono (hσ : σ.Within σ') (hf : frame.Sound σ) : frame.Sound σ' := by
  cases frame with
  | locals names => exact Bindings.Sound.mono hσ hf
  | record r => exact hσ.shows hf

theorem Sound.names (hf : frame.Sound σ) (hh : h.Sound σ) : (frame.names h).Sound σ := by
  cases frame with
  | locals names => exact hf
  | record r => exact hh.properties hf

theorem Sound.holder (hf : frame.Sound σ) (index : Nat) : (frame.holder index).Sound σ := by
  cases frame with
  | locals names => trivial
  | record r => exact hf

theorem Sound.setLocal (hf : frame.Sound σ) {v : Value} (hv : v.Sound σ) (name : String) :
    (frame.setLocal name v).Sound σ := by
  cases frame with
  | locals names => exact Bindings.Sound.set hf hv name
  | record r => exact hf

end Frame

namespace Environment

theorem sound_new (σ : Sight) : new.Sound σ where
  frames frame hf := by
    obtain rfl : frame = .locals .empty := by simpa [new] using hf
    exact Bindings.sound_empty σ
  active := by simp [new]

namespace Sound

variable {σ σ' : Sight} {env : Environment} {h : Heap}

theorem mono (hσ : σ.Within σ') (he : env.Sound σ) : env.Sound σ' :=
  ⟨fun frame hf => (he.frames frame hf).mono hσ, fun r hr => hσ.shows (he.active r hr)⟩

theorem pushScope (he : env.Sound σ) : env.pushScope.Sound σ where
  frames frame hf := by
    rcases Array.mem_push.1 hf with hf | rfl
    · exact he.frames frame hf
    · exact Bindings.sound_empty σ
  active := he.active

theorem pushRecord (he : env.Sound σ) {r : RecordId} (hr : σ.Shows r) : (env.pushRecord r).Sound σ where
  frames frame hf := by
    rcases Array.mem_push.1 hf with hf | rfl
    · exact he.frames frame hf
    · exact hr
  active := he.active

theorem truncate (he : env.Sound σ) (depth : Nat) : (env.truncate depth).Sound σ :=
  ⟨fun frame hf => he.frames frame (mem_frames_truncate hf), he.active⟩

theorem enter (he : env.Sound σ) {r : RecordId} (hr : σ.Shows r) : (env.enter r).Sound σ where
  frames := he.frames
  active q hq := by
    rcases List.mem_cons.1 hq with rfl | hq
    · exact hr
    · exact he.active q hq

theorem leave (he : env.Sound σ) : env.leave.Sound σ :=
  ⟨he.frames, fun r hr => he.active r (List.mem_of_mem_tail hr)⟩

theorem innermost (he : env.Sound σ) : env.innermost.Sound σ := by
  obtain ⟨frame, hframe, hholder⟩ := env.exists_innermost
  rw [hholder]
  exact (he.frames frame (Array.mem_of_getElem? hframe)).holder _

theorem target? (he : env.Sound σ) {name : String} {holder : Holder} (ht : env.target? h name = some holder) :
    holder.Sound σ := by
  rcases target?_cases ht with ⟨r, hr, -, rfl⟩ | ⟨-, hholder⟩
  · exact he.active r (List.mem_of_head? hr)
  · obtain ⟨i, frame, hf, rfl⟩ := finds_of_holder? hholder
    exact (he.frames frame hf.mem).holder i

theorem lookup (he : env.Sound σ) (hh : h.Sound σ) {name : String} {v : Value}
    (hv : env.lookup h name = some v) : v.Sound σ := by
  rcases lookup_cases hv with ⟨frame, hframe, hv⟩ | ⟨r, hr, hv⟩
  · exact ((he.frames frame hframe).names hh).get? hv
  · exact hh.property? (he.active r (List.mem_of_head? hr)) hv

theorem put (he : env.Sound σ) (hh : h.Sound σ) {holder : Holder} (hs : holder.Sound σ) {v : Value}
    (hv : v.Sound σ) (name : String) :
    (env.put h name v holder).1.Sound σ ∧ (env.put h name v holder).2.Sound σ := by
  cases holder with
  | locals index =>
    refine ⟨⟨fun frame hf => ?_, he.active⟩, hh⟩
    rcases mem_frames_put hf with hf | ⟨old, hold, rfl⟩
    · exact he.frames frame hf
    · exact (he.frames old hold).setLocal hv name
  | record r => exact ⟨he, hh.set hs hv name⟩

end Sound

end Environment

/-! ## Machines -/

/-- All that a world holds is sound, and its units can run. -/
structure World.Sound (σ : Sight) (w : World) : Prop where
  /-- The units. -/
  units : w.units = σ.units
  /-- They can run. -/
  runnable : ∀ {unit id kind}, σ.kind? unit id = some kind → kind.Fit (σ.kind? unit)
  /-- The records. -/
  heap : w.heap.Sound σ
  /-- The records of the modules. -/
  cache : ∀ entry ∈ w.cache.modules, σ.Shows entry.2

/-- All that a machine holds is sound, and it evaluates a unit. -/
structure Machine.Sound (σ : Sight) (unit : UnitId) (m : Machine) : Prop where
  /-- What all units share. -/
  world : m.world.Sound σ
  /-- The names. -/
  env : m.env.Sound σ
  /-- The exports. -/
  exports : m.exports.Sound σ
  /-- The unit. -/
  unit : m.unit = unit

namespace World.Sound

variable {σ σ' : Sight} {w : World}

/-- A node that a sight tells of is there. -/
theorem node? (hw : w.Sound σ) {unit : UnitId} {id : NodeId} {kind : NodeKind}
    (h : σ.kind? unit id = some kind) : ∃ position, w.node? unit id = some ⟨kind, position⟩ := by
  obtain ⟨a, ha, hk⟩ := Option.bind_eq_some_iff.1 h
  obtain ⟨position, hn⟩ := Arena.kind?_eq_some.1 hk
  exact ⟨position, Option.bind_eq_some_iff.2 ⟨a, hw.units ▸ ha, hn⟩⟩

/-- A world with the same units, records and modules is as sound. -/
theorem of_same (hw : w.Sound σ) {w' : World} (hu : w'.units = w.units) (hh : w'.heap = w.heap)
    (hc : w'.cache.modules = w.cache.modules) : w'.Sound σ where
  units := hu.trans hw.units
  runnable := hw.runnable
  heap := hh ▸ hw.heap
  cache := hc ▸ hw.cache

/-- Records may change and be added. -/
theorem withHeap (hw : w.Sound σ) (hσ : σ.Grows σ') (hu : σ'.units = σ.units) {h : Heap} (hh : h.Sound σ') :
    World.Sound σ' { w with heap := h } where
  units := hw.units.trans hu.symm
  runnable hk := by
    unfold Sight.kind? at hk ⊢
    rw [hu] at hk ⊢
    exact hw.runnable hk
  heap := hh
  cache entry he := hσ.within.shows (hw.cache entry he)

end World.Sound

namespace Machine.Sound

variable {σ σ' : Sight} {unit : UnitId} {m : Machine}

/-- What happens to the world leaves the rest of a machine sound. -/
theorem withWorld (hm : m.Sound σ unit) (hσ : σ.Grows σ') {w : World} (hw : w.Sound σ') :
    Machine.Sound σ' unit { m with world := w } :=
  ⟨hw, hm.env.mono hσ.within, hm.exports.mono hσ.within, hm.unit⟩

end Machine.Sound

/-! ## Causes -/

namespace Cause

/-- Whether analysis rules a fault out. -/
def isRuledOut : Cause → Bool
  | internal _ | duplicateField _ => true
  | invalidTarget action _ => action = "assign to"
  | _ => false

/-- Analysis does not rule a cause out, and a value that is returned is sound. -/
def Sound (σ : Sight) (cause : Cause) : Prop :=
  cause.isRuledOut = false ∧ ∀ v, cause = returning v → v.Sound σ

/-- A fault that is not ruled out. -/
theorem sound_of {σ : Sight} {cause : Cause} (h : cause.isRuledOut = false) (hs : cause.isSignal = false) :
    cause.Sound σ :=
  ⟨h, by rintro v rfl; cases hs⟩

theorem sound_returning {σ : Sight} {v : Value} (hv : v.Sound σ) : (returning v).Sound σ :=
  ⟨rfl, by rintro _ ⟨⟩; exact hv⟩

theorem sound_exiting (σ : Sight) (code : Int) : (exiting code).Sound σ := ⟨rfl, by rintro _ ⟨⟩⟩

end Cause

/-- What operations on sound values give is sound, and analysis rules out none of the causes for which they
stop. -/
theorem Sight.accepts (σ : Sight) : Accepts (Value.Sound σ) (Cause.Sound σ) where
  plain {v} hv := by
    cases v with
    | list id items => cases hv
    | function f => cases hv
    | record r => cases hv
    | _ => constructor
  list := by
    refine ⟨fun h => ?_, .list⟩
    cases h with
    | list hitems => exact hitems
  ordinary {cause} h := by
    cases cause with
    | exiting code => exact Cause.sound_exiting σ code
    | invalidTarget action got =>
      refine Cause.sound_of ?_ rfl
      simpa [Cause.isOrdinary, Cause.isRuledOut] using h
    | _ => first | exact Cause.sound_of rfl rfl | cases h

theorem World.Sound.callNative {σ : Sight} {w : World} (hw : w.Sound σ) (n : Native) (args : List Value) :
    (w.callNative n args).2.Sound σ :=
  hw.of_same (w.units_callNative n args) (w.heap_callNative n args) (congrArg ModuleCache.modules (w.cache_callNative n args))

end DynScript
