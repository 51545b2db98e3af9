import DynScript.Proofs.Value.Sound

/-!
# Values of one unit

A unit that imports nothing works with functions of its own, with the functions of the host, and with records
that were made since it started. A `Realm` tells which these are; what is within it refers to nothing else. No
record of a realm is a class.
-/

namespace DynScript

/-- A unit that runs by itself, and what is known of its runs. -/
structure Realm where
  /-- The nodes of the unit. -/
  arena : Arena
  /-- The number of the unit. -/
  unit : UnitId
  /-- The functions that there may be, by their literals. -/
  literal : NodeId → Prop
  /-- How many records there were before the unit started. -/
  base : Nat
  /-- How deeply calls may nest. -/
  maxDepth : Nat
  /-- Names that have a value in the outermost frame. -/
  globals : List String
  /-- Whether a run may run out of fuel. -/
  starves : Prop
  /-- Whether a run may come upon a name without a value. -/
  misses : Prop

namespace Realm

/-- A record was made since the unit started. -/
def Owns (ρ : Realm) (r : RecordId) : Prop := ρ.base ≤ r.index

/-- The second realm is the first one with more functions. -/
structure Widens (ρ ρ' : Realm) : Prop where
  /-- The functions are still there. -/
  literal : ∀ {id}, ρ.literal id → ρ'.literal id
  /-- The nodes are the same. -/
  arena : ρ'.arena = ρ.arena
  /-- The unit is the same. -/
  unit : ρ'.unit = ρ.unit
  /-- Calls may nest as deeply. -/
  maxDepth : ρ'.maxDepth = ρ.maxDepth
  /-- The same records were there before. -/
  base : ρ'.base = ρ.base

theorem Widens.owns {ρ ρ' : Realm} (h : ρ.Widens ρ') {r : RecordId} (hr : ρ.Owns r) : ρ'.Owns r := by
  unfold Owns at *
  rwa [h.base]

end Realm

variable {ρ ρ' : Realm}

/-! ## Values -/

/-- A function of the unit, which sees a record of the unit if it sees one. -/
structure Function.Within (ρ : Realm) (f : Function) : Prop where
  /-- The unit. -/
  unit : f.unit = ρ.unit
  /-- The literal. -/
  literal : ρ.literal f.node
  /-- The record that the function sees. -/
  receiver : ∀ r, f.receiver = some (.stored r) ∨ f.receiver = some (.held r) → ρ.Owns r

/-- All that a value refers to belongs to the unit or to the host. -/
inductive Value.Within (ρ : Realm) : Value → Prop where
  | nil : Within ρ .nil
  | bool (b : Bool) : Within ρ (.bool b)
  | number (x : Float) : Within ρ (.number x)
  | char (c : Char) : Within ρ (.char c)
  | string (s : String) : Within ρ (.string s)
  | list {id : Nat} {items : Array Value} (h : ∀ v ∈ items, Within ρ v) : Within ρ (.list id items)
  | function {f : Function} (h : f.Within ρ) : Within ρ (.function f)
  | native (n : Native) : Within ρ (.native n)
  | record {r : RecordId} (h : ρ.Owns r) : Within ρ (.record r)
  | host (h : HostObject) : Within ρ (.host h)

namespace Value.Within

theorem widen (h : ρ.Widens ρ') {v : Value} (hv : v.Within ρ) : v.Within ρ' := by
  induction hv with
  | list _ ih => exact .list ih
  | function hf =>
    exact .function ⟨hf.unit.trans h.unit.symm, h.literal hf.literal, fun r hr => h.owns (hf.receiver r hr)⟩
  | record hr => exact .record (h.owns hr)
  | _ => constructor

theorem named {v : Value} (hv : v.Within ρ) (name : String) : (v.named name).Within ρ := by
  cases hv with
  | function hf => exact .function ⟨hf.unit, hf.literal, hf.receiver⟩
  | list hitems => exact .list hitems
  | record hr => exact .record hr
  | _ => constructor

theorem boundTo {v : Value} (hv : v.Within ρ) {r : RecordId} (hr : ρ.Owns r) : (v.boundTo r).Within ρ := by
  cases hv with
  | function hf =>
    refine .function ⟨hf.unit, hf.literal, fun q hq => ?_⟩
    rcases hq with hq | hq
    · obtain rfl : r = q := by simpa [Function.boundTo] using hq
      exact hr
    · simp [Function.boundTo] at hq
  | list hitems => exact .list hitems
  | record hr => exact .record hr
  | _ => constructor

end Value.Within

/-! ## Bindings -/

namespace Bindings

/-- All values are within a realm. -/
def Within (ρ : Realm) (b : Bindings) : Prop := ∀ v ∈ b.values, v.Within ρ

/-- The names of the first bindings have values in the second ones, too. -/
def GrowsTo (b b' : Bindings) : Prop := ∀ name, b.has name → b'.has name

variable {b b' : Bindings}

theorem within_empty (ρ : Realm) : empty.Within ρ := by simp [Within, empty, values]

theorem Within.get? (hb : b.Within ρ) {name : String} {v : Value} (hv : b.get? name = some v) :
    v.Within ρ := by
  obtain ⟨before, after, hmem, -⟩ := List.lookup_eq_some_iff.1 hv
  exact hb v (List.mem_map.2 ⟨(name, v), hmem ▸ by simp, rfl⟩)

theorem Within.set (hb : b.Within ρ) {v : Value} (hv : v.Within ρ) (name : String) :
    (b.set name v).Within ρ := by
  intro w hw
  obtain ⟨entry, hmem, rfl⟩ := List.mem_map.1 hw
  rcases mem_setIn hmem with rfl | hmem
  · exact hv
  · exact hb _ (List.mem_map.2 ⟨entry, hmem, rfl⟩)

/-- A name that is given a value has one. -/
theorem has_set_self (b : Bindings) (name : String) (v : Value) : (b.set name v).has name := by
  rw [has, get?_set, if_pos rfl]
  rfl

theorem growsTo_set (b : Bindings) (name : String) (v : Value) : b.GrowsTo (b.set name v) := by
  intro other hother
  by_cases hsame : other = name
  · rw [hsame]
    exact b.has_set_self name v
  · rwa [has_set hsame]

theorem GrowsTo.trans {b'' : Bindings} (h : b.GrowsTo b') (k : b'.GrowsTo b'') : b.GrowsTo b'' :=
  fun name hname => k name (h name hname)

end Bindings

/-! ## Records -/

/-- A record that is no class, with properties that are within a realm. -/
structure RecordData.Within (ρ : Realm) (data : RecordData) : Prop where
  /-- The record is no class. -/
  template : data.template = none
  /-- The properties. -/
  properties : data.properties.Within ρ

theorem RecordData.within_empty (ρ : Realm) (parent : Option RecordId) : Within ρ ⟨none, .empty, parent⟩ :=
  ⟨rfl, Bindings.within_empty ρ⟩

namespace Heap

/-- The records of the unit are within a realm. -/
structure Within (ρ : Realm) (h : Heap) : Prop where
  /-- The records that were there before are still there. -/
  size : ρ.base ≤ h.size
  /-- The records of the unit. -/
  owned : ∀ {r data}, ρ.Owns r → h.get? r = some data → data.Within ρ

/-- No record and no property is lost. -/
structure GrowsTo (h h' : Heap) : Prop where
  /-- The records. -/
  size : h.size ≤ h'.size
  /-- The properties. -/
  has : ∀ r, (h.properties r).GrowsTo (h'.properties r)

variable {h h' : Heap}

namespace GrowsTo

@[refl] theorem refl (h : Heap) : h.GrowsTo h := ⟨le_rfl, fun _ _ hname => hname⟩

theorem trans {h'' : Heap} (hh : h.GrowsTo h') (k : h'.GrowsTo h'') : h.GrowsTo h'' :=
  ⟨hh.size.trans k.size, fun r => (hh.has r).trans (k.has r)⟩

/-- Only the records matter. -/
theorem of_records (he : h'.records = h.records) : h.GrowsTo h' := by
  refine ⟨?_, fun r name hname => ?_⟩
  · rw [Heap.size, Heap.size, he]
  · rwa [properties, Heap.get?, he]

theorem set (h : Heap) (r : RecordId) (name : String) (v : Value) : h.GrowsTo (h.set r name v) := by
  refine ⟨by rw [size_set], fun q other hother => ?_⟩
  unfold properties at hother ⊢
  rw [get?_set]
  split
  · cases hg : h.get? q with
    | none =>
      rw [hg] at hother
      exact hother
    | some data =>
      rw [hg] at hother
      exact data.properties.growsTo_set name (v.boundTo r) other hother
  · exact hother

theorem setAll (h : Heap) (r : RecordId) (entries : List (String × Value)) : h.GrowsTo (h.setAll r entries) := by
  induction entries generalizing h with
  | nil => exact .refl h
  | cons entry rest ih => exact (set h r entry.1 entry.2).trans (ih _)

theorem alloc (h : Heap) (data : RecordData) : h.GrowsTo (h.alloc data).2 := by
  refine ⟨by simp [Heap.alloc, Heap.size], fun q name hname => ?_⟩
  unfold properties at hname ⊢
  rw [get?_alloc]
  split
  · rename_i hq
    have hnone : h.get? q = none := Array.getElem?_eq_none (by rw [hq]; rfl)
    rw [hnone] at hname
    cases hname
  · exact hname

theorem ofEntries (h : Heap) (entries : List (String × Value)) : h.GrowsTo (h.ofEntries entries).2 :=
  (alloc h _).trans (setAll _ _ _)

theorem newNamespace (h : Heap) : h.GrowsTo h.newNamespace.2 :=
  ((ofEntries h _).trans (ofEntries _ _)).trans (ofEntries _ _)

theorem shallowClone (h : Heap) (r : RecordId) : h.GrowsTo (h.shallowClone r).2 := by
  unfold Heap.shallowClone
  split
  · exact alloc h _
  · exact (alloc h _).trans (setAll _ _ _)

end GrowsTo

/-- A record that is there has a property that it is given. -/
theorem has_set_self {r : RecordId} (hr : r.index < h.size) (name : String) (v : Value) :
    (h.set r name v).has r name := by
  obtain ⟨data, hg⟩ : ∃ data, h.get? r = some data := ⟨_, Array.getElem?_eq_getElem hr⟩
  unfold has properties
  rw [get?_set, if_pos rfl, hg]
  exact data.properties.has_set_self name (v.boundTo r)

namespace Within

/-- Only the records matter. -/
theorem of_records (hh : h.Within ρ) (he : h'.records = h.records) : h'.Within ρ where
  size := by
    rw [Heap.size, he]
    exact hh.size
  owned hr hg := hh.owned hr (by rwa [Heap.get?, he] at hg)

theorem properties (hh : h.Within ρ) {r : RecordId} (hr : ρ.Owns r) : (h.properties r).Within ρ := by
  unfold Heap.properties
  cases hg : h.get? r with
  | none => exact Bindings.within_empty ρ
  | some data => exact (hh.owned hr hg).properties

theorem property? (hh : h.Within ρ) {r : RecordId} (hr : ρ.Owns r) {name : String} {v : Value}
    (hv : h.property? r name = some v) : v.Within ρ :=
  (hh.properties hr).get? hv

/-- No record of the unit is a class. -/
theorem template? (hh : h.Within ρ) {r : RecordId} (hr : ρ.Owns r) : h.template? r = none := by
  unfold Heap.template?
  cases hg : h.get? r with
  | none => rfl
  | some data => exact (hh.owned hr hg).template

theorem set (hh : h.Within ρ) {r : RecordId} (hr : ρ.Owns r) {v : Value} (hv : v.Within ρ) (name : String) :
    (h.set r name v).Within ρ where
  size := by
    rw [size_set]
    exact hh.size
  owned {q data} hq hg := by
    rw [get?_set] at hg
    split at hg
    · obtain ⟨old, hold, rfl⟩ := Option.map_eq_some_iff.1 hg
      have hdata := hh.owned hq hold
      exact ⟨hdata.template, hdata.properties.set (hv.boundTo hr) name⟩
    · exact hh.owned hq hg

theorem setAll (hh : h.Within ρ) {r : RecordId} (hr : ρ.Owns r) {entries : List (String × Value)}
    (hv : ∀ entry ∈ entries, entry.2.Within ρ) : (h.setAll r entries).Within ρ := by
  induction entries generalizing h with
  | nil => exact hh
  | cons entry rest ih =>
    exact ih (hh.set hr (hv entry (by simp)) entry.1) fun e he => hv e (by simp [he])

/-- A record that is added belongs to the unit. -/
theorem alloc (hh : h.Within ρ) {data : RecordData} (hd : data.Within ρ) :
    (h.alloc data).2.Within ρ ∧ ρ.Owns (h.alloc data).1 := by
  refine ⟨⟨?_, fun {q d} hq hg => ?_⟩, hh.size⟩
  · have hsize : (h.alloc data).2.size = h.size + 1 := by simp [Heap.alloc, Heap.size]
    rw [hsize]
    exact Nat.le_succ_of_le hh.size
  · rw [get?_alloc] at hg
    split at hg
    · obtain rfl := Option.some.inj hg
      exact hd
    · exact hh.owned hq hg

theorem ofEntries (hh : h.Within ρ) {entries : List (String × Value)}
    (hv : ∀ entry ∈ entries, entry.2.Within ρ) :
    (h.ofEntries entries).2.Within ρ ∧ ρ.Owns (h.ofEntries entries).1 := by
  obtain ⟨hnew, howns⟩ := hh.alloc (RecordData.within_empty ρ none)
  exact ⟨hnew.setAll howns hv, howns⟩

theorem shallowClone (hh : h.Within ρ) {r : RecordId} (hr : ρ.Owns r) :
    (h.shallowClone r).2.Within ρ ∧ ρ.Owns (h.shallowClone r).1 := by
  unfold Heap.shallowClone
  cases hg : h.get? r with
  | none => exact hh.alloc (RecordData.within_empty ρ none)
  | some data =>
    have hdata := hh.owned hr hg
    have hempty : RecordData.Within ρ ⟨data.template, .empty, data.parent⟩ :=
      ⟨hdata.template, Bindings.within_empty ρ⟩
    obtain ⟨hnew, howns⟩ := hh.alloc hempty
    refine ⟨hnew.setAll howns fun e he => ?_, howns⟩
    exact hdata.properties _ (List.mem_map.2 ⟨e, he, rfl⟩)

/-- The record of the host belongs to the unit that starts. -/
theorem newNamespace (hh : h.Within ρ) : h.newNamespace.2.Within ρ ∧ ρ.Owns h.newNamespace.1 := by
  obtain ⟨hio, hr⟩ := hh.ofEntries (Native.forall_mem_inGroup Value.Within.native "io")
  obtain ⟨hsystem, hr'⟩ := hio.ofEntries (Native.forall_mem_inGroup Value.Within.native "system")
  refine hsystem.ofEntries fun entry he => ?_
  rcases List.mem_cons.1 he with rfl | he
  · exact .record hr
  · obtain rfl := List.mem_singleton.1 he
    exact .record hr'

end Within

/-- Before a unit starts no record belongs to it. -/
theorem within_of_base (hb : ρ.base = h.size) : h.Within ρ where
  size := hb.le
  owned {r data} hr hg := by
    have hlt : r.index < h.size := (Array.getElem?_eq_some_iff.1 hg).1
    have hle : ρ.base ≤ r.index := hr
    omega

theorem Within.widen (hρ : ρ.Widens ρ') (hh : h.Within ρ) : h.Within ρ' where
  size := hρ.base.symm ▸ hh.size
  owned {r data} hr hg := by
    have hr' : ρ.Owns r := by
      unfold Realm.Owns at *
      rwa [← hρ.base]
    obtain ⟨htemplate, hproperties⟩ := hh.owned hr' hg
    exact ⟨htemplate, fun v hv => (hproperties v hv).widen hρ⟩

end Heap

end DynScript
