import Mathlib.Tactic
import DynScript.Run.Native
import DynScript.Tree.Arena
import DynScript.Value.Liveness

/-!
# Sound values

A value is sound when the nodes that it refers to are what it takes them for: a function refers to a function
literal. A `Sight` tells the nodes and records that there are, and it also hides records: a record that is
still being made from a record literal is referred to by nothing, so nothing but the literal changes it.
-/

namespace DynScript

/-- The nodes and records that there are. -/
structure Sight where
  /-- The nodes of the units. -/
  units : Array Arena
  /-- How many records there are. -/
  records : Nat
  /-- The records that nothing refers to, and what they are. -/
  hidden : List (RecordId × RecordData)

namespace Sight

variable {σ σ' : Sight}

/-- The node of a unit with a number. -/
def kind? (σ : Sight) (unit : UnitId) (id : NodeId) : Option NodeKind :=
  (σ.units[unit.index]?).bind (·.kind? id)

/-- Whether a record may be referred to. -/
def Shows (σ : Sight) (r : RecordId) : Prop := r.index < σ.records ∧ ∀ data, (r, data) ∉ σ.hidden

/-- All that the first sight shows the second one shows. -/
structure Within (σ σ' : Sight) : Prop where
  /-- The nodes are there. -/
  kinds : ∀ {unit id kind}, σ.kind? unit id = some kind → σ'.kind? unit id = some kind
  /-- The records are shown. -/
  shows : ∀ {r}, σ.Shows r → σ'.Shows r

/-- The first sight may become the second one: units and records may be added. -/
structure Grows (σ σ' : Sight) : Prop where
  /-- The units are still there. -/
  units : σ.units.toList <+: σ'.units.toList
  /-- No record is lost. -/
  records : σ.records ≤ σ'.records
  /-- The same records are hidden, and nothing has changed them. -/
  hidden : σ'.hidden = σ.hidden

namespace Grows

theorem refl (σ : Sight) : σ.Grows σ := ⟨List.prefix_rfl, le_rfl, rfl⟩

theorem trans {σ'' : Sight} (h : σ.Grows σ') (k : σ'.Grows σ'') : σ.Grows σ'' :=
  ⟨h.units.trans k.units, h.records.trans k.records, k.hidden.trans h.hidden⟩

theorem within (h : σ.Grows σ') : σ.Within σ' where
  kinds {unit id kind} hk := by
    obtain ⟨a, ha, hk⟩ := Option.bind_eq_some_iff.1 hk
    obtain ⟨more, hmore⟩ := h.units
    refine Option.bind_eq_some_iff.2 ⟨a, ?_, hk⟩
    rw [← Array.getElem?_toList] at ha ⊢
    rw [← hmore, List.getElem?_append_left (List.getElem?_eq_some_iff.1 ha).1, ha]
  shows hr := ⟨hr.1.trans_le h.records, by rw [h.hidden]; exact hr.2⟩

end Grows

/-- The sight after a record was added. -/
def grown (σ : Sight) : Sight := { σ with records := σ.records + 1 }

theorem grows_grown (σ : Sight) : σ.Grows σ.grown := ⟨List.prefix_rfl, Nat.le_succ _, rfl⟩

/-- The sight from which no record is hidden. -/
def bare (σ : Sight) : Sight := { σ with hidden := [] }

theorem within_bare (σ : Sight) : σ.Within σ.bare := ⟨fun hk => hk, fun hr => ⟨hr.1, nofun⟩⟩

theorem Grows.bare (h : σ.Grows σ') : σ.bare.Within σ'.bare :=
  have hbare : σ.bare.Grows σ'.bare := ⟨h.units, h.records, rfl⟩
  hbare.within

/-- The sight from which a record is hidden. -/
def hide (σ : Sight) (r : RecordId) (data : RecordData) : Sight := { σ with hidden := (r, data) :: σ.hidden }

theorem shows_hide {r q : RecordId} {data : RecordData} : (σ.hide r data).Shows q ↔ σ.Shows q ∧ q ≠ r := by
  simp only [Shows, hide, List.mem_cons, Prod.mk.injEq, not_or, not_and]
  constructor
  · rintro ⟨hlt, hq⟩
    exact ⟨⟨hlt, fun d => (hq d).2⟩, fun he => (hq data).1 he rfl⟩
  · rintro ⟨⟨hlt, hq⟩, hne⟩
    exact ⟨hlt, fun d => ⟨fun he => absurd he hne, hq d⟩⟩

/-- What is shown while a record is hidden is shown otherwise. -/
theorem within_of_hide (σ : Sight) (r : RecordId) (data : RecordData) : (σ.hide r data).Within σ :=
  ⟨fun hk => hk, fun hr => (shows_hide.1 hr).1⟩

/-- A new record that is hidden hides nothing else. -/
theorem within_grown_hide (σ : Sight) (data : RecordData) : σ.Within (σ.grown.hide ⟨σ.records⟩ data) := by
  refine ⟨fun hk => hk, fun {r} hr => shows_hide.2 ⟨σ.grows_grown.within.shows hr, ?_⟩⟩
  rintro rfl
  exact absurd hr.1 (lt_irrefl _)

/-- It does not matter what a hidden record is. -/
theorem within_hide (σ : Sight) (r : RecordId) (data data' : RecordData) :
    (σ.hide r data).Within (σ.hide r data') :=
  ⟨fun hk => hk, fun hr => shows_hide.2 (shows_hide.1 hr)⟩

/-- Whatever comes of a sight from which a record is hidden is one from which that record is hidden. -/
theorem Grows.of_hide {r : RecordId} {data : RecordData} (h : (σ.hide r data).Grows σ') :
    ∃ σ₁, σ.Grows σ₁ ∧ σ' = σ₁.hide r data :=
  ⟨⟨σ'.units, σ'.records, σ.hidden⟩, ⟨h.units, h.records, rfl⟩, by
    obtain ⟨units, records, hidden⟩ := σ'
    obtain rfl : hidden = (r, data) :: σ.hidden := h.hidden
    rfl⟩

end Sight

/-! ## Values -/

/-- A function refers to a function literal. -/
structure Function.Sound (σ : Sight) (f : Function) : Prop where
  /-- The literal. -/
  literal : ∃ params body, σ.kind? f.unit f.node = some (.function params body)
  /-- The record that the function sees may be referred to. -/
  receiver : ∀ r, f.receiver = some (.stored r) ∨ f.receiver = some (.held r) → σ.Shows r

/-- A sound function is so later, too. -/
theorem Function.Sound.later {σ σ' : Sight} (h : σ.Grows σ') {f : Function} (hf : f.Sound σ) :
    f.Sound σ' where
  literal := by
    obtain ⟨params, body, hk⟩ := hf.literal
    exact ⟨params, body, h.within.kinds hk⟩
  receiver r hr := h.within.shows (hf.receiver r hr)

/-- All that a value refers to is there, and it is what the value takes it for. -/
inductive Value.Sound (σ : Sight) : Value → Prop where
  | nil : Sound σ .nil
  | bool (b : Bool) : Sound σ (.bool b)
  | number (x : Float) : Sound σ (.number x)
  | char (c : Char) : Sound σ (.char c)
  | string (s : String) : Sound σ (.string s)
  | list {id : Nat} {items : Array Value} (h : ∀ v ∈ items, Sound σ v) : Sound σ (.list id items)
  | function {f : Function} (h : f.Sound σ) : Sound σ (.function f)
  | native (n : Native) : Sound σ (.native n)
  | record {r : RecordId} (h : σ.Shows r) : Sound σ (.record r)
  | host (h : HostObject) : Sound σ (.host h)

namespace Value.Sound

variable {σ σ' : Sight}

theorem mono (h : σ.Within σ') {v : Value} (hv : v.Sound σ) : v.Sound σ' := by
  induction hv with
  | list _ ih => exact .list ih
  | function hf =>
    obtain ⟨⟨params, body, hk⟩, hr⟩ := hf
    exact .function ⟨⟨params, body, h.kinds hk⟩, fun r h' => h.shows (hr r h')⟩
  | record hr => exact .record (h.shows hr)
  | _ => constructor

/-- A sound value is so later, too. -/
theorem later (h : σ.Grows σ') {v : Value} (hv : v.Sound σ) : v.Sound σ' := hv.mono h.within

theorem named {v : Value} (hv : v.Sound σ) (name : String) : (v.named name).Sound σ := by
  cases hv with
  | function hf => exact .function ⟨hf.literal, hf.receiver⟩
  | list hitems => exact .list hitems
  | record hr => exact .record hr
  | _ => constructor

theorem boundTo {v : Value} (hv : v.Sound σ) {r : RecordId} (hr : σ.Shows r) : (v.boundTo r).Sound σ := by
  cases hv with
  | function hf =>
    refine .function ⟨hf.literal, fun q hq => ?_⟩
    rcases hq with hq | hq
    · obtain rfl : r = q := by simpa [Function.boundTo] using hq
      exact hr
    · simp [Function.boundTo] at hq
  | list hitems => exact .list hitems
  | record hr => exact .record hr
  | _ => constructor

end Value.Sound

/-! ## Bindings -/

namespace Bindings

/-- All values are sound. -/
def Sound (σ : Sight) (b : Bindings) : Prop := ∀ v ∈ b.values, v.Sound σ

theorem sound_empty (σ : Sight) : empty.Sound σ := by simp [Sound, empty, values]

variable {σ σ' : Sight} {b : Bindings}

theorem Sound.mono (h : σ.Within σ') (hb : b.Sound σ) : b.Sound σ' := fun v hv => (hb v hv).mono h

theorem Sound.get? (hb : b.Sound σ) {name : String} {v : Value} (hv : b.get? name = some v) : v.Sound σ := by
  obtain ⟨before, after, hmem, -⟩ := List.lookup_eq_some_iff.1 hv
  exact hb v (List.mem_map.2 ⟨(name, v), hmem ▸ by simp, rfl⟩)

theorem get?_set_of_ne {name name' : String} (hne : name' ≠ name) (v : Value) :
    (b.set name v).get? name' = b.get? name' := by
  rw [get?_set, if_neg hne]

theorem has_set {name name' : String} (hne : name' ≠ name) (v : Value) : (b.set name v).has name' = b.has name' :=
  congrArg Option.isSome (get?_set_of_ne hne v)

theorem Sound.set (hb : b.Sound σ) {v : Value} (hv : v.Sound σ) (name : String) : (b.set name v).Sound σ := by
  intro w hw
  obtain ⟨entry, hmem, rfl⟩ := List.mem_map.1 hw
  rcases mem_setIn hmem with rfl | hmem
  · exact hv
  · exact hb _ (List.mem_map.2 ⟨entry, hmem, rfl⟩)

end Bindings

/-! ## Records -/

/-- The properties of a record are sound, and a class refers to an object literal. -/
structure RecordData.Sound (σ : Sight) (data : RecordData) : Prop where
  /-- The properties. -/
  properties : data.properties.Sound σ
  /-- The literal of a class. -/
  template : ∀ t, data.template = some t → ∃ params composed members,
    σ.kind? t.unit t.node = some (.object params composed members)

namespace RecordData

variable {σ σ' : Sight} {data : RecordData}

theorem Sound.mono (h : σ.Within σ') (hd : data.Sound σ) : data.Sound σ' where
  properties := hd.properties.mono h
  template t ht := by
    obtain ⟨params, composed, members, hk⟩ := hd.template t ht
    exact ⟨params, composed, members, h.kinds hk⟩

theorem sound_empty (σ : Sight) (parent : Option RecordId) : Sound σ ⟨none, .empty, parent⟩ :=
  ⟨Bindings.sound_empty σ, by simp⟩

/-- A record after a property was given a value. -/
def put (data : RecordData) (r : RecordId) (name : String) (value : Value) : RecordData :=
  { data with properties := data.properties.set name (value.boundTo r) }

theorem Sound.put (hd : data.Sound σ) {r : RecordId} (hr : σ.Shows r) {v : Value} (hv : v.Sound σ)
    (name : String) : (data.put r name v).Sound σ :=
  ⟨hd.properties.set (hv.boundTo hr) name, hd.template⟩

end RecordData

/-! ## Heaps -/

/-- All records that are shown are sound, and those that are hidden are as they are known to be. Even these refer to
nothing that is not there. -/
structure Heap.Sound (σ : Sight) (h : Heap) : Prop where
  /-- How many records there are. -/
  size : h.size = σ.records
  /-- The records that are shown. -/
  shown : ∀ {r data}, σ.Shows r → h.get? r = some data → data.Sound σ
  /-- The records that are hidden. -/
  hidden : ∀ {r data}, (r, data) ∈ σ.hidden → h.get? r = some data
  /-- All records, when what is hidden may be referred to. -/
  all : ∀ {r data}, h.get? r = some data → data.Sound σ.bare

/-- The properties of a group of the host are functions of the host. -/
theorem Native.forall_mem_inGroup {P : Value → Prop} (hP : ∀ n, P (.native n)) (group : String) :
    ∀ entry ∈ (Native.inGroup group).map fun named => (named.1, Value.native named.2), P entry.2 := by
  intro entry he
  obtain ⟨named, -, rfl⟩ := List.mem_map.1 he
  exact hP named.2

namespace Heap

variable {σ σ' : Sight} {h : Heap}

theorem get?_set (h : Heap) (r q : RecordId) (name : String) (v : Value) :
    (h.set r name v).get? q = if r = q then (h.get? q).map (·.put r name v) else h.get? q := by
  obtain ⟨i⟩ := r
  obtain ⟨j⟩ := q
  simp only [Heap.get?, Heap.set, RecordId.mk.injEq]
  rw [Array.getElem?_modify]
  rfl

@[simp] theorem size_set (h : Heap) (r : RecordId) (name : String) (v : Value) :
    (h.set r name v).size = h.size := by
  simp [set, size]

theorem get?_alloc (h : Heap) (data : RecordData) (q : RecordId) :
    (h.alloc data).2.get? q = if q.index = h.size then some data else h.get? q := by
  show (h.records.push data)[q.index]? = _
  rw [Array.getElem?_push]
  rfl

namespace Sound

/-- Only the records matter. -/
theorem of_records {h' : Heap} (hh : h.Sound σ) (he : h'.records = h.records) : h'.Sound σ where
  size := by rw [← hh.size, Heap.size, Heap.size, he]
  shown hr hg := hh.shown hr (by rwa [Heap.get?, he] at hg)
  hidden hm := by rw [Heap.get?, he]; exact hh.hidden hm
  all hg := hh.all (by rwa [Heap.get?, he] at hg)

theorem lt_of_get? (hh : h.Sound σ) {r : RecordId} {data : RecordData} (hg : h.get? r = some data) :
    r.index < σ.records := by
  rw [← hh.size]
  exact (Array.getElem?_eq_some_iff.1 hg).1

theorem property? (hh : h.Sound σ) {r : RecordId} (hr : σ.Shows r) {name : String} {v : Value}
    (hv : h.property? r name = some v) : v.Sound σ := by
  unfold Heap.property? properties at hv
  cases hg : h.get? r with
  | none =>
    rw [hg] at hv
    exact (Bindings.sound_empty σ).get? hv
  | some data =>
    rw [hg] at hv
    exact (hh.shown hr hg).properties.get? hv

theorem properties (hh : h.Sound σ) {r : RecordId} (hr : σ.Shows r) : (h.properties r).Sound σ := by
  unfold Heap.properties
  cases hg : h.get? r with
  | none => exact Bindings.sound_empty σ
  | some data => exact (hh.shown hr hg).properties

theorem template? (hh : h.Sound σ) {r : RecordId} (hr : σ.Shows r) {t : Template}
    (ht : h.template? r = some t) :
    ∃ params composed members, σ.kind? t.unit t.node = some (.object params composed members) := by
  obtain ⟨data, hg, ht⟩ := Option.bind_eq_some_iff.1 ht
  exact (hh.shown hr hg).template t ht

theorem set (hh : h.Sound σ) {r : RecordId} (hr : σ.Shows r) {v : Value} (hv : v.Sound σ) (name : String) :
    (h.set r name v).Sound σ where
  size := by rw [size_set, hh.size]
  shown {q data} hq hg := by
    rw [get?_set] at hg
    split at hg
    · obtain ⟨old, hold, rfl⟩ := Option.map_eq_some_iff.1 hg
      exact (hh.shown hq hold).put hr hv name
    · exact hh.shown hq hg
  hidden {q data} hm := by
    rw [get?_set, if_neg (by rintro rfl; exact hr.2 data hm)]
    exact hh.hidden hm
  all {q data} hg := by
    rw [get?_set] at hg
    split at hg
    · obtain ⟨old, hold, rfl⟩ := Option.map_eq_some_iff.1 hg
      exact (hh.all hold).put (σ.within_bare.shows hr) (hv.mono σ.within_bare) name
    · exact hh.all hg

theorem setAll (hh : h.Sound σ) {r : RecordId} (hr : σ.Shows r) {entries : List (String × Value)}
    (hv : ∀ entry ∈ entries, entry.2.Sound σ) : (h.setAll r entries).Sound σ := by
  induction entries generalizing h with
  | nil => exact hh
  | cons entry rest ih =>
    exact ih (hh.set hr (hv entry (by simp)) entry.1) fun e he => hv e (by simp [he])

/-- A record that is added is shown. -/
theorem alloc (hh : h.Sound σ) {data : RecordData} (hd : data.Sound σ) :
    (h.alloc data).2.Sound σ.grown ∧ σ.grown.Shows (h.alloc data).1 := by
  have hwithin := σ.grows_grown.within
  refine ⟨⟨?_, fun {q d} hq hg => ?_, fun {q d} hm => ?_, fun {q d} hg => ?_⟩, ?_, fun d hm => ?_⟩
  · simp [Heap.alloc, Heap.size, Sight.grown, ← hh.size]
  · rw [get?_alloc] at hg
    split at hg
    · obtain rfl := Option.some.inj hg
      exact hd.mono hwithin
    · exact (hh.shown ⟨hh.lt_of_get? hg, hq.2⟩ hg).mono hwithin
  · have hg := hh.hidden hm
    have hlt := hh.lt_of_get? hg
    rw [get?_alloc, if_neg (by rw [hh.size]; omega), hg]
  · rw [get?_alloc] at hg
    split at hg
    · obtain rfl := Option.some.inj hg
      exact (hd.mono hwithin).mono σ.grown.within_bare
    · exact (hh.all hg).mono σ.grows_grown.bare
  · simp [Heap.alloc, Sight.grown, hh.size]
  · have hlt := hh.lt_of_get? (hh.hidden hm)
    simp [Heap.alloc, hh.size] at hlt

/-- The given properties are those of a record. -/
theorem ofEntries (hh : h.Sound σ) {entries : List (String × Value)}
    (hv : ∀ entry ∈ entries, entry.2.Sound σ) :
    (h.ofEntries entries).2.Sound σ.grown ∧ σ.grown.Shows (h.ofEntries entries).1 := by
  obtain ⟨hnew, hshown⟩ := hh.alloc (RecordData.sound_empty σ none)
  exact ⟨hnew.setAll hshown fun e he => (hv e he).later σ.grows_grown, hshown⟩

theorem shallowClone (hh : h.Sound σ) {r : RecordId} (hr : σ.Shows r) :
    (h.shallowClone r).2.Sound σ.grown ∧ σ.grown.Shows (h.shallowClone r).1 := by
  unfold Heap.shallowClone
  cases hg : h.get? r with
  | none => exact hh.alloc (RecordData.sound_empty σ none)
  | some data =>
    have hd := hh.shown hr hg
    have hempty : RecordData.Sound σ ⟨data.template, .empty, data.parent⟩ :=
      ⟨Bindings.sound_empty σ, hd.template⟩
    obtain ⟨hnew, hshown⟩ := hh.alloc hempty
    refine ⟨hnew.setAll hshown fun e he => ?_, hshown⟩
    exact (hd.properties _ (List.mem_map.2 ⟨e, he, rfl⟩)).later σ.grows_grown

/-- The record of the host can be made. -/
theorem newNamespace (hh : h.Sound σ) :
    ∃ σ', σ.Grows σ' ∧ σ'.units = σ.units ∧ h.newNamespace.2.Sound σ' ∧ σ'.Shows h.newNamespace.1 := by
  obtain ⟨hio, hr⟩ := hh.ofEntries (Native.forall_mem_inGroup Value.Sound.native "io")
  obtain ⟨hsystem, hr'⟩ := hio.ofEntries (Native.forall_mem_inGroup Value.Sound.native "system")
  have hgrows : σ.Grows σ.grown.grown.grown :=
    (σ.grows_grown.trans σ.grown.grows_grown).trans σ.grown.grown.grows_grown
  refine ⟨_, hgrows, rfl, hsystem.ofEntries ?_⟩
  intro entry he
  rcases List.mem_cons.1 he with rfl | he
  · exact .record ((Sight.grows_grown _).within.shows hr)
  · obtain rfl := List.mem_singleton.1 he
    exact .record hr'

/-! ### Hidden records -/

/-- A new record may be hidden. -/
theorem hide (hh : h.Sound σ) {data : RecordData} (hd : data.Sound σ) :
    (h.alloc data).2.Sound (σ.grown.hide ⟨σ.records⟩ data) := by
  have hsize := hh.size
  refine ⟨?_, fun {q d} hq hg => ?_, fun {q d} hm => ?_, (hh.alloc hd).1.all⟩
  · simp [Heap.alloc, Heap.size, Sight.grown, Sight.hide, ← hsize]
  · obtain ⟨hq, hne⟩ := Sight.shows_hide.1 hq
    rw [get?_alloc, if_neg fun hi => hne (congrArg RecordId.mk (hi.trans hsize))] at hg
    exact (hh.shown ⟨hh.lt_of_get? hg, hq.2⟩ hg).mono (σ.within_grown_hide data)
  · rw [get?_alloc]
    rcases List.mem_cons.1 hm with heq | hm
    · obtain ⟨rfl, rfl⟩ := Prod.mk.inj heq
      exact if_pos hsize.symm
    · have hg := hh.hidden hm
      have hlt := hh.lt_of_get? hg
      rw [if_neg (by omega), hg]

/-- A hidden record may be given a property. -/
theorem set_hidden {r : RecordId} {data : RecordData} (hr : σ.Shows r) (hh : h.Sound (σ.hide r data))
    (name : String) {v : Value} (hv : v.Sound σ) : (h.set r name v).Sound (σ.hide r (data.put r name v)) where
  size := by rw [size_set]; exact hh.size
  shown {q d} hq hg := by
    have hne : q ≠ r := (Sight.shows_hide.1 hq).2
    rw [get?_set, if_neg hne.symm] at hg
    exact (hh.shown (Sight.shows_hide.2 (Sight.shows_hide.1 hq)) hg).mono (σ.within_hide r _ _)
  hidden {q d} hm := by
    rcases List.mem_cons.1 hm with heq | hm
    · obtain ⟨rfl, rfl⟩ := Prod.mk.inj heq
      rw [get?_set, if_pos rfl, hh.hidden (List.mem_cons_self ..)]
      rfl
    · rw [get?_set, if_neg (by rintro rfl; exact hr.2 d hm)]
      exact hh.hidden (List.mem_cons_of_mem _ hm)
  all {q d} hg := by
    rw [get?_set] at hg
    split at hg
    · obtain ⟨old, hold, rfl⟩ := Option.map_eq_some_iff.1 hg
      exact (hh.all hold).put (σ.within_bare.shows hr) (hv.mono σ.within_bare) name
    · exact hh.all hg

/-- A hidden record may be shown when it is sound. -/
theorem reveal {r : RecordId} {data : RecordData} (hh : h.Sound (σ.hide r data)) (hd : data.Sound σ) :
    h.Sound σ where
  size := hh.size
  shown {q d} hq hg := by
    by_cases he : q = r
    · subst he
      obtain rfl := Option.some.inj ((hh.hidden (List.mem_cons_self ..)).symm.trans hg)
      exact hd
    · exact (hh.shown (Sight.shows_hide.2 ⟨hq, he⟩) hg).mono (σ.within_of_hide r data)
  hidden hm := hh.hidden (List.mem_cons_of_mem _ hm)
  all := hh.all

end Sound

end Heap

end DynScript
