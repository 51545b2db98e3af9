import DynScript.Proofs.Run.Operations
import DynScript.Proofs.Value.Copies

/-!
# Records that no value is

A record that is being made is not handed out before it is there: no value is the record, although functions may see
it. What changes in such a record does so through its names. `Value.Avoids` says that a value is not the record, and
`Heap.Gains` which names the record has taken.
-/

namespace DynScript

variable {r q : RecordId}

/-! ## Values -/

/-- A value is not a record, and it is no list with the record in it. A function may see the record. -/
inductive Value.Avoids (r : RecordId) : Value → Prop where
  | nil : Avoids r .nil
  | bool (b : Bool) : Avoids r (.bool b)
  | number (x : Float) : Avoids r (.number x)
  | char (c : Char) : Avoids r (.char c)
  | string (s : String) : Avoids r (.string s)
  | list {id : Nat} {items : Array Value} (h : ∀ v ∈ items, Avoids r v) : Avoids r (.list id items)
  | function (f : Function) : Avoids r (.function f)
  | native (n : Native) : Avoids r (.native n)
  | record {q : RecordId} (h : q ≠ r) : Avoids r (.record q)
  | host (h : HostObject) : Avoids r (.host h)

namespace Value.Avoids

variable {v : Value}

theorem named (hv : v.Avoids r) (name : String) : (v.named name).Avoids r := by
  cases hv with
  | list hitems => exact .list hitems
  | record hr => exact .record hr
  | _ => constructor

theorem boundTo (hv : v.Avoids r) (q : RecordId) : (v.boundTo q).Avoids r := by
  cases hv with
  | list hitems => exact .list hitems
  | record hr => exact .record hr
  | _ => constructor

end Value.Avoids

/-- A function that is put into a record points back at it. -/
theorem Value.receiver_of_boundTo {v : Value} {f : Function} (h : v.boundTo r = .function f) :
    f.receiver = some (.stored r) := by
  cases v with
  | function g =>
    obtain rfl := Value.function.inj h
    rfl
  | _ => cases h

/-- A value that is returned is not a record. -/
def Cause.Avoids (r : RecordId) (cause : Cause) : Prop := ∀ v, cause = .returning v → v.Avoids r

/-- What operations on values other than a record give is not the record. -/
theorem accepts_avoids (r : RecordId) : Accepts (Value.Avoids r) (Cause.Avoids r) where
  plain {v} hv := by
    cases v with
    | list id items => cases hv
    | function f => cases hv
    | record q => cases hv
    | _ => constructor
  list := by
    refine ⟨fun h => ?_, .list⟩
    cases h with
    | list hitems => exact hitems
  ordinary {cause} h v hv := by
    rw [hv] at h
    cases h

/-! ## Bindings and records -/

namespace Bindings

/-- No value is a record. -/
def Avoids (r : RecordId) (b : Bindings) : Prop := ∀ v ∈ b.values, v.Avoids r

theorem avoids_empty (r : RecordId) : empty.Avoids r := by simp [Avoids, empty, values]

variable {b : Bindings} {name : String} {v : Value}

theorem Avoids.get? (hb : b.Avoids r) (hv : b.get? name = some v) : v.Avoids r :=
  hb v (List.mem_map.2 ⟨(name, v), (b.mem_entries_iff (name, v)).2 hv, rfl⟩)

theorem Avoids.set (hb : b.Avoids r) (hv : v.Avoids r) (name : String) : (b.set name v).Avoids r := by
  intro w hw
  obtain ⟨entry, hmem, rfl⟩ := List.mem_map.1 hw
  rcases mem_setIn hmem with rfl | hmem
  · exact hv
  · exact hb _ (List.mem_map.2 ⟨entry, hmem, rfl⟩)

end Bindings

namespace Heap

variable {h h' : Heap} {name : String} {v : Value}

/-- No property is a record. -/
def Avoids (r : RecordId) (h : Heap) : Prop := ∀ q, (h.properties q).Avoids r

namespace Avoids

theorem property? (hh : h.Avoids r) (hv : h.property? q name = some v) : v.Avoids r := (hh q).get? hv

/-- Only the records matter. -/
theorem of_records (hh : h.Avoids r) (he : h'.records = h.records) : h'.Avoids r := by
  intro q
  unfold properties get?
  rw [he]
  exact hh q

theorem set (hh : h.Avoids r) (hv : v.Avoids r) (q : RecordId) (name : String) : (h.set q name v).Avoids r := by
  intro p
  unfold properties
  rw [get?_set]
  split
  · cases hg : h.get? p with
    | none => exact Bindings.avoids_empty r
    | some data =>
      have hp := hh p
      unfold properties at hp
      rw [hg] at hp
      exact Bindings.Avoids.set hp (hv.boundTo q) name
  · exact hh p

theorem setAll (hh : h.Avoids r) {entries : List (String × Value)} (hv : ∀ entry ∈ entries, entry.2.Avoids r)
    (q : RecordId) : (h.setAll q entries).Avoids r := by
  induction entries generalizing h with
  | nil => exact hh
  | cons entry rest ih =>
    obtain ⟨hentry, hrest⟩ := List.forall_mem_cons.1 hv
    exact ih (hh.set hentry q entry.1) hrest

/-- The properties of a record may be copied. -/
theorem entries (hh : h.Avoids r) (q : RecordId) : ∀ entry ∈ (h.properties q).entries, entry.2.Avoids r :=
  fun entry he => hh q _ (List.mem_map.2 ⟨entry, he, rfl⟩)

theorem alloc (hh : h.Avoids r) (template : Option Template) (parent : Option RecordId) :
    (h.alloc ⟨template, .empty, parent⟩).2.Avoids r := by
  intro p
  unfold properties
  rw [get?_alloc]
  split
  · exact Bindings.avoids_empty r
  · exact hh p

theorem ofEntries (hh : h.Avoids r) {entries : List (String × Value)} (hv : ∀ entry ∈ entries, entry.2.Avoids r) :
    (h.ofEntries entries).2.Avoids r :=
  (hh.alloc none none).setAll hv _

theorem shallowClone (hh : h.Avoids r) (q : RecordId) : (h.shallowClone q).2.Avoids r := by
  have hentries := hh.entries q
  unfold Heap.shallowClone
  unfold properties at hentries
  cases hg : h.get? q with
  | none => exact hh.alloc none none
  | some data =>
    rw [hg] at hentries
    exact (hh.alloc data.template data.parent).setAll hentries _

theorem mergeAll (hh : h.Avoids r) (records : List RecordId) (q : RecordId) : (h.mergeAll q records).Avoids r := by
  induction records generalizing h with
  | nil => exact hh
  | cons p rest ih => exact ih (hh.setAll (hh.entries p) q)

end Avoids

/-! ## A record that takes names -/

/-- A record is still there, with the template and the parent that it had and with some names more. -/
structure Gains (r : RecordId) (names : List String) (h h' : Heap) : Prop where
  /-- No record is taken away. -/
  size : h.size ≤ h'.size
  /-- The names of the properties. -/
  names : ∀ name, h'.has r name ↔ h.has r name ∨ name ∈ names
  /-- The template. -/
  template : h'.template? r = h.template? r
  /-- The parent. -/
  parent : h'.parent? r = h.parent? r
  /-- The functions that it has taken point back at it. -/
  functions : ∀ name f, h'.property? r name = some (.function f) →
    h.property? r name = some (.function f) ∨ f.receiver = some (.stored r)

namespace Gains

variable {h'' : Heap} {names more : List String}

@[refl] theorem refl (h : Heap) : Gains r [] h h := ⟨le_rfl, fun _ => by simp, rfl, rfl, fun _ _ => .inl⟩

theorem trans (hg : Gains r names h h') (k : Gains r more h' h'') : Gains r (names ++ more) h h'' where
  size := hg.size.trans k.size
  names name := by rw [k.names, hg.names, or_assoc, List.mem_append]
  template := k.template.trans hg.template
  parent := k.parent.trans hg.parent
  functions name f hf := (k.functions name f hf).elim (hg.functions name f) .inr

/-- Each name counts once. -/
theorem congr (hg : Gains r names h h') (hn : ∀ name, name ∈ names ↔ name ∈ more) : Gains r more h h' :=
  ⟨hg.size, fun name => (hg.names name).trans (or_congr_right (hn name)), hg.template, hg.parent, hg.functions⟩

theorem set (hr : r.index < h.size) (name : String) (v : Value) : Gains r [name] h (h.set r name v) := by
  have hproperty (other : String) : (h.set r name v).property? r other =
      if r = r ∧ other = name then some (v.boundTo r) else h.property? r other :=
    property?_set ⟨_, Array.getElem?_eq_getElem hr⟩ v r other
  refine ⟨(size_set ..).ge, fun other => ?_, template?_set v r, parent?_set v r, fun other f hf => ?_⟩
  · have hhas : (h.set r name v).has r other = ((h.set r name v).property? r other).isSome := rfl
    have hhad : h.has r other = (h.property? r other).isSome := rfl
    rw [hhas, hhad, hproperty, List.mem_singleton]
    by_cases hother : other = name <;> simp [hother]
  · by_cases hother : other = name
    · rw [hproperty, if_pos ⟨rfl, hother⟩] at hf
      exact .inr (Value.receiver_of_boundTo (Option.some.inj hf))
    · rw [hproperty, if_neg fun hsame => hother hsame.2] at hf
      exact .inl hf

theorem setAll (hr : r.index < h.size) (entries : List (String × Value)) :
    Gains r (entries.map Prod.fst) h (h.setAll r entries) := by
  induction entries generalizing h with
  | nil => exact .refl h
  | cons entry rest ih =>
    exact (set hr entry.1 entry.2).trans (ih (hr.trans_eq (size_set ..).symm))

end Gains

/-! ### Changes of other records -/

/-- Nothing is changed of a record that is there. -/
structure Spares (r : RecordId) (h h' : Heap) : Prop where
  /-- No record is taken away. -/
  size : h.size ≤ h'.size
  /-- The record is as it was. -/
  same : h'.get? r = h.get? r

namespace Spares

@[refl] theorem refl (h : Heap) : Spares r h h := ⟨le_rfl, rfl⟩

theorem trans {h'' : Heap} (hs : Spares r h h') (k : Spares r h' h'') : Spares r h h'' :=
  ⟨hs.size.trans k.size, k.same.trans hs.same⟩

theorem property? (hs : Spares r h h') (name : String) : h'.property? r name = h.property? r name := by
  rw [Heap.property?, Heap.property?, properties, properties, hs.same]

theorem gains (hs : Spares r h h') : Gains r [] h h' where
  size := hs.size
  names name := by
    have hhas : h'.has r name = h.has r name := congrArg Option.isSome (hs.property? name)
    simp [hhas]
  template := by rw [template?, template?, hs.same]
  parent := by rw [parent?, parent?, hs.same]
  functions name f hf := .inl (by rwa [hs.property?] at hf)

/-- Only the records matter. -/
theorem of_records (he : h'.records = h.records) : Spares r h h' :=
  ⟨by rw [Heap.size, Heap.size, he], by rw [get?, get?, he]⟩

theorem setAll (hq : q ≠ r) (entries : List (String × Value)) : Spares r h (h.setAll q entries) :=
  ⟨(size_setAll entries).ge, h.sameBut_setAll q entries r hq.symm⟩

theorem set (hq : q ≠ r) (name : String) (v : Value) : Spares r h (h.set q name v) := setAll hq [(name, v)]

/-- A record is added. It is another one. -/
theorem alloc (hr : r.index < h.size) (data : RecordData) : Spares r h (h.alloc data).2 := by
  refine ⟨by simp [Heap.alloc, Heap.size], ?_⟩
  rw [get?_alloc, if_neg (by omega)]

theorem new_ne (hr : r.index < h.size) : (⟨h.size⟩ : RecordId) ≠ r := by
  rintro rfl
  exact lt_irrefl _ hr

theorem ofEntries (hr : r.index < h.size) (entries : List (String × Value)) : Spares r h (h.ofEntries entries).2 :=
  (alloc hr _).trans (setAll (new_ne hr) entries)

theorem shallowClone (hr : r.index < h.size) (q : RecordId) : Spares r h (h.shallowClone q).2 := by
  unfold Heap.shallowClone
  cases h.get? q with
  | none => exact alloc hr _
  | some data => exact (alloc hr _).trans (setAll (new_ne hr) data.properties.entries)

end Spares

/-- The copy of a record is a new one. -/
theorem fst_shallowClone (h : Heap) (q : RecordId) : (h.shallowClone q).1 = ⟨h.size⟩ := by
  unfold shallowClone
  cases h.get? q <;> rfl

/-- The record of the host is another one, and the groups in it are others, too. -/
theorem newNamespace_apart (hr : r.index < h.size) (hh : h.Avoids r) :
    h.newNamespace.1 ≠ r ∧ Spares r h h.newNamespace.2 ∧ h.newNamespace.2.Avoids r := by
  have hio := Spares.ofEntries hr ((Native.inGroup "io").map fun named => (named.1, Value.native named.2))
  have hio' := hh.ofEntries (Native.forall_mem_inGroup Value.Avoids.native "io")
  have hr₁ := hr.trans_le hio.size
  have hsystem := Spares.ofEntries hr₁ ((Native.inGroup "system").map fun named => (named.1, Value.native named.2))
  have hsystem' := hio'.ofEntries (Native.forall_mem_inGroup Value.Avoids.native "system")
  have hr₂ := hr₁.trans_le hsystem.size
  refine ⟨Spares.new_ne hr₂, (hio.trans hsystem).trans (Spares.ofEntries hr₂ _), hsystem'.ofEntries fun entry he => ?_⟩
  rcases List.mem_cons.1 he with rfl | he
  · exact .record (Spares.new_ne hr)
  · obtain rfl := List.mem_singleton.1 he
    exact .record (Spares.new_ne hr₁)

end Heap

end DynScript
