import DynScript.Proofs.Value.Backlinks
import DynScript.Proofs.Value.Orders

/-!
# Properties and copies

What is in a record after some of its properties were set: under each name the value that was given to it last. A copy
of a record has the same names with the same values, where functions point at the copy, and from then on the two have
nothing in common but what their values refer to.
-/

namespace DynScript

/-- The value that a name is given last. -/
def lastGiven (entries : List (String × Value)) (name : String) : Option Value := entries.reverse.lookup name

theorem lastGiven_cons (entry : String × Value) (rest : List (String × Value)) (name : String) :
    lastGiven (entry :: rest) name = (lastGiven rest name).or (if name = entry.1 then some entry.2 else none) := by
  rw [lastGiven, List.reverse_cons, List.lookup_append, lastGiven]
  by_cases hname : name = entry.1
  · have hfirst : [entry].lookup name = some entry.2 := by
      rw [List.lookup_cons, hname, beq_self_eq_true]
    rw [hfirst, if_pos hname]
  · have hfirst : [entry].lookup name = none := by
      rw [List.lookup_cons, beq_false_of_ne hname]
      rfl
    rw [hfirst, if_neg hname]

/-- The last value of a name was given to it. -/
theorem mem_of_lastGiven {entries : List (String × Value)} {name : String} {value : Value}
    (h : lastGiven entries name = some value) : (name, value) ∈ entries := by
  obtain ⟨before, after, hmem, -⟩ := List.lookup_eq_some_iff.1 h
  exact List.mem_reverse.1 (hmem ▸ List.mem_append_right _ List.mem_cons_self)

/-- A name that was given a value was given one last. -/
theorem isSome_lastGiven {entries : List (String × Value)} {name : String} :
    (lastGiven entries name).isSome ↔ name ∈ entries.map Prod.fst := by
  induction entries with
  | nil => simp [lastGiven]
  | cons entry rest ih =>
    rw [lastGiven_cons, List.map_cons, List.mem_cons, ← ih]
    by_cases hname : name = entry.1 <;> cases lastGiven rest name <;> simp [hname]

/-- In bindings each name has one value. -/
theorem Bindings.lastGiven_entries (b : Bindings) (name : String) : lastGiven b.entries name = b.get? name := by
  cases hvalue : b.get? name with
  | some value =>
    obtain ⟨last, hlast⟩ := Option.isSome_iff_exists.1
      (isSome_lastGiven.2 (List.mem_map.2 ⟨(name, value), (b.mem_entries_iff (name, value)).2 hvalue, rfl⟩))
    have hsame := (b.mem_entries_iff (name, last)).1 (mem_of_lastGiven hlast)
    rw [hlast, ← hvalue, hsame]
  | none =>
    refine Option.not_isSome_iff_eq_none.1 fun hsome => ?_
    obtain ⟨entry, hmem, rfl⟩ := List.mem_map.1 (isSome_lastGiven.1 hsome)
    rw [(b.mem_entries_iff entry).1 hmem] at hvalue
    cases hvalue

namespace Heap

variable {h h' : Heap} {r q copy : RecordId} {name : String}

/-! ## Setting properties -/

/-- A record with a property is there. -/
theorem exists_of_has (hname : h.has r name) : ∃ data, h.get? r = some data := by
  unfold has properties at hname
  cases hg : h.get? r with
  | none =>
    rw [hg] at hname
    cases hname
  | some data => exact ⟨data, rfl⟩

/-- To give a property a value changes this property alone. -/
theorem property?_set (hr : ∃ data, h.get? r = some data) (v : Value) (q : RecordId) (other : String) :
    (h.set r name v).property? q other = if q = r ∧ other = name then some (v.boundTo r) else h.property? q other := by
  obtain ⟨data, hg⟩ := hr
  unfold property? properties
  rw [get?_set]
  by_cases hq : r = q
  · subst hq
    rw [if_pos rfl, hg]
    by_cases hother : other = name
    · rw [if_pos ⟨rfl, hother⟩, hother]
      exact (data.properties.get?_set name name (v.boundTo r)).trans (if_pos rfl)
    · rw [if_neg fun hsame => hother hsame.2]
      exact Bindings.get?_set_of_ne hother _
  · rw [if_neg hq, if_neg fun hsame => hq hsame.1.symm]

/-- A property is all of a record that can be written. -/
theorem template?_set (v : Value) (q : RecordId) : (h.set r name v).template? q = h.template? q := by
  unfold template?
  rw [get?_set]
  split
  · cases h.get? q <;> rfl
  · rfl

theorem parent?_set (v : Value) (q : RecordId) : (h.set r name v).parent? q = h.parent? q := by
  unfold parent?
  rw [get?_set]
  split
  · cases h.get? q <;> rfl
  · rfl

/-- No record comes or goes. -/
theorem exists_get?_set (v : Value) (hr : ∃ data, h.get? q = some data) : ∃ data, (h.set r name v).get? q = some data := by
  obtain ⟨data, hg⟩ := hr
  rw [get?_set, hg]
  split <;> exact ⟨_, rfl⟩

section

variable (entries : List (String × Value))

@[simp] theorem size_setAll : (h.setAll r entries).size = h.size := by
  induction entries generalizing h with
  | nil => rfl
  | cons entry rest ih => exact ih.trans (h.size_set r entry.1 entry.2)

theorem template?_setAll (q : RecordId) : (h.setAll r entries).template? q = h.template? q := by
  induction entries generalizing h with
  | nil => rfl
  | cons entry rest ih => exact ih.trans (template?_set entry.2 q)

theorem parent?_setAll (q : RecordId) : (h.setAll r entries).parent? q = h.parent? q := by
  induction entries generalizing h with
  | nil => rfl
  | cons entry rest ih => exact ih.trans (parent?_set entry.2 q)

/-- Each property has the value that it was given last, or the one that it had. -/
theorem property?_setAll (hr : ∃ data, h.get? r = some data) (name : String) :
    (h.setAll r entries).property? r name = ((lastGiven entries name).map (Value.boundTo r)).or (h.property? r name) := by
  induction entries generalizing h with
  | nil => rfl
  | cons entry rest ih =>
    show ((h.set r entry.1 entry.2).setAll r rest).property? r name = _
    rw [ih (exists_get?_set entry.2 hr), property?_set hr, lastGiven_cons]
    by_cases hname : name = entry.1
    · rw [if_pos ⟨rfl, hname⟩, if_pos hname]
      cases lastGiven rest name <;> rfl
    · rw [if_neg fun hsame => hname hsame.2, if_neg hname, Option.or_none]

end

/-! ## Other records -/

/-- All records but one are as they were. -/
def SameBut (r : RecordId) (h h' : Heap) : Prop := ∀ q, q ≠ r → h'.get? q = h.get? q

theorem sameBut_set (h : Heap) (r : RecordId) (name : String) (v : Value) : SameBut r h (h.set r name v) := by
  intro q hq
  rw [get?_set, if_neg (Ne.symm hq)]

theorem SameBut.trans {h'' : Heap} (hs : SameBut r h h') (k : SameBut r h' h'') : SameBut r h h'' :=
  fun q hq => (k q hq).trans (hs q hq)

theorem sameBut_setAll (h : Heap) (r : RecordId) (entries : List (String × Value)) :
    SameBut r h (h.setAll r entries) := by
  induction entries generalizing h with
  | nil => exact fun _ _ => rfl
  | cons entry rest ih => exact (h.sameBut_set r entry.1 entry.2).trans (ih _)

theorem sameBut_alloc (h : Heap) (data : RecordData) : SameBut ⟨h.size⟩ h (h.alloc data).2 := by
  intro q hq
  have hne : q.index ≠ h.size := by
    intro hindex
    apply hq
    cases q
    exact congrArg RecordId.mk hindex
  exact (h.get?_alloc data q).trans (if_neg hne)

theorem SameBut.properties (hs : SameBut r h h') (hq : q ≠ r) : h'.properties q = h.properties q := by
  rw [Heap.properties, Heap.properties, hs q hq]

theorem SameBut.property? (hs : SameBut r h h') (hq : q ≠ r) (name : String) : h'.property? q name = h.property? q name := by
  rw [Heap.property?, Heap.property?, hs.properties hq]

/-- Copy the properties of several records, one after the other. -/
def mergeAll (h : Heap) (r : RecordId) : List RecordId → Heap
  | [] => h
  | q :: rest => (h.setAll r (h.properties q).entries).mergeAll r rest

theorem sameBut_mergeAll (h : Heap) (r : RecordId) (records : List RecordId) : SameBut r h (h.mergeAll r records) := by
  induction records generalizing h with
  | nil => exact fun _ _ => rfl
  | cons q rest ih => exact (h.sameBut_setAll r _).trans (ih _)

/-! ## Copies -/

/-- The second heap is the first one with a copy of a record. -/
structure IsCopy (h : Heap) (r copy : RecordId) (h' : Heap) : Prop where
  /-- The copy is a new record. -/
  fresh : copy = ⟨h.size⟩
  /-- It is the only one. -/
  size : h'.size = h.size + 1
  /-- The other records are as they were. -/
  others : SameBut copy h h'
  /-- The copy has the same names with the same values, and functions point at it. -/
  property : ∀ name, h'.property? copy name = (h.property? r name).map (Value.boundTo copy)
  /-- It has the same template. -/
  template : h'.template? copy = h.template? r
  /-- It has the same parent. -/
  parent : h'.parent? copy = h.parent? r

/-- A copy is not the record itself. -/
theorem IsCopy.ne (hc : h.IsCopy r copy h') (hr : r.index < h.size) : copy ≠ r := by
  rintro rfl
  rw [hc.fresh] at hr
  exact lt_irrefl _ hr

/-- The copy of a record is what is meant by one. -/
theorem isCopy_shallowClone (hr : r.index < h.size) : h.IsCopy r (h.shallowClone r).1 (h.shallowClone r).2 := by
  obtain ⟨data, hg⟩ : ∃ data, h.get? r = some data := ⟨_, Array.getElem?_eq_getElem hr⟩
  have hclone : h.shallowClone r =
      (⟨h.size⟩, (h.alloc ⟨data.template, .empty, data.parent⟩).2.setAll ⟨h.size⟩ data.properties.entries) := by
    unfold shallowClone
    rw [hg]
    rfl
  rw [hclone]
  have hnew : (h.alloc ⟨data.template, .empty, data.parent⟩).2.get? ⟨h.size⟩ =
      some ⟨data.template, .empty, data.parent⟩ := (h.get?_alloc _ _).trans (if_pos rfl)
  refine ⟨rfl, ?_, (h.sameBut_alloc _).trans (sameBut_setAll _ _ _), fun name => ?_, ?_, ?_⟩
  · refine (size_setAll _).trans ?_
    simp [alloc, size]
  · refine (property?_setAll _ ⟨_, hnew⟩ name).trans ?_
    rw [Bindings.lastGiven_entries]
    have hempty : (h.alloc ⟨data.template, .empty, data.parent⟩).2.property? ⟨h.size⟩ name = none := by
      unfold Heap.property? Heap.properties
      rw [hnew]
      rfl
    rw [hempty, Option.or_none, Heap.property?, Heap.properties, hg]
    rfl
  · refine (template?_setAll _ _).trans ?_
    rw [Heap.template?, Heap.template?, hnew, hg]
    rfl
  · refine (parent?_setAll _ _).trans ?_
    rw [Heap.parent?, Heap.parent?, hnew, hg]
    rfl

/-- To set properties of one record does not change what another one has. -/
theorem property?_setAll_of_ne (hne : q ≠ r) (entries : List (String × Value)) (name : String) :
    (h.setAll r entries).property? q name = h.property? q name :=
  (h.sameBut_setAll r entries).property? hne name

end Heap

end DynScript
