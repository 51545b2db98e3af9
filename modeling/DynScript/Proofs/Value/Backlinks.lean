import DynScript.Proofs.Value.Sound

/-!
# Functions in records point back

A function that is a property of a record points back at this record and at no other one. It is so in an empty
heap, and everything that changes records keeps it so.
-/

namespace DynScript

/-- Every function that is a property of a record points back at the record. -/
def RecordData.PointsBack (r : RecordId) (data : RecordData) : Prop :=
  ∀ f, .function f ∈ data.properties.values → f.receiver = some (.stored r)

/-- Every function that is a property of some record points back at it. -/
def Heap.PointsBack (h : Heap) : Prop := ∀ r data, h.get? r = some data → data.PointsBack r

namespace RecordData.PointsBack

variable {r : RecordId} {data : RecordData}

theorem empty (r : RecordId) (template : Option Template) (parent : Option RecordId) :
    PointsBack r ⟨template, .empty, parent⟩ :=
  fun _ hf => nomatch hf

theorem put (hd : data.PointsBack r) (name : String) (value : Value) : (data.put r name value).PointsBack r := by
  intro f hf
  obtain ⟨entry, hmem, hvalue⟩ := List.mem_map.1 hf
  rcases Bindings.mem_setIn hmem with rfl | hmem
  · cases value with
    | function g =>
      obtain rfl := Value.function.inj hvalue
      rfl
    | _ => cases hvalue
  · exact hd f (List.mem_map.2 ⟨entry, hmem, hvalue⟩)

end RecordData.PointsBack

namespace Heap

variable {h : Heap}

theorem pointsBack_empty : empty.PointsBack := fun r data hg => by simp [empty, get?] at hg

namespace PointsBack

/-- Only the records matter. -/
theorem of_records {h' : Heap} (hh : h.PointsBack) (he : h'.records = h.records) : h'.PointsBack :=
  fun r data hg => hh r data (by rwa [Heap.get?, he] at hg)

theorem set (hh : h.PointsBack) (r : RecordId) (name : String) (value : Value) :
    (h.set r name value).PointsBack := by
  intro q data hg
  rw [get?_set] at hg
  split at hg
  · rename_i heq
    obtain rfl := heq
    obtain ⟨old, hold, rfl⟩ := Option.map_eq_some_iff.1 hg
    exact (hh r old hold).put name value
  · exact hh q data hg

theorem setAll (hh : h.PointsBack) (r : RecordId) (entries : List (String × Value)) :
    (h.setAll r entries).PointsBack := by
  induction entries generalizing h with
  | nil => exact hh
  | cons entry rest ih => exact ih (hh.set r entry.1 entry.2)

theorem alloc (hh : h.PointsBack) (template : Option Template) (parent : Option RecordId) :
    (h.alloc ⟨template, .empty, parent⟩).2.PointsBack := by
  intro q data hg
  rw [get?_alloc] at hg
  split at hg
  · obtain rfl := Option.some.inj hg
    exact .empty q template parent
  · exact hh q data hg

theorem newRecord (hh : h.PointsBack) : h.newRecord.2.PointsBack := hh.alloc none none

theorem newClass (hh : h.PointsBack) (template : Template) : (h.newClass template).2.PointsBack :=
  hh.alloc (some template) none

theorem newInstance (hh : h.PointsBack) (parent : RecordId) : (h.newInstance parent).2.PointsBack :=
  hh.alloc none (some parent)

theorem ofEntries (hh : h.PointsBack) (entries : List (String × Value)) : (h.ofEntries entries).2.PointsBack :=
  hh.newRecord.setAll _ entries

theorem shallowClone (hh : h.PointsBack) (r : RecordId) : (h.shallowClone r).2.PointsBack := by
  unfold Heap.shallowClone
  cases h.get? r with
  | none => exact hh.newRecord
  | some data => exact (hh.alloc data.template data.parent).setAll _ _

theorem newNamespace (hh : h.PointsBack) : h.newNamespace.2.PointsBack :=
  ((hh.ofEntries _).ofEntries _).ofEntries _

/-- What is found in a record points back at it. -/
theorem property? (hh : h.PointsBack) {r : RecordId} {name : String} {f : Function}
    (hf : h.property? r name = some (.function f)) : f.receiver = some (.stored r) := by
  unfold Heap.property? Heap.properties at hf
  cases hg : h.get? r with
  | none =>
    rw [hg] at hf
    cases hf
  | some data =>
    rw [hg] at hf
    obtain ⟨before, after, hmem, -⟩ := List.lookup_eq_some_iff.1 hf
    exact hh r data hg f (List.mem_map.2 ⟨(name, .function f), hmem ▸ List.mem_append_right _ List.mem_cons_self, rfl⟩)

end PointsBack

end Heap

end DynScript
