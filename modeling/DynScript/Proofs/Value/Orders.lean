import Mathlib.Data.List.Basic
import DynScript.Run.CallStack

/-!
# Bindings in any order

Bindings are kept in the order of their names, but nothing may depend on that order. An `Enumeration` goes through them
in any order, in another one wherever it goes through them. Setting the properties of a record and writing its text come
to the same in every order: names that differ can be set one after the other or the other way round, since functions are
bound to the record and not to what was there before, and entries that are sorted by their names are always the same.
-/

namespace DynScript

/-- At every place an order in which bindings are gone through. -/
structure Enumeration where
  /-- The names and values, given the place. -/
  entries : List Nat → Bindings → List (String × Value)
  /-- Nothing is left out and nothing is added. -/
  perm : ∀ place (b : Bindings), (entries place b).Perm b.entries

namespace Bindings

/-- An entry tells the value of its name. -/
theorem mem_entries_iff (b : Bindings) (entry : String × Value) : entry ∈ b.entries ↔ b.get? entry.1 = some entry.2 := by
  have hgo (entries : List (String × Value)) (hordered : entries.Pairwise fun x y => x.1 < y.1) :
      entry ∈ entries ↔ entries.lookup entry.1 = some entry.2 := by
    induction entries with
    | nil => exact iff_of_false List.not_mem_nil fun h => by cases h
    | cons first rest ih =>
      obtain ⟨hleast, hrest⟩ := List.pairwise_cons.1 hordered
      rw [List.mem_cons, ih hrest, List.lookup_cons]
      by_cases hname : entry.1 = first.1
      · have hnone : rest.lookup entry.1 = none := List.lookup_eq_none_iff.2 fun other hother =>
          bne_iff_ne.2 (hname ▸ String.ne_of_lt (hleast other hother))
        rw [hnone, hname, beq_self_eq_true]
        constructor
        · rintro (rfl | h)
          · rfl
          · cases h
        · exact fun h => .inl (Prod.ext hname (Option.some.inj h).symm)
      · rw [beq_false_of_ne hname]
        exact or_iff_right fun h => hname (congrArg Prod.fst h)
  exact hgo b.entries b.ordered

/-- Entries that differ have different names. -/
theorem name_ne (b : Bindings) {x y : String × Value} (hx : x ∈ b.entries) (hy : y ∈ b.entries) (h : x ≠ y) :
    x.1 ≠ y.1 := by
  intro hname
  have hvalue : some x.2 = some y.2 := by
    rw [← (b.mem_entries_iff x).1 hx, ← (b.mem_entries_iff y).1 hy, hname]
  exact h (Prod.ext hname (Option.some.inj hvalue))

theorem nodup_entries (b : Bindings) : b.entries.Nodup := by
  refine b.ordered.imp fun {x y} hlt heq => ?_
  rw [heq] at hlt
  exact String.lt_irrefl _ hlt

/-- The same names with the same values have the same entries. -/
theorem entries_eq_of_get? {b b' : Bindings} (h : ∀ name, b.get? name = b'.get? name) : b.entries = b'.entries := by
  have hperm : b.entries.Perm b'.entries := by
    refine (List.perm_ext_iff_of_nodup b.nodup_entries b'.nodup_entries).2 fun entry => ?_
    rw [b.mem_entries_iff, b'.mem_entries_iff, h]
  exact hperm.eq_of_pairwise (fun x y _ _ hxy hyx => absurd (String.lt_trans hxy hyx) (String.lt_irrefl _)) b.ordered
    b'.ordered

/-- Two names are given their values in any order. -/
theorem set_comm (b : Bindings) {name other : String} (h : name ≠ other) (value value' : Value) :
    (b.set name value).set other value' = (b.set other value').set name value := by
  have hentries : ((b.set name value).set other value').entries = ((b.set other value').set name value).entries := by
    refine entries_eq_of_get? fun wanted => ?_
    simp only [get?_set]
    by_cases hname : wanted = name
    · rw [if_pos hname, if_neg fun hother => h (hname.symm.trans hother), if_pos hname]
    · rw [if_neg hname, if_neg hname]
  have hmarks : ((b.set name value).set other value').marks = ((b.set other value').set name value).marks := by
    show b.marks ||| mark name ||| mark other = b.marks ||| mark other ||| mark name
    rw [UInt64.or_assoc, UInt64.or_comm (mark name), UInt64.or_assoc]
  generalize (b.set name value).set other value' = first at hentries hmarks
  generalize (b.set other value').set name value = second at hentries hmarks
  obtain ⟨entries, _, marks, _⟩ := first
  obtain ⟨entries', _, marks', _⟩ := second
  obtain rfl : entries = entries' := hentries
  obtain rfl : marks = marks' := hmarks
  rfl

/-- Sorting leads to the same in any order. -/
theorem sorted_of_perm (b : Bindings) {entries : List (String × Value)} (h : entries.Perm b.entries) :
    entries.mergeSort (fun x y => x.1 ≤ y.1) = b.sorted := by
  let le (x y : String × Value) : Bool := x.1 ≤ y.1
  have htrans (x y z : String × Value) (hxy : le x y) (hyz : le y z) : le x z :=
    decide_eq_true (String.le_trans (of_decide_eq_true hxy) (of_decide_eq_true hyz))
  have htotal (x y : String × Value) : le x y || le y x := by simp [le, String.le_total]
  have hsorted := List.pairwise_mergeSort htrans htotal
  have hperm : (entries.mergeSort fun x y => x.1 ≤ y.1).Perm b.sorted :=
    (List.mergeSort_perm ..).trans (h.trans (List.mergeSort_perm ..).symm)
  refine hperm.eq_of_pairwise (fun x y hx hy hxy hyx => ?_) (hsorted entries) (hsorted b.entries)
  have hname : x.1 = y.1 := String.le_antisymm (of_decide_eq_true hxy) (of_decide_eq_true hyx)
  have hx : x ∈ b.entries := h.mem_iff.1 (List.mem_mergeSort.1 hx)
  by_contra hne
  exact b.name_ne hx (List.mem_mergeSort.1 hy) hne hname

end Bindings

namespace Heap

theorem set_comm (h : Heap) (r : RecordId) {name other : String} (hne : name ≠ other) (value value' : Value) :
    (h.set r name value).set r other value' = (h.set r other value').set r name value := by
  have hrecords : ((h.set r name value).set r other value').records = ((h.set r other value').set r name value).records := by
    refine Array.ext_getElem? fun i => ?_
    simp only [set, Array.getElem?_modify]
    split
    · cases h.records[i]? with
      | none => rfl
      | some data => simp [data.properties.set_comm hne]
    · rfl
  exact congrArg (fun records => ({ h with records } : Heap)) hrecords

/-- Properties are set in any order. -/
theorem setAll_of_perm (h : Heap) (r : RecordId) {entries : List (String × Value)} {b : Bindings}
    (hperm : entries.Perm b.entries) : h.setAll r entries = h.setAll r b.entries := by
  refine hperm.foldl_eq' (fun x hx y hy h => ?_) h
  by_cases heq : x = y
  · rw [heq]
  · exact h.set_comm r (b.name_ne (hperm.mem_iff.1 hx) (hperm.mem_iff.1 hy) heq) x.2 y.2

/-- A copy of a record, when its properties are gone through as given. -/
def shallowCloneBy (h : Heap) (r : RecordId) (entries : List (String × Value)) : RecordId × Heap :=
  match h.get? r with
  | none => h.newRecord
  | some data =>
    let (copy, h) := h.alloc ⟨data.template, .empty, data.parent⟩
    (copy, h.setAll copy entries)

theorem shallowCloneBy_of_perm (h : Heap) (r : RecordId) {entries : List (String × Value)}
    (hperm : entries.Perm (h.properties r).entries) : h.shallowCloneBy r entries = h.shallowClone r := by
  unfold shallowCloneBy shallowClone
  unfold properties at hperm
  cases hdata : h.get? r with
  | none => rfl
  | some data =>
    rw [hdata] at hperm
    exact congrArg (Prod.mk _) (setAll_of_perm _ _ hperm)

theorem ofEntries_of_perm (h : Heap) {entries : List (String × Value)} {b : Bindings} (hperm : entries.Perm b.entries) :
    h.ofEntries entries = h.ofEntries b.entries :=
  congrArg (Prod.mk _) (setAll_of_perm _ _ hperm)

end Heap

/-! ## Texts -/

theorem mapIdx_const {α β : Type} (f : α → β) (l : List α) : l.mapIdx (fun _ a => f a) = l.map f :=
  List.ext_getElem? fun i => by rw [List.getElem?_mapIdx, List.getElem?_map]

mutual

/-- The text of a value at a place, when `record` gives the text of a record at a place. -/
def Value.textAt (record : List Nat → RecordId → String) (place : List Nat) : Value → String
  | .list _ ⟨items⟩ => "[" ++ ", ".intercalate (Value.textsAt record place items) ++ "]"
  | other => other.textWith (record place)

/-- The texts of a row of values, each at a place of its own. -/
def Value.textsAt (record : List Nat → RecordId → String) (place : List Nat) : List Value → List String
  | [] => []
  | item :: rest => item.textAt record (rest.length :: place) :: Value.textsAt record place rest

end

mutual

theorem Value.textAt_eq {recordAt : List Nat → RecordId → String} {record : RecordId → String}
    (h : ∀ place, recordAt place = record) :
    ∀ (v : Value) (place : List Nat), v.textAt recordAt place = v.textWith record
  | .list _ ⟨items⟩, place => by rw [textAt, textWith, textsAt_eq h items place]
  | .nil, place | .bool _, place | .number _, place | .char _, place | .string _, place | .function _, place
  | .native _, place | .record _, place | .host _, place => by simp only [textAt, h]

theorem Value.textsAt_eq {recordAt : List Nat → RecordId → String} {record : RecordId → String}
    (h : ∀ place, recordAt place = record) :
    ∀ (items : List Value) (place : List Nat), Value.textsAt recordAt place items = Value.textsWith record items
  | [], _ => rfl
  | item :: rest, place => by rw [textsAt, textsWith, textAt_eq h item, textsAt_eq h rest]

end

namespace Heap

variable (h : Heap) (e : Enumeration)

/-- The text of a record at a place inside the records `enclosing`. -/
def recordTextBy : Nat → List RecordId → List Nat → RecordId → String
  | 0, _, _, _ => cycleText
  | levels + 1, enclosing, place, r =>
    if enclosing.contains r then cycleText
    else
      let entries := (e.entries place (h.properties r)).mergeSort fun x y => x.1 ≤ y.1
      let texts := entries.mapIdx fun i (name, value) =>
        name ++ ": " ++ value.textAt (recordTextBy levels (r :: enclosing)) (i :: place)
      "\x7b" ++ ", ".intercalate texts ++ "\x7d"

/-- The text of a value at a place. -/
def textBy (place : List Nat) (v : Value) : String := v.textAt (h.recordTextBy e (h.size + 1) []) place

/-- The text of a record is the same in any order. -/
theorem recordTextBy_eq (levels : Nat) : ∀ enclosing place,
    h.recordTextBy e levels enclosing place = h.recordTextWithin levels enclosing := by
  induction levels with
  | zero => intros; rfl
  | succ levels ih =>
    intro enclosing place
    funext r
    have htext (name : String) (i : Nat) (value : Value) := congrArg (name ++ ": " ++ ·)
      (Value.textAt_eq (ih (r :: enclosing)) value (i :: place))
    simp only [recordTextBy, recordTextWithin, htext, mapIdx_const, Bindings.sorted_of_perm _ (e.perm place _)]

theorem textBy_eq (place : List Nat) (v : Value) : h.textBy e place v = h.text v :=
  Value.textAt_eq (h.recordTextBy_eq e (h.size + 1) []) v place

end Heap

/-! ## Backtraces -/

/-- A call as a backtrace shows it. -/
def CallFrame.toBacktraceBy (frame : CallFrame) (heap : Heap) (e : Enumeration) (place : List Nat) : BacktraceFrame :=
  ⟨frame.name.getD BacktraceFrame.anonymous,
    frame.params.mapIdx fun i (name, value) => name ++ " = " ++ heap.textBy e (i :: place) value,
    frame.callSite⟩

theorem CallFrame.toBacktraceBy_eq (frame : CallFrame) (heap : Heap) (e : Enumeration) (place : List Nat) :
    frame.toBacktraceBy heap e place = frame.toBacktrace heap := by
  simp only [toBacktraceBy, toBacktrace, Heap.textBy_eq, mapIdx_const]

namespace CallStack

/-- The calls as a backtrace shows them. -/
def captureBy (calls : CallStack) (heap : Heap) (e : Enumeration) : Backtrace :=
  ⟨(calls.frames.toList.mapIdx fun i frame => frame.toBacktraceBy heap e [i]).reverse⟩

/-- Add a backtrace to a fault. -/
def attachBacktraceBy (calls : CallStack) (heap : Heap) (e : Enumeration) (fault : Fault) : Fault :=
  if calls.isEmpty || fault.backtrace.isSome || fault.isSignal then fault
  else fault.withBacktrace (calls.captureBy heap e)

theorem attachBacktraceBy_eq (calls : CallStack) (heap : Heap) (e : Enumeration) (fault : Fault) :
    calls.attachBacktraceBy heap e fault = calls.attachBacktrace heap fault := by
  simp only [attachBacktraceBy, attachBacktrace, captureBy, capture, CallFrame.toBacktraceBy_eq, mapIdx_const]

end CallStack

end DynScript
