import DynScript.Value.Basic

/-!
# Bindings

Names with their values: the variables of a frame, the properties of a record, the exports of a unit. Each
name occurs once, and setting it again changes its value in place. Nothing remembers in which order the names
were set: they are kept in an order of their own, so bindings of the same names to the same values are the same.

Bindings also carry the marks of their names. A name whose mark is missing has no value, so many bindings can
be passed over at little cost: `Bindings.hasMarked` does so, and `Bindings.hasMarked_mark` says that nothing
is lost by it.
-/

namespace DynScript

/-- The mark of a name: one of 64 bits. -/
def mark (name : String) : UInt64 := 1 <<< name.toList.foldl (fun h c => 31 * h + c.val.toUInt64) 7

/-- Names with their values, each name once. -/
structure Bindings where
  /-- The names and values in the order of the names. -/
  entries : List (String × Value)
  /-- Each name comes before those that are greater. -/
  ordered : entries.Pairwise fun x y => x.1 < y.1
  /-- The marks of the names, and perhaps others. -/
  marks : UInt64
  /-- No mark of a name is missing. -/
  marked : ∀ entry ∈ entries, marks ||| mark entry.1 = marks

namespace Bindings

/-- No names. -/
def empty : Bindings := ⟨[], .nil, 0, by simp⟩

instance : Inhabited Bindings := ⟨empty⟩

/-- The value of a name. -/
def get? (b : Bindings) (name : String) : Option Value := b.entries.lookup name

/-- Whether a name has a value. -/
def has (b : Bindings) (name : String) : Bool := (b.get? name).isSome

/-- Whether a name with this mark has a value. -/
def hasMarked (b : Bindings) (m : UInt64) (name : String) : Bool := b.marks ||| m = b.marks && b.has name

/-- A name whose mark is missing has no value. -/
theorem hasMarked_mark (b : Bindings) (name : String) : b.hasMarked (mark name) name = b.has name := by
  unfold hasMarked
  by_cases present : b.marks ||| mark name = b.marks
  · simp [present]
  · have : b.get? name = none := List.lookup_eq_none_iff.2 fun entry mem =>
      bne_iff_ne.2 fun same => present (same ▸ b.marked entry mem)
    simp [present, has, this]

/-- How many names there are. -/
def size (b : Bindings) : Nat := b.entries.length

/-- The names in their order. -/
def names (b : Bindings) : List String := b.entries.map Prod.fst

/-- The values of all names. -/
def values (b : Bindings) : List Value := b.entries.map Prod.snd

/-- Give a name a value: in its place if it has one, before the greater names otherwise. -/
def setIn (name : String) (value : Value) : List (String × Value) → List (String × Value)
  | [] => [(name, value)]
  | entry :: rest =>
    if entry.1 = name then (name, value) :: rest
    else if name < entry.1 then (name, value) :: entry :: rest
    else entry :: setIn name value rest

/-- What is there after a name was given a value is the new binding or was there before. -/
theorem mem_setIn {name : String} {value : Value} {entries : List (String × Value)} {entry : String × Value}
    (mem : entry ∈ setIn name value entries) : entry = (name, value) ∨ entry ∈ entries := by
  induction entries with
  | nil => exact .inl (List.mem_singleton.1 mem)
  | cons first rest ih =>
    unfold setIn at mem
    split at mem
    · exact (List.mem_cons.1 mem).imp id (List.mem_cons_of_mem first)
    · split at mem
      · exact List.mem_cons.1 mem
      · rcases List.mem_cons.1 mem with rfl | mem
        · exact .inr List.mem_cons_self
        · exact (ih mem).imp id (List.mem_cons_of_mem first)

/-- The order of the names stays. -/
theorem ordered_setIn (name : String) (value : Value) {entries : List (String × Value)}
    (ordered : entries.Pairwise fun x y => x.1 < y.1) :
    (setIn name value entries).Pairwise fun x y => x.1 < y.1 := by
  induction entries with
  | nil => exact List.pairwise_singleton ..
  | cons first rest ih =>
    obtain ⟨least, rest_ordered⟩ := List.pairwise_cons.1 ordered
    unfold setIn
    split
    · rename_i same
      exact List.pairwise_cons.2 ⟨same ▸ least, rest_ordered⟩
    · rename_i other
      split
      · rename_i less
        refine List.pairwise_cons.2 ⟨fun entry mem => ?_, ordered⟩
        rcases List.mem_cons.1 mem with rfl | mem
        · exact less
        · exact String.lt_trans less (least entry mem)
      · rename_i not_less
        refine List.pairwise_cons.2 ⟨fun entry mem => ?_, ih rest_ordered⟩
        rcases mem_setIn mem with rfl | mem
        · exact String.not_le.1 fun le => other (String.le_antisymm (String.not_lt.1 not_less) le)
        · exact least entry mem

/-- Marks stay when others are added. -/
theorem marks_absorb {marks m : UInt64} (other : UInt64) (h : marks ||| m = marks) :
    marks ||| other ||| m = marks ||| other := by
  rw [UInt64.or_assoc, UInt64.or_comm other, ← UInt64.or_assoc, h]

/-- Give a name a value. -/
def set (b : Bindings) (name : String) (value : Value) : Bindings where
  entries := setIn name value b.entries
  ordered := ordered_setIn name value b.ordered
  marks := b.marks ||| mark name
  marked entry mem := by
    rcases mem_setIn mem with rfl | mem
    · rw [UInt64.or_assoc, UInt64.or_self]
    · exact marks_absorb _ (b.marked entry mem)

/-- A name that was given a value has it; the other names have theirs. -/
theorem get?_set (b : Bindings) (name other : String) (value : Value) :
    (b.set name value).get? other = if other = name then some value else b.get? other := by
  have lookup_setIn (entries : List (String × Value)) :
      (setIn name value entries).lookup other = if other = name then some value else entries.lookup other := by
    induction entries with
    | nil => by_cases same : other = name <;> simp [setIn, same]
    | cons entry rest ih =>
      obtain ⟨key, old⟩ := entry
      unfold setIn
      by_cases same : other = name
      · subst same
        by_cases found : key = other
        · simp [found]
        · have absent : (other == key) = false := beq_eq_false_iff_ne.2 (Ne.symm found)
          by_cases less : other < key <;> simp [found, less, List.lookup_cons, absent, ih]
      · have absent : (other == name) = false := beq_eq_false_iff_ne.2 same
        by_cases found : key = name
        · simp [found, same, List.lookup_cons, absent]
        · by_cases less : name < key <;> simp [found, less, same, List.lookup_cons, absent, ih]
  exact lookup_setIn b.entries

/-- The bindings of names to values, where the last value of a name counts. -/
def ofList (entries : List (String × Value)) : Bindings :=
  entries.foldl (fun b (name, value) => b.set name value) empty

/-- The bindings in the order of their names. -/
def sorted (b : Bindings) : List (String × Value) :=
  b.entries.mergeSort fun x y => x.1 ≤ y.1

end Bindings

end DynScript
