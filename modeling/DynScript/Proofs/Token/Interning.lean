import Mathlib.Algebra.Group.Nat.Defs
import Mathlib.Data.Finset.Card
import DynScript.Interner

/-!
# Interning strings one after the other

The map of an interner and its table of strings are changed together, so they stay inverse to each other
(`Interner.Sound`). From this it follows what is told of a whole sequence of strings: `Interner.Tells` says of each moment
of it which numbers have been handed out by then and what they stand for.
-/

namespace DynScript

namespace Interner

variable {t t' : Interner} {s : String} {i : UInt32} {calls : List (String × UInt32)}

/-! ## One string -/

/-- How a string is interned: it is known, or it gets the next number. -/
theorem intern_cases (h : t.intern s = some (i, t')) :
    (t.find? s = some i ∧ t' = t) ∨
      (t.find? s = none ∧ i.toNat = t.size ∧ t'.numbers = t.numbers.insert s i ∧ t'.strings = t.strings.push s) := by
  unfold intern at h
  split at h
  · rename_i found hfound
    obtain ⟨rfl, rfl⟩ := Prod.mk.inj (Option.some.inj h)
    exact .inl ⟨hfound, rfl⟩
  · rename_i hnew
    split at h
    · obtain ⟨rfl, rfl⟩ := Prod.mk.inj (Option.some.inj h)
      exact .inr ⟨hnew, UInt32.toNat_ofNatLT, rfl, rfl⟩
    · cases h

/-- A string gets a number as long as there is one left. -/
theorem exists_of_intern (h : t.find? s = none → t.size < UInt32.size) : ∃ i t', t.intern s = some (i, t') := by
  unfold intern
  cases hfound : t.find? s with
  | some i => exact ⟨i, t, rfl⟩
  | none => exact ⟨_, _, dif_pos (h hfound)⟩

theorem find?_of_insert (h : t'.numbers = t.numbers.insert s i) (q : String) :
    t'.find? q = if q = s then some i else t.find? q := by
  unfold find?
  rw [h, Std.HashMap.getElem?_insert]
  simp only [beq_iff_eq, eq_comm (a := s)]

theorem lookup?_of_push (h : t'.strings = t.strings.push s) (hi : i.toNat = t.size) (j : UInt32) :
    t'.lookup? j = if j = i then some s else t.lookup? j := by
  unfold lookup?
  rw [h, Array.getElem?_push]
  simp only [← UInt32.toNat_inj, hi, size]

theorem size_of_push (h : t'.strings = t.strings.push s) : t'.size = t.size + 1 := by
  unfold size
  rw [h, Array.size_push]

theorem lookup?_isSome : (t.lookup? i).isSome ↔ i.toNat < t.size := by
  simp [lookup?, size]

/-! ## What is kept -/

/-- How the parts of an interner fit together. -/
structure Sound (t : Interner) : Prop where
  /-- The map and the table of strings are inverse to each other. -/
  inverse : ∀ s i, t.find? s = some i ↔ t.lookup? i = some s
  /-- The empty string is number zero. -/
  empty : t.lookup? 0 = some ""
  /-- There are numbers for all strings. -/
  fits : t.size ≤ UInt32.size

theorem sound_new : Sound new where
  inverse s i := by
    have hfind : new.find? s = if s = "" then some 0 else none :=
      (find?_of_insert (t := ⟨∅, #[]⟩) rfl s).trans (by simp [find?])
    have hlookup : new.lookup? i = if i = 0 then some "" else none :=
      (lookup?_of_push (t := ⟨∅, #[]⟩) (i := 0) rfl rfl i).trans (by simp [lookup?])
    rw [hfind, hlookup]
    by_cases hs : s = "" <;> by_cases hi : i = 0 <;> simp [hs, hi, eq_comm (a := (0 : UInt32)), eq_comm (a := "")]
  empty := rfl
  fits := by decide

theorem Sound.intern (ht : t.Sound) (h : t.intern s = some (i, t')) : t'.Sound := by
  obtain ⟨-, rfl⟩ | ⟨hnew, hi, hnumbers, hstrings⟩ := intern_cases h
  · exact ht
  · have hnext : t.lookup? i = none := by
      rw [← Option.not_isSome_iff_eq_none, lookup?_isSome]
      omega
    have hnumber (j : UInt32) : t.lookup? j ≠ some s := by
      rw [Ne, ← ht.inverse, hnew]
      exact nofun
    refine ⟨fun q j => ?_, ?_, ?_⟩
    · rw [find?_of_insert hnumbers, lookup?_of_push hstrings hi]
      by_cases hq : q = s <;> by_cases hj : j = i
      · simp [hq, hj]
      · subst hq
        simp [hj, Ne.symm hj, hnumber j]
      · have hfind : t.find? q ≠ some i := by
          rw [Ne, ht.inverse, hnext]
          exact nofun
        simp [hj, Ne.symm hq, hq, hfind]
      · rw [if_neg hq, if_neg hj]
        exact ht.inverse q j
    · have hzero : (0 : UInt32) ≠ i := by
        rintro rfl
        rw [ht.empty] at hnext
        cases hnext
      rw [lookup?_of_push hstrings hi, if_neg hzero]
      exact ht.empty
    · have hsize := size_of_push hstrings
      have hlt : i.toNat < UInt32.size := i.toNat_lt
      omega

/-- What has been handed out is kept. -/
theorem Sound.lookup?_of_intern (ht : t.Sound) (h : t.intern s = some (i, t')) {q : String} {j : UInt32}
    (hj : t.lookup? j = some q) : t'.lookup? j = some q := by
  obtain ⟨-, rfl⟩ | ⟨-, hi, -, hstrings⟩ := intern_cases h
  · exact hj
  · have hne : j ≠ i := by
      rintro rfl
      have hlt := lookup?_isSome.1 (Option.isSome_of_eq_some hj)
      omega
    rw [lookup?_of_push hstrings hi, if_neg hne, hj]

/-- A string is found under its number. -/
theorem Sound.lookup?_interned (ht : t.Sound) (h : t.intern s = some (i, t')) : t'.lookup? i = some s := by
  obtain ⟨hfound, rfl⟩ | ⟨-, hi, -, hstrings⟩ := intern_cases h
  · exact (ht.inverse s i).1 hfound
  · rw [lookup?_of_push hstrings hi, if_pos rfl]

/-- Each string stands where its number says. -/
theorem Sound.find?_getElem (ht : t.Sound) {n : Nat} (hn : n < t.strings.size) :
    t.find? t.strings[n] = some (.ofNat n) ∧ (UInt32.ofNat n).toNat = n := by
  have hnumber : (UInt32.ofNat n).toNat = n := UInt32.toNat_ofNat_of_lt' (lt_of_lt_of_le hn ht.fits)
  refine ⟨(ht.inverse _ _).2 ?_, hnumber⟩
  rw [lookup?, hnumber]
  exact Array.getElem?_eq_getElem hn

/-- The strings are distinct. -/
theorem Sound.nodup (ht : t.Sound) : t.strings.toList.Nodup := by
  rw [List.nodup_iff_injective_getElem]
  rintro ⟨j, hj⟩ ⟨k, hk⟩ (hsame : t.strings[j] = t.strings[k])
  obtain ⟨hfirst, hj'⟩ := ht.find?_getElem hj
  obtain ⟨hsecond, hk'⟩ := ht.find?_getElem hk
  rw [hsame, hsecond] at hfirst
  have hjk : k = j := by rw [← hj', ← hk', Option.some.inj hfirst]
  exact Fin.ext hjk.symm

/-! ## Many strings -/

/-- Intern strings one after the other, and take down each with the number that it gets. -/
def internAll (t : Interner) : List String → Option (List (String × UInt32) × Interner)
  | [] => some ([], t)
  | s :: rest => do
    let (i, t) ← t.intern s
    let (calls, t) ← t.internAll rest
    return ((s, i) :: calls, t)

theorem internAll_cons {rest : List String} {t'' : Interner} (h : t.intern s = some (i, t'))
    (hrest : t'.internAll rest = some (calls, t'')) : t.internAll (s :: rest) = some ((s, i) :: calls, t'') := by
  simp [internAll, h, hrest]

theorem exists_of_internAll_cons {rest : List String} {t'' : Interner}
    (h : t.internAll (s :: rest) = some (calls, t'')) :
    ∃ i t' more, t.intern s = some (i, t') ∧ t'.internAll rest = some (more, t'') ∧ calls = (s, i) :: more := by
  obtain ⟨⟨i, t'⟩, hi, h⟩ := Option.bind_eq_some_iff.1 h
  obtain ⟨⟨more, t₂⟩, hmore, h⟩ := Option.bind_eq_some_iff.1 h
  obtain ⟨rfl, rfl⟩ := Prod.mk.inj (Option.some.inj h)
  exact ⟨i, t', more, hi, hmore, rfl⟩

theorem map_fst_of_internAll {strings : List String} (h : t.internAll strings = some (calls, t')) :
    calls.map Prod.fst = strings := by
  induction strings generalizing t calls with
  | nil =>
    obtain ⟨rfl, -⟩ := Prod.mk.inj (Option.some.inj h)
    rfl
  | cons s rest ih =>
    obtain ⟨i, t₁, more, -, hmore, rfl⟩ := exists_of_internAll_cons h
    rw [List.map_cons, ih hmore]

/-- What comes back for the first strings does not depend on those that come after them. -/
theorem internAll_take {strings : List String} (h : t.internAll strings = some (calls, t')) (count : Nat) :
    ∃ t'', t.internAll (strings.take count) = some (calls.take count, t'') := by
  induction strings generalizing t calls count with
  | nil =>
    obtain ⟨rfl, -⟩ := Prod.mk.inj (Option.some.inj h)
    exact ⟨t, by rw [List.take_nil, List.take_nil]; rfl⟩
  | cons s rest ih =>
    obtain ⟨i, t₁, more, hi, hmore, rfl⟩ := exists_of_internAll_cons h
    cases count with
    | zero => exact ⟨t, rfl⟩
    | succ count =>
      obtain ⟨t'', hfirst⟩ := ih hmore count
      exact ⟨t'', internAll_cons hi hfirst⟩

/-- What holds after strings have been interned and have got these numbers. -/
structure Tells (t : Interner) (calls : List (String × UInt32)) : Prop extends Sound t where
  /-- The numbers stand for the strings. -/
  told : ∀ c ∈ calls, t.lookup? c.2 = some c.1
  /-- No other numbers have been handed out but zero. -/
  dense : ∀ i : UInt32, i.toNat < t.size → i = 0 ∨ ∃ s, (s, i) ∈ calls

theorem tells_new : Tells new [] where
  toSound := sound_new
  told := nofun
  dense i hi := .inl (UInt32.toNat_inj.1 (by simpa [new, size] using hi))

theorem Tells.intern (ht : t.Tells calls) (h : t.intern s = some (i, t')) : t'.Tells (calls ++ [(s, i)]) where
  toSound := ht.toSound.intern h
  told c hc := by
    rcases List.mem_append.1 hc with hc | hc
    · exact ht.lookup?_of_intern h (ht.told c hc)
    · obtain rfl := List.mem_singleton.1 hc
      exact ht.lookup?_interned h
  dense j hj := by
    by_cases hold : j.toNat < t.size
    · exact (ht.dense j hold).imp_right fun ⟨q, hq⟩ => ⟨q, List.mem_append_left _ hq⟩
    · obtain ⟨-, rfl⟩ | ⟨-, hi, -, hstrings⟩ := intern_cases h
      · exact absurd hj hold
      · have hsize := size_of_push hstrings
        obtain rfl : j = i := UInt32.toNat_inj.1 (by omega)
        exact .inr ⟨s, by simp⟩

/-- Two strings have got the same number exactly if they are equal. -/
theorem Tells.snd_eq_iff (ht : t.Tells calls) {c d : String × UInt32} (hc : c ∈ calls) (hd : d ∈ calls) :
    c.2 = d.2 ↔ c.1 = d.1 := by
  have hcall := ht.told c hc
  have hother := ht.told d hd
  constructor
  · intro h
    rw [h, hother] at hcall
    exact (Option.some.inj hcall).symm
  · intro h
    rw [← ht.inverse] at hcall hother
    rw [h, hother] at hcall
    exact (Option.some.inj hcall).symm

/-- The strings are the empty one and those that have been interned. -/
theorem Tells.mem_strings (ht : t.Tells calls) (hs : s ∈ t.strings) : s = "" ∨ s ∈ calls.map Prod.fst := by
  obtain ⟨n, hn, rfl⟩ := Array.mem_iff_getElem.1 hs
  have hlookup := (ht.inverse _ _).1 (ht.find?_getElem hn).1
  rcases ht.dense _ (lookup?_isSome.1 (Option.isSome_of_eq_some hlookup)) with hzero | ⟨q, hq⟩
  · rw [hzero, ht.empty] at hlookup
    exact .inl (Option.some.inj hlookup).symm
  · obtain rfl := Option.some.inj ((ht.told _ hq).symm.trans hlookup)
    exact .inr (List.mem_map_of_mem hq)

/-- A new string gets a number if there are not too many distinct ones. -/
theorem Tells.size_lt (ht : t.Tells calls) (hnew : t.find? s = none)
    (hfew : (calls.map Prod.fst ++ [s]).toFinset.card < UInt32.size) : t.size < UInt32.size := by
  have hmem : s ∉ t.strings := by
    intro hs
    obtain ⟨n, hn, rfl⟩ := Array.mem_iff_getElem.1 hs
    rw [(ht.find?_getElem hn).1] at hnew
    cases hnew
  have hnodup : (t.strings.toList ++ [s]).Nodup :=
    ht.nodup.append (List.nodup_singleton s) (by simpa using hmem)
  have hsub : (t.strings.toList ++ [s]).toFinset ⊆ insert "" (calls.map Prod.fst ++ [s]).toFinset := by
    intro q hq
    rw [List.mem_toFinset, List.mem_append, Array.mem_toList_iff, List.mem_singleton] at hq
    rw [Finset.mem_insert, List.mem_toFinset, List.mem_append, List.mem_singleton]
    rcases hq with hq | hq
    · exact (ht.mem_strings hq).imp_right .inl
    · exact .inr (.inr hq)
  have hcard := (Finset.card_le_card hsub).trans (Finset.card_insert_le ..)
  rw [List.toFinset_card_of_nodup hnodup] at hcard
  simp only [List.length_append, Array.length_toList, List.length_singleton] at hcard
  unfold size
  omega

/-- Not too many distinct strings all get their numbers. -/
theorem Tells.internAll (ht : t.Tells calls) (rest : List String)
    (hfew : (calls.map Prod.fst ++ rest).toFinset.card < UInt32.size) :
    ∃ more t', t.internAll rest = some (more, t') ∧ t'.Tells (calls ++ more) := by
  induction rest generalizing t calls with
  | nil => exact ⟨[], t, rfl, by rwa [List.append_nil]⟩
  | cons s rest ih =>
    have hsplit : calls.map Prod.fst ++ s :: rest = calls.map Prod.fst ++ [s] ++ rest := by simp
    rw [hsplit] at hfew
    have hsub : (calls.map Prod.fst ++ [s]).toFinset ⊆ (calls.map Prod.fst ++ [s] ++ rest).toFinset := by
      rw [List.toFinset_append (l := calls.map Prod.fst ++ [s])]
      exact Finset.subset_union_left
    obtain ⟨i, t', hi⟩ := exists_of_intern fun hnew => ht.size_lt hnew ((Finset.card_le_card hsub).trans_lt hfew)
    obtain ⟨more, t'', hmore, ht''⟩ := ih (ht.intern hi) (by rwa [List.map_append])
    exact ⟨(s, i) :: more, t'', internAll_cons hi hmore, by simpa using ht''⟩

end Interner

/-- Whatever strings are interned one after the other, if fewer than 2³² of them are distinct: each gets a number. Two get
the same number exactly if they are equal. At each moment, when so many of the strings have been interned, each of them is
found under its number, the numbers below the size and no others have been handed out, zero is that of the empty string,
and the map and the table are inverse to each other. -/
theorem interned_strings_are_numbered (strings : List String) (hfew : strings.toFinset.card < 2 ^ 32) :
    ∃ calls : List (String × UInt32), calls.map Prod.fst = strings ∧
      (∀ c ∈ calls, ∀ d ∈ calls, c.2 = d.2 ↔ c.1 = d.1) ∧
      ∀ count, ∃ t, Interner.new.internAll (strings.take count) = some (calls.take count, t) ∧
        (∀ c ∈ calls.take count, t.lookup? c.2 = some c.1) ∧
        (∀ i : UInt32, i.toNat < t.size ↔ i = 0 ∨ ∃ s, (s, i) ∈ calls.take count) ∧
        t.lookup? 0 = some "" ∧
        ∀ s i, t.find? s = some i ↔ t.lookup? i = some s := by
  obtain ⟨calls, t, hcalls, ht⟩ := Interner.tells_new.internAll strings hfew
  rw [List.nil_append] at ht
  refine ⟨calls, Interner.map_fst_of_internAll hcalls, fun c hc d hd => ht.snd_eq_iff hc hd, fun count => ?_⟩
  have hsub : (strings.take count).toFinset ⊆ strings.toFinset := fun s hs =>
    List.mem_toFinset.2 (List.mem_of_mem_take (List.mem_toFinset.1 hs))
  obtain ⟨first, t', hfirst, ht'⟩ :=
    Interner.tells_new.internAll (strings.take count) ((Finset.card_le_card hsub).trans_lt hfew)
  obtain ⟨t'', htake⟩ := Interner.internAll_take hcalls count
  obtain ⟨rfl, rfl⟩ := Prod.mk.inj (Option.some.inj (hfirst.symm.trans htake))
  rw [List.nil_append] at ht'
  refine ⟨t', hfirst, ht'.told, fun i => ⟨ht'.dense i, ?_⟩, ht'.empty, ht'.inverse⟩
  rintro (rfl | ⟨s, hs⟩)
  · exact Interner.lookup?_isSome.1 (Option.isSome_of_eq_some ht'.empty)
  · exact Interner.lookup?_isSome.1 (Option.isSome_of_eq_some (ht'.told _ hs))

/-- The empty string and a repetition among the strings. -/
theorem interned_repetition_is_numbered :
    let strings := ["b", "", "a", "b"]
    strings.toFinset.card < 2 ^ 32 ∧
      ∃ t, Interner.new.internAll strings = some ([("b", 1), ("", 0), ("a", 2), ("b", 1)], t) ∧
        t.lookup? 1 = some "b" ∧ t.lookup? 2 = some "a" ∧
        (∀ i : UInt32, i.toNat < t.size ↔ i = 0 ∨ i = 1 ∨ i = 2) ∧
        ∀ s i, t.find? s = some i ↔ t.lookup? i = some s := by
  intro strings
  have hfew : strings.toFinset.card < 2 ^ 32 := by decide
  have hrun : (Interner.new.internAll strings).map Prod.fst = some [("b", 1), ("", 0), ("a", 2), ("b", 1)] := by
    simp [strings, Interner.internAll, Interner.intern, Interner.find?, Interner.new, UInt32.size,
      Std.HashMap.getElem_insert]
  obtain ⟨calls, -, -, hmoments⟩ := interned_strings_are_numbered strings hfew
  obtain ⟨t, ht, htold, hdense, -, hinverse⟩ := hmoments 4
  have hnumbers : calls.take 4 = [("b", 1), ("", 0), ("a", 2), ("b", 1)] := by
    rw [show strings = strings.take 4 from rfl, ht] at hrun
    exact Option.some.inj hrun
  rw [hnumbers] at ht htold hdense
  refine ⟨hfew, t, ht, htold ("b", 1) (by simp), htold ("a", 2) (by simp), fun i => ?_, hinverse⟩
  rw [hdense]
  simp only [List.mem_cons, List.not_mem_nil, Prod.mk.injEq, or_false, exists_or, exists_eq_left]
  tauto

end DynScript
