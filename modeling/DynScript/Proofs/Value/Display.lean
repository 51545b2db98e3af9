import Mathlib.Data.Finset.Card
import Mathlib.Data.Finset.Range
import Mathlib.Logic.Relation
import DynScript.Proofs.Value.Orders
import DynScript.Value.Display

/-!
# The text of a value ends

Records may hold themselves, in each other or in lists, and so the text of a value is not found by going down what it is
made of. `Heap.Writes` says what is written for a value inside the records that are being written: a record that is one
of them is written as three dots between braces, any other record in full, name by name in the order of their bytes.
Since only finitely many records have properties, there is such a text for every value and for all records around it,
and no other one. Where no record leads back to itself, it is the text that is found by going down (`Heap.Plain`).
-/

namespace DynScript

/-! ## The order of bytes -/

/-- The bytes of a name. -/
def utf8Bytes (name : String) : List UInt8 := name.toByteArray.data.toList

/-- A name comes before another one in the order of their bytes. -/
def ByteBefore (name other : String) : Prop := utf8Bytes name < utf8Bytes other

theorem utf8Bytes_eq (name : String) : utf8Bytes name = name.toList.flatMap String.utf8EncodeChar := by
  rw [utf8Bytes, ← String.utf8Encode_toList, List.utf8Encode, List.toList_data_toByteArray]

theorem div_lt_or_mod_lt {a b : Nat} (h : a < b) (base : Nat) :
    a / base < b / base ∨ a / base = b / base ∧ a % base < b % base := by
  rcases Nat.lt_or_eq_of_le (Nat.div_le_div_right (Nat.le_of_lt h) : a / base ≤ b / base) with hdiv | hdiv
  · exact .inl hdiv
  · have ha := Nat.div_add_mod a base
    have hb := Nat.div_add_mod b base
    rw [hdiv] at ha
    exact .inr ⟨hdiv, by omega⟩

/-- Of two numbers, the smaller one has the smaller digit where they differ first. -/
theorem digits_lt {a b : Nat} (h : a < b) :
    a / 262144 < b / 262144 ∨ a / 262144 = b / 262144 ∧
      (a / 4096 % 64 < b / 4096 % 64 ∨ a / 4096 % 64 = b / 4096 % 64 ∧
        (a / 64 % 64 < b / 64 % 64 ∨ a / 64 % 64 = b / 64 % 64 ∧ a % 64 < b % 64)) := by
  rcases div_lt_or_mod_lt h 64 with h | h
  · rcases div_lt_or_mod_lt h 64 with h | h
    · rcases div_lt_or_mod_lt h 64 with h | h <;> omega
    · omega
  · omega

/-- A smaller character has smaller bytes, and they differ before either ends. -/
theorem utf8EncodeChar_append_lt {c d : Char} (h : c < d) (rest rest' : List UInt8) :
    String.utf8EncodeChar c ++ rest < String.utf8EncodeChar d ++ rest' := by
  have hlt : c.val.toNat < d.val.toNat := h
  have hmax : d.val.toNat < 1114112 := by
    rcases d.valid with hd | hd <;> omega
  have hdigits := digits_lt hlt
  have hbyte (x : Nat) : (x % 64 + 128) % 2 ^ 8 = x % 64 + 128 := by omega
  have hfirst {x : Nat} (hx : x < 1114112) : (x / 262144 % 8 + 240) % 2 ^ 8 = x / 262144 + 240 := by omega
  simp only [String.utf8EncodeChar]
  -- The first bytes differ when the lengths do.
  split_ifs <;>
    simp only [List.cons_append, List.nil_append, List.cons_lt_cons_iff, UInt8.lt_iff_toNat_lt, UInt8.toNat_ofNat',
      ← UInt8.toNat_inj, hbyte, hfirst hmax, hfirst (Nat.lt_trans hlt hmax), Nat.add_lt_add_iff_right,
      Nat.add_right_cancel_iff] <;>
    omega

/-- The order of names is the order of their bytes. -/
theorem byteBefore_of_lt {name other : String} (h : name < other) : ByteBefore name other := by
  have hlists (l l' : List Char) (hl : l < l') :
      l.flatMap String.utf8EncodeChar < l'.flatMap String.utf8EncodeChar := by
    induction hl with
    | nil =>
      rename_i c rest
      cases hbytes : String.utf8EncodeChar c with
      | nil => exact absurd hbytes String.utf8EncodeChar_ne_nil
      | cons first bytes => simp [hbytes]
    | cons _ ih => exact List.append_left_lt ih
    | rel hcd => exact utf8EncodeChar_append_lt hcd _ _
  unfold ByteBefore
  rw [utf8Bytes_eq, utf8Bytes_eq]
  exact hlists _ _ h

theorem ByteBefore.asymm {name other : String} (h : ByteBefore name other) : ¬ ByteBefore other name := List.lt_asymm h

/-- The names of bindings, in the order of their bytes. -/
structure Bindings.Names (b : Bindings) (names : List String) : Prop where
  /-- Every name is there, and no other one. -/
  mem : ∀ name, name ∈ names ↔ b.has name
  /-- Each name comes before those that follow. -/
  ordered : names.Pairwise ByteBefore

namespace Bindings

variable {b : Bindings}

theorem names_sorted (b : Bindings) : b.Names (b.sorted.map Prod.fst) := by
  have hsorted : b.sorted = b.entries :=
    List.mergeSort_of_pairwise (b.ordered.imp fun hlt => decide_eq_true (String.not_lt.1 (String.lt_asymm hlt)))
  rw [hsorted]
  constructor
  case mem =>
    intro name
    rw [has, Option.isSome_iff_exists, List.mem_map]
    constructor
    · rintro ⟨entry, hmem, rfl⟩
      exact ⟨entry.2, (b.mem_entries_iff entry).1 hmem⟩
    · rintro ⟨v, hv⟩
      exact ⟨(name, v), (b.mem_entries_iff (name, v)).2 hv, rfl⟩
  case ordered => exact List.pairwise_map.2 (b.ordered.imp byteBefore_of_lt)

/-- There is only one such order. -/
theorem Names.eq {names names' : List String} (h : b.Names names) (h' : b.Names names') : names = names' := by
  have hnodup {names : List String} (h : b.Names names) : names.Nodup :=
    h.ordered.imp fun hbefore heq => by
      rw [heq] at hbefore
      exact hbefore.asymm hbefore
  have hperm : names.Perm names' := (List.perm_ext_iff_of_nodup (hnodup h) (hnodup h')).2 fun name => by
    rw [h.mem, h'.mem]
  exact hperm.eq_of_pairwise (fun x y _ _ hxy hyx => absurd hyx hxy.asymm) h.ordered h'.ordered

end Bindings

/-! ## What is written -/

/-- A value that is neither a list nor a record. -/
def Value.Atomic (v : Value) : Prop := (∀ id items, v ≠ .list id items) ∧ ∀ r, v ≠ .record r

theorem Value.Atomic.textWith_eq {v : Value} (hv : v.Atomic) (record record' : RecordId → String) :
    v.textWith record = v.textWith record' := by
  cases v with
  | list id items => exact absurd rfl (hv.1 id items)
  | record r => exact absurd rfl (hv.2 r)
  | _ => simp only [textWith]

/-- What is written for a list, given what is written for its items. -/
def listText (texts : List String) : String := "[" ++ ", ".intercalate texts ++ "]"

/-- What is written for a record in full, given its names and what is written for their values. -/
def fullText (names : List String) (text : String → String) : String :=
  "\x7b" ++ ", ".intercalate (names.map fun name => name ++ ": " ++ text name) ++ "\x7d"

namespace Heap

/-- What is written for a value while the records `enclosing` are being written. -/
inductive Writes (h : Heap) : List RecordId → Value → String → Prop where
  /-- A value that holds nothing is written as it is. -/
  | atom {enclosing : List RecordId} {v : Value} (hv : v.Atomic) (record : RecordId → String) :
    Writes h enclosing v (v.textWith record)
  /-- A list is written item by item, inside the same records. -/
  | list {enclosing : List RecordId} {id : Nat} {items : Array Value} {texts : List String}
    (hlength : texts.length = items.size)
    (hitems : ∀ i (hi : i < items.size) (ht : i < texts.length), Writes h enclosing items[i] texts[i]) :
    Writes h enclosing (.list id items) (listText texts)
  /-- A record inside itself is not written again. -/
  | again {enclosing : List RecordId} {r : RecordId} (hr : r ∈ enclosing) : Writes h enclosing (.record r) cycleText
  /-- Any other record is written in full: its names in the order of their bytes, and their values inside the record. -/
  | full {enclosing : List RecordId} {r : RecordId} {names : List String} {text : String → String} (hr : r ∉ enclosing)
    (hnames : (h.properties r).Names names)
    (hvalues : ∀ name v, h.property? r name = some v → Writes h (r :: enclosing) v (text name)) :
    Writes h enclosing (.record r) (fullText names text)

/-- The text of a value that is found by going down what the value is made of. -/
inductive Plain (h : Heap) : Value → String → Prop where
  /-- A value that holds nothing is written as it is. -/
  | atom {v : Value} (hv : v.Atomic) (record : RecordId → String) : Plain h v (v.textWith record)
  /-- A list is written item by item. -/
  | list {id : Nat} {items : Array Value} {texts : List String} (hlength : texts.length = items.size)
    (hitems : ∀ i (hi : i < items.size) (ht : i < texts.length), Plain h items[i] texts[i]) :
    Plain h (.list id items) (listText texts)
  /-- A record is written name by name. -/
  | record {r : RecordId} {names : List String} {text : String → String} (hnames : (h.properties r).Names names)
    (hvalues : ∀ name v, h.property? r name = some v → Plain h v (text name)) :
    Plain h (.record r) (fullText names text)

end Heap

/-- A record stands in a value: it is the value, or it stands in an item of a list. -/
inductive Value.Shows : Value → RecordId → Prop where
  | record (r : RecordId) : Shows (.record r) r
  | item {id : Nat} {items : Array Value} {v : Value} {r : RecordId} (hmem : v ∈ items) (hv : v.Shows r) :
    Shows (.list id items) r

namespace Heap

/-- A record stands in a property of another one. -/
def Leads (h : Heap) (r s : RecordId) : Prop := ∃ name v, h.property? r name = some v ∧ v.Shows s

/-- No record that is reached from a value leads back to itself. -/
def Acyclic (h : Heap) (v : Value) : Prop :=
  ∀ r s, v.Shows r → Relation.ReflTransGen h.Leads r s → ¬ Relation.TransGen h.Leads s s

variable {h : Heap} {enclosing : List RecordId} {v : Value} {r s : RecordId} {t t' : String}

/-! ## There is only one text -/

theorem Writes.eq (hw : h.Writes enclosing v t) (hw' : h.Writes enclosing v t') : t = t' := by
  induction hw generalizing t' with
  | atom hv record =>
    cases hw' with
    | atom _ record' => exact hv.textWith_eq record record'
    | list => exact absurd rfl (hv.1 _ _)
    | again | full => exact absurd rfl (hv.2 _)
  | list hlength _ ih =>
    cases hw' with
    | atom hv => exact absurd rfl (hv.1 _ _)
    | list hlength' hitems' =>
      refine congrArg listText (List.ext_getElem (hlength.trans hlength'.symm) fun i hi hi' => ?_)
      exact ih i (hlength ▸ hi) hi (hitems' i (hlength ▸ hi) hi')
  | again hr =>
    cases hw' with
    | atom hv => exact absurd rfl (hv.2 _)
    | again => rfl
    | full hr' => exact absurd hr hr'
  | full hr hnames _ ih =>
    cases hw' with
    | atom hv => exact absurd rfl (hv.2 _)
    | again hr' => exact absurd hr' hr
    | full _ hnames' hvalues' =>
      obtain rfl := hnames.eq hnames'
      refine congrArg (fun texts : List String => "\x7b" ++ ", ".intercalate texts ++ "\x7d")
        (List.map_congr_left fun name hmem => ?_)
      obtain ⟨v, hv⟩ := Option.isSome_iff_exists.1 ((hnames.mem name).1 hmem)
      exact congrArg (name ++ ": " ++ ·) (ih name v hv (hvalues' name v hv))

/-- What is written for a record in full is not what is written for a record inside itself. -/
theorem fullText_ne_cycleText (names : List String) (text : String → String) : fullText names text ≠ cycleText := by
  intro heq
  cases names with
  | nil => exact absurd (show fullText [] text = "\x7b\x7d" from rfl) (heq ▸ by decide)
  | cons name rest =>
    -- A colon stands after the first name, and none of the dots is a colon.
    have hcolon : ':' ∈ cycleText.toList := by
      rw [← heq]
      simp [fullText]
    exact absurd hcolon (by decide)

theorem writes_cycleText_iff : h.Writes enclosing (.record r) cycleText ↔ r ∈ enclosing := by
  constructor
  · intro hw
    generalize ht : cycleText = t at hw
    cases hw with
    | atom hv => exact absurd rfl (hv.2 r)
    | again hr => exact hr
    | full => exact absurd ht.symm (fullText_ne_cycleText _ _)
  · exact .again

/-! ## There is always a text -/

/-- How many records of a heap are not being written. -/
def unopened (h : Heap) (enclosing : List RecordId) : Nat :=
  ((Finset.range h.size).filter fun i => RecordId.mk i ∉ enclosing).card

/-- A record that starts to be written is one less. -/
theorem unopened_cons_lt (hr : r.index < h.size) (hmem : r ∉ enclosing) :
    h.unopened (r :: enclosing) < h.unopened enclosing := by
  refine Finset.card_lt_card (Finset.ssubset_iff_of_subset ?_ |>.2 ⟨r.index, ?_, ?_⟩)
  · exact Finset.monotone_filter_right _ fun i _ hi => fun hmem => hi (List.mem_cons_of_mem r hmem)
  · exact Finset.mem_filter.2 ⟨Finset.mem_range.2 hr, hmem⟩
  · exact fun hr => (Finset.mem_filter.1 hr).2 List.mem_cons_self

theorem unopened_le (enclosing : List RecordId) : h.unopened enclosing ≤ h.size :=
  (Finset.card_filter_le _ _).trans_eq (Finset.card_range _)

theorem length_textsWith (record : RecordId → String) (items : List Value) :
    (Value.textsWith record items).length = items.length := by
  induction items with
  | nil => rfl
  | cons item rest ih => rw [Value.textsWith, List.length_cons, List.length_cons, ih]

mutual

/-- When each record gets its text, so does each value. -/
theorem writes_textWith {record : RecordId → String} (hrecord : ∀ r, h.Writes enclosing (.record r) (record r)) :
    ∀ v : Value, h.Writes enclosing v (v.textWith record)
  | .list _ ⟨items⟩ => by
    rw [Value.textWith]
    exact .list (length_textsWith record items) (writes_textsWith hrecord items)
  | .record r => by
    rw [Value.textWith]
    exact hrecord r
  | .nil | .bool _ | .number _ | .char _ | .string _ | .function _ | .native _ | .host _ =>
    .atom (by simp [Value.Atomic]) record

theorem writes_textsWith {record : RecordId → String} (hrecord : ∀ r, h.Writes enclosing (.record r) (record r)) :
    ∀ (items : List Value) (i : Nat) (hi : i < items.length) (ht : i < (Value.textsWith record items).length),
      h.Writes enclosing items[i] (Value.textsWith record items)[i]
  | item :: _, 0, _, _ => writes_textWith hrecord item
  | _ :: rest, i + 1, hi, _ => writes_textsWith hrecord rest i (Nat.lt_of_succ_lt_succ hi) _

end

/-- A record in full, written with the texts of its properties. -/
theorem fullText_properties (h : Heap) (r : RecordId) (text : Value → String) :
    "\x7b" ++ ", ".intercalate ((h.properties r).sorted.map fun (name, value) => name ++ ": " ++ text value) ++ "\x7d" =
      fullText ((h.properties r).sorted.map Prod.fst) fun name => ((h.property? r name).map text).getD "" := by
  rw [fullText, List.map_map]
  refine congrArg (fun texts : List String => "\x7b" ++ ", ".intercalate texts ++ "\x7d") (List.map_congr_left ?_)
  intro entry hmem
  have hentry : h.property? r entry.1 = some entry.2 :=
    ((h.properties r).mem_entries_iff entry).1 (List.mem_mergeSort.1 hmem)
  simp [hentry]

/-- A record gets its text as long as there are as many levels as records to be written. -/
theorem writes_recordTextWithin {levels : Nat} (hlevels : h.unopened enclosing < levels) (r : RecordId) :
    h.Writes enclosing (.record r) (h.recordTextWithin levels enclosing r) := by
  induction levels generalizing enclosing r with
  | zero => exact absurd hlevels (Nat.not_lt_zero _)
  | succ levels ih =>
    rw [recordTextWithin]
    by_cases hmem : r ∈ enclosing
    · rw [if_pos (List.contains_iff_mem.2 hmem)]
      exact .again hmem
    · rw [if_neg fun hcontains => hmem (List.contains_iff_mem.1 hcontains), fullText_properties]
      refine .full hmem (h.properties r).names_sorted fun name v hv => ?_
      rw [hv]
      -- Only a record of the heap has properties, and it is one less from now on.
      have hr : r.index < h.size := by
        by_contra hnone
        rw [property?, properties, get?, Array.getElem?_eq_none (Nat.le_of_not_lt hnone)] at hv
        cases hv
      exact writes_textWith (ih (by have := unopened_cons_lt hr hmem; omega)) v

theorem writes_text (v : Value) : h.Writes [] v (h.text v) :=
  writes_textWith (writes_recordTextWithin (Nat.lt_succ_of_le (h.unopened_le []))) v

/-! ## Where no record leads back to itself -/

theorem Acyclic.item {id : Nat} {items : Array Value} (ha : h.Acyclic (.list id items)) (hmem : v ∈ items) :
    h.Acyclic v :=
  fun r s hr => ha r s (.item hmem hr)

theorem Acyclic.property {name : String} (ha : h.Acyclic (.record r)) (hv : h.property? r name = some v) :
    h.Acyclic v :=
  fun _ s hq hs => ha r s (.record r) (.head ⟨name, v, hv, hq⟩ hs)

/-- Going down ends, and so nothing leads back to itself. -/
theorem Plain.acyclic (hp : h.Plain v t) : h.Acyclic v := by
  induction hp with
  | atom hv =>
    intro r s hr
    cases hr with
    | record => exact absurd rfl (hv.2 r)
    | item => exact absurd rfl (hv.1 _ _)
  | list hlength _ ih =>
    intro r s hr
    cases hr with
    | item hmem hr =>
      obtain ⟨i, hi, rfl⟩ := Array.mem_iff_getElem.1 hmem
      exact ih i hi (hlength ▸ hi) r s hr
  | record hnames _ ih =>
    intro r s hr hs
    cases hr
    -- The record itself leads to `s` through one of its properties, or it is `s` and a loop starts with such a property.
    rcases hs.cases_head with rfl | ⟨_, ⟨name, v, hv, hq⟩, hs⟩
    · intro hloop
      obtain ⟨_, ⟨name, v, hv, hq⟩, hback⟩ := Relation.TransGen.head'_iff.1 hloop
      exact ih name v hv _ _ hq hback hloop
    · exact ih name v hv _ s hq hs

/-- Inside records that are not reached from a value, the value is written plainly. -/
theorem Plain.writes (hp : h.Plain v t)
    (hfree : ∀ r s, v.Shows r → Relation.ReflTransGen h.Leads r s → s ∉ enclosing) : h.Writes enclosing v t := by
  induction hp generalizing enclosing with
  | atom hv record => exact .atom hv record
  | list hlength _ ih =>
    exact .list hlength fun i hi ht => ih i hi ht fun r s hr => hfree r s (.item (Array.getElem_mem hi) hr)
  | @record r names text hnames hvalues ih =>
    have hacyclic := (Plain.record hnames hvalues).acyclic
    refine .full (hfree r r (.record r) .refl) hnames fun name v hv => ih name v hv fun q s hq hs hmem => ?_
    rcases List.mem_cons.1 hmem with rfl | hmem
    · exact hacyclic s s (.record s) .refl (.head' ⟨name, v, hv, hq⟩ hs)
    · exact hfree r s (.record r) (.head ⟨name, v, hv, hq⟩ hs) hmem

/-- What is written inside records that lead to it is plain when nothing leads back to itself. -/
theorem Writes.plain (hw : h.Writes enclosing v t) (ha : h.Acyclic v)
    (hpath : ∀ r ∈ enclosing, ∀ s, v.Shows s → Relation.TransGen h.Leads r s) : h.Plain v t := by
  induction hw with
  | atom hv record => exact .atom hv record
  | list hlength _ ih =>
    refine .list hlength fun i hi ht => ih i hi ht (ha.item (Array.getElem_mem hi)) fun r hr s hs => ?_
    exact hpath r hr s (.item (Array.getElem_mem hi) hs)
  | again hr => exact absurd (hpath _ hr _ (.record _)) (ha _ _ (.record _) .refl)
  | @full enclosing r names text _ hnames _ ih =>
    refine .record hnames fun name v hv => ih name v hv (ha.property hv) fun q hq s hs => ?_
    rcases List.mem_cons.1 hq with rfl | hq
    · exact .single ⟨name, v, hv, hs⟩
    · exact (hpath q hq r (.record r)).tail ⟨name, v, hv, hs⟩

theorem plain_iff : h.Plain v t ↔ h.Acyclic v ∧ t = h.text v := by
  constructor
  · intro hp
    exact ⟨hp.acyclic, (hp.writes fun _ _ _ _ => List.not_mem_nil).eq (writes_text v)⟩
  · rintro ⟨ha, rfl⟩
    exact (writes_text v).plain ha fun r hr => absurd hr List.not_mem_nil

/-- Whatever records hold each other, every value has one text inside the records that are being written, and the text of
a value is the one inside none. A record is written as three dots between braces exactly when it is being written
already. The text is found by going down what the value is made of exactly when no record that is reached leads back to
itself. -/
theorem text_is_what_is_written (h : Heap) :
    (∀ enclosing v, ∃! t, h.Writes enclosing v t) ∧
      (∀ v, h.Writes [] v (h.text v)) ∧
      (∀ enclosing r, h.Writes enclosing (.record r) cycleText ↔ r ∈ enclosing) ∧
      (∀ v t, h.Plain v t ↔ h.Acyclic v ∧ t = h.text v) := by
  refine ⟨fun enclosing v => ?_, writes_text, fun enclosing r => writes_cycleText_iff, fun v t => plain_iff⟩
  have hw := writes_textWith (writes_recordTextWithin (Nat.lt_succ_of_le (h.unopened_le enclosing))) v
  exact ⟨_, hw, fun t hw' => hw'.eq hw⟩

end Heap

end DynScript
