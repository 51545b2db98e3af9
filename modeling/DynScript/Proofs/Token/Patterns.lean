import Mathlib.Tactic
import DynScript.Token.Lexer

/-!
# The patterns of lexical items

`Item.Fits` says which characters an item may have, without a word about how it is found. `Item.cut?` finds the
longest front of a text that is an item (`Item.cut?_eq_some_iff`), and it finds one whenever there is one
(`Item.cut?_eq_none_iff`).
-/

namespace DynScript

namespace Lexer

/-! ## Characters -/

/-- The characters that symbols are made of. -/
def isMark (c : Char) : Bool := c ≠ '\n' && !isBlank c && !isWordPart c && !isQuote c

theorem isMark_symbol (s : Symbol) : ∀ c ∈ s.text.toList, isMark c := by
  have hall : s.text.toList.all isMark := by cases s <;> decide +kernel
  exact List.all_eq_true.1 hall

theorem blank_cases {c : Char} (h : isBlank c) : c = ' ' ∨ c = '\t' ∨ c = '\r' := by
  simpa [isBlank, or_assoc] using h

theorem quote_cases {c : Char} (h : isQuote c) : c = '"' ∨ c = '\'' := by simpa [isQuote] using h

theorem not_isWordPart_newline : isWordPart '\n' = false := by decide

@[grind →] theorem not_isWordPart_of_isBlank {c : Char} (h : isBlank c) : isWordPart c = false := by
  rcases blank_cases h with rfl | rfl | rfl <;> decide

@[grind →] theorem not_isWordPart_of_isQuote {c : Char} (h : isQuote c) : isWordPart c = false := by
  rcases quote_cases h with rfl | rfl <;> decide

@[grind →] theorem not_isBlank_of_isQuote {c : Char} (h : isQuote c) : isBlank c = false := by
  rcases quote_cases h with rfl | rfl <;> decide

@[grind →] theorem isWordPart_of_isWordStart {c : Char} (h : isWordStart c) : isWordPart c := by
  simp only [isWordStart, isWordPart, Bool.or_eq_true, Char.isAlphanum] at h ⊢
  exact h.imp_left .inl

@[grind →] theorem isWordPart_of_isDigit {c : Char} (h : c.isDigit) : isWordPart c := by
  simp [isWordPart, Char.isAlphanum, h]

@[grind →] theorem not_isWordStart_of_isDigit {c : Char} (h : c.isDigit) : isWordStart c = false := by
  rw [Bool.eq_false_iff]
  intro hstart
  have hletter : (decide (c.val ≥ 'A'.val ∧ c.val ≤ 'Z'.val) || (c.val ≥ 'a'.val && c.val ≤ 'z'.val) ||
    c = '_') = true := hstart
  simp only [Char.isDigit, Bool.or_eq_true, Bool.and_eq_true, decide_eq_true_eq, UInt32.le_iff_toNat_le,
    ge_iff_le] at h hletter
  have hnine : '9'.val.toNat = 57 := rfl
  have hupper : 'A'.val.toNat = 65 := rfl
  have hlower : 'a'.val.toNat = 97 := rfl
  rcases hletter with (hletter | hletter) | rfl
  · omega
  · omega
  · exact absurd h (by decide)

theorem isMark_iff {c : Char} : isMark c ↔
    c ≠ '\n' ∧ isBlank c = false ∧ isWordPart c = false ∧ isQuote c = false := by
  simp [isMark, and_assoc]

/-! ## Patterns -/

/-- What may stand between the quotes of a string literal: a backslash takes the next character with it. -/
inductive QuotedBody (quote : Char) : List Char → Prop
  | nil : QuotedBody quote []
  | plain {c : Char} {body : List Char} (hq : c ≠ quote) (hb : c ≠ '\\') (hn : c ≠ '\n')
    (h : QuotedBody quote body) : QuotedBody quote (c :: body)
  | escaped {c : Char} {body : List Char} (hn : c ≠ '\n') (h : QuotedBody quote body) :
    QuotedBody quote ('\\' :: c :: body)

/-- The characters of an item. -/
inductive Item.Fits : Item → List Char → Prop
  | blanks {cs : List Char} (hne : cs ≠ []) (h : ∀ c ∈ cs, isBlank c) : Fits .gap cs
  | newline : Fits .gap ['\n']
  | comment {cs : List Char} (h : '\n' ∉ cs) : Fits .gap ('/' :: '/' :: cs)
  | symbol (s : Symbol) : Fits (.symbol s) s.text.toList
  | whole {digits : List Char} (hne : digits ≠ []) (h : ∀ c ∈ digits, c.isDigit) : Fits .number digits
  | fraction {whole fraction : List Char} (hne : whole ≠ []) (h : ∀ c ∈ whole, c.isDigit) (hne' : fraction ≠ [])
    (h' : ∀ c ∈ fraction, c.isDigit) : Fits .number (whole ++ '.' :: fraction)
  | quoted {quote : Char} {body : List Char} (hq : isQuote quote) (h : QuotedBody quote body) :
    Fits .quoted (quote :: (body ++ [quote]))
  | word {c : Char} {cs : List Char} (hc : isWordStart c) (h : ∀ x ∈ cs, isWordPart x) : Fits .word (c :: cs)

/-- A front of a text is an item, and no longer one is. -/
structure Item.Longest (item : Item) (text rest : List Char) : Prop where
  /-- It is an item. -/
  fits : item.Fits text
  /-- There is no longer one. -/
  longest : ∀ (other : Item) (front : List Char), front <+: text ++ rest → other.Fits front →
    front.length ≤ text.length

/-- The characters that an item may start with. -/
def Item.starts : Item → Char → Bool
  | .gap, c => c = '\n' || isBlank c || c = '/'
  | .symbol _, c => isMark c
  | .number, c => c.isDigit
  | .quoted, c => isQuote c
  | .word, c => isWordStart c

/-- The first character tells the item, but for a slash, which may also start a comment. -/
theorem Item.eq_of_starts {item : Item} {c : Char} (h : item.starts c) :
    (c = '\n' → item = .gap) ∧ (isBlank c → item = .gap) ∧ (isWordStart c → item = .word) ∧
      (c.isDigit → item = .number) ∧ (isQuote c → item = .quoted) ∧
      (isMark c → c ≠ '/' → ∃ s, item = .symbol s) := by
  have hnewline : isBlank '\n' = false ∧ isQuote '\n' = false ∧ '\n'.isDigit = false := by decide
  have hslash : isMark '/' := by decide
  cases item <;> simp only [starts, Bool.or_eq_true, decide_eq_true_eq] at h <;>
    grind [isMark_iff, not_isWordPart_newline]

namespace Item.Fits

variable {item : Item} {c : Char} {cs : List Char}

theorem ne_nil (h : item.Fits cs) : cs ≠ [] := by
  cases h with
  | blanks hne _ => exact hne
  | symbol s =>
    intro heq
    have hpos := s.length_text_pos
    rw [← String.length_toList, heq] at hpos
    exact absurd hpos (by decide)
  | whole hne _ => exact hne
  | _ => simp

theorem starts (h : item.Fits (c :: cs)) : item.starts c := by
  generalize hcs : c :: cs = front at h
  cases h with
  | blanks _ hall => simp [Item.starts, hall c (by simp [← hcs])]
  | newline | comment _ =>
    obtain rfl := (List.cons.inj hcs).1
    decide
  | symbol s => exact isMark_symbol s c (by simp [← hcs])
  | whole _ hall => exact hall c (by simp [← hcs])
  | @fraction whole fraction hne hall _ _ =>
    obtain ⟨d, digits, rfl⟩ := List.exists_cons_of_ne_nil hne
    obtain rfl := (List.cons.inj hcs).1
    exact hall c (by simp)
  | quoted hq _ =>
    obtain rfl := (List.cons.inj hcs).1
    exact hq
  | word hc _ =>
    obtain rfl := (List.cons.inj hcs).1
    exact hc

/-- A literal ends with the quote that it starts with. -/
theorem of_quoted (h : Item.quoted.Fits (c :: cs)) : isQuote c ∧ ∃ body, cs = body ++ [c] ∧ QuotedBody c body := by
  cases h with
  | quoted hq h => exact ⟨hq, _, rfl, h⟩

theorem of_word (h : Item.word.Fits cs) : ∀ x ∈ cs, isWordPart x := by
  cases h with
  | word hc h =>
    intro x hx
    rcases List.mem_cons.1 hx with rfl | hx
    · exact isWordPart_of_isWordStart hc
    · exact h x hx

theorem of_symbol {s : Symbol} (h : (Item.symbol s).Fits cs) : cs = s.text.toList := by
  cases h
  rfl

end Item.Fits

/-! ## Cutting -/

section

variable {c : Char} {tail : List Char}

theorem Item.cut?_cons (hn : c ≠ '\n') (hs : ∀ more, ¬ (c = '/' ∧ tail = '/' :: more)) : Item.cut? (c :: tail) =
    if isBlank c then some (.gap, cutWhile isBlank (c :: tail))
    else if isWordStart c then some (.word, cutWhile isWordPart (c :: tail))
    else if c.isDigit then some (.number, numberFront (c :: tail))
    else if isQuote c then (quotedTail c tail).map fun (body, after) => (.quoted, c :: body, after)
    else (symbolFront? (c :: tail)).map fun s => (.symbol s, (c :: tail).splitAt s.text.length) := by
  rw [Item.cut?.eq_def]
  split
  · rename_i heq
    cases heq
  · rename_i heq
    exact absurd (List.cons.inj heq).1 hn
  · rename_i more heq
    exact absurd ⟨(List.cons.inj heq).1, (List.cons.inj heq).2⟩ (hs more)
  · rename_i heq
    obtain ⟨rfl, rfl⟩ := List.cons.inj heq
    rfl

/-- Which of the longest items stands at the front when the text starts with a character of a class. -/
theorem cut?_isBlank (h : isBlank c) : Item.cut? (c :: tail) = some (.gap, cutWhile isBlank (c :: tail)) := by
  have hn : c ≠ '\n' := by rintro rfl; exact absurd h (by decide)
  have hs : c ≠ '/' := by rintro rfl; exact absurd h (by decide)
  rw [Item.cut?_cons hn fun _ hslash => hs hslash.1, if_pos h]

theorem cut?_isWordStart (h : isWordStart c) :
    Item.cut? (c :: tail) = some (.word, cutWhile isWordPart (c :: tail)) := by
  have hn : c ≠ '\n' := by rintro rfl; exact absurd h (by decide)
  have hs : c ≠ '/' := by rintro rfl; exact absurd h (by decide)
  have hb : ¬ isBlank c := by grind
  rw [Item.cut?_cons hn fun _ hslash => hs hslash.1, if_neg hb, if_pos h]

theorem cut?_isDigit (h : c.isDigit) : Item.cut? (c :: tail) = some (.number, numberFront (c :: tail)) := by
  have hn : c ≠ '\n' := by rintro rfl; exact absurd h (by decide)
  have hs : c ≠ '/' := by rintro rfl; exact absurd h (by decide)
  have hb : ¬ isBlank c := by grind
  have hw : ¬ isWordStart c := by grind
  rw [Item.cut?_cons hn fun _ hslash => hs hslash.1, if_neg hb, if_neg hw, if_pos h]

theorem cut?_isQuote (h : isQuote c) :
    Item.cut? (c :: tail) = (quotedTail c tail).map fun (body, after) => (.quoted, c :: body, after) := by
  have hn : c ≠ '\n' := by rintro rfl; exact absurd h (by decide)
  have hs : c ≠ '/' := by rintro rfl; exact absurd h (by decide)
  have hb : ¬ isBlank c := by grind
  have hw : ¬ isWordStart c := by grind
  have hd : ¬ c.isDigit := by grind
  rw [Item.cut?_cons hn fun _ hslash => hs hslash.1, if_neg hb, if_neg hw, if_neg hd, if_pos h]

theorem cut?_other (hn : c ≠ '\n') (hs : ∀ more, ¬ (c = '/' ∧ tail = '/' :: more)) (hb : ¬ isBlank c)
    (hw : ¬ isWordStart c) (hd : ¬ c.isDigit) (hq : ¬ isQuote c) : Item.cut? (c :: tail) =
      (symbolFront? (c :: tail)).map fun s => (.symbol s, (c :: tail).splitAt s.text.length) := by
  rw [Item.cut?_cons hn hs, if_neg hb, if_neg hw, if_neg hd, if_neg hq]

end

/-! ### String literals -/

section

variable {quote : Char} {cs body after : List Char}

theorem quotedTail_plain {c : Char} (hq : c ≠ quote) (hb : c ≠ '\\') (hn : c ≠ '\n') :
    quotedTail quote (c :: cs) = (quotedTail quote cs).map fun (body, after) => (c :: body, after) := by
  rw [quotedTail.eq_def]
  split
  · rename_i heq
    cases heq
  · rename_i heq
    exact absurd (List.cons.inj heq).1 hb
  · rename_i heq
    obtain ⟨rfl, rfl⟩ := List.cons.inj heq
    simp [hq, hb, hn]

theorem quotedTail_escaped {c : Char} (hn : c ≠ '\n') : quotedTail quote ('\\' :: c :: cs) =
    (quotedTail quote cs).map fun (body, after) => ('\\' :: c :: body, after) := by
  rw [quotedTail, if_neg hn]

/-- A literal goes up to its first quote that no backslash takes. -/
theorem QuotedBody.quotedTail (hq : isQuote quote) (h : QuotedBody quote body) (after : List Char) :
    Lexer.quotedTail quote (body ++ quote :: after) = some (body ++ [quote], after) := by
  induction h with
  | nil =>
    have hb : quote ≠ '\\' := by rintro rfl; exact absurd hq (by decide)
    rw [List.nil_append, Lexer.quotedTail.eq_def]
    split
    · rename_i heq
      cases heq
    · rename_i heq
      exact absurd (List.cons.inj heq).1 hb
    · rename_i heq
      obtain ⟨rfl, rfl⟩ := List.cons.inj heq
      simp
  | plain hplain hb hn _ ih =>
    rw [List.cons_append, quotedTail_plain hplain hb hn, ih]
    rfl
  | escaped hn _ ih =>
    rw [List.cons_append, List.cons_append, quotedTail_escaped hn, ih]
    rfl

theorem exists_of_quotedTail (h : quotedTail quote cs = some (body, after)) :
    cs = body ++ after ∧ ∃ inside, body = inside ++ [quote] ∧ QuotedBody quote inside := by
  fun_induction quotedTail quote cs generalizing body after with
  | case1 => cases h
  | case2 => cases h
  | case3 c rest hn ih =>
    obtain ⟨⟨b, a⟩, hb, he⟩ := Option.map_eq_some_iff.1 h
    obtain ⟨rfl, inside, rfl, hinside⟩ := ih hb
    obtain ⟨rfl, rfl⟩ := Prod.mk.inj he
    exact ⟨rfl, '\\' :: c :: inside, rfl, .escaped hn hinside⟩
  | case4 =>
    obtain ⟨rfl, rfl⟩ := Prod.mk.inj (Option.some.inj h)
    exact ⟨rfl, [], rfl, .nil⟩
  | case5 => cases h
  | case6 c rest hquote hescape hplain ih =>
    obtain ⟨⟨b, a⟩, hb, he⟩ := Option.map_eq_some_iff.1 h
    obtain ⟨rfl, inside, rfl, hinside⟩ := ih hb
    obtain ⟨rfl, rfl⟩ := Prod.mk.inj he
    have hc : c ≠ '\\' ∧ c ≠ '\n' := by simpa using hplain
    exact ⟨rfl, c :: inside, rfl, .plain hescape hc.1 hc.2 hinside⟩

end

/-! ### Numbers and symbols -/

section

variable {front text rest cs : List Char}

/-- A front of characters that pass a test is no longer than the longest one. -/
theorem length_le_takeWhile {p : Char → Bool} (h : front <+: cs) (hall : ∀ x ∈ front, p x) :
    front.length ≤ (cs.takeWhile p).length := by
  obtain ⟨more, rfl⟩ := h
  rw [List.takeWhile_append_of_pos hall, List.length_append]
  exact Nat.le_add_right _ _

theorem takeWhile_ne_nil {p : Char → Bool} {c : Char} {tail : List Char} (h : p c) :
    (c :: tail).takeWhile p ≠ [] := by
  rw [List.takeWhile_cons_of_pos h]
  exact List.cons_ne_nil _ _

theorem forall_mem_takeWhile (p : Char → Bool) (cs : List Char) : ∀ x ∈ cs.takeWhile p, p x :=
  List.all_eq_true.1 List.all_takeWhile

/-- Digits are followed by a point only if more digits follow that. -/
theorem numberFront_fraction {whole fraction more : List Char} (h : ∀ c ∈ whole, c.isDigit) (hne : fraction ≠ [])
    (h' : ∀ c ∈ fraction, c.isDigit) : numberFront (whole ++ '.' :: (fraction ++ more)) =
      (whole ++ '.' :: (fraction ++ more).takeWhile Char.isDigit, (fraction ++ more).dropWhile Char.isDigit) := by
  obtain ⟨d, digits, rfl⟩ := List.exists_cons_of_ne_nil hne
  have hd : d.isDigit := h' d List.mem_cons_self
  have hpoint : ¬ '.'.isDigit := by decide
  have htake : (whole ++ '.' :: (d :: digits ++ more)).takeWhile Char.isDigit = whole := by
    rw [List.takeWhile_append_of_pos h, List.takeWhile_cons_of_neg hpoint, List.append_nil]
  have hdrop : (whole ++ '.' :: (d :: digits ++ more)).dropWhile Char.isDigit = '.' :: (d :: digits ++ more) := by
    rw [List.dropWhile_append_of_pos h, List.dropWhile_cons_of_neg hpoint]
  simp only [numberFront, cutWhile]
  rw [htake, hdrop]
  exact if_pos hd

theorem numberFront_cases (cs : List Char) :
    numberFront cs = (cs.takeWhile Char.isDigit, cs.dropWhile Char.isDigit) ∨
      ∃ c more, cs.dropWhile Char.isDigit = '.' :: c :: more ∧ c.isDigit ∧
        numberFront cs = (cs.takeWhile Char.isDigit ++ '.' :: (c :: more).takeWhile Char.isDigit,
          (c :: more).dropWhile Char.isDigit) := by
  unfold numberFront cutWhile
  dsimp only
  split
  · rename_i c more heq
    split
    · rename_i hc
      exact .inr ⟨c, more, heq, hc, rfl⟩
    · exact .inl (by rw [heq])
  · exact .inl rfl

theorem fits_of_numberFront {c : Char} {tail : List Char} (hc : c.isDigit)
    (h : numberFront (c :: tail) = (text, rest)) : c :: tail = text ++ rest ∧ Item.number.Fits text := by
  have hwhole := forall_mem_takeWhile Char.isDigit (c :: tail)
  have hsplit := List.takeWhile_append_dropWhile (p := Char.isDigit) (l := c :: tail)
  rcases numberFront_cases (c :: tail) with hcase | ⟨d, more, hdrop, hd, hcase⟩
  · obtain ⟨rfl, rfl⟩ := Prod.mk.inj (hcase.symm.trans h)
    exact ⟨hsplit.symm, .whole (takeWhile_ne_nil hc) hwhole⟩
  · obtain ⟨rfl, rfl⟩ := Prod.mk.inj (hcase.symm.trans h)
    refine ⟨?_, .fraction (takeWhile_ne_nil hc) hwhole (takeWhile_ne_nil hd) (forall_mem_takeWhile _ _)⟩
    rw [List.append_assoc, List.cons_append, List.takeWhile_append_dropWhile, ← hdrop, hsplit]

theorem length_le_numberFront (h : front <+: cs) (hfits : Item.number.Fits front) :
    front.length ≤ (numberFront cs).1.length := by
  cases hfits with
  | whole _ hall =>
    have hle := length_le_takeWhile h hall
    rcases numberFront_cases cs with hcase | ⟨d, more, -, -, hcase⟩
    · rwa [hcase]
    · rw [hcase, List.length_append]
      exact hle.trans (Nat.le_add_right _ _)
  | @fraction whole fraction hne hall hne' hall' =>
    obtain ⟨more, rfl⟩ := h
    have hle := length_le_takeWhile (List.prefix_append fraction more) hall'
    rw [List.append_assoc, List.cons_append, numberFront_fraction hall hne' hall']
    simp only [List.length_append, List.length_cons]
    omega

theorem mem_all_symbols (s : Symbol) : s ∈ Symbol.all := by cases s <;> decide

/-- Of two symbols at the front the longer one is found. -/
theorem exists_symbolFront? {s : Symbol} (h : s.text.toList <+: cs) :
    ∃ s', symbolFront? cs = some s' ∧ s.text.toList.length ≤ s'.text.toList.length := by
  have hmem := mem_all_symbols s
  have hsorted : Symbol.all.Pairwise fun s s' => s'.text.toList.length ≤ s.text.toList.length := by decide +kernel
  have hsome : (symbolFront? cs).isSome :=
    List.find?_isSome.2 ⟨s, hmem, List.isPrefixOf_iff_prefix.2 h⟩
  obtain ⟨s', hs'⟩ := Option.isSome_iff_exists.1 hsome
  obtain ⟨-, older, later, hsplit, hbefore⟩ := List.find?_eq_some_iff_append.1 hs'
  refine ⟨s', hs', ?_⟩
  rw [hsplit, List.mem_append, List.mem_cons] at hmem
  rw [hsplit, List.pairwise_append, List.pairwise_cons] at hsorted
  rcases hmem with hmem | rfl | hmem
  · have hno := hbefore s hmem
    rw [List.isPrefixOf_iff_prefix.2 h] at hno
    cases hno
  · exact le_rfl
  · exact hsorted.2.1.1 s hmem

theorem prefix_of_symbolFront? {s : Symbol} (h : symbolFront? cs = some s) : s.text.toList <+: cs :=
  List.isPrefixOf_iff_prefix.1 (List.find?_some (p := fun s : Symbol => s.text.toList.isPrefixOf cs) h)

theorem splitAt_symbol {s : Symbol} (h : s.text.toList <+: cs) :
    cs.splitAt s.text.length = (s.text.toList, cs.drop s.text.length) ∧
      cs = s.text.toList ++ cs.drop s.text.length := by
  obtain ⟨more, rfl⟩ := h
  rw [← String.length_toList, List.splitAt_eq, List.take_left, List.drop_left]
  exact ⟨rfl, rfl⟩

theorem symbol_text_injective {s s' : Symbol} (h : s.text.toList = s'.text.toList) : s = s' := by
  have hnodup : (Symbol.all.map fun s => s.text.toList).Nodup := by decide +kernel
  exact List.inj_on_of_nodup_map hnodup (mem_all_symbols s) (mem_all_symbols s') h

/-- Two slashes start a comment. -/
theorem ne_symbol_of_slashes (s : Symbol) (cs : List Char) : '/' :: '/' :: cs ≠ s.text.toList := by
  have hno : ∀ s ∈ Symbol.all, ¬ ['/', '/'] <+: s.text.toList := by decide +kernel
  exact fun heq => hno s (mem_all_symbols s) (heq ▸ ⟨cs, rfl⟩)

theorem length_symbol_le (s : Symbol) : s.text.toList.length ≤ 2 := by cases s <;> decide

end

/-! ## What is cut -/

namespace Item

variable {item other : Item} {front text rest cs : List Char}

/-- What is cut off is an item. -/
theorem fits_of_cut? (h : cut? cs = some (item, text, rest)) : cs = text ++ rest ∧ item.Fits text := by
  cases cs with
  | nil => cases h
  | cons c tail =>
    by_cases hn : c = '\n'
    · subst hn
      cases h
      exact ⟨rfl, .newline⟩
    by_cases hs : ∃ more, c = '/' ∧ tail = '/' :: more
    · obtain ⟨more, rfl, rfl⟩ := hs
      obtain ⟨rfl, hcut⟩ := Prod.mk.inj (Option.some.inj h)
      obtain ⟨rfl, rfl⟩ := Prod.mk.inj hcut
      refine ⟨List.takeWhile_append_dropWhile.symm, ?_⟩
      rw [List.takeWhile_cons_of_pos (by decide), List.takeWhile_cons_of_pos (by decide)]
      refine .comment fun hmem => ?_
      simpa using forall_mem_takeWhile _ _ _ hmem
    by_cases hb : isBlank c
    · rw [cut?_isBlank hb] at h
      cases h
      exact ⟨List.takeWhile_append_dropWhile.symm, .blanks (takeWhile_ne_nil hb) (forall_mem_takeWhile _ _)⟩
    by_cases hw : isWordStart c
    · rw [cut?_isWordStart hw] at h
      cases h
      refine ⟨List.takeWhile_append_dropWhile.symm, ?_⟩
      rw [List.takeWhile_cons_of_pos (isWordPart_of_isWordStart hw)]
      exact .word hw (forall_mem_takeWhile _ _)
    by_cases hd : c.isDigit
    · rw [cut?_isDigit hd] at h
      obtain ⟨rfl, hcut⟩ := Prod.mk.inj (Option.some.inj h)
      exact fits_of_numberFront hd hcut
    by_cases hq : isQuote c
    · rw [cut?_isQuote hq] at h
      obtain ⟨⟨body, after⟩, hbody, he⟩ := Option.map_eq_some_iff.1 h
      cases he
      obtain ⟨rfl, inside, rfl, hinside⟩ := exists_of_quotedTail hbody
      exact ⟨rfl, .quoted hq hinside⟩
    rw [cut?_other hn (not_exists.1 hs) hb hw hd hq] at h
    obtain ⟨s, hfound, he⟩ := Option.map_eq_some_iff.1 h
    obtain ⟨hsplit, hcs⟩ := splitAt_symbol (prefix_of_symbolFront? hfound)
    rw [hsplit] at he
    cases he
    exact ⟨hcs, .symbol s⟩

/-- What is cut off is at least as long as any item at the front. -/
theorem exists_cut? (hfront : front <+: cs) (hfits : item.Fits front) :
    ∃ item' text rest, cut? cs = some (item', text, rest) ∧ front.length ≤ text.length := by
  obtain ⟨c, front', rfl⟩ := List.exists_cons_of_ne_nil hfits.ne_nil
  obtain ⟨more, rfl⟩ := hfront
  have hprefix : c :: front' <+: c :: front' ++ more := List.prefix_append _ _
  rw [List.cons_append] at hprefix ⊢
  have hstarts := hfits.starts
  cases item with
  | gap =>
    cases hfits with
    | blanks _ hall =>
      exact ⟨_, _, _, cut?_isBlank (hall c List.mem_cons_self), length_le_takeWhile hprefix hall⟩
    | newline => exact ⟨_, _, _, rfl, le_rfl⟩
    | comment h =>
      refine ⟨_, _, _, rfl, length_le_takeWhile hprefix fun x hx => ?_⟩
      simp only [List.mem_cons] at hx
      rcases hx with rfl | rfl | hx
      · decide
      · decide
      · have hne : x ≠ '\n' := fun heq => h (heq ▸ hx)
        simpa using hne
  | symbol s =>
    obtain ⟨hn, hb, hw, hq⟩ := isMark_iff.1 hstarts
    rw [hfits.of_symbol] at hprefix ⊢
    by_cases hs : ∃ more', c = '/' ∧ front' ++ more = '/' :: more'
    · -- A comment is longer than every symbol.
      obtain ⟨more', rfl, htail⟩ := hs
      rw [htail]
      refine ⟨_, _, _, rfl, (length_symbol_le s).trans ?_⟩
      rw [List.takeWhile_cons_of_pos (by decide), List.takeWhile_cons_of_pos (by decide)]
      simp
    · obtain ⟨s', hfound, hle⟩ := exists_symbolFront? hprefix
      have hsplit := (splitAt_symbol (prefix_of_symbolFront? hfound)).1
      have hcut := cut?_other hn (not_exists.1 hs) (by simp [hb]) (by grind) (by grind) (by simp [hq])
      rw [hfound, Option.map_some, hsplit] at hcut
      exact ⟨_, _, _, hcut, hle⟩
  | number => exact ⟨_, _, _, cut?_isDigit hstarts, length_le_numberFront hprefix hfits⟩
  | quoted =>
    obtain ⟨hq, body, rfl, hbody⟩ := hfits.of_quoted
    rw [List.append_assoc, cut?_isQuote hq, List.singleton_append, hbody.quotedTail hq]
    exact ⟨_, _, _, rfl, le_rfl⟩
  | word => exact ⟨_, _, _, cut?_isWordStart hstarts, length_le_takeWhile hprefix hfits.of_word⟩

/-- No text is two items. -/
theorem Fits.unique (h : item.Fits cs) (h' : other.Fits cs) : item = other := by
  obtain ⟨c, tail, rfl⟩ := List.exists_cons_of_ne_nil h.ne_nil
  have hstarts := h.starts
  obtain ⟨hnewline, hblank, hword, hdigit, hquote, hmark⟩ := eq_of_starts h'.starts
  cases item with
  | gap =>
    cases h with
    | blanks _ hall => exact (hblank (hall c List.mem_cons_self)).symm
    | newline => exact (hnewline rfl).symm
    | comment _ =>
      -- No symbol starts with two slashes.
      cases other with
      | gap => rfl
      | symbol s => exact absurd h'.of_symbol (ne_symbol_of_slashes s _)
      | _ => exact absurd h'.starts (by decide)
  | symbol s =>
    by_cases hs : c = '/'
    · subst hs
      cases other with
      | gap =>
        generalize hcs : '/' :: tail = front at h h'
        cases h' with
        | blanks _ hall => exact absurd (hall '/' (by simp [← hcs])) (by decide)
        | newline => cases hcs
        | comment _ => exact absurd h.of_symbol (ne_symbol_of_slashes s _)
      | symbol s' => exact congrArg Item.symbol (symbol_text_injective (h.of_symbol.symm.trans h'.of_symbol))
      | _ => exact absurd h'.starts (by decide)
    · obtain ⟨s', rfl⟩ := hmark hstarts hs
      exact congrArg Item.symbol (symbol_text_injective (h.of_symbol.symm.trans h'.of_symbol))
  | number => exact (hdigit hstarts).symm
  | quoted => exact (hquote hstarts).symm
  | word => exact (hword hstarts).symm

/-- The longest item is cut off, and nothing else. -/
theorem cut?_eq_some_iff : cut? cs = some (item, text, rest) ↔ cs = text ++ rest ∧ item.Longest text rest := by
  constructor
  · intro h
    obtain ⟨rfl, hfits⟩ := fits_of_cut? h
    refine ⟨rfl, hfits, fun other front hprefix hother => ?_⟩
    obtain ⟨item', text', rest', hcut, hle⟩ := exists_cut? hprefix hother
    rw [h] at hcut
    cases hcut
    exact hle
  · rintro ⟨rfl, hlongest⟩
    obtain ⟨item', text', rest', hcut, hle⟩ := exists_cut? (List.prefix_append text rest) hlongest.fits
    obtain ⟨hsplit, hfits⟩ := fits_of_cut? hcut
    have hge := hlongest.longest item' text' (hsplit ▸ List.prefix_append text' rest') hfits
    obtain ⟨rfl, rfl⟩ := List.append_inj hsplit (le_antisymm hle hge)
    rw [hcut, hlongest.fits.unique hfits]

/-- Nothing is cut off when no item stands at the front. -/
theorem cut?_eq_none_iff : cut? cs = none ↔ ∀ (item : Item) (front : List Char), front <+: cs → ¬ item.Fits front := by
  constructor
  · intro h item front hprefix hfits
    obtain ⟨item', text', rest', hcut, -⟩ := exists_cut? hprefix hfits
    rw [h] at hcut
    cases hcut
  · intro h
    cases hcut : cut? cs with
    | none => rfl
    | some cut =>
      obtain ⟨item, text, rest⟩ := cut
      obtain ⟨rfl, hfits⟩ := fits_of_cut? hcut
      exact absurd hfits (h item text (List.prefix_append text rest))

end Item

end Lexer

end DynScript
