import DynScript.Proofs.Token.Places

/-!
# Writing tokens

Words written with gaps between them, each gap starting with a blank or a line feed, are read back
(`tokensFrom_joined`): no word goes on into the gap after it (`Item.Fits.longest_of_ends`).
-/

namespace DynScript

namespace Lexer

/-- A word to be written: a spelling of a keyword, a symbol, an identifier, a number text, or a string with the quote
to write it in. -/
inductive Word where
  | keyword (spelling : String) (k : Keyword) (h : Keyword.ofText? spelling = some k)
  | symbol (s : Symbol)
  | identifier (name : String) (hword : Item.word.Fits name.toList) (hfree : Keyword.ofText? name = none)
  | number (digits : List Char) (h : Item.number.Fits digits)
  | string (quote : Char) (hq : isQuote quote) (content : String)

namespace Word

/-- How a word is written. -/
def text : Word → List Char
  | keyword spelling _ _ => spelling.toList
  | symbol s => s.text.toList
  | identifier name _ _ => name.toList
  | number digits _ => digits
  | string quote _ content => quote :: (Escape.write quote content.toList ++ [quote])

/-- The token that a word stands for. -/
def kind : Word → TokenKind
  | keyword _ k _ => .keyword k
  | symbol s => .symbol s
  | identifier name _ _ => .identifier name
  | number digits h => .number ((Number.read? digits).get h.read?_isSome)
  | string _ _ content => .string content

/-- The item that a word is. -/
def item : Word → Item
  | keyword .. | identifier .. => .word
  | symbol s => .symbol s
  | number .. => .number
  | string .. => .quoted

theorem fits_keyword {spelling : String} {k : Keyword} (h : Keyword.ofText? spelling = some k) :
    Item.word.Fits spelling.toList := by
  have hall : ∀ k ∈ Keyword.all, ∃ c cs, k.text.toList = c :: cs ∧ isWordStart c ∧ cs.all isWordPart := by
    intro k _
    cases k <;> exact ⟨_, _, rfl, by decide, by decide⟩
  unfold Keyword.ofText? at h
  split at h
  · rename_i hspelling
    rw [hspelling]
    exact .word (c := 'e') (by decide) (List.all_eq_true.1 (by decide))
  · have htext := List.find?_some h
    obtain ⟨c, cs, hcs, hc, hparts⟩ := hall k (List.mem_of_find?_eq_some h)
    rw [← of_decide_eq_true htext, hcs]
    exact .word hc (List.all_eq_true.1 hparts)

theorem fits (w : Word) : w.item.Fits w.text := by
  cases w with
  | keyword spelling k h => exact fits_keyword h
  | symbol s => exact .symbol s
  | identifier name hword _ => exact hword
  | number digits h => exact h
  | string quote hq content => exact .quoted hq (Escape.write_spec hq _).1

theorem item_ne_gap (w : Word) : w.item ≠ .gap := by cases w <;> simp [item]

/-- A word written on its own is read as what it stands for. -/
theorem kind?_text (w : Word) : w.item.kind? w.text = .ok (some w.kind) := by
  cases w with
  | keyword spelling k h => simp only [item, text, Item.kind?, String.ofList_toList, h, Option.elim_some, kind]
  | symbol s => rfl
  | identifier name _ hfree => simp only [item, text, Item.kind?, String.ofList_toList, hfree, Option.elim_none, kind]
  | number digits h =>
    obtain ⟨x, hx⟩ := Option.isSome_iff_exists.1 h.read?_isSome
    simp only [item, text, Item.kind?, hx, kind, Option.get_some]
  | string quote hq content =>
    simp only [item, text, Item.kind?, inside_quotes, (Escape.write_spec hq _).2, String.ofList_toList, kind]

end Word

/-- A gap that sets two words apart: it starts with a blank or a line feed. -/
structure Parts (gap : List Char) : Prop where
  /-- It is a gap. -/
  isGap : Gap gap
  /-- It does not start with a comment. -/
  front : ∃ c more, gap = c :: more ∧ (c = '\n' ∨ isBlank c)

/-- Words, written with gaps between them and perhaps one after the last. -/
inductive Joined : List Word → List Char → Prop
  | nil : Joined [] []
  | last (w : Word) : Joined [w] w.text
  | cons (w : Word) {gap rest : List Char} {words : List Word} (hgap : Parts gap) (h : Joined words rest) :
    Joined (w :: words) (w.text ++ (gap ++ rest))

/-! ## No word goes on into a gap -/

/-- No blank or line feed stands in a symbol, a number or a word. -/
theorem Item.Fits.forall_solid {item : Item} {text : List Char} (h : item.Fits text) (hgap : item ≠ .gap)
    (hquoted : item ≠ .quoted) : ∀ c ∈ text, ¬ (c = '\n' ∨ isBlank c) := by
  have hdigit : ∀ c : Char, c.isDigit → ¬ (c = '\n' ∨ isBlank c) := by
    rintro c hc (rfl | hb)
    · exact absurd hc (by decide)
    · grind
  cases h with
  | blanks | newline | comment => exact absurd rfl hgap
  | quoted => exact absurd rfl hquoted
  | symbol s =>
    intro c hc
    obtain ⟨hn, hb, -⟩ := isMark_iff.1 (isMark_symbol s c hc)
    simp [hn, hb]
  | whole _ h => exact fun c hc => hdigit c (h c hc)
  | fraction _ h _ h' =>
    intro c hc
    rcases List.mem_append.1 hc with hc | hc
    · exact hdigit c (h c hc)
    rcases List.mem_cons.1 hc with rfl | hc
    · decide
    · exact hdigit c (h' c hc)
  | word hc h =>
    intro x hx
    have hpart := Item.Fits.of_word (.word hc h) x hx
    rintro (rfl | hb)
    · exact absurd hpart (by decide)
    · grind

/-- An item that is no gap is the longest one when the text ends after it, or goes on with a blank or a line feed. -/
theorem Item.Fits.longest_of_ends {item : Item} {text rest : List Char} (h : item.Fits text) (hgap : item ≠ .gap)
    (hrest : ∀ c more, rest = c :: more → c = '\n' ∨ isBlank c) : item.Longest text rest := by
  refine ⟨h, fun other front hprefix hother => ?_⟩
  by_contra hlonger
  -- A longer item would take in the text and the first character after it.
  obtain ⟨more, rfl⟩ : text <+: front :=
    List.prefix_of_prefix_length_le (List.prefix_append text rest) hprefix (by omega)
  obtain ⟨d, more, rfl⟩ := List.exists_cons_of_ne_nil (l := more) fun hnil => hlonger (by simp [hnil])
  obtain ⟨more', rfl⟩ : d :: more <+: rest := List.prefix_append_right_inj text |>.1 hprefix
  have hd := hrest d (more ++ more') rfl
  obtain ⟨c, tail, rfl⟩ := List.exists_cons_of_ne_nil h.ne_nil
  have hstarts := h.starts
  have hclass := eq_of_starts hstarts
  by_cases hquoted : other = .quoted
  · subst hquoted
    obtain ⟨hq, body, hbody, hfits⟩ := hother.of_quoted
    obtain rfl : item = .quoted := hclass.2.2.2.2.1 hq
    obtain ⟨-, body', rfl, hfits'⟩ := h.of_quoted
    have hshort := hfits'.quotedTail hq (d :: more)
    have hlong := hfits.quotedTail hq []
    have hsame : body ++ c :: [] = body' ++ c :: d :: more := by simpa using hbody.symm
    rw [hsame, hshort] at hlong
    exact absurd (congrArg Prod.snd (Option.some.inj hlong)) (List.cons_ne_nil d more)
  by_cases hother' : other = .gap
  · subst hother'
    generalize hfront : c :: tail ++ d :: more = front at hother
    cases hother with
    | blanks _ hall => exact hgap (hclass.2.1 (hall c (by simp [← hfront])))
    | newline => exact hgap (hclass.1 (List.cons.inj hfront).1)
    | @comment body _ =>
      obtain ⟨rfl, htail⟩ := List.cons.inj hfront
      cases tail with
      | nil =>
        obtain ⟨rfl, -⟩ := List.cons.inj htail
        exact absurd hd (by decide)
      | cons d' tail =>
        obtain ⟨rfl, -⟩ := List.cons.inj htail
        cases item with
        | gap => exact hgap rfl
        | symbol s => exact ne_symbol_of_slashes s tail h.of_symbol
        | _ => exact absurd hstarts (by decide)
  · exact hother.forall_solid hother' hquoted d (by simp) hd

/-! ## Reading back -/

section

variable {p : Place} {text rest : List Char}

theorem tokensFrom_token {item : Item} {kind : TokenKind} (h : item.Longest text rest)
    (hkind : item.kind? text = .ok (some kind)) :
    tokensFrom p (text ++ rest) = (tokensFrom (p.after text) rest).map (⟨kind, p.position text⟩ :: ·) := by
  have hcut := Item.cut?_eq_some_iff.2 ⟨rfl, h⟩
  rw [tokensFrom]
  split
  · rename_i hnone
    rw [hcut] at hnone
    cases hnone
  · rename_i hsome
    rw [hcut] at hsome
    cases hsome
    simp only [hkind]

end

/-- Reading gives back the words that were written. -/
theorem tokensFrom_joined {words : List Word} {text : List Char} (h : Joined words text) (p : Place) :
    ∃ tokens, tokensFrom p text = .ok tokens ∧ tokens.map (·.kind) = words.map Word.kind ++ [.endOfFile] := by
  induction h generalizing p with
  | nil => exact ⟨_, tokensFrom_nil p, rfl⟩
  | last w =>
    have hlongest : w.item.Longest w.text [] := w.fits.longest_of_ends w.item_ne_gap (by simp)
    refine ⟨[⟨w.kind, p.position w.text⟩, ⟨.endOfFile, (p.after w.text).position []⟩], ?_, rfl⟩
    have htokens := tokensFrom_token (p := p) hlongest w.kind?_text
    rwa [List.append_nil, tokensFrom_nil] at htokens
  | @cons w gap rest words hgap hrest ih =>
    obtain ⟨c, more, rfl, hc⟩ := hgap.front
    have hlongest : w.item.Longest w.text (c :: more ++ rest) := w.fits.longest_of_ends w.item_ne_gap (by
      rintro c' more' heq
      cases heq
      exact hc)
    obtain ⟨tokens, htokens, hkinds⟩ := ih ((p.after w.text).after (c :: more))
    refine ⟨⟨w.kind, p.position w.text⟩ :: tokens, ?_, ?_⟩
    · rw [tokensFrom_token hlongest w.kind?_text, tokensFrom_gap hgap.isGap, htokens]
      rfl
    · rw [List.map_cons, hkinds]
      rfl

/-- No text of digits with an optional fraction fails to be a number. -/
theorem Faulty.ne_invalidNumber {rest : List Char} {cause : LexError.Cause} (h : Faulty rest cause) (digits : String) :
    cause ≠ .invalidNumber digits := by
  cases h with
  | @noItem c =>
    unfold Lexer.noItem
    split <;> simp
  | badEscape => simp

/-- Lexing undoes writing, whatever the words and the gaps; every string can be written in either quote style, no
number text is refused, and no matched literal ends in a backslash that takes nothing. -/
theorem lex_undoes_writing :
    (∀ (words : List Word) (lead text : List Char), Gap lead → Joined words text →
      ∃ tokens, lex (String.ofList (lead ++ text)) = .ok tokens ∧
        tokens.map (·.kind) = words.map Word.kind ++ [.endOfFile]) ∧
    (∀ (quote : Char) (content : String), isQuote quote →
      Item.quoted.Fits (quote :: (Escape.write quote content.toList ++ [quote])) ∧
        Escape.cook (Escape.write quote content.toList) = .ok content.toList) ∧
    (∀ (source : String) (e : LexError), lex source = .error e → ∀ digits, e.cause ≠ .invalidNumber digits) ∧
    ∀ (quote : Char) (body rest : List Char), Item.quoted.Longest (quote :: (body ++ [quote])) rest →
      ¬ Escape.MeetsEnd body := by
  refine ⟨fun words lead text hlead h => ?_, fun quote content hq => ?_, fun source e h => ?_,
    fun quote body rest h => ?_⟩
  · obtain ⟨tokens, htokens, hkinds⟩ := tokensFrom_joined h (Place.start.after lead)
    refine ⟨tokens, ?_, hkinds⟩
    rw [lex, String.toList_ofList, tokensFrom_gap hlead, htokens]
  · obtain ⟨hbody, hcook⟩ := Escape.write_spec hq content.toList
    exact ⟨.quoted hq hbody, hcook⟩
  · have hreads : tokensFrom (Place.start.after []) source.toList = .error e := h
    obtain ⟨before, rest, -, hfaulty, -⟩ := faulty_of_tokensFrom hreads .start
    exact hfaulty.ne_invalidNumber
  · obtain ⟨-, body', hbody, hquoted⟩ := h.fits.of_quoted
    rw [List.append_cancel_right hbody]
    exact Escape.not_meetsEnd hquoted

/-- The keyword is read as such although a comment follows it and a quote stands in the string. -/
theorem lex_undoes_writing_print :
    ∃ tokens, lex "print\t// it's\n'a\\'//'" = .ok tokens ∧
      tokens.map (·.kind) = [.keyword .print, .string "a'//", .endOfFile] := by
  have hprint : Keyword.ofText? "print" = some .print := by decide
  have hquote : isQuote '\'' := by decide
  have hcomment : '\n' ∉ " it's".toList := by decide
  have hgap : Parts "\t// it's\n".toList :=
    ⟨.blank (.inr (by decide)) (.comment hcomment (.blank (.inl rfl) .nil)), '\t', _, rfl, .inr (by decide)⟩
  exact lex_undoes_writing.1 [.keyword "print" .print hprint, .string '\'' hquote "a'//"] [] _ .nil
    (.cons _ hgap (.last _))

end Lexer

end DynScript
