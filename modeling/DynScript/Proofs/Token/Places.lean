import Mathlib.Data.List.DropRight
import DynScript.Proofs.Token.Literals

/-!
# Where tokens stand

The tokens of a text cover it but for gaps of blanks, line feeds and comments (`Placed`). The line and the column
of a token, or of what is no token, are those of the character that it starts with: one more than the line feeds
before it, and one more than the characters since the last of them.

Lines and columns have 32 bits. A text of `n` bytes has `n + 1` lines or columns at most, so there are numbers for all
of them as long as `n + 1` is one. With one byte more the end of the text may have none: `lex_blanks_too_many` is
such a text.
-/

namespace DynScript

namespace Lexer

/-! ## Lines and columns -/

/-- The number of bytes of some characters. -/
def bytes (cs : List Char) : Nat := (String.ofList cs).utf8ByteSize

/-- The line of the character after some characters. -/
def lineAfter (before : List Char) : Nat := 1 + before.count '\n'

/-- The column of the character after some characters. -/
def columnAfter (before : List Char) : Nat := 1 + (before.rtakeWhile (· ≠ '\n')).length

/-- A position is that of the characters `text` after the characters `before`. -/
structure Marks (p : Position) (before text : List Char) : Prop where
  /-- The bytes. -/
  span : p.span = ⟨bytes before, bytes (before ++ text)⟩
  /-- The line. -/
  line : p.line.toNat = lineAfter before
  /-- The column. -/
  column : p.column.toNat = columnAfter before

theorem bytes_append (cs cs' : List Char) : bytes (cs ++ cs') = bytes cs + bytes cs' := by
  rw [bytes, String.ofList_append, String.utf8ByteSize_append]
  rfl

theorem bytes_singleton (c : Char) : bytes [c] = c.utf8Size := by
  rw [bytes, ← String.singleton_eq_ofList, String.utf8ByteSize_singleton]

theorem bytes_pos {cs : List Char} (h : cs ≠ []) : 0 < bytes cs := by
  obtain ⟨c, cs, rfl⟩ := List.exists_cons_of_ne_nil h
  rw [← List.singleton_append, bytes_append, bytes_singleton]
  exact Nat.add_pos_left c.utf8Size_pos _

/-- Every character has a byte at least. -/
theorem length_le_bytes (cs : List Char) : cs.length ≤ bytes cs := by
  induction cs with
  | nil => exact Nat.zero_le _
  | cons c cs ih =>
    rw [← List.singleton_append, bytes_append, bytes_singleton, List.length_append, List.length_singleton]
    exact Nat.add_le_add c.utf8Size_pos ih

theorem lineAfter_le (before : List Char) : lineAfter before ≤ bytes before + 1 := by
  have hcount := (before.count_le_length (a := '\n')).trans (length_le_bytes before)
  unfold lineAfter
  omega

theorem columnAfter_le (before : List Char) : columnAfter before ≤ bytes before + 1 := by
  have hlength := (before.rtakeWhile_suffix (· ≠ '\n')).length_le.trans (length_le_bytes before)
  unfold columnAfter
  omega

theorem Place.after_append (p : Place) (cs cs' : List Char) : p.after (cs ++ cs') = (p.after cs).after cs' :=
  List.foldl_append

/-- The running place of the lexer is the place that the characters so far tell. -/
theorem Place.start_after (before : List Char) : Place.start.after before =
    ⟨bytes before, .ofNat (lineAfter before), (before.rtakeWhile (· ≠ '\n')).length⟩ := by
  induction before using List.reverseRecOn with
  | nil => rfl
  | append_singleton before c ih =>
    rw [after_append, ih, bytes_append, bytes_singleton]
    simp only [after, List.foldl_cons, List.foldl_nil, next, lineAfter, List.count_append, List.count_singleton]
    by_cases hc : c = '\n'
    · subst hc
      rw [List.rtakeWhile_concat_neg _ _ _ (by simp)]
      simp [UInt32.ofNat_add, UInt32.add_assoc]
    · rw [List.rtakeWhile_concat_pos _ _ _ (by simp [hc])]
      simp [hc]

/-- As long as there are numbers for the line and the column, they are those of the next character. -/
theorem Place.start_after_place {before : List Char} (h : bytes before + 1 < UInt32.size) :
    (Place.start.after before).line.toNat = lineAfter before ∧
      (Place.start.after before).column.toNat = columnAfter before := by
  have hline := lineAfter_le before
  have hcolumn := columnAfter_le before
  rw [start_after]
  refine ⟨UInt32.toNat_ofNat_of_lt' (hline.trans_lt h), ?_⟩
  rw [column, columnAfter, Nat.add_comm]
  exact UInt32.toNat_ofNatClamp_of_lt (hcolumn.trans_lt h)

/-- So an item has the position of its characters. -/
theorem Place.start_after_position {before text : List Char} (h : bytes (before ++ text) + 1 < UInt32.size) :
    Marks ((Place.start.after before).position text) before text := by
  have hbefore : bytes before ≤ bytes (before ++ text) := bytes_append before text ▸ Nat.le_add_right _ _
  have hoffsets : bytes (before ++ text) ≤ Span.maxOffset := by
    show _ ≤ UInt32.size - 1
    omega
  obtain ⟨hline, hcolumn⟩ := start_after_place (show bytes before + 1 < UInt32.size by omega)
  refine ⟨?_, hline, hcolumn⟩
  show Span.ofOffsets _ _ = _
  rw [← after_append, start_after, start_after, Span.ofOffsets, min_eq_left hoffsets, min_eq_left (hbefore.trans hoffsets)]

/-! ## Gaps -/

/-- Blanks, line feeds, and comments ended by a line feed. -/
inductive Gap : List Char → Prop
  | nil : Gap []
  | blank {c : Char} {rest : List Char} (hc : c = '\n' ∨ isBlank c) (h : Gap rest) : Gap (c :: rest)
  | comment {body rest : List Char} (hbody : '\n' ∉ body) (h : Gap ('\n' :: rest)) :
    Gap ('/' :: '/' :: (body ++ '\n' :: rest))

/-- What may stand after the last token: a gap, and a comment that nothing ends. -/
inductive FinalGap : List Char → Prop
  | closed {cs : List Char} (h : Gap cs) : FinalGap cs
  | comment {gap body : List Char} (h : Gap gap) (hbody : '\n' ∉ body) : FinalGap (gap ++ '/' :: '/' :: body)

/-- The tokens of the characters `rest` that stand after the characters `before`: gaps apart they are the longest
items, and each has the position of its characters. -/
inductive Placed : (before rest : List Char) → List Lexeme → Prop
  | last {before gap : List Char} {p : Position} (hgap : FinalGap gap) (hp : Marks p (before ++ gap) []) :
    Placed before gap [⟨.endOfFile, p⟩]
  | token {before gap text rest : List Char} {item : Item} {kind : TokenKind} {p : Position} {tokens : List Lexeme}
    (hgap : Gap gap) (hitem : item.Longest text rest) (hkind : item.kind? text = .ok (some kind)) (hline : '\n' ∉ text)
    (hp : Marks p (before ++ gap) text) (h : Placed (before ++ gap ++ text) rest tokens) :
    Placed before (gap ++ (text ++ rest)) (⟨kind, p⟩ :: tokens)

theorem Gap.append {gap gap' : List Char} (h : Gap gap) (h' : Gap gap') : Gap (gap ++ gap') := by
  induction h with
  | nil => exact h'
  | blank hc _ ih => exact .blank hc ih
  | comment hbody _ ih => simpa using Gap.comment hbody ih

theorem FinalGap.prepend {gap gap' : List Char} (h : Gap gap) (h' : FinalGap gap') : FinalGap (gap ++ gap') := by
  cases h' with
  | closed h' => exact .closed (h.append h')
  | comment h' hbody => simpa using FinalGap.comment (h.append h') hbody

theorem gap_of_blanks {cs : List Char} (h : ∀ c ∈ cs, isBlank c) : Gap cs := by
  induction cs with
  | nil => exact .nil
  | cons c cs ih =>
    rw [List.forall_mem_cons] at h
    exact .blank (.inr h.1) (ih h.2)

/-- A longest item that is a gap is closed, or it is a comment before a line feed or before the end. -/
theorem Item.Longest.gap_cases {text rest : List Char} (h : Item.gap.Longest text rest) :
    Gap text ∨ ∃ body, text = '/' :: '/' :: body ∧ '\n' ∉ body ∧ (rest = [] ∨ ∃ more, rest = '\n' :: more) := by
  obtain ⟨hfits, hlongest⟩ := h
  cases hfits with
  | blanks _ hall => exact .inl (gap_of_blanks hall)
  | newline => exact .inl (.blank (.inl rfl) .nil)
  | @comment body hbody =>
    refine .inr ⟨body, rfl, hbody, ?_⟩
    cases rest with
    | nil => exact .inl rfl
    | cons c more =>
      refine .inr ⟨more, ?_⟩
      by_contra hne
      have hfits : Item.gap.Fits ('/' :: '/' :: (body ++ [c])) :=
        .comment (by simp only [List.mem_append, List.mem_singleton, not_or]; exact ⟨hbody, fun hc => hne (by rw [hc])⟩)
      have hle := hlongest .gap _ ⟨more, by simp⟩ hfits
      simp at hle

theorem QuotedBody.not_mem_newline {quote : Char} {body : List Char} (h : QuotedBody quote body) : '\n' ∉ body := by
  induction h with
  | nil => simp
  | plain _ _ hn _ ih => simp [Ne.symm hn, ih]
  | escaped hn _ ih => simp [Ne.symm hn, ih]

/-- Only gaps have line feeds. -/
theorem Item.Fits.not_mem_newline {item : Item} {text : List Char} (h : item.Fits text) (hitem : item ≠ .gap) :
    '\n' ∉ text := by
  cases h with
  | blanks | newline | comment => exact absurd rfl hitem
  | symbol s => exact fun hmem => (isMark_iff.1 (isMark_symbol s _ hmem)).1 rfl
  | whole _ h => exact fun hmem => absurd (h _ hmem) (by decide)
  | fraction _ h _ h' =>
    simp only [List.mem_append, List.mem_cons, not_or]
    exact ⟨fun hmem => absurd (h _ hmem) (by decide), by decide, fun hmem => absurd (h' _ hmem) (by decide)⟩
  | @quoted quote body hq h =>
    have hquote : '\n' ≠ quote := by rintro rfl; exact absurd hq (by decide)
    simp [hquote, h.not_mem_newline]
  | word hc h => exact fun hmem => absurd (Item.Fits.of_word (.word hc h) _ hmem) (by decide)

/-- A gap before a text lengthens the first gap of its tokens. -/
theorem Placed.prepend {before gap rest : List Char} {tokens : List Lexeme} (hgap : Gap gap)
    (h : Placed (before ++ gap) rest tokens) : Placed before (gap ++ rest) tokens := by
  generalize hbefore : before ++ gap = front at h
  cases h with
  | last h hp =>
    subst hbefore
    exact .last (h.prepend hgap) (by simpa using hp)
  | token hgap' hitem hkind hline hp h =>
    subst hbefore
    have hplaced : Placed before _ _ :=
      .token (hgap.append hgap') hitem hkind hline (by simpa using hp) (by simpa using h)
    simpa using hplaced

/-- So does a comment that a line feed or the end of the text ends. -/
theorem Placed.prepend_comment {before body rest : List Char} {tokens : List Lexeme} (hbody : '\n' ∉ body)
    (hrest : rest = [] ∨ ∃ more, rest = '\n' :: more) (h : Placed (before ++ '/' :: '/' :: body) rest tokens) :
    Placed before ('/' :: '/' :: body ++ rest) tokens := by
  generalize hbefore : before ++ '/' :: '/' :: body = front at h
  cases h with
  | last hgap hp =>
    subst hbefore
    have hfinal : FinalGap ('/' :: '/' :: body ++ rest) := by
      rcases hrest with rfl | ⟨more, rfl⟩
      · simpa using FinalGap.comment .nil hbody
      · generalize hcs : '\n' :: more = cs at hgap
        cases hgap with
        | closed h => subst hcs; exact .closed (.comment hbody h)
        | @comment gap body' h hbody' =>
          cases gap with
          | nil => cases hcs
          | cons c gap =>
            obtain ⟨rfl, rfl⟩ := List.cons.inj hcs
            simpa using FinalGap.comment (.comment hbody h) hbody'
    exact .last hfinal (by simpa using hp)
  | @token _ gap text rest item kind p tokens hgap hitem hkind hline hp h =>
    subst hbefore
    have hgap' : Gap ('/' :: '/' :: (body ++ gap)) := by
      rcases hrest with hnil | ⟨more, hmore⟩
      · simp [hitem.fits.ne_nil] at hnil
      · cases gap with
        | nil =>
          obtain ⟨c, text, rfl⟩ := List.exists_cons_of_ne_nil hitem.fits.ne_nil
          obtain ⟨rfl, -⟩ := List.cons.inj hmore
          exact absurd List.mem_cons_self hline
        | cons c gap =>
          obtain ⟨rfl, -⟩ := List.cons.inj hmore
          exact .comment hbody hgap
    have hplaced : Placed before _ _ := .token hgap' hitem hkind hline (by simpa using hp) (by simpa using h)
    simpa using hplaced

/-! ## Gaps are passed over -/

theorem tokensFrom_nil (p : Place) : tokensFrom p [] = .ok [⟨.endOfFile, p.position []⟩] := by
  rw [tokensFrom]
  rfl

section

variable {p : Place} {text rest : List Char}

theorem tokensFrom_cut_gap {cs : List Char} (h : Item.cut? cs = some (.gap, text, rest)) :
    tokensFrom p cs = tokensFrom (p.after text) rest := by
  rw [tokensFrom]
  split
  · rename_i hnone
    rw [h] at hnone
    cases hnone
  · rename_i hsome
    rw [h] at hsome
    cases hsome
    rfl

/-- One blank after the other may be dropped. -/
theorem tokensFrom_blank {c : Char} (hc : c = '\n' ∨ isBlank c) :
    tokensFrom p (c :: rest) = tokensFrom (p.next c) rest := by
  rcases hc with rfl | hb
  · have hcut : Item.cut? ('\n' :: rest) = some (.gap, ['\n'], rest) := rfl
    exact tokensFrom_cut_gap hcut
  have hblanks : tokensFrom (p.next c) rest =
      tokensFrom ((p.next c).after (rest.takeWhile isBlank)) (rest.dropWhile isBlank) := by
    cases rest with
    | nil => rfl
    | cons d rest =>
      by_cases hd : isBlank d
      · exact tokensFrom_cut_gap (cut?_isBlank hd)
      · rw [List.takeWhile_cons_of_neg hd, List.dropWhile_cons_of_neg hd]
        rfl
  rw [hblanks, tokensFrom_cut_gap (cut?_isBlank hb), List.takeWhile_cons_of_pos hb, List.dropWhile_cons_of_pos hb]
  rfl

theorem tokensFrom_comment {body : List Char} (hbody : '\n' ∉ body) :
    tokensFrom p ('/' :: '/' :: (body ++ '\n' :: rest)) = tokensFrom (p.after ('/' :: '/' :: body)) ('\n' :: rest) := by
  have hcomment : ∀ c ∈ body, decide (c ≠ '\n') = true := fun c hc => decide_eq_true fun h => hbody (h ▸ hc)
  refine tokensFrom_cut_gap ?_
  simp only [Item.cut?, cutWhile]
  rw [List.takeWhile_cons_of_pos (by decide), List.takeWhile_cons_of_pos (by decide),
    List.takeWhile_append_of_pos hcomment, List.takeWhile_cons_of_neg (by decide), List.append_nil,
    List.dropWhile_cons_of_pos (by decide), List.dropWhile_cons_of_pos (by decide),
    List.dropWhile_append_of_pos hcomment, List.dropWhile_cons_of_neg (by decide)]

theorem tokensFrom_gap {gap : List Char} (h : Gap gap) :
    tokensFrom p (gap ++ rest) = tokensFrom (p.after gap) rest := by
  induction h generalizing p with
  | nil => rfl
  | blank hc _ ih =>
    rw [List.cons_append, tokensFrom_blank hc, ih]
    rfl
  | @comment body more hbody _ ih =>
    have hsplit : '/' :: '/' :: (body ++ '\n' :: more) ++ rest = '/' :: '/' :: (body ++ '\n' :: (more ++ rest)) := by
      simp
    rw [hsplit, tokensFrom_comment hbody, ← List.cons_append, ih, ← Place.after_append]
    congr 2

end

/-! ## What the lexer gives -/

theorem placed_of_tokensFrom {before cs : List Char} {tokens : List Lexeme}
    (h : tokensFrom (Place.start.after before) cs = .ok tokens) (hsize : bytes (before ++ cs) + 1 < UInt32.size) :
    Placed before cs tokens := by
  generalize hp : Place.start.after before = p at h
  fun_induction tokensFrom p cs generalizing before tokens with
  | case1 p hcut =>
    subst hp
    cases h
    rw [← List.append_nil before] at hsize
    exact .last (.closed .nil) (by simpa using Place.start_after_position hsize)
  | case2 => cases h
  | case3 => cases h
  | case4 p cs item text rest hcut hkind ih =>
    subst hp
    obtain ⟨rfl, hitem⟩ := Item.cut?_eq_some_iff.1 hcut
    have hplaced := ih (by simpa using hsize) (Place.after_append ..) h
    have hgap : item = .gap := by
      rcases hitem.fits.kind?_cases with ⟨hgap, -⟩ | ⟨-, kind, hok⟩ | ⟨_, _, _, -, -, -, -, -, herror⟩
      · exact hgap
      · rw [hkind] at hok; cases hok
      · rw [hkind] at herror; cases herror
    subst hgap
    rcases hitem.gap_cases with hclosed | ⟨body, rfl, hbody, hrest⟩
    · exact hplaced.prepend hclosed
    · exact hplaced.prepend_comment hbody hrest
  | case5 p cs item text rest hcut kind hkind ih =>
    subst hp
    obtain ⟨rfl, hitem⟩ := Item.cut?_eq_some_iff.1 hcut
    cases hrest : tokensFrom ((Place.start.after before).after text) rest with
    | error e => rw [hrest] at h; cases h
    | ok later =>
      rw [hrest] at h
      cases h
      have hlater := ih (by simpa using hsize) (Place.after_append ..) hrest
      have hgap : item ≠ .gap := by rintro rfl; cases hkind
      have hwithin : bytes (before ++ text) + 1 < UInt32.size := by
        rw [← List.append_assoc, bytes_append] at hsize
        omega
      have hplaced : Placed before ([] ++ (text ++ rest)) _ :=
        .token .nil hitem hkind (hitem.fits.not_mem_newline hgap)
          (by simpa using Place.start_after_position hwithin) (by simpa using hlater)
      exact hplaced

/-- How far a text is cut into its longest items, all of which are gaps or tokens. -/
inductive Scanned (source : List Char) : (before rest : List Char) → Prop
  | start : Scanned source [] source
  | item {before text rest : List Char} {item : Item} {kind : Option TokenKind}
    (h : Scanned source before (text ++ rest)) (hitem : item.Longest text rest) (hkind : item.kind? text = .ok kind) :
    Scanned source (before ++ text) rest

/-- What a text with no token at its beginning starts with. -/
inductive Faulty : (rest : List Char) → LexError.Cause → Prop
  /-- No item at all. -/
  | noItem {c : Char} {rest : List Char}
    (h : ∀ (item : Item) (front : List Char), front <+: c :: rest → ¬ item.Fits front) :
    Faulty (c :: rest) (Lexer.noItem c)
  /-- A string literal, with an escape that means nothing after some that do. -/
  | badEscape {quote e : Char} {front back rest : List Char}
    (hitem : Item.quoted.Longest (quote :: (front ++ '\\' :: e :: back ++ [quote])) rest)
    (hbody : QuotedBody quote front) (hfront : ∃ content, Escape.cook front = .ok content)
    (he : Escape.meaning e = none) :
    Faulty (quote :: (front ++ '\\' :: e :: back ++ [quote]) ++ rest) (.invalidEscape e)

theorem Scanned.eq_append {source before rest : List Char} (h : Scanned source before rest) :
    source = before ++ rest := by
  induction h with
  | start => rfl
  | item _ _ _ ih => rw [ih, List.append_assoc]

theorem faulty_of_tokensFrom {source before cs : List Char} {e : LexError}
    (h : tokensFrom (Place.start.after before) cs = .error e) (hscanned : Scanned source before cs) :
    ∃ before rest, Scanned source before rest ∧ Faulty rest e.cause ∧ e = (Place.start.after before).error e.cause := by
  generalize hp : Place.start.after before = p at h
  fun_induction tokensFrom p cs generalizing before with
  | case1 => cases h
  | case2 p c rest hcut =>
    subst hp
    cases h
    exact ⟨before, c :: rest, hscanned, .noItem (Item.cut?_eq_none_iff.1 hcut), rfl⟩
  | case3 p cs item text rest hcut cause hkind =>
    subst hp
    cases h
    obtain ⟨rfl, hitem⟩ := Item.cut?_eq_some_iff.1 hcut
    rcases hitem.fits.kind?_cases with ⟨rfl, -⟩ | ⟨-, kind, hok⟩ | ⟨quote, body, e, hq, rfl, hbody, rfl, hcook, herror⟩
    · cases hkind
    · rw [hkind] at hok; cases hok
    · rw [hkind] at herror
      cases herror
      obtain ⟨front, back, rfl, he, hfront, hbody'⟩ := Escape.exists_of_cook_error hbody hcook
      exact ⟨before, _, hscanned, .badEscape hitem hbody' hfront he, rfl⟩
  | case4 p cs item text rest hcut hkind ih =>
    subst hp
    obtain ⟨rfl, hitem⟩ := Item.cut?_eq_some_iff.1 hcut
    exact ih (hscanned.item hitem hkind) (Place.after_append ..) h
  | case5 p cs item text rest hcut kind hkind ih =>
    subst hp
    obtain ⟨rfl, hitem⟩ := Item.cut?_eq_some_iff.1 hcut
    cases hrest : tokensFrom ((Place.start.after before).after text) rest with
    | ok later => rw [hrest] at h; cases h
    | error e' =>
      rw [hrest] at h
      cases h
      exact ih (hscanned.item hitem hkind) (Place.after_append ..) hrest

/-! ## Spans -/

/-- Spans of tokens within a text of `size` bytes, one after the other. -/
structure InOrder (size : Nat) (tokens : List Lexeme) : Prop where
  /-- Every span ends within the text, and not before it starts. -/
  bounds : ∀ t ∈ tokens, t.position.span.start ≤ t.position.span.stop ∧ t.position.span.stop ≤ size
  /-- A later span starts later, and not before the earlier one ends. -/
  disjoint : tokens.Pairwise fun t later =>
    t.position.span.start < later.position.span.start ∧ t.position.span.stop ≤ later.position.span.start
  /-- Only the last token is the end of the file; it is empty, and the others are not. -/
  last : ∃ inner eof, tokens = inner ++ [eof] ∧ eof.kind = .endOfFile ∧ eof.position.span = ⟨size, size⟩ ∧
    ∀ t ∈ inner, t.kind ≠ .endOfFile ∧ t.position.span.start < t.position.span.stop

theorem Placed.le_start {before rest : List Char} {tokens : List Lexeme} (h : Placed before rest tokens) :
    ∀ t ∈ tokens, bytes before ≤ t.position.span.start := by
  induction h with
  | last _ hp =>
    simp only [List.mem_singleton, forall_eq, hp.span, bytes_append]
    exact Nat.le_add_right _ _
  | token _ _ _ _ hp _ ih =>
    rw [List.forall_mem_cons]
    simp only [bytes_append] at ih
    refine ⟨?_, fun t ht => ?_⟩
    · simp only [hp.span, bytes_append]
      exact Nat.le_add_right _ _
    · have := ih t ht
      omega

/-- Tokens that cover a text have their spans in order. -/
theorem Placed.inOrder {before rest : List Char} {tokens : List Lexeme} (h : Placed before rest tokens) :
    InOrder (bytes (before ++ rest)) tokens := by
  induction h with
  | @last before gap p hgap hp =>
    have hend : p.span = ⟨bytes (before ++ gap), bytes (before ++ gap)⟩ := by
      rw [hp.span, List.append_nil]
    refine ⟨?_, List.pairwise_singleton _ _, [], _, rfl, rfl, hend, by simp⟩
    simp only [List.mem_singleton, forall_eq, hend, le_refl, and_self]
  | @token before gap text rest item kind p tokens hgap hitem hkind hline hp hrest ih =>
    have hpos := bytes_pos hitem.fits.ne_nil
    have hstarts := hrest.le_start
    simp only [List.append_assoc] at ih hstarts
    simp only [bytes_append] at hstarts
    have hstrict : bytes (before ++ gap) < bytes (before ++ gap ++ text) := by
      rw [bytes_append _ text]
      omega
    obtain ⟨hbounds, hdisjoint, inner, eof, rfl, heof, hspan, hinner⟩ := ih
    refine ⟨?_, ?_, ⟨kind, p⟩ :: inner, eof, rfl, heof, hspan, ?_⟩
    · rw [List.forall_mem_cons]
      refine ⟨?_, hbounds⟩
      simp only [hp.span, bytes_append] at hstrict ⊢
      omega
    · refine List.pairwise_cons.2 ⟨fun t ht => ?_, hdisjoint⟩
      have := hstarts t ht
      simp only [hp.span, bytes_append]
      omega
    · rw [List.forall_mem_cons]
      refine ⟨⟨?_, ?_⟩, hinner⟩
      swap
      · simpa only [hp.span] using hstrict
      exact Item.kind?_ne_endOfFile hkind

/-- Where the tokens of a text stand, and where a text without tokens goes wrong first. -/
theorem lex_places (source : String) (hsize : source.utf8ByteSize < 2 ^ 32 - 1) :
    (∀ tokens, lex source = .ok tokens →
      Placed [] source.toList tokens ∧ InOrder source.utf8ByteSize tokens) ∧
    ∀ e, lex source = .error e → ∃ before rest, source.toList = before ++ rest ∧
      Scanned source.toList before rest ∧ Faulty rest e.cause ∧
      e.line.toNat = 1 + before.count '\n' ∧ e.column.toNat = 1 + (before.rtakeWhile (· ≠ '\n')).length := by
  have hbytes : bytes source.toList = source.utf8ByteSize := by rw [bytes, String.ofList_toList]
  have hfits : bytes source.toList + 1 < UInt32.size := by
    rw [hbytes]
    exact Nat.add_lt_of_lt_sub hsize
  constructor
  · intro tokens h
    have hplaced : Placed [] source.toList tokens := placed_of_tokensFrom h hfits
    refine ⟨hplaced, ?_⟩
    rw [← hbytes]
    exact hplaced.inOrder
  · intro e h
    have hreads : tokensFrom (Place.start.after []) source.toList = .error e := h
    obtain ⟨before, rest, hscanned, hfaulty, herror⟩ := faulty_of_tokensFrom hreads .start
    have hbefore : bytes before + 1 < UInt32.size := by
      rw [hscanned.eq_append, bytes_append] at hfits
      omega
    rw [herror]
    exact ⟨before, rest, hscanned.eq_append, hscanned, hfaulty, Place.start_after_place hbefore⟩

theorem lex_places_of_comment : "// ö\n x".utf8ByteSize < 2 ^ 32 - 1 ∧
    lex "// ö\n x" = .ok [⟨.identifier "x", ⟨⟨7, 8⟩, 2, 2⟩⟩, ⟨.endOfFile, ⟨⟨8, 8⟩, 2, 3⟩⟩] ∧
    Placed [] "// ö\n x".toList [⟨.identifier "x", ⟨⟨7, 8⟩, 2, 2⟩⟩, ⟨.endOfFile, ⟨⟨8, 8⟩, 2, 3⟩⟩] := by
  have hlex : lex "// ö\n x" = .ok [⟨.identifier "x", ⟨⟨7, 8⟩, 2, 2⟩⟩, ⟨.endOfFile, ⟨⟨8, 8⟩, 2, 3⟩⟩] := by
    decide +kernel
  have hsize : "// ö\n x".utf8ByteSize < 2 ^ 32 - 1 := by decide
  exact ⟨hsize, hlex, ((lex_places _ hsize).1 _ hlex).1⟩

/-! ## Longer texts -/

/-- Blanks stand on one line. -/
theorem Place.after_blanks (p : Place) (n : Nat) :
    p.after (List.replicate n ' ') = ⟨p.offset + n, p.line, p.inLine + n⟩ := by
  induction n generalizing p with
  | zero => rfl
  | succ n ih =>
    have hnext : p.next ' ' = ⟨p.offset + 1, p.line, p.inLine + 1⟩ := rfl
    rw [List.replicate_succ, after, List.foldl_cons, hnext]
    refine (ih _).trans ?_
    simp only [Nat.add_assoc, Nat.add_comm 1 n]

theorem columnAfter_blanks (n : Nat) : columnAfter (List.replicate n ' ') = 1 + n := by
  have hall : (List.replicate n ' ').rtakeWhile (· ≠ '\n') = List.replicate n ' ' := by
    rw [List.rtakeWhile_eq_self_iff]
    intro c hc
    rw [List.eq_of_mem_replicate hc]
    decide
  rw [columnAfter, hall, List.length_replicate]

theorem bytes_blanks (n : Nat) : bytes (List.replicate n ' ') = n := by
  have hplace : (Place.start.after (List.replicate n ' ')).offset = n := by
    rw [Place.after_blanks]
    exact Nat.zero_add n
  rwa [Place.start_after] at hplace

/-- Blanks have no tokens. -/
theorem lex_blanks (n : Nat) : lex (String.ofList (List.replicate n ' ')) =
    .ok [⟨.endOfFile, ⟨.ofOffsets n n, 1, .ofNatClamp (n + 1)⟩⟩] := by
  have hgap : Gap (List.replicate n ' ') := gap_of_blanks fun c hc => by
    rw [List.eq_of_mem_replicate hc]
    decide
  have htokens : tokensFrom .start (List.replicate n ' ' ++ []) = _ := tokensFrom_gap hgap
  rw [List.append_nil, Place.after_blanks, tokensFrom_nil] at htokens
  rw [lex, String.toList_ofList, htokens]
  simp [Place.start, Place.position, Place.after, Place.column]

/-- Where the tokens are the end alone, it stands after all characters. -/
theorem Placed.marks_endOfFile {before rest : List Char} {p : Position} (h : Placed before rest [⟨.endOfFile, p⟩]) :
    Marks p (before ++ rest) [] := by
  generalize htokens : [(⟨.endOfFile, p⟩ : Lexeme)] = tokens at h
  cases h with
  | last _ hp =>
    cases htokens
    exact hp
  | token _ _ hkind =>
    cases htokens
    exact absurd rfl (Item.kind?_ne_endOfFile hkind)

/-- In a text of `2 ^ 32 - 1` bytes there may be no number for the column of the end: here it is `2 ^ 32`, and what is
recorded is the column before. -/
theorem lex_blanks_too_many : ∃ (source : String) (eof : Position),
    source = String.ofList (List.replicate (2 ^ 32 - 1) ' ') ∧ source.utf8ByteSize = 2 ^ 32 - 1 ∧
      lex source = .ok [⟨.endOfFile, eof⟩] ∧ columnAfter source.toList = 2 ^ 32 ∧ eof.column.toNat = 2 ^ 32 - 1 ∧
      ¬ Placed [] source.toList [⟨.endOfFile, eof⟩] := by
  -- The number of blanks is a variable from here on, lest they are written down one by one.
  obtain ⟨n, hn⟩ : ∃ n, 2 ^ 32 - 1 = n := ⟨_, rfl⟩
  have hsize : n + 1 = 2 ^ 32 := by omega
  have hcolumn : columnAfter (List.replicate n ' ') = n + 1 := by
    rw [columnAfter_blanks, Nat.add_comm]
  have hrecorded : (UInt32.ofNatClamp (n + 1)).toNat = n := by
    rw [UInt32.toNat_ofNatClamp_of_le (by rw [hsize]; exact le_refl _)]
    exact hn
  rw [hn, ← hsize]
  refine ⟨_, _, rfl, bytes_blanks n, lex_blanks n, ?_, hrecorded, ?_⟩
  · rw [String.toList_ofList, hcolumn]
  · rw [String.toList_ofList]
    intro hplaced
    have hmarked := hplaced.marks_endOfFile.column
    rw [List.nil_append, hcolumn, hrecorded] at hmarked
    omega

end Lexer

end DynScript
