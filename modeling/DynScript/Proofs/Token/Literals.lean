import Mathlib.Data.List.TakeWhile
import DynScript.Proofs.Token.Patterns

/-!
# Literals

Every text of digits with an optional fraction is a number. Between the quotes of a matched literal `Escape.cook`
never comes to a backslash with nothing after it, and it gives back what `Escape.write` has written.
-/

namespace DynScript

namespace Lexer

variable {item : Item} {text : List Char}

theorem isDigits_of_forall {cs : List Char} (hne : cs ≠ []) (h : ∀ c ∈ cs, c.isDigit) : Number.isDigits cs := by
  simp only [Number.isDigits, Bool.and_eq_true, Bool.not_eq_true', List.isEmpty_eq_false_iff, List.all_eq_true]
  exact ⟨hne, h⟩

/-- Every text of digits with an optional fraction is read as a number. -/
theorem Item.Fits.read?_isSome (h : Item.number.Fits text) : (Number.read? text).isSome := by
  cases h with
  | whole hne h =>
    have htake : text.takeWhile Char.isDigit = text := List.takeWhile_eq_self_iff.2 h
    have hdrop : text.dropWhile Char.isDigit = [] := List.dropWhile_eq_nil_iff.2 h
    simp only [Number.read?, htake, hdrop, isDigits_of_forall hne h, if_true, Option.isSome_some]
  | @fraction whole fraction hne h hne' h' =>
    have hpoint : ¬ '.'.isDigit := by decide
    have htake : (whole ++ '.' :: fraction).takeWhile Char.isDigit = whole := by
      rw [List.takeWhile_append_of_pos h, List.takeWhile_cons_of_neg hpoint, List.append_nil]
    have hdrop : (whole ++ '.' :: fraction).dropWhile Char.isDigit = '.' :: fraction := by
      rw [List.dropWhile_append_of_pos h, List.dropWhile_cons_of_neg hpoint]
    simp only [Number.read?, htake, hdrop, isDigits_of_forall hne h, isDigits_of_forall hne' h', Bool.and_self,
      if_true, Option.isSome_some]

end Lexer

namespace Escape

open Lexer

variable {quote : Char} {body content : List Char}

/-- Reading escapes from the left comes to a backslash with nothing after it. -/
inductive MeetsEnd : List Char → Prop
  | here : MeetsEnd ['\\']
  | escape {e c : Char} {rest : List Char} (he : meaning e = some c) (h : MeetsEnd rest) : MeetsEnd ('\\' :: e :: rest)
  | plain {c : Char} {rest : List Char} (hc : c ≠ '\\') (h : MeetsEnd rest) : MeetsEnd (c :: rest)

/-- The backslashes of a matched literal all take a character with them. -/
theorem not_meetsEnd (h : QuotedBody quote body) : ¬ MeetsEnd body := by
  induction h with
  | nil => intro hend; cases hend
  | plain _ hb _ _ ih =>
    intro hend
    cases hend with
    | here | escape => exact hb rfl
    | plain _ hend => exact ih hend
  | escaped _ _ ih =>
    intro hend
    cases hend with
    | escape _ hend => exact ih hend
    | plain hc _ => exact hc rfl

theorem cook_plain {c : Char} (hc : c ≠ '\\') : cook (c :: body) = (cook body).map (c :: ·) := by
  rw [cook]
  · exact fun hbody _ => hc hbody
  · exact fun _ _ hbody _ => hc hbody

theorem cook_escape {e c : Char} (he : meaning e = some c) : cook ('\\' :: e :: body) = (cook body).map (c :: ·) := by
  rw [cook, he]

/-- The literal is given up at the first escape that means nothing. -/
theorem exists_of_cook_error {e : Char} (h : QuotedBody quote body) (hcook : cook body = .error e) :
    ∃ front back, body = front ++ '\\' :: e :: back ∧ meaning e = none ∧ (∃ content, cook front = .ok content) ∧
      QuotedBody quote front := by
  induction h with
  | nil => cases hcook
  | @plain c rest hq hb hn hrest ih =>
    rw [cook_plain hb] at hcook
    cases hrest' : cook rest with
    | ok _ => rw [hrest'] at hcook; cases hcook
    | error e' =>
      rw [hrest'] at hcook
      cases hcook
      obtain ⟨front, back, rfl, he, ⟨content, hfront⟩, hbody⟩ := ih hrest'
      refine ⟨c :: front, back, rfl, he, ⟨c :: content, ?_⟩, .plain hq hb hn hbody⟩
      rw [cook_plain hb, hfront]
      rfl
  | @escaped d rest hn hrest ih =>
    cases hd : meaning d with
    | none =>
      rw [cook, hd] at hcook
      cases hcook
      exact ⟨[], rest, rfl, hd, ⟨[], rfl⟩, .nil⟩
    | some c =>
      rw [cook_escape hd] at hcook
      cases hrest' : cook rest with
      | ok _ => rw [hrest'] at hcook; cases hcook
      | error e' =>
        rw [hrest'] at hcook
        cases hcook
        obtain ⟨front, back, rfl, he, ⟨content, hfront⟩, hbody⟩ := ih hrest'
        refine ⟨'\\' :: d :: front, back, rfl, he, ⟨c :: content, ?_⟩, .escaped hn hbody⟩
        rw [cook_escape hd, hfront]
        rfl

/-- How a character is written between two quotes: a line feed, a backslash and the quote itself are escaped. -/
def writeChar (quote c : Char) : List Char :=
  if c = '\n' then ['\\', 'n'] else if c = '\\' ∨ c = quote then ['\\', c] else [c]

/-- How a string is written between two quotes. -/
def write (quote : Char) (content : List Char) : List Char := content.flatMap (writeChar quote)

theorem meaning_quote (hq : isQuote quote) : meaning quote = some quote := by
  rcases quote_cases hq with rfl | rfl <;> rfl

/-- What is written ends at the closing quote, and it is read back. -/
theorem write_spec (hq : isQuote quote) (content : List Char) :
    QuotedBody quote (write quote content) ∧ cook (write quote content) = .ok content := by
  induction content with
  | nil => exact ⟨.nil, rfl⟩
  | cons c content ih =>
    obtain ⟨hbody, hcook⟩ := ih
    have hcons : write quote (c :: content) = writeChar quote c ++ write quote content := rfl
    rw [hcons, writeChar]
    by_cases hn : c = '\n'
    · subst hn
      rw [if_pos rfl, List.cons_append, List.singleton_append, cook_escape (c := '\n') rfl, hcook]
      exact ⟨.escaped (by decide) hbody, rfl⟩
    rw [if_neg hn]
    by_cases he : c = '\\' ∨ c = quote
    · have hmeaning : meaning c = some c := by
        rcases he with rfl | rfl
        · rfl
        · exact meaning_quote hq
      rw [if_pos he, List.cons_append, List.singleton_append, cook_escape hmeaning, hcook]
      exact ⟨.escaped hn hbody, rfl⟩
    · obtain ⟨hb, hquote⟩ := not_or.1 he
      rw [if_neg he, List.singleton_append, cook_plain hb, hcook]
      exact ⟨.plain hquote hb hn hbody, rfl⟩

end Escape

namespace Lexer

variable {item : Item} {text : List Char}

/-- What lies between the quotes of a literal. -/
theorem inside_quotes (quote : Char) (body : List Char) :
    ((quote :: (body ++ [quote])).drop 1).dropLast = body := by
  rw [List.drop_one, List.tail_cons, List.dropLast_concat]

/-- A gap stands for no token, every other item for one, but for a literal with an escape that means nothing. -/
theorem Item.Fits.kind?_cases (h : item.Fits text) :
    (item = .gap ∧ item.kind? text = .ok none) ∨ (item ≠ .gap ∧ ∃ kind, item.kind? text = .ok (some kind)) ∨
      ∃ quote body e, isQuote quote ∧ text = quote :: (body ++ [quote]) ∧ QuotedBody quote body ∧ item = .quoted ∧
        Escape.cook body = .error e ∧ item.kind? text = .error (.invalidEscape e) := by
  cases item with
  | gap => exact .inl ⟨rfl, rfl⟩
  | symbol s => exact .inr (.inl ⟨by simp, _, rfl⟩)
  | word => exact .inr (.inl ⟨by simp, _, rfl⟩)
  | number =>
    obtain ⟨x, hx⟩ := Option.isSome_iff_exists.1 h.read?_isSome
    exact .inr (.inl ⟨by simp, .number x, by simp only [kind?, hx]⟩)
  | quoted =>
    obtain ⟨quote, tail, rfl⟩ := List.exists_cons_of_ne_nil h.ne_nil
    obtain ⟨hq, body, rfl, hbody⟩ := h.of_quoted
    cases hcook : Escape.cook body with
    | ok content =>
      exact .inr (.inl ⟨by simp, .string (String.ofList content), by simp only [kind?, inside_quotes, hcook]⟩)
    | error e =>
      exact .inr (.inr ⟨quote, body, e, hq, rfl, hbody, rfl, hcook, by simp only [kind?, inside_quotes, hcook]⟩)

/-- No item stands for the end of the file. -/
theorem Item.kind?_ne_endOfFile {item : Item} {text : List Char} {kind : TokenKind}
    (h : item.kind? text = .ok (some kind)) : kind ≠ .endOfFile := by
  cases item with
  | gap => cases h
  | symbol s =>
    cases h
    nofun
  | number =>
    simp only [kind?] at h
    split at h
    · cases h
      nofun
    · cases h
  | quoted =>
    simp only [kind?] at h
    split at h
    · cases h
      nofun
    · cases h
  | word =>
    obtain rfl := Option.some.inj (Except.ok.inj h)
    cases Keyword.ofText? (String.ofList text) <;> nofun

end Lexer

end DynScript
