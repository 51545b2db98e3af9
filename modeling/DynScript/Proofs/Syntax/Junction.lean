import DynScript.Proofs.Syntax.Moving
import DynScript.Proofs.Syntax.Prompt

/-!
# Reading alone and amid others

What a parser does when some words are all there is, and what it does when nodes have been made before and tokens come
after the words (`Junction`). As far as it reads the words it does the same (`Junction.Agree`), and its nodes are moved.
Where the words end it sees the end of the file in one case and the next token in the other: that makes no difference if
the statement before has to end there (`Junction.Clear`), if it fails at the end of the file, or if it does not look.
-/

namespace DynScript

/-- A token goes on with what a closing brace ends. -/
def TokenKind.continues : TokenKind → Bool
  | .symbol .leftParen | .symbol .leftBracket | .symbol .dot | .symbol .dotBrace | .symbol .assign | .symbol .pipe
  | .symbol .equal | .symbol .notEqual | .symbol .less | .symbol .lessEqual | .symbol .greater | .symbol .greaterEqual
  | .symbol .prepend | .symbol .plus | .symbol .minus | .symbol .star | .symbol .slash | .symbol .comma
  | .keyword .or | .keyword .and | .keyword .elseBranch => true
  | _ => false

/-- What is around some words. -/
structure Junction where
  /-- The nodes that were made before the words. -/
  base : Arena
  /-- The token after the words. -/
  next : Lexeme
  /-- The tokens after that one. -/
  rest : List Lexeme
  /-- The last of the words. -/
  last : Option TokenKind

namespace Junction

open DynScript.Parser

variable {α α' β β' γ γ' : Type}

/-- The statement that the words end with cannot go on. -/
def Clear (J : Junction) : Prop :=
  J.next.kind = .endOfFile ∨ J.next.kind = .symbol .semicolon ∨
    J.last = some (.symbol .rightBrace) ∧ J.next.kind.continues = false

/-- The end of the file, where the next token stands. -/
def stop (J : Junction) : Lexeme := ⟨.endOfFile, J.next.position⟩

/-- Some words are left, and they are all there is. -/
def alone (J : Junction) (p : Option TokenKind) (a : Arena) (w : List Lexeme) : ParseState :=
  .before p a (w ++ [J.stop])

/-- Some words are left, amid others. -/
def amid (J : Junction) (p : Option TokenKind) (a : Arena) (w : List Lexeme) : ParseState :=
  .before p (J.base.append a) (w ++ J.next :: J.rest)

/-- The number that a node has amid others. -/
def move (J : Junction) : NodeId → NodeId := NodeId.moved J.base.size

/-- Some words are left after a token. -/
structure Inside (J : Junction) (p : Option TokenKind) (w : List Lexeme) : Prop where
  /-- They are inside the file. -/
  inside : ∀ t ∈ w, t.kind ≠ .endOfFile
  /-- They end as they should. -/
  last : lastKind p w = J.last

/-- What a parser comes to amid others when alone it gives `v` and leaves the state `s`: the same, with what corresponds
by `f`. If it is `loose` it may be anything when the parser has come to the end of the words. If it is `settled` the
token passed last is the same. -/
inductive Outcome (J : Junction) (loose settled : Prop) (n : Nat) (f : α → β) (v : α) (s : ParseState)
    (r : Except ParseError (β × ParseState)) : Prop where
  | beyond (hloose : loose) (hs : s.cursor.kind = .endOfFile)
  | same {p q : Option TokenKind} {a : Arena} {w : List Lexeme} (hs : s = J.alone p a w) (hw : J.Inside p w)
    (hle : w.length ≤ n) (hsettled : settled → p = q) (hr : r = .ok (f v, J.amid q a w))

/-- A parser does the same alone and amid others, from a state in which `ws` come next. If it `needs` a token it fails
at the end of the file, and the token passed last is one that it has passed. -/
structure Agree (J : Junction) (loose needs : Prop) (ws : List TokenKind) (f : α → β) (x : Parser α) (y : Parser β) :
    Prop where
  /-- What it does alone it does amid others. -/
  runs : ∀ p q a w v s, J.Inside p w → ws <+: (J.alone p a w).ahead → x (J.alone p a w) = .ok (v, s) →
    J.Outcome loose (p = q ∨ needs) w.length f v s (y (J.amid q a w))
  /-- At the end of the file it stays there. -/
  ends : ∀ s v s', s.cursor.kind = .endOfFile → ws <+: s.ahead → x s = .ok (v, s') →
    ¬ needs ∧ s'.cursor.kind = .endOfFile

variable {J : Junction} {loose loose' needs needs' : Prop} {ws : List TokenKind} {word : TokenKind} {f : α → β}
  {x : Parser α} {y : Parser β} {p q : Option TokenKind} {a : Arena} {w : List Lexeme} {v : α} {s : ParseState}

theorem ahead_alone : (J.alone p a w).ahead = w.map Lexeme.kind ++ [.endOfFile] := by
  have hne : w ++ [J.stop] ≠ [] := List.append_ne_nil_of_right_ne_nil w (List.cons_ne_nil _ _)
  rw [alone, ParseState.ahead_before hne, List.map_append]
  rfl

theorem Inside.tail {t : Lexeme} (h : J.Inside p (t :: w)) : J.Inside (some t.kind) w :=
  ⟨fun u hu => h.inside u (List.mem_cons_of_mem t hu), h.last⟩

/-- If the last of the words is no brace, the statement ends with the file or with a semicolon. -/
theorem Inside.clear (h : J.Inside p []) (hJ : J.Clear) (hp : p ≠ some (.symbol .rightBrace)) :
    J.next.kind = .endOfFile ∨ J.next.kind = .symbol .semicolon := by
  rcases hJ with hend | hsemicolon | ⟨hlast, -⟩
  · exact .inl hend
  · exact .inr hsemicolon
  · exact absurd (h.last.trans hlast) hp

theorem Clear.continues_eq_false (h : J.Clear) : J.next.kind.continues = false := by
  rcases h with hend | hsemicolon | ⟨-, hnext⟩
  · rw [hend]
    rfl
  · rw [hsemicolon]
    rfl
  · exact hnext

/-- Where the statement has to end, or may be anything, the next token is none that continues it. -/
theorem next_ne {expected : TokenKind} (he : expected.continues = true) : ¬ J.Clear ∨ J.next.kind ≠ expected := by
  by_cases hJ : J.Clear
  · right
    rintro rfl
    rw [hJ.continues_eq_false] at he
    cases he
  · exact .inl hJ

theorem Outcome.mono {settled settled' : Prop} {n m : Nat} {r : Except ParseError (β × ParseState)}
    (h : J.Outcome loose settled n f v s r) (hl : loose → loose') (hs : settled' → settled) (hnm : n ≤ m) :
    J.Outcome loose' settled' m f v s r := by
  cases h with
  | beyond hloose hend => exact .beyond (hl hloose) hend
  | same heq hw hle hsettled hr => exact .same heq hw (hle.trans hnm) (fun h => hsettled (hs h)) hr

namespace Agree

theorem weaken (h : J.Agree loose needs ws f x y) (hl : loose → loose') (hn : needs' → needs) :
    J.Agree loose' needs' ws f x y where
  runs p q a w v s hw hws hx := (h.runs p q a w v s hw hws hx).mono hl (Or.imp_right hn) le_rfl
  ends s v s' hs hws hx := (h.ends s v s' hs hws hx).imp_left fun hnot hneeds => hnot (hn hneeds)

/-- What needs a token may be asked to need none. -/
theorem forget (h : J.Agree loose needs ws f x y) : J.Agree loose False ws f x y := h.weaken id False.elim

theorem relax (h : J.Agree loose needs ws f x y) : J.Agree True False ws f x y := h.weaken (fun _ => trivial) False.elim

/-- It makes no difference what comes first. -/
theorem anywhere (h : J.Agree loose needs [] f x y) : J.Agree loose needs ws f x y where
  runs p q a w v s hw _ := h.runs p q a w v s hw List.nil_prefix
  ends s v s' hs _ := h.ends s v s' hs List.nil_prefix

theorem of_fails (h : ∀ s r, x s ≠ .ok r) : J.Agree loose needs ws f x y where
  runs _ _ _ _ _ _ _ _ hx := absurd hx (h _ _)
  ends _ _ _ _ _ hx := absurd hx (h _ _)

/-- A failure that tells the current token. -/
theorem kind_fail_ne {cause : TokenKind → ParseError.Cause} {r : α × ParseState} :
    (Parser.kind >>= fun word => (Parser.fail (cause word) : Parser α)) s ≠ .ok r := by
  intro h
  cases h

theorem fail {cause : ParseError.Cause} : J.Agree loose needs ws f (Parser.fail cause) y :=
  of_fails fun _ _ h => by cases h

theorem pure {v : α} {v' : β} (hv : f v = v') : J.Agree loose False ws f (Pure.pure v) (Pure.pure v') where
  runs := by
    rintro p q a w _ _ hw - ⟨⟩
    exact .same rfl hw le_rfl (fun h => h.resolve_right id) (by rw [hv]; rfl)
  ends := by
    rintro s _ _ hs - ⟨⟩
    exact ⟨id, hs⟩

/-- A parser and another one after it. When the first one may have come to the end of the words, so may both, unless the
second one needs a token. -/
theorem bind {g : α → α'} {f : β → β'} {y : Parser α'} {k : α → Parser β} {k' : α' → Parser β'} {needs₂ : Prop}
    (hx : J.Agree loose' needs' ws g x y)
    (hk : ∀ v, (∃ s s', ws <+: s.ahead ∧ x s = .ok (v, s')) → J.Agree loose needs₂ [] f (k v) (k' (g v)))
    (hl : loose' → loose ∨ needs₂) (hn : needs → needs' ∨ needs₂) :
    J.Agree loose needs ws f (x >>= k) (y >>= k') where
  runs := by
    intro p q a w v s hw hws h
    obtain ⟨u, t, hu, hv⟩ := exists_of_bind h
    have hrest := hk u ⟨_, t, hws, hu⟩
    cases hx.runs p q a w u t hw hws hu with
    | beyond hloose ht =>
      obtain ⟨hneeds, hs⟩ := hrest.ends t v s ht List.nil_prefix hv
      exact .beyond ((hl hloose).resolve_right hneeds) hs
    | same ht hw₁ hle hsettled hy =>
      subst ht
      rw [bind_of_ok hy]
      refine (hrest.runs _ _ _ _ v s hw₁ List.nil_prefix hv).mono id ?_ hle
      rintro (hpq | hneeds)
      · exact .inl (hsettled (.inl hpq))
      · exact (hn hneeds).imp_left fun h => hsettled (.inr h)
  ends := by
    intro s v s' hs hws h
    obtain ⟨u, t, hu, hv⟩ := exists_of_bind h
    obtain ⟨hneeds, ht⟩ := hx.ends s u t hs hws hu
    obtain ⟨hneeds₂, hs'⟩ := (hk u ⟨s, t, hws, hu⟩).ends t v s' ht List.nil_prefix hv
    exact ⟨fun h => (hn h).elim hneeds hneeds₂, hs'⟩

section bind

variable {g : α → α'} {f : β → β'} {y : Parser α'} {k : α → Parser β} {k' : α' → Parser β'}

/-- A parser and another one after it that may need nothing. -/
theorem andThen (hx : J.Agree loose' needs ws g x y) (hk : ∀ v, J.Agree loose False [] f (k v) (k' (g v)))
    (hl : loose' → loose) : J.Agree loose needs ws f (x >>= k) (y >>= k') :=
  bind hx (fun v _ => hk v) (fun h => .inl (hl h)) .inl

/-- A parser that may come to the end of the words, and another one after it that needs a token. -/
theorem closing (hx : J.Agree loose' needs' ws g x y) (hk : ∀ v, J.Agree loose True [] f (k v) (k' (g v))) :
    J.Agree loose needs ws f (x >>= k) (y >>= k') :=
  bind hx (fun v _ => hk v) (fun _ => .inr trivial) fun _ => .inr trivial

end bind

/-! ## Looking -/

/-- A token that comes next is not the end of the file. -/
theorem not_prefix_nil (hne : word ≠ .endOfFile) : ¬ word :: ws <+: (J.alone p a []).ahead := by
  rw [ahead_alone]
  intro h
  exact hne (List.cons_prefix_cons.1 h).1

theorem not_prefix_end (hne : word ≠ .endOfFile) (hs : s.cursor.kind = .endOfFile) : ¬ word :: ws <+: s.ahead := by
  intro h
  exact hne ((List.cons_prefix_cons.1 h).1.trans hs)

section kind

variable {k : TokenKind → Parser α} {k' : TokenKind → Parser β}

/-- What the current token leads to. At the end of the words it must not matter that there is another one. -/
theorem runs_kind (hk : ∀ word, J.Agree loose needs [word] f (k word) (k' word)) (hw : J.Inside p w)
    (hend : w = [] → loose ∨ needs ∨ k' J.next.kind = k' .endOfFile)
    (h : (Parser.kind >>= k) (J.alone p a w) = .ok (v, s)) :
    J.Outcome loose (p = q ∨ needs) w.length f v s ((Parser.kind >>= k') (J.amid q a w)) := by
  cases w with
  | cons t w => exact (hk t.kind).runs p q a (t :: w) v s hw ⟨_, rfl⟩ h
  | nil =>
    have hrun : k .endOfFile (J.alone p a []) = .ok (v, s) := h
    obtain ⟨hneeds, hs⟩ := (hk .endOfFile).ends _ v s rfl ⟨_, rfl⟩ hrun
    rcases hend rfl with hloose | hyes | heq
    · exact .beyond hloose hs
    · exact absurd hyes hneeds
    · have hnext : (Parser.kind >>= k') (J.amid q a []) = k' .endOfFile (J.amid q a []) := congrFun heq _
      rw [hnext]
      exact (hk .endOfFile).runs p q a [] v s hw ⟨_, rfl⟩ hrun

theorem ends_kind (hk : ∀ word, J.Agree loose needs [word] f (k word) (k' word)) {s' : ParseState}
    (hs : s.cursor.kind = .endOfFile) (h : (Parser.kind >>= k) s = .ok (v, s')) :
    ¬ needs ∧ s'.cursor.kind = .endOfFile :=
  (hk s.cursor.kind).ends s v s' hs ⟨_, rfl⟩ h

theorem kind (hk : ∀ word, J.Agree loose needs [word] f (k word) (k' word))
    (hend : loose ∨ needs ∨ k' J.next.kind = k' .endOfFile) :
    J.Agree loose needs [] f (Parser.kind >>= k) (Parser.kind >>= k') where
  runs _ _ _ _ _ _ hw _ h := runs_kind hk hw (fun _ => hend) h
  ends _ _ _ hs _ h := ends_kind hk hs h

/-- When the statement has to end, no other token leads to anything else. -/
theorem kind_clear (hk : ∀ word, J.Agree (¬ J.Clear) needs [word] f (k word) (k' word))
    (hstop : ∀ word, word.continues = false → k' word = k' .endOfFile) :
    J.Agree (¬ J.Clear) needs [] f (Parser.kind >>= k) (Parser.kind >>= k') := by
  refine kind hk ?_
  by_cases hJ : J.Clear
  · exact .inr (.inr (hstop _ hJ.continues_eq_false))
  · exact .inl hJ

theorem kind_known (hne : word ≠ .endOfFile) (hk : J.Agree loose needs (word :: ws) f (k word) (k' word)) :
    J.Agree loose needs (word :: ws) f (Parser.kind >>= k) (Parser.kind >>= k') where
  runs := by
    intro p q a w v s hw hws h
    cases w with
    | nil => exact absurd hws (not_prefix_nil hne)
    | cons t w =>
      obtain rfl : word = t.kind := (List.cons_prefix_cons.1 hws).1
      exact hk.runs p q a (t :: w) v s hw hws h
  ends _ _ _ hs hws _ := absurd hws (not_prefix_end hne hs)

/-- A token is passed that is known. -/
theorem pass {k : Lexeme → Parser α} {k' : Lexeme → Parser β} (hne : word ≠ .endOfFile)
    (hk : ∀ t, J.Agree loose False ws f (k t) (k' t)) :
    J.Agree loose needs (word :: ws) f (advance >>= k) (advance >>= k') where
  runs := by
    intro p q a w v s hw hws h
    cases w with
    | nil => exact absurd hws (not_prefix_nil hne)
    | cons t w =>
      have ht : t.kind ≠ .endOfFile := hw.inside t List.mem_cons_self
      have halone : (advance >>= k) (J.alone p a (t :: w)) = k t (J.alone (some t.kind) a w) :=
        ParseState.advance_before ht (List.append_ne_nil_of_right_ne_nil w (List.cons_ne_nil _ _)) k
      have hamid : (advance >>= k') (J.amid q a (t :: w)) = k' t (J.amid (some t.kind) a w) :=
        ParseState.advance_before ht (List.append_ne_nil_of_right_ne_nil w (List.cons_ne_nil _ _)) k'
      rw [ahead_alone] at hws
      rw [halone] at h
      rw [hamid]
      refine ((hk t).runs _ _ a w v s hw.tail ?_ h).mono id (fun _ => .inl rfl) (Nat.le_succ _)
      rw [ahead_alone]
      exact (List.cons_prefix_cons.1 hws).2
  ends _ _ _ hs hws _ := absurd hws (not_prefix_end hne hs)

/-- The token after one that is passed. If that is no brace, a semicolon is all that can come at the end of the
words. -/
theorem pass_kind {k : Lexeme → TokenKind → Parser α} {k' : Lexeme → TokenKind → Parser β} (hne : word ≠ .endOfFile)
    (hbrace : word ≠ .symbol .rightBrace) (hk : ∀ t word', J.Agree loose False [word'] f (k t word') (k' t word'))
    (hclear : ¬ J.Clear → loose) (hsemicolon : ∀ t, k' t (.symbol .semicolon) = k' t .endOfFile) :
    J.Agree loose needs [word] f (advance >>= fun t => Parser.kind >>= k t)
      (advance >>= fun t => Parser.kind >>= k' t) where
  runs := by
    intro p q a w v s hw hws h
    cases w with
    | nil => exact absurd hws (not_prefix_nil hne)
    | cons t w =>
      have ht : t.kind ≠ .endOfFile := hw.inside t List.mem_cons_self
      obtain rfl : word = t.kind := (List.cons_prefix_cons.1 hws).1
      have halone : (advance >>= fun t => Parser.kind >>= k t) (J.alone p a (t :: w)) =
          (Parser.kind >>= k t) (J.alone (some t.kind) a w) :=
        ParseState.advance_before ht (List.append_ne_nil_of_right_ne_nil w (List.cons_ne_nil _ _)) _
      have hamid : (advance >>= fun t => Parser.kind >>= k' t) (J.amid q a (t :: w)) =
          (Parser.kind >>= k' t) (J.amid (some t.kind) a w) :=
        ParseState.advance_before ht (List.append_ne_nil_of_right_ne_nil w (List.cons_ne_nil _ _)) _
      rw [halone] at h
      rw [hamid]
      refine (runs_kind (hk t) hw.tail ?_ h).mono id (fun _ => .inl rfl) (Nat.le_succ _)
      rintro rfl
      by_cases hJ : J.Clear
      · rcases hw.tail.clear hJ (fun h => hbrace (Option.some.inj h)) with hend | hsemi
        · exact .inr (.inr (by rw [hend]))
        · exact .inr (.inr (by rw [hsemi, hsemicolon]))
      · exact .inl (hclear hJ)
  ends _ _ _ hs hws _ := absurd hws (not_prefix_end hne hs)

end kind

/-- Alone and amid others a token stands where it stands. -/
theorem position {k : Position → Parser α} {k' : Position → Parser β}
    (hk : ∀ position, J.Agree loose needs ws f (k position) (k' position)) :
    J.Agree loose needs ws f (Parser.position >>= k) (Parser.position >>= k') where
  runs p q a w v s hw hws h := by
    cases w with
    | nil => exact (hk J.next.position).runs p q a [] v s hw hws h
    | cons t w => exact (hk t.position).runs p q a (t :: w) v s hw hws h
  ends s v s' hs hws h := (hk s.cursor.position).ends s v s' hs hws h

/-- Whether the file ends. If that is found to be so at the end of the words, what comes of it must not matter. -/
theorem if_atEnd {x' : Parser α} {y' : Parser β} (hx : J.Agree True needs [.endOfFile] f x y)
    (hx' : J.Agree loose needs [] f x' y') (hend : loose ∨ ∀ s r, x s ≠ .ok r) :
    J.Agree loose needs [] f (cursor >>= fun c => if c.atEnd then x else x')
      (cursor >>= fun c => if c.atEnd then y else y') where
  runs p q a w v s hw _ h := by
    cases w with
    | nil =>
      have hrun : x (J.alone p a []) = .ok (v, s) := h
      rcases hend with hloose | hfails
      · exact .beyond hloose (hx.ends _ v s rfl ⟨_, rfl⟩ hrun).2
      · exact absurd hrun (hfails _ _)
    | cons t w =>
      have hat : decide (t.kind = .endOfFile) = false := decide_eq_false (hw.inside t List.mem_cons_self)
      have halone : (cursor >>= fun c => if c.atEnd then x else x') (J.alone p a (t :: w)) =
        (if decide (t.kind = .endOfFile) then x else x') (J.alone p a (t :: w)) := rfl
      have hamid : (cursor >>= fun c => if c.atEnd then y else y') (J.amid q a (t :: w)) =
        (if decide (t.kind = .endOfFile) then y else y') (J.amid q a (t :: w)) := rfl
      rw [hat] at halone hamid
      rw [halone] at h
      rw [hamid]
      exact hx'.runs p q a (t :: w) v s hw List.nil_prefix h
  ends s v s' hs _ h := by
    have hat : s.cursor.atEnd = true := decide_eq_true hs
    have hs' : (cursor >>= fun c => if c.atEnd then x else x') s = (if s.cursor.atEnd then x else x') s := rfl
    rw [hat] at hs'
    rw [hs'] at h
    exact hx.ends s v s' hs ⟨_, congrArg (· :: _) hs.symm⟩ h

/-- What may be assigned to may be so amid others. -/
theorem if_assignable {target : NodeId} {cause : ParseError.Cause} (hx : J.Agree loose needs ws f x y) :
    J.Agree loose needs ws f
      (get >>= fun s : ParseState =>
        if (s.arena.kind? target).any Grammar.isAssignable then x else Parser.fail cause)
      (get >>= fun s : ParseState =>
        if (s.arena.kind? (J.move target)).any Grammar.isAssignable then y else Parser.fail cause) where
  runs p q a w v s hw hws h := by
    have hsame (kind : NodeKind) : Grammar.isAssignable (kind.moved J.base.size) = Grammar.isAssignable kind := by
      cases kind <;> rfl
    replace h : (if (a.kind? target).any Grammar.isAssignable then x else Parser.fail cause) (J.alone p a w) =
      .ok (v, s) := h
    show J.Outcome loose _ _ f v s ((if ((J.base.append a).kind? (J.move target)).any Grammar.isAssignable then y
      else Parser.fail cause) (J.amid q a w))
    rw [move, Arena.kind?_append, Option.any_map]
    simp only [hsame]
    split at h
    · rename_i hyes
      rw [if_pos hyes]
      exact hx.runs p q a w v s hw hws h
    · cases h
  ends s v s' hs hws h := by
    replace h : (if (s.arena.kind? target).any Grammar.isAssignable then x else Parser.fail cause) s = .ok (v, s') := h
    split at h
    · exact hx.ends s v s' hs hws h
    · cases h

/-! ## Single tokens -/

section tokens

variable {expected : TokenKind}

/-- Whether the current token is a given one. -/
theorem check {k : Bool → Parser α} {k' : Bool → Parser β} (he : expected ≠ .endOfFile)
    (hyes : J.Agree loose needs [expected] f (k true) (k' true)) (hno : J.Agree loose needs [] f (k false) (k' false))
    (hend : loose ∨ needs ∨ J.next.kind ≠ expected) :
    J.Agree loose needs [] f (Parser.check expected >>= k) (Parser.check expected >>= k') := by
  show J.Agree loose needs [] f (Parser.kind >>= fun word => k (decide (word = expected)))
    (Parser.kind >>= fun word => k' (decide (word = expected)))
  refine kind (fun word => ?_) (hend.imp_right (Or.imp_right fun hne => ?_))
  · by_cases hword : word = expected
    · subst hword
      rw [decide_eq_true rfl]
      exact hyes
    · rw [decide_eq_false hword]
      exact hno.anywhere
  · rw [decide_eq_false hne, decide_eq_false he.symm]

theorem if_check {x' : Parser α} {y' : Parser β} (he : expected ≠ .endOfFile)
    (hyes : J.Agree loose needs [expected] f x y) (hno : J.Agree loose needs [] f x' y')
    (hend : loose ∨ needs ∨ J.next.kind ≠ expected) :
    J.Agree loose needs [] f (Parser.check expected >>= fun found => if found then x else x')
      (Parser.check expected >>= fun found => if found then y else y') := by
  refine check he ?_ ?_ hend
  · exact hyes
  · exact hno

/-- A token that is passed if it is there. -/
theorem eat {k : Bool → Parser α} {k' : Bool → Parser β} (he : expected ≠ .endOfFile)
    (hyes : J.Agree loose False [] f (k true) (k' true)) (hno : J.Agree loose needs [] f (k false) (k' false))
    (hend : loose ∨ needs ∨ J.next.kind ≠ expected) :
    J.Agree loose needs [] f (Parser.eat expected >>= k) (Parser.eat expected >>= k') := by
  simp only [eat_bind]
  exact if_check he (pass he fun _ => hyes) hno hend

theorem if_eat {x' : Parser α} {y' : Parser β} (he : expected ≠ .endOfFile)
    (hyes : J.Agree loose False [] f x y) (hno : J.Agree loose needs [] f x' y')
    (hend : loose ∨ needs ∨ J.next.kind ≠ expected) :
    J.Agree loose needs [] f (Parser.eat expected >>= fun found => if found then x else x')
      (Parser.eat expected >>= fun found => if found then y else y') := by
  refine eat he ?_ ?_ hend
  · exact hyes
  · exact hno

/-- A token that is known to be there or not. -/
theorem eat_known {k : Bool → Parser α} {k' : Bool → Parser β} (hne : word ≠ .endOfFile)
    (hyes : word = expected → J.Agree loose False ws f (k true) (k' true))
    (hno : word ≠ expected → J.Agree loose needs (word :: ws) f (k false) (k' false)) :
    J.Agree loose needs (word :: ws) f (Parser.eat expected >>= k) (Parser.eat expected >>= k') := by
  simp only [eat_bind]
  show J.Agree loose needs (word :: ws) f
    (Parser.kind >>= fun word => if decide (word = expected) then advance >>= fun _ => k true else k false)
    (Parser.kind >>= fun word => if decide (word = expected) then advance >>= fun _ => k' true else k' false)
  refine kind_known hne ?_
  by_cases hword : word = expected
  · rw [decide_eq_true hword, if_pos rfl, if_pos rfl]
    exact pass hne fun _ => hyes hword
  · rw [decide_eq_false hword, if_neg Bool.false_ne_true, if_neg Bool.false_ne_true]
    exact hno hword

theorem expect {k : Lexeme → Parser α} {k' : Lexeme → Parser β} (he : expected ≠ .endOfFile)
    (hk : ∀ t, J.Agree loose False [] f (k t) (k' t)) :
    J.Agree loose needs [] f (Parser.expect expected >>= k) (Parser.expect expected >>= k') := by
  unfold Parser.expect
  simp only [bind_assoc, ite_bind, Parser.failExpecting, fail_bind]
  refine (if_check he (pass he hk) ?_ (.inr (.inl trivial))).weaken id fun _ => trivial
  exact kind (fun _ => fail) (.inr (.inl trivial))

theorem expect_known {k : Lexeme → Parser α} {k' : Lexeme → Parser β} (he : expected ≠ .endOfFile)
    (hk : ∀ t, J.Agree loose False ws f (k t) (k' t)) :
    J.Agree loose needs (expected :: ws) f (Parser.expect expected >>= k) (Parser.expect expected >>= k') := by
  unfold Parser.expect
  simp only [bind_assoc, ite_bind]
  show J.Agree loose needs (expected :: ws) f
    (Parser.kind >>= fun word =>
      if decide (word = expected) then advance >>= k else Parser.failExpecting expected >>= k)
    (Parser.kind >>= fun word =>
      if decide (word = expected) then advance >>= k' else Parser.failExpecting expected >>= k')
  refine kind_known he ?_
  rw [decide_eq_true rfl]
  exact pass he hk

theorem expectSymbol {symbol : Symbol} {k : Position → Parser α} {k' : Position → Parser β}
    (hk : ∀ position, J.Agree loose False [] f (k position) (k' position)) :
    J.Agree loose needs [] f (Parser.expectSymbol symbol >>= k) (Parser.expectSymbol symbol >>= k') := by
  unfold Parser.expectSymbol
  simp only [bind_assoc, pure_bind]
  exact expect (by simp) fun t => hk t.position

theorem expectKeyword {keyword : Keyword} {k : Position → Parser α} {k' : Position → Parser β}
    (hk : ∀ position, J.Agree loose False [] f (k position) (k' position)) :
    J.Agree loose needs [] f (Parser.expectKeyword keyword >>= k) (Parser.expectKeyword keyword >>= k') := by
  unfold Parser.expectKeyword
  simp only [bind_assoc, pure_bind]
  exact expect (by simp) fun t => hk t.position

theorem expectKeyword_known {keyword : Keyword} {k : Position → Parser α} {k' : Position → Parser β}
    (hk : ∀ position, J.Agree loose False ws f (k position) (k' position)) :
    J.Agree loose needs (.keyword keyword :: ws) f (Parser.expectKeyword keyword >>= k)
      (Parser.expectKeyword keyword >>= k') := by
  unfold Parser.expectKeyword
  simp only [bind_assoc, pure_bind]
  exact expect_known (by simp) fun t => hk t.position

theorem expectLabel {k : Label → Parser α} {k' : Label → Parser β}
    (hk : ∀ label, J.Agree loose False [] f (k label) (k' label)) :
    J.Agree loose needs [] f (Parser.expectLabel >>= k) (Parser.expectLabel >>= k') := by
  unfold Parser.expectLabel
  simp only [bind_assoc]
  refine (kind (fun word => ?_) (.inr (.inl trivial))).weaken id fun _ => trivial
  cases word with
  | identifier name =>
    simp only [TokenKind.identifier?, bind_assoc, pure_bind]
    exact pass (by simp) fun t => hk _
  | _ =>
    simp only [TokenKind.identifier?, bind_assoc, fail_bind]
    exact (kind (fun _ => fail) (.inr (.inl trivial))).anywhere

theorem expectLabel_known {name : String} {k : Label → Parser α} {k' : Label → Parser β}
    (hk : ∀ label, J.Agree loose False ws f (k label) (k' label)) :
    J.Agree loose needs (.identifier name :: ws) f (Parser.expectLabel >>= k) (Parser.expectLabel >>= k') := by
  unfold Parser.expectLabel
  simp only [bind_assoc]
  refine kind_known (by simp) ?_
  simp only [TokenKind.identifier?, bind_assoc, pure_bind]
  exact pass (by simp) fun t => hk _

/-- The token after a keyword. -/
theorem expectKeyword_kind {keyword : Keyword} {k : Position → TokenKind → Parser α}
    {k' : Position → TokenKind → Parser β}
    (hk : ∀ position word, J.Agree loose False [word] f (k position word) (k' position word))
    (hclear : ¬ J.Clear → loose) (hsemicolon : ∀ position, k' position (.symbol .semicolon) = k' position .endOfFile) :
    J.Agree loose needs [] f (Parser.expectKeyword keyword >>= fun position => Parser.kind >>= k position)
      (Parser.expectKeyword keyword >>= fun position => Parser.kind >>= k' position) := by
  have hne : TokenKind.keyword keyword ≠ .endOfFile := by simp
  have hpass : J.Agree loose True [.keyword keyword] f (advance >>= fun t => Parser.kind >>= k t.position)
      (advance >>= fun t => Parser.kind >>= k' t.position) :=
    pass_kind hne (by simp) (fun t => hk t.position) hclear fun t => hsemicolon t.position
  unfold Parser.expectKeyword Parser.expect
  simp only [bind_assoc, ite_bind, pure_bind, Parser.failExpecting, fail_bind]
  refine (if_check hne hpass ?_ (.inr (.inl trivial))).weaken id fun _ => trivial
  exact kind (fun _ => fail) (.inr (.inl trivial))

/-- The token after a label. -/
theorem expectLabel_kind {k : Label → TokenKind → Parser α} {k' : Label → TokenKind → Parser β}
    (hk : ∀ label word, J.Agree loose False [word] f (k label word) (k' label word))
    (hclear : ¬ J.Clear → loose) (hsemicolon : ∀ label, k' label (.symbol .semicolon) = k' label .endOfFile) :
    J.Agree loose needs [] f (Parser.expectLabel >>= fun label => Parser.kind >>= k label)
      (Parser.expectLabel >>= fun label => Parser.kind >>= k' label) := by
  unfold Parser.expectLabel
  simp only [bind_assoc]
  refine (kind (fun word => ?_) (.inr (.inl trivial))).weaken id fun _ => trivial
  cases word with
  | identifier name =>
    simp only [TokenKind.identifier?, bind_assoc, pure_bind]
    exact pass_kind (by simp) (by simp) (fun t => hk _) hclear fun t => hsemicolon _
  | _ =>
    simp only [TokenKind.identifier?, bind_assoc, fail_bind]
    exact (kind (fun _ => fail) (.inr (.inl trivial))).anywhere

end tokens

/-! ## Nodes and repetitions -/

/-- A node that is made alone is made amid others, under another number. -/
theorem alloc {kind : NodeKind} {position : Option Position} {k : NodeId → Parser α} {k' : NodeId → Parser β}
    (hk : ∀ id, J.Agree loose needs ws f (k id) (k' (J.move id))) :
    J.Agree loose needs ws f (Parser.alloc kind position >>= k)
      (Parser.alloc (kind.moved J.base.size) position >>= k') where
  runs p q a w v s hw hws h := by
    have hrun := (hk (a.alloc ⟨kind, position⟩).1).runs p q (a.alloc ⟨kind, position⟩).2 w v s hw hws h
    have hamid : (Parser.alloc (kind.moved J.base.size) position >>= k') (J.amid q a w) =
        k' ((J.base.append a).alloc ⟨kind.moved J.base.size, position⟩).1
          (.before q ((J.base.append a).alloc ⟨kind.moved J.base.size, position⟩).2 (w ++ J.next :: J.rest)) := rfl
    rw [hamid, Arena.alloc_append]
    exact hrun
  ends s v s' hs hws h :=
    (hk (s.arena.alloc ⟨kind, position⟩).1).ends { s with arena := (s.arena.alloc ⟨kind, position⟩).2 } v s' hs hws h

/-- A node is made last. -/
theorem alloc_last {kind : NodeKind} {position : Option Position} :
    J.Agree loose False ws J.move (Parser.alloc kind position) (Parser.alloc (kind.moved J.base.size) position) := by
  rw [← bind_pure (Parser.alloc kind position), ← bind_pure (Parser.alloc (kind.moved J.base.size) position)]
  exact alloc fun id => pure rfl

/-- A repetition does the same if a round does, whatever does so comes after it. -/
theorem rounds {round : γ → Parser (Progress γ α)} {round' : γ' → Parser (Progress γ' β)} {u : γ → γ'} {m m' : Nat}
    (h : ∀ (next : γ → Parser α) (next' : γ' → Parser β), (∀ v, J.Agree loose needs [] f (next v) (next' (u v))) → ∀ v,
      J.Agree loose needs [] f
        (round v >>= fun | .more v => next v | .done z => Pure.pure z)
        (round' (u v) >>= fun | .more v => next' v | .done z => Pure.pure z)) (hm : m ≤ m') (v : γ) :
    J.Agree loose needs [] f (Grammar.rounds round m v) (Grammar.rounds round' m' (u v)) := by
  induction m generalizing m' v with
  | zero => exact fail
  | succ m ih =>
    obtain ⟨m', rfl⟩ : ∃ l, m' = l + 1 := ⟨m' - 1, by omega⟩
    have hround := h (Grammar.rounds round m) (Grammar.rounds round' m') (fun v => ih (by omega) v) v
    rw [Grammar.rounds, Grammar.rounds]
    convert hround using 3 <;> rename_i r <;> cases r <;> rfl

end Agree

end Junction

end DynScript
