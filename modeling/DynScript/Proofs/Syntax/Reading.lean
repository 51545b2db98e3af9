import DynScript.Grammar.Program
import DynScript.Proofs.Grammar.Layout
import DynScript.Proofs.Syntax.Trees

/-!
# Reading given tokens

`Parser.Turns` follows a parser through tokens that are known: after these it has turned into another parser, with a
result of which something is known, whatever comes next, as long as that does not go on with what has been read.
`Parser.Reads` is the case in which the parser is done. What is known of a result is known in all later arenas, too,
because nodes stay.
-/

namespace DynScript

/-- The nodes of an arena are in another one as well. -/
def Arena.Keeps (a b : Arena) : Prop := ∀ id kind, a.kind? id = some kind → b.kind? id = some kind

namespace Arena.Keeps

variable {a b c : Arena}

theorem refl (a : Arena) : a.Keeps a := fun _ _ h => h

theorem trans (h : a.Keeps b) (k : b.Keeps c) : a.Keeps c := fun id kind hk => k id kind (h id kind hk)

theorem alloc (a : Arena) (node : Node) : a.Keeps (a.alloc node).2 := fun _ _ h => kind?_alloc_of_some h

end Arena.Keeps

namespace Cursor

variable {c : Cursor}

/-- The kinds of the tokens that are left, the current one first. -/
def ahead (c : Cursor) : List TokenKind := c.kind :: c.upcoming.map Lexeme.kind

/-- Passing a token that is not the last one leaves those after it. -/
theorem ahead_advance {word next : TokenKind} {rest : List TokenKind} (h : c.ahead = word :: next :: rest)
    (hw : word ≠ .endOfFile) : c.advance.ahead = next :: rest := by
  obtain ⟨previous, current, upcoming⟩ := c
  obtain ⟨hcurrent, hupcoming⟩ := List.cons.inj h
  have hgo : Cursor.atEnd ⟨previous, current, upcoming⟩ = false := decide_eq_false (hcurrent ▸ hw)
  cases upcoming with
  | nil => cases hupcoming
  | cons lexeme more =>
    rw [advance, hgo]
    exact hupcoming

end Cursor

/-- The kinds of the tokens that are left. -/
def ParseState.ahead (s : ParseState) : List TokenKind := s.cursor.ahead

/-- The token after some words, when a token that meets a condition comes after all of them. -/
def Heads (stop : TokenKind → Prop) : List TokenKind → TokenKind → Prop
  | [], word => stop word
  | first :: _, word => word = first

/-- Words begin with a token that meets a condition. -/
def Starts (p : TokenKind → Prop) (words : List TokenKind) : Prop := ∃ first rest, words = first :: rest ∧ p first

namespace Starts

variable {p q : TokenKind → Prop} {words more : List TokenKind}

theorem cons {word : TokenKind} (h : p word) : Starts p (word :: words) := ⟨word, words, rfl, h⟩

theorem imp (h : Starts p words) (hpq : ∀ word, p word → q word) : Starts q words := by
  obtain ⟨first, rest, rfl, hfirst⟩ := h
  exact cons (hpq first hfirst)

theorem append (h : Starts p words) (more : List TokenKind) : Starts p (words ++ more) := by
  obtain ⟨first, rest, rfl, hfirst⟩ := h
  exact cons hfirst

theorem heads {stop : TokenKind → Prop} {word : TokenKind} (h : Starts p words) (hw : Heads stop words word) :
    p word := by
  obtain ⟨first, rest, rfl, hfirst⟩ := h
  obtain rfl : word = first := hw
  exact hfirst

theorem ne_nil (h : Starts p words) : words ≠ [] := by
  obtain ⟨first, rest, rfl, -⟩ := h
  exact List.cons_ne_nil first rest

theorem length_pos (h : Starts p words) : 0 < words.length := List.length_pos_of_ne_nil h.ne_nil

end Starts

namespace Parser

variable {α β γ : Type}

/-- Over some words, followed by a token that meets a condition, a parser turns into another one. -/
def Turns (a : Arena) (x : Parser β) (words : List TokenKind) (stop : TokenKind → Prop) (y : α → Parser β)
    (post : Arena → α → Prop) : Prop :=
  ∀ s next rest, a.Keeps s.arena → s.ahead = words ++ next :: rest → stop next →
    ∃ v t, x s = y v t ∧ t.ahead = next :: rest ∧ s.arena.Keeps t.arena ∧ ∀ b, t.arena.Keeps b → post b v

/-- A parser reads some words when a token that meets a condition comes after them. -/
abbrev Reads (a : Arena) (x : Parser α) (words : List TokenKind) (stop : TokenKind → Prop)
    (post : Arena → α → Prop) : Prop :=
  Turns a x words stop pure post

variable {a : Arena} {words more : List TokenKind} {stop stop' : TokenKind → Prop} {post : Arena → α → Prop}
  {x : Parser β} {y : α → Parser β}

namespace Turns

/-- Nothing is left to do. -/
theorem refl {v : α} (h : ∀ b, a.Keeps b → post b v) : Turns a (y v) [] stop y post := by
  intro s next rest ha hs _
  exact ⟨v, s, rfl, hs, .refl _, fun b hb => h b (ha.trans hb)⟩

theorem weaken {post' : Arena → α → Prop} (h : Turns a x words stop y post) (hstop : ∀ word, stop' word → stop word)
    (hpost : ∀ b v, a.Keeps b → post b v → post' b v) : Turns a x words stop' y post' := by
  intro s next rest ha hs hnext
  obtain ⟨v, t, hrun, hahead, hkeeps, hv⟩ := h s next rest ha hs (hstop next hnext)
  exact ⟨v, t, hrun, hahead, hkeeps, fun b hb => hpost b v (ha.trans (hkeeps.trans hb)) (hv b hb)⟩

/-- A parser turns into one that turns into another one. -/
theorem trans {z : γ → Parser β} {post' : Arena → γ → Prop} (h : Turns a x words stop' y post)
    (hnext : ∀ word, Heads stop more word → stop' word)
    (hy : ∀ v b, a.Keeps b → (∀ c, b.Keeps c → post c v) → Turns b (y v) more stop z post') :
    Turns a x (words ++ more) stop z post' := by
  intro s next rest ha hs hstop
  obtain ⟨first, tail, htail, hfirst⟩ : ∃ first tail, more ++ next :: rest = first :: tail ∧ stop' first := by
    cases more with
    | nil => exact ⟨next, rest, rfl, hnext next hstop⟩
    | cons first more => exact ⟨first, more ++ next :: rest, rfl, hnext first rfl⟩
  rw [List.append_assoc, htail] at hs
  obtain ⟨v, t, hrun, hahead, hkeeps, hv⟩ := h s first tail ha hs hfirst
  obtain ⟨w, u, hrun', hahead', hkeeps', hw⟩ :=
    hy v t.arena (ha.trans hkeeps) hv t next rest (.refl _) (hahead.trans htail.symm) hstop
  exact ⟨w, u, hrun.trans hrun', hahead', hkeeps.trans hkeeps', hw⟩

end Turns

variable {p : Parser γ} {k : γ → Parser β}

/-- A parser that reads its words, before another one. -/
theorem Reads.andThen {post' : Arena → γ → Prop} (h : Reads a p words stop' post')
    (hnext : ∀ word, Heads stop more word → stop' word)
    (hk : ∀ v b, a.Keeps b → (∀ c, b.Keeps c → post' c v) → Turns b (k v) more stop y post) :
    Turns a (p >>= k) (words ++ more) stop y post := by
  refine Turns.trans (y := k) ?_ hnext hk
  intro s next rest ha hs hstop
  obtain ⟨v, t, hrun, hahead, hkeeps, hv⟩ := h s next rest ha hs hstop
  refine ⟨v, t, ?_, hahead, hkeeps, hv⟩
  show (p s >>= fun r => k r.1 r.2) = k v t
  rw [hrun]
  rfl

/-! ## Single tokens -/

section tokens

variable {word expected : TokenKind}

theorem Turns.advance {k : Lexeme → Parser β} (hw : word ≠ .endOfFile)
    (h : ∀ lexeme, Turns a (k lexeme) words stop y post) : Turns a (advance >>= k) (word :: words) stop y post := by
  intro s next rest ha hs hstop
  have hahead : s.cursor.advance.ahead = words ++ next :: rest := by
    cases words with
    | nil => exact Cursor.ahead_advance hs hw
    | cons first more => exact Cursor.ahead_advance hs hw
  exact h s.cursor.current { s with cursor := s.cursor.advance } next rest ha hahead hstop

/-- The kind of the current token is looked at. -/
theorem Turns.kind {k : TokenKind → Parser β}
    (h : ∀ word, Heads stop words word →
      Turns a (k word) words (fun next => stop next ∧ Heads stop words word) y post) :
    Turns a (kind >>= k) words stop y post := by
  intro s next rest ha hs hstop
  have hhead : Heads stop words s.cursor.kind := by
    cases words with
    | nil =>
      obtain ⟨hnext, -⟩ := List.cons.inj hs
      exact hnext ▸ hstop
    | cons first more => exact (List.cons.inj hs).1
  exact h s.cursor.kind hhead s next rest ha hs ⟨hstop, hhead⟩

theorem Turns.kind_cons {k : TokenKind → Parser β} (h : Turns a (k word) (word :: words) stop y post) :
    Turns a (Parser.kind >>= k) (word :: words) stop y post :=
  .kind fun _ hword => hword ▸ h.weaken (fun _ hnext => hnext.1) fun _ _ _ hv => hv

theorem Turns.position {k : Position → Parser β} (h : ∀ position, Turns a (k position) words stop y post) :
    Turns a (position >>= k) words stop y post :=
  fun s next rest ha hs hstop => h s.cursor.position s next rest ha hs hstop

theorem Turns.check_yes {k : Bool → Parser β} (heq : ∀ word, Heads stop words word → word = expected)
    (h : Turns a (k true) words stop y post) : Turns a (check expected >>= k) words stop y post := by
  intro s next rest ha hs hstop
  have hkind : s.cursor.kind = expected := by
    refine heq _ ?_
    cases words with
    | nil =>
      obtain ⟨hnext, -⟩ := List.cons.inj hs
      exact hnext ▸ hstop
    | cons first more => exact (List.cons.inj hs).1
  have hcheck : (check expected >>= k) s = k true s := by
    show k (decide (s.cursor.kind = expected)) s = _
    rw [hkind, decide_eq_true rfl]
  rw [hcheck]
  exact h s next rest ha hs hstop

theorem Turns.check_no {k : Bool → Parser β} (hne : ∀ word, Heads stop words word → word ≠ expected)
    (h : Turns a (k false) words stop y post) : Turns a (check expected >>= k) words stop y post := by
  intro s next rest ha hs hstop
  have hkind : s.cursor.kind ≠ expected := by
    refine hne _ ?_
    cases words with
    | nil =>
      obtain ⟨hnext, -⟩ := List.cons.inj hs
      exact hnext ▸ hstop
    | cons first more => exact (List.cons.inj hs).1
  have hcheck : (check expected >>= k) s = k false s := by
    show k (decide (s.cursor.kind = expected)) s = _
    rw [decide_eq_false hkind]
  rw [hcheck]
  exact h s next rest ha hs hstop

theorem eat_bind (expected : TokenKind) (k : Bool → Parser β) : (eat expected >>= k) =
    (check expected >>= fun b => if b then Parser.advance >>= fun _ => k true else k false) := by
  unfold eat
  rw [bind_assoc]
  congr
  funext b
  cases b with
  | false => exact pure_bind false k
  | true => exact (bind_assoc ..).trans (congrArg _ (funext fun _ => pure_bind true k))

theorem Turns.eat_yes {k : Bool → Parser β} (hw : expected ≠ .endOfFile) (h : Turns a (k true) words stop y post) :
    Turns a (eat expected >>= k) (expected :: words) stop y post := by
  rw [eat_bind]
  exact check_yes (fun _ hword => hword) (advance hw fun _ => h)

theorem Turns.eat_no {k : Bool → Parser β} (hne : ∀ word, Heads stop words word → word ≠ expected)
    (h : Turns a (k false) words stop y post) : Turns a (eat expected >>= k) words stop y post := by
  rw [eat_bind]
  exact check_no hne h

/-! Most decisions are made at once. -/

theorem Turns.if_check_yes {x' : Parser β} (heq : ∀ word, Heads stop words word → word = expected)
    (h : Turns a x words stop y post) : Turns a (check expected >>= fun b => if b then x else x') words stop y post :=
  check_yes (k := fun b => if b then x else x') heq h

theorem Turns.if_check_no {x' : Parser β} (hne : ∀ word, Heads stop words word → word ≠ expected)
    (h : Turns a x words stop y post) : Turns a (check expected >>= fun b => if b then x' else x) words stop y post :=
  check_no (k := fun b => if b then x' else x) hne h

theorem Turns.if_eat_yes {x' : Parser β} (hw : expected ≠ .endOfFile) (h : Turns a x words stop y post) :
    Turns a (eat expected >>= fun b => if b then x else x') (expected :: words) stop y post :=
  eat_yes (k := fun b => if b then x else x') hw h

theorem Turns.if_eat_no {x' : Parser β} (hne : ∀ word, Heads stop words word → word ≠ expected)
    (h : Turns a x words stop y post) : Turns a (eat expected >>= fun b => if b then x' else x) words stop y post :=
  eat_no (k := fun b => if b then x' else x) hne h

theorem Turns.if_atEnd_no {x' : Parser β} (hne : ∀ word, Heads stop words word → word ≠ .endOfFile)
    (h : Turns a x words stop y post) :
    Turns a (cursor >>= fun c => if c.atEnd then x' else x) words stop y post := by
  have hcheck : Turns a (check .endOfFile >>= fun b => if b then x' else x) words stop y post := if_check_no hne h
  exact hcheck

theorem Turns.if_atEnd_yes {x' : Parser β} (heq : ∀ word, Heads stop words word → word = .endOfFile)
    (h : Turns a x words stop y post) :
    Turns a (cursor >>= fun c => if c.atEnd then x else x') words stop y post := by
  have hcheck : Turns a (check .endOfFile >>= fun b => if b then x else x') words stop y post := if_check_yes heq h
  exact hcheck

theorem Turns.expect {k : Lexeme → Parser β} (hw : expected ≠ .endOfFile)
    (h : ∀ lexeme, Turns a (k lexeme) words stop y post) :
    Turns a (expect expected >>= k) (expected :: words) stop y post := by
  unfold Parser.expect
  rw [bind_assoc]
  exact check_yes (fun _ hword => hword) (advance hw h)

theorem Turns.expectSymbol {symbol : Symbol} {k : Position → Parser β}
    (h : ∀ position, Turns a (k position) words stop y post) :
    Turns a (expectSymbol symbol >>= k) (.symbol symbol :: words) stop y post := by
  unfold Parser.expectSymbol
  rw [bind_assoc]
  refine expect nofun fun lexeme => ?_
  rw [pure_bind]
  exact h lexeme.position

theorem Turns.expectKeyword {keyword : Keyword} {k : Position → Parser β}
    (h : ∀ position, Turns a (k position) words stop y post) :
    Turns a (expectKeyword keyword >>= k) (.keyword keyword :: words) stop y post := by
  unfold Parser.expectKeyword
  rw [bind_assoc]
  refine expect nofun fun lexeme => ?_
  rw [pure_bind]
  exact h lexeme.position

theorem Turns.expectLabel {name : String} {k : Label → Parser β}
    (h : ∀ label, label.name = name → Turns a (k label) words stop y post) :
    Turns a (expectLabel >>= k) (.identifier name :: words) stop y post := by
  unfold Parser.expectLabel
  rw [bind_assoc]
  refine kind_cons ?_
  show Turns a ((Parser.advance >>= fun lexeme => pure ⟨name, some lexeme.position⟩) >>= k) _ stop y post
  rw [bind_assoc]
  refine advance nofun fun lexeme => ?_
  rw [pure_bind]
  exact h _ rfl

end tokens

/-- The current token and the one after it are looked at. -/
theorem Turns.cursor {word : TokenKind} {k : Cursor → Parser β}
    (h : ∀ c : Cursor, c.kind = word → Heads stop words c.peek → Turns a (k c) (word :: words) stop y post) :
    Turns a (cursor >>= k) (word :: words) stop y post := by
  intro s next rest ha hs hstop
  obtain ⟨hkind, hupcoming⟩ := List.cons.inj hs
  refine h s.cursor hkind ?_ s next rest ha hs hstop
  have hpeek : ∀ (first : TokenKind) (tail : List TokenKind), s.cursor.upcoming.map Lexeme.kind = first :: tail →
      s.cursor.peek = first := by
    intro first tail heq
    unfold Cursor.peek
    cases hup : s.cursor.upcoming with
    | nil =>
      rw [hup] at heq
      cases heq
    | cons lexeme more =>
      rw [hup] at heq
      exact (List.cons.inj heq).1
  cases words with
  | nil => exact hpeek _ _ hupcoming ▸ hstop
  | cons first more => exact hpeek _ _ hupcoming

/-- A node is looked up that is there. -/
theorem Turns.if_node {id : NodeId} {kind : NodeKind} {test : NodeKind → Bool} {x' : Parser β}
    (hid : a.kind? id = some kind) (htest : test kind) (h : Turns a x words stop y post) :
    Turns a (get >>= fun s => if (s.arena.kind? id).any test then x else x') words stop y post := by
  intro s next rest ha hs hstop
  have hget : (get >>= fun s : ParseState => if (s.arena.kind? id).any test then x else x') s = x s := by
    show (if (s.arena.kind? id).any test then x else x') s = x s
    rw [ha id kind hid, Option.any_some, if_pos htest]
  rw [hget]
  exact h s next rest ha hs hstop

/-- A node is made. -/
theorem Turns.alloc {kind : NodeKind} {position : Option Position} {k : NodeId → Parser β}
    (h : ∀ id b, a.Keeps b → (∀ c, b.Keeps c → c.kind? id = some kind) → Turns b (k id) words stop y post) :
    Turns a (alloc kind position >>= k) words stop y post := by
  intro s next rest ha hs hstop
  have hkeeps := Arena.Keeps.alloc s.arena ⟨kind, position⟩
  have hnew : (s.arena.alloc ⟨kind, position⟩).2.kind? ⟨s.arena.size⟩ = some kind :=
    Arena.kind?_eq_some.2 ⟨position, by rw [Arena.get?_alloc, if_pos rfl]⟩
  obtain ⟨v, t, hrun, hahead, hkeeps', hv⟩ := h ⟨s.arena.size⟩ _ (ha.trans hkeeps) (fun c hc => hc _ _ hnew)
    { s with arena := (s.arena.alloc ⟨kind, position⟩).2 } next rest (.refl _) hs hstop
  exact ⟨v, t, hrun, hahead, hkeeps.trans hkeeps', hv⟩

/-- A result is given. -/
theorem Reads.pure {v : β} {post : Arena → β → Prop} (h : ∀ b, a.Keeps b → post b v) :
    Reads a (pure v) [] stop post :=
  Turns.refl (y := Pure.pure) h

/-- A node is made last. -/
theorem Reads.alloc {kind : NodeKind} {position : Option Position} {post : Arena → NodeId → Prop}
    (h : ∀ id b, a.Keeps b → b.kind? id = some kind → post b id) :
    Reads a (Parser.alloc kind position) [] stop post := by
  rw [← bind_pure (Parser.alloc kind position)]
  exact Turns.alloc fun id b hb hid => Reads.pure fun c hc => h id c (hb.trans hc) (hid c hc)

end Parser

/-! ## Repetitions -/

namespace Grammar

open DynScript.Parser

variable {α β γ : Type} {a : Arena} {words more : List TokenKind} {stop stop' : TokenKind → Prop}
  {round : γ → Parser (Progress γ β)} {n : Nat} {v : γ}

/-- A round that leads to another one. -/
theorem turns_rounds_more {y : α → Parser β} {post : Arena → α → Prop} {u : TokenKind → Prop} {q : Arena → γ → Prop}
    (h : Reads a (round v) words u fun b r => ∃ w, r = .more w ∧ q b w)
    (hnext : ∀ word, Heads stop more word → u word)
    (hk : ∀ w b, a.Keeps b → (∀ c, b.Keeps c → q c w) → Turns b (rounds round n w) more stop y post) :
    Turns a (rounds round (n + 1) v) (words ++ more) stop y post := by
  refine h.andThen hnext fun r b hb hr => ?_
  obtain ⟨w, rfl, -⟩ := hr b (.refl b)
  refine hk w b hb fun c hc => ?_
  obtain ⟨w', heq, hw'⟩ := hr c hc
  obtain rfl := Progress.more.inj heq
  exact hw'

/-- A round that is the last one. -/
theorem reads_rounds_done {post : Arena → β → Prop}
    (h : Reads a (round v) words stop fun b r => ∃ w, r = .done w ∧ post b w) :
    Reads a (rounds round (n + 1) v) words stop post := by
  rw [← List.append_nil words]
  refine h.andThen (fun word hword => hword) fun r b hb hr => ?_
  obtain ⟨w, rfl, -⟩ := hr b (.refl b)
  show Turns b (pure w) [] stop pure post
  refine .refl fun c hc => ?_
  obtain ⟨w', heq, hw'⟩ := hr c hc
  obtain rfl := Progress.done.inj heq
  exact hw'

/-- A round that keeps an item with those that have been read before, and leads to another one. -/
theorem turns_rounds_item {round : Array γ → Parser (Progress (Array γ) β)} {acc : Array γ} {y : α → Parser β}
    {post : Arena → α → Prop} (stop' : TokenKind → Prop) (known : Arena → γ → Prop)
    (h : Reads a (round acc) words stop' fun b r => ∃ w, r = .more (acc.push w) ∧ known b w)
    (hnext : ∀ word, Heads stop more word → stop' word)
    (hk : ∀ w b, a.Keeps b → (∀ c, b.Keeps c → known c w) → Turns b (rounds round n (acc.push w)) more stop y post) :
    Turns a (rounds round (n + 1) acc) (words ++ more) stop y post := by
  have hround : Reads a (round acc) words stop' fun b r =>
      ∃ items, r = .more items ∧ ∃ w, items = acc.push w ∧ known b w := by
    refine h.weaken (fun _ hw => hw) ?_
    rintro b r - ⟨w, rfl, hw⟩
    exact ⟨_, rfl, w, rfl, hw⟩
  refine turns_rounds_more hround hnext fun items b hb hitems => ?_
  obtain ⟨w, rfl, -⟩ := hitems b (.refl b)
  refine hk w b hb fun c hc => ?_
  obtain ⟨w', heq, hw'⟩ := hitems c hc
  obtain rfl := (Array.push_eq_push.1 heq).1
  exact hw'

/-- Items are read in a round each, before the last round. -/
theorem reads_rounds_items {ι : Type} {round : Array γ → Parser (Progress (Array γ) β)} {piece : ι → List TokenKind}
    {last : List TokenKind} {xs : List ι} (known : Arena → ι → γ → Prop) (ended : Arena → Array γ → β → Prop)
    (hroom : xs.length < n)
    (hround : ∀ x ∈ xs, ∀ b, a.Keeps b → ∀ acc, Reads b (round acc) (piece x) (fun _ => True)
      fun c r => ∃ w, r = .more (acc.push w) ∧ known c x w)
    (hlast : ∀ b, a.Keeps b → ∀ items, Reads b (round items) last stop fun c r => ∃ v, r = .done v ∧ ended c items v)
    (acc : Array γ) :
    Reads a (rounds round n acc) (xs.flatMap piece ++ last) stop
      fun c v => ∃ items ws, items.toList = acc.toList ++ ws ∧ List.Forall₂ (known c) xs ws ∧ ended c items v := by
  induction xs generalizing n acc a with
  | nil =>
    obtain ⟨n, rfl⟩ : ∃ m, n = m + 1 := ⟨n - 1, by omega⟩
    refine (reads_rounds_done (hlast a (.refl a) acc)).weaken (fun _ hw => hw) fun c v _ hv => ?_
    exact ⟨acc, [], by simp, .nil, hv⟩
  | cons x rest ih =>
    rw [List.length_cons] at hroom
    obtain ⟨n, rfl⟩ : ∃ m, n = m + 1 := ⟨n - 1, by omega⟩
    obtain ⟨hx, hrest⟩ := List.forall_mem_cons.1 hround
    rw [List.flatMap_cons, List.append_assoc]
    refine turns_rounds_item _ _ (hx a (.refl a) acc) (fun _ _ => trivial) fun w b hb hw => ?_
    have hmore := ih (a := b) (Nat.lt_of_succ_lt_succ hroom) (fun y hy c hc => hrest y hy c (hb.trans hc))
      (fun c hc => hlast c (hb.trans hc)) (acc.push w)
    refine hmore.weaken (fun _ hw => hw) ?_
    rintro c v hc ⟨items, ws, hitems, hws, hv⟩
    exact ⟨items, w :: ws, by simpa using hitems, .cons (hw c hc) hws, hv⟩

/-! ## Items with commas between them -/

section items

variable {ι α : Type} {item : Parser α} {word : ι → List TokenKind} {known : Arena → ι → α → Prop} {g : Grammar}
  {close : Symbol} {xs : List ι}

theorem commas_cons_cons (w w' : List TokenKind) (rest : List (List TokenKind)) :
    Syntax.commas (w :: w' :: rest) = w ++ .symbol .comma :: Syntax.commas (w' :: rest) := rfl

/-- Every item but the last one has a comma. -/
theorem commas_concat (word : ι → List TokenKind) (xs : List ι) (x : ι) :
    Syntax.commas ((xs ++ [x]).map word) = (xs.flatMap fun y => word y ++ [.symbol .comma]) ++ word x := by
  induction xs with
  | nil => rfl
  | cons y rest ih =>
    obtain ⟨w, more, hmore⟩ : ∃ w more, (rest ++ [x]).map word = w :: more := by cases rest <;> exact ⟨_, _, rfl⟩
    rw [hmore] at ih
    rw [List.cons_append, List.map_cons, hmore, commas_cons_cons, ih, List.flatMap_cons]
    simp

/-- There are fewer items than tokens when every item has one. -/
theorem length_le_flatMap {piece : ι → List TokenKind} (h : ∀ x ∈ xs, piece x ≠ []) :
    xs.length ≤ (xs.flatMap piece).length := by
  induction xs with
  | nil => exact Nat.zero_le _
  | cons x rest ih =>
    obtain ⟨hx, hrest⟩ := List.forall_mem_cons.1 h
    have hpos := List.length_pos_of_ne_nil hx
    have hle := ih hrest
    rw [List.flatMap_cons, List.length_append, List.length_cons]
    omega

/-- Items with commas between them. The last one is followed by a token that is no comma. -/
theorem reads_commaSeparated (hne : xs ≠ []) (hroom : (Syntax.commas (xs.map word)).length < g.limit)
    (hitem : ∀ x ∈ xs, ∀ b, a.Keeps b → Reads b item (word x) stop' fun c v => known c x v)
    (hcomma : stop' (.symbol .comma)) (hstop : ∀ w, stop w → stop' w ∧ w ≠ .symbol .comma) :
    Reads a (g.commaSeparated item) (Syntax.commas (xs.map word)) stop fun c vs => List.Forall₂ (known c) xs vs := by
  obtain rfl | ⟨init, x, rfl⟩ := xs.eq_nil_or_concat'
  · exact absurd rfl hne
  obtain ⟨hinit, hx⟩ := List.forall_mem_append.1 hitem
  rw [commas_concat] at hroom ⊢
  have hfew : init.length ≤ (init.flatMap fun y => word y ++ [.symbol .comma]).length :=
    length_le_flatMap fun y _ => by simp
  rw [List.length_append] at hroom
  refine (reads_rounds_items known (fun c items vs => ∃ v, vs = items.toList ++ [v] ∧ known c x v)
    (by omega) ?_ ?_ #[]).weaken (fun _ hw => hw) ?_
  · intro y hy b hb acc
    refine Reads.andThen (hinit y hy b hb) ?_ fun v c _ hv => ?_
    · rintro w rfl
      exact hcomma
    · exact .if_eat_yes nofun (Reads.pure fun d hd => ⟨v, rfl, hv d hd⟩)
  · intro b hb items
    rw [← List.append_nil (word x)]
    refine Reads.andThen (hx x (List.mem_singleton_self x) b hb) (fun w hw => (hstop w hw).1) fun v c _ hv => ?_
    exact .if_eat_no (fun w hw => (hstop w hw).2) (Reads.pure fun d hd => ⟨_, rfl, v, by simp, hv d hd⟩)
  · rintro c vs - ⟨items, ws, hitems, hws, v, rfl, hv⟩
    obtain rfl : items.toList = ws := hitems
    exact List.rel_append hws (.cons hv .nil)

/-- Items with commas between them, through a closing symbol. -/
theorem reads_closedBy (hroom : (Syntax.commas (xs.map word)).length < g.limit)
    (hitem : ∀ x ∈ xs, ∀ b, a.Keeps b → Reads b item (word x) stop' fun c v => known c x v)
    (hstart : ∀ x ∈ xs, Starts (· ≠ .symbol close) (word x)) (hcomma : stop' (.symbol .comma))
    (hclose : stop' (.symbol close)) (hne : close ≠ .comma) :
    Reads a (g.closedBy close item) (Syntax.commas (xs.map word) ++ [.symbol close]) stop
      fun c vs => List.Forall₂ (known c) xs vs := by
  have hitems : Reads a (g.repeating #[] fun items => do
      if ← Parser.checkSymbol close then return .done items
      let items := items.push (← item)
      if ← Parser.eatSymbol .comma then return .more items else return .done items)
      (Syntax.commas (xs.map word)) (· = .symbol close) fun c items => List.Forall₂ (known c) xs items.toList := by
    obtain rfl | ⟨init, x, rfl⟩ := xs.eq_nil_or_concat'
    · obtain ⟨n, hn⟩ : ∃ n, g.limit = n + 1 := ⟨g.limit - 1, by omega⟩
      rw [repeating, hn]
      exact reads_rounds_done (.if_check_yes (fun w hw => hw) (Reads.pure fun c _ => ⟨_, rfl, .nil⟩))
    obtain ⟨hinit, hx⟩ := List.forall_mem_append.1 hitem
    obtain ⟨hstarts, hstartx⟩ := List.forall_mem_append.1 hstart
    have hstartx := hstartx x (List.mem_singleton_self x)
    rw [commas_concat] at hroom ⊢
    have hfew : init.length ≤ (init.flatMap fun y => word y ++ [.symbol .comma]).length :=
      length_le_flatMap fun y _ => by simp
    rw [List.length_append] at hroom
    refine (reads_rounds_items known (fun c items all => ∃ v, all = items.push v ∧ known c x v)
      (by omega) ?_ ?_ #[]).weaken (fun _ hw => hw) ?_
    · intro y hy b hb acc
      refine .if_check_no (fun w hw => ((hstarts y hy).append _).heads hw) ?_
      refine Reads.andThen (hinit y hy b hb) ?_ fun v c _ hv => ?_
      · rintro w rfl
        exact hcomma
      · exact .if_eat_yes nofun (Reads.pure fun d hd => ⟨v, rfl, hv d hd⟩)
    · intro b hb items
      refine .if_check_no (fun w hw => hstartx.heads hw) ?_
      rw [← List.append_nil (word x)]
      refine Reads.andThen (hx x (List.mem_singleton_self x) b hb) ?_ fun v c _ hv => ?_
      · rintro w rfl
        exact hclose
      · refine .if_eat_no ?_ (Reads.pure fun d hd => ⟨_, rfl, v, rfl, hv d hd⟩)
        rintro w rfl heq
        exact hne (TokenKind.symbol.inj heq)
    · rintro c all - ⟨items, ws, hitems, hws, v, rfl, hv⟩
      obtain rfl : items.toList = ws := hitems
      rw [Array.toList_push]
      exact List.rel_append hws (.cons hv .nil)
  refine Reads.andThen hitems ?_ fun items b _ hknown => ?_
  · rintro w rfl
    rfl
  · exact .expectSymbol fun _ => Reads.pure hknown

end items

end Grammar

end DynScript
