import DynScript.Proofs.Syntax.RoundTrip

/-!
# Prompt parsers

A parser is prompt (`Parser.Prompt`) if what it comes to depends on the tokens up to the one at which it stops, and on
no later ones, and if whatever it has passed by then can be completed, so that it succeeds. Prompt parsers are put
together from prompt parsers. To complete the first one when the second one has not begun takes words on which the
second one succeeds, whatever the first one has given; so a prompt parser comes with such words.

All of this is said for all grammars that reach far enough (`Grammar.Reaches`): the further a parser has come, the
further the grammar has to reach.
-/

namespace DynScript

/-! ## Tokens and states -/

/-- A list of tokens whose last token, and no other one, is an end of file. -/
inductive Terminated : List Lexeme → Prop where
  | last {token : Lexeme} (h : token.kind = .endOfFile) : Terminated [token]
  | cons {token : Lexeme} {rest : List Lexeme} (h : token.kind ≠ .endOfFile) (hrest : Terminated rest) :
    Terminated (token :: rest)

namespace Terminated

variable {tokens passed rest : List Lexeme} {token : Lexeme}

theorem ne_nil (h : Terminated tokens) : tokens ≠ [] := by cases h <;> exact List.cons_ne_nil _ _

/-- A token that is not the last one is no end of file. -/
theorem uncons (h : Terminated (token :: rest)) (hrest : rest ≠ []) : token.kind ≠ .endOfFile ∧ Terminated rest := by
  cases h with
  | last => exact absurd rfl hrest
  | cons hne hrest => exact ⟨hne, hrest⟩

theorem tail (h : Terminated (token :: rest)) (ht : token.kind ≠ .endOfFile) : Terminated rest := by
  cases h with
  | last hlast => exact absurd hlast ht
  | cons _ hrest => exact hrest

theorem split (h : Terminated (passed ++ token :: rest)) :
    (∀ t ∈ passed, t.kind ≠ .endOfFile) ∧ Terminated (token :: rest) := by
  induction passed with
  | nil => exact ⟨nofun, h⟩
  | cons first passed ih =>
    obtain ⟨hfirst, hmore⟩ := h.uncons (List.append_ne_nil_of_right_ne_nil passed (List.cons_ne_nil token rest))
    obtain ⟨hpassed, hrest⟩ := ih hmore
    exact ⟨List.forall_mem_cons.2 ⟨hfirst, hpassed⟩, hrest⟩

theorem append (hne : ∀ t ∈ passed, t.kind ≠ .endOfFile) (h : Terminated tokens) : Terminated (passed ++ tokens) := by
  induction passed with
  | nil => exact h
  | cons first passed ih =>
    obtain ⟨hfirst, hrest⟩ := List.forall_mem_cons.1 hne
    exact .cons hfirst (ih hrest)

end Terminated

/-- The state in which some tokens are left. -/
def ParseState.before (previous : Option TokenKind) (arena : Arena) (tokens : List Lexeme) : ParseState :=
  ⟨{ Cursor.ofList tokens with previous := previous }, arena⟩

/-- The kind of the token passed last, after some more. -/
def lastKind (previous : Option TokenKind) (passed : List Lexeme) : Option TokenKind :=
  passed.foldl (fun _ token => some token.kind) previous

theorem ParseState.ahead_before {p : Option TokenKind} {a : Arena} {tokens : List Lexeme} (h : tokens ≠ []) :
    (before p a tokens).ahead = tokens.map Lexeme.kind := by
  cases tokens with
  | nil => exact absurd rfl h
  | cons => rfl

theorem ParseState.advance_before {p : Option TokenKind} {a : Arena} {token : Lexeme} {tokens : List Lexeme}
    (ht : token.kind ≠ .endOfFile) (h : tokens ≠ []) {β : Type} (k : Lexeme → Parser β) :
    (Parser.advance >>= k) (before p a (token :: tokens)) = k token (before (some token.kind) a tokens) := by
  cases tokens with
  | nil => exact absurd rfl h
  | cons next rest =>
    have hat : (Cursor.mk p token (next :: rest)).atEnd = false := decide_eq_false ht
    show k token ⟨Cursor.advance ⟨p, token, next :: rest⟩, a⟩ = _
    rw [Cursor.advance, hat]
    rfl

theorem Arena.Keeps.empty (a : Arena) : Arena.empty.Keeps a := by
  intro id kind h
  cases h

/-! ## Grammars -/

namespace Grammar

variable {g : Grammar} {m n : Nat}

theorem limit_ofDepth (limit depth : Nat) : (ofDepth limit depth).limit = limit := by cases depth <;> rfl

/-- A grammar goes down some levels at least, and repeats at least as often. -/
def Reaches (g : Grammar) (m : Nat) : Prop :=
  ∃ limit depth, g = ofDepth limit depth ∧ m ≤ depth ∧ depth ≤ limit ∧ 0 < limit

namespace Reaches

theorem mono (h : g.Reaches n) (hm : m ≤ n) : g.Reaches m := by
  obtain ⟨limit, depth, rfl, hn, hdepth, hlimit⟩ := h
  exact ⟨limit, depth, rfl, hm.trans hn, hdepth, hlimit⟩

theorem limit (h : g.Reaches m) : m ≤ g.limit ∧ 0 < g.limit := by
  obtain ⟨limit, depth, rfl, hm, hdepth, hlimit⟩ := h
  rw [limit_ofDepth]
  exact ⟨hm.trans hdepth, hlimit⟩

/-- One level deeper the grammar reaches one level less far. -/
theorem read (h : g.Reaches (m + 1)) :
    ∃ g' : Grammar, g'.Reaches m ∧ ∀ nonterminal, g.read nonterminal = g'.produce nonterminal := by
  obtain ⟨limit, depth, rfl, hm, hdepth, hlimit⟩ := h
  obtain ⟨depth, rfl⟩ : ∃ d, depth = d + 1 := ⟨depth - 1, by omega⟩
  exact ⟨ofDepth limit depth, ⟨limit, depth, rfl, by omega, by omega, hlimit⟩, fun _ => rfl⟩

theorem understands (h : g.Reaches m) : g.Understands m := by
  obtain ⟨limit, depth, rfl, hm, hdepth, -⟩ := h
  have hg := understands_ofDepth hdepth
  exact ⟨fun hlevel hwanted e he => hg.operand hlevel hwanted e (by omega),
    fun condition body otherwise he => hg.conditional condition body otherwise (by omega),
    fun st hst => hg.statement st (by omega)⟩

end Reaches

end Grammar

/-! ## Prompt parsers -/

/-- What a parser comes to. -/
inductive Verdict (α : Type) where
  | ok (v : α) (a : Arena)
  | error (cause : ParseError.Cause)

/-- What a parser comes to at a token. -/
def Verdict.at {α : Type} (r : Verdict α) (previous : Option TokenKind) (token : Lexeme) (rest : List Lexeme) :
    Except ParseError (α × ParseState) :=
  match r with
  | ok v a => .ok (v, .before previous a (token :: rest))
  | error cause => .error ⟨cause, token.position⟩

namespace Parser

variable {α β γ : Type}

/-- From a state in which some tokens come next, a parser passes these and stops at the token after them. -/
structure Stops (b c : Nat) (stop : TokenKind → Prop) (x : Grammar → Parser α) (p : Option TokenKind) (a : Arena)
    (passed : List Lexeme) (token : Lexeme) (r : Verdict α) : Prop where
  /-- If it succeeds it passes enough tokens. -/
  passes : ∀ v a', r = .ok v a' → c ≤ passed.length
  /-- If it fails that is because of the token. -/
  fails : r ≠ .error .limitReached
  /-- No later token matters. -/
  runs : ∀ g : Grammar, g.Reaches (2 * passed.length + b) → ∀ rest,
    x g (.before p a (passed ++ token :: rest)) = r.at (lastKind p passed) token rest
  /-- What it has passed can be completed. -/
  completes : passed ≠ [] → ∃ words m, .endOfFile ∉ words ∧ ∀ g : Grammar, g.Reaches m → ∀ after next rest,
    after.map Lexeme.kind = words ++ next :: rest → stop next →
      ∃ v s, x g (.before p a (passed ++ after)) = .ok (v, s) ∧ s.ahead = next :: rest

/-- A parser reads some words when the grammar reaches far enough. -/
structure Defaults (b c : Nat) (stop : TokenKind → Prop) (words : List TokenKind) (x : Grammar → Parser α) : Prop where
  inside : .endOfFile ∉ words
  enough : c ≤ words.length
  reads : ∀ g : Grammar, g.Reaches (2 * words.length + b + 4) → Reads .empty (x g) words stop fun _ _ => True

/-- A parser stops at a token in every state in which the current token meets a condition, as far as the tokens are not
too many, and some words may be known that it reads. -/
structure Prompt (bound b c : Nat) (first stop : TokenKind → Prop) (words : Option (List TokenKind))
    (x : Grammar → Parser α) : Prop where
  stops : ∀ p a token rest, Terminated (token :: rest) → first token.kind → 2 * (rest.length + 1) + b ≤ bound →
    ∃ passed token' rest' r, token :: rest = passed ++ token' :: rest' ∧ Stops b c stop x p a passed token' r
  default : ∀ w ∈ words, Defaults b c stop w x

/-- A round of a repetition is prompt, whatever prompt parser comes after it if it is not the last one; then it passes a
token at least. Some words are a last round. -/
structure PromptRound (bound b : Nat) (stop : TokenKind → Prop) (words : List TokenKind)
    (round : Grammar → γ → Parser (Progress γ α)) : Prop where
  inside : .endOfFile ∉ words
  last : ∀ v g, Grammar.Reaches g (2 * words.length + b + 4) →
    Reads .empty (round g v) words stop fun _ r => ∃ z, r = .done z ∧ True
  goes_on : ∀ b', b ≤ b' → ∀ next : γ → Grammar → Parser α,
    (∀ b'', b' + 2 ≤ b'' → ∀ v, Prompt bound b'' 0 (fun _ => True) stop (some words) (next v)) →
    ∀ v, Prompt bound b' 0 (fun _ => True) stop none fun g => round g v >>= fun
      | .more v => next v g
      | .done z => pure z

theorem Reads.anywhere {a : Arena} {x : Parser α} {words : List TokenKind} {stop : TokenKind → Prop}
    (h : Reads .empty x words stop fun _ _ => True) : Reads a x words stop fun _ _ => True :=
  fun s next rest _ hs hstop => h s next rest (.empty _) hs hstop

theorem bind_of_ok {x : Parser α} {k : α → Parser β} {s t : ParseState} {v : α} (h : x s = .ok (v, t)) :
    (x >>= k) s = k v t := by
  show (x s >>= fun r => k r.1 r.2) = _
  rw [h]
  rfl

theorem bind_of_error {x : Parser α} {k : α → Parser β} {s : ParseState} {e : ParseError} (h : x s = .error e) :
    (x >>= k) s = .error e := by
  show (x s >>= fun r => k r.1 r.2) = _
  rw [h]
  rfl

/-- What two parsers in a row give, the second one gives after the first. -/
theorem exists_of_bind {x : Parser α} {k : α → Parser β} {s s' : ParseState} {v : β} (h : (x >>= k) s = .ok (v, s')) :
    ∃ u t, x s = .ok (u, t) ∧ k u t = .ok (v, s') := by
  cases hx : x s with
  | ok r => exact ⟨r.1, r.2, rfl, (bind_of_ok hx).symm.trans h⟩
  | error e => cases (bind_of_error hx).symm.trans h

section combinators

variable {bound b c c' : Nat} {first stop u : TokenKind → Prop} {words : Option (List TokenKind)}
  {w : List TokenKind} {x : Grammar → Parser α}

/-- A list that has a token after some others begins with the same token whatever comes then. -/
theorem exists_eq_cons {token token' : Lexeme} {passed rest rest' : List Lexeme}
    (h : token :: rest = passed ++ token' :: rest') (more : List Lexeme) :
    ∃ rest'', passed ++ token' :: more = token :: rest'' := by
  cases passed with
  | nil => exact ⟨more, by rw [(List.cons.inj h).1]; rfl⟩
  | cons first passed => exact ⟨passed ++ token' :: more, by rw [(List.cons.inj h).1]; rfl⟩

theorem ite_bind {p : Prop} [Decidable p] (x y : Parser α) (k : α → Parser β) :
    (if p then x else y) >>= k = if p then x >>= k else y >>= k := by
  split <;> rfl

theorem fail_bind (cause : ParseError.Cause) (k : α → Parser β) : (fail cause : Parser α) >>= k = fail cause := rfl

namespace Prompt

theorem weaken (h : Prompt bound b c first stop words x) {b' : Nat} {first' : TokenKind → Prop}
    (hb : b ≤ b') (hc : c' ≤ c) (hfirst : ∀ word, first' word → first word) (hstop : ∀ word, u word → stop word) :
    Prompt bound b' c' first' u words x where
  stops := by
    intro p a token rest hts htoken hbound
    obtain ⟨passed, token', rest', r, heq, hx⟩ := h.stops p a token rest hts (hfirst _ htoken) (by omega)
    refine ⟨passed, token', rest', r, heq, fun v a' hr => hc.trans (hx.passes v a' hr), hx.fails,
      fun g hg => hx.runs g (hg.mono (by omega)), fun hne => ?_⟩
    obtain ⟨w, m, hw, hrun⟩ := hx.completes hne
    exact ⟨w, m, hw, fun g hg after next rest hafter hnext => hrun g hg after next rest hafter (hstop next hnext)⟩
  default := fun w hw => ⟨(h.default w hw).inside, hc.trans (h.default w hw).enough, fun g hg =>
    ((h.default w hw).reads g (hg.mono (by omega))).weaken hstop fun _ _ _ _ => trivial⟩

/-- What is prompt for all first tokens is so further on for some of them. -/
theorem deeper (h : Prompt bound b c (fun _ => True) stop words x) {b' : Nat} (hb : b ≤ b') :
    Prompt bound b' c first stop words x :=
  h.weaken hb le_rfl (fun _ _ => trivial) fun _ hword => hword

/-- Words that are not asked for. -/
theorem forget (h : Prompt bound b c first stop words x) : Prompt bound b c first stop none x := ⟨h.stops, nofun⟩

/-- Words that are known by other means. -/
theorem withWords (h : Prompt bound b c first stop none x) (hw : Defaults b c stop w x) :
    Prompt bound b c first stop (some w) x :=
  ⟨h.stops, fun _ hw' => Option.some.inj hw' ▸ hw⟩

/-- Parsers that are the same for every grammar that reaches anywhere. -/
theorem congr {y : Grammar → Parser α} (h : Prompt bound b c first stop words y)
    (heq : ∀ g : Grammar, g.Reaches b → x g = y g) : Prompt bound b c first stop words x where
  stops := by
    intro p a token rest hts htoken hbound
    obtain ⟨passed, token', rest', r, hsplit, hx⟩ := h.stops p a token rest hts htoken hbound
    refine ⟨passed, token', rest', r, hsplit, hx.passes, hx.fails, fun g hg more => ?_, fun hne => ?_⟩
    · rw [heq g (hg.mono (by omega))]
      exact hx.runs g hg more
    · obtain ⟨w, m, hw, hrun⟩ := hx.completes hne
      refine ⟨w, max m b, hw, fun g hg => ?_⟩
      rw [heq g (hg.mono (le_max_right ..))]
      exact hrun g (hg.mono (le_max_left ..))
  default := by
    intro w hw
    refine ⟨(h.default w hw).inside, (h.default w hw).enough, fun g hg => ?_⟩
    rw [heq g (hg.mono (by omega))]
    exact (h.default w hw).reads g hg

theorem pure {v : α} : Prompt bound b 0 first stop (some []) fun _ => Pure.pure v where
  stops := fun p a token rest _ _ _ =>
    ⟨[], token, rest, .ok v a, rfl, fun _ _ _ => le_rfl, nofun, fun _ _ _ => rfl, fun hne => absurd rfl hne⟩
  default := by
    rintro w ⟨⟩
    exact ⟨nofun, le_rfl, fun g _ => Reads.pure fun _ _ => trivial⟩

theorem fail {cause : ParseError.Cause} (hcause : cause ≠ .limitReached) :
    Prompt bound b c first stop none fun _ => (Parser.fail cause : Parser α) where
  stops := fun _ _ token rest _ _ _ =>
    ⟨[], token, rest, .error cause, rfl, nofun, fun h => hcause (Verdict.error.inj h), fun _ _ _ => rfl, fun hne => absurd rfl hne⟩
  default := nofun

/-- What a parser does may depend on the state as far as it is known to any parser that begins there. -/
theorem look {y : Option TokenKind → Arena → Lexeme → Grammar → Parser α}
    (heq : ∀ p a token rest g, x g (.before p a (token :: rest)) = y p a token g (.before p a (token :: rest)))
    (h : ∀ p a token, first token.kind → Prompt bound b c (· = token.kind) stop none (y p a token)) :
    Prompt bound b c first stop none x where
  stops := by
    intro p a token rest hts htoken hbound
    obtain ⟨passed, token', rest', r, hsplit, hy⟩ := (h p a token htoken).stops p a token rest hts rfl hbound
    refine ⟨passed, token', rest', r, hsplit, hy.passes, hy.fails, fun g hg more => ?_, fun hne => ?_⟩
    · obtain ⟨rest'', hmore⟩ := exists_eq_cons hsplit more
      rw [hmore, heq, ← hmore]
      exact hy.runs g hg more
    · obtain ⟨w, m, hw, hrun⟩ := hy.completes hne
      refine ⟨w, m, hw, fun g hg after next rest hafter hnext => ?_⟩
      obtain ⟨v, s, hok, hahead⟩ := hrun g hg after next rest hafter hnext
      obtain ⟨more, hmore⟩ : ∃ more, passed ++ after = token :: more := by
        cases passed with
        | nil => exact absurd rfl hne
        | cons first passed => exact ⟨passed ++ after, by rw [(List.cons.inj hsplit).1]; rfl⟩
      exact ⟨v, s, by rw [hmore, heq, ← hmore]; exact hok, hahead⟩
  default := nofun

/-- A parser and another one after it. -/
theorem bind [Nonempty α] {k : α → Grammar → Parser β} {words' : Option (List TokenKind)}
    (hx : Prompt bound b c first u words x)
    (hk : ∀ v, Prompt bound (b + 2 * c) (c' - c) (fun _ => True) stop (some w) (k v))
    (hstop : ∀ word, Heads stop w word → u word)
    (hwords : words' = words.map (· ++ w)) :
    Prompt bound b c' first stop words' fun g => x g >>= fun v => k v g where
  stops := by
    intro p a token rest hts hfirst hbound
    obtain ⟨passed, token₁, rest₁, r, heq, hx'⟩ := hx.stops p a token rest hts hfirst hbound
    -- The second parser has not begun: the words it reads complete what the first one has passed.
    have hfresh (hne : passed ≠ []) : ∃ words m, .endOfFile ∉ words ∧ ∀ g : Grammar, g.Reaches m → ∀ after next rest,
        after.map Lexeme.kind = words ++ next :: rest → stop next →
          ∃ v s, (x g >>= fun v => k v g) (.before p a (passed ++ after)) = .ok (v, s) ∧ s.ahead = next :: rest := by
      obtain ⟨words, m, hwords, hrun⟩ := hx'.completes hne
      refine ⟨words ++ w, max m (2 * w.length + (b + 2 * c) + 4), ?_, fun g hg after next rest hafter hnext => ?_⟩
      · rw [List.mem_append, not_or]
        exact ⟨hwords, ((hk (Classical.arbitrary α)).default w rfl).inside⟩
      · obtain ⟨next', rest', heq', hnext'⟩ : ∃ next' rest', w ++ next :: rest = next' :: rest' ∧ u next' := by
          cases w with
          | nil => exact ⟨next, rest, rfl, hstop next hnext⟩
          | cons word w => exact ⟨word, w ++ next :: rest, rfl, hstop word rfl⟩
        rw [List.append_assoc, heq'] at hafter
        obtain ⟨v, s, hok, hahead⟩ := hrun g (hg.mono (le_max_left ..)) after next' rest' hafter hnext'
        have hreads := ((hk v).default w rfl).reads g (hg.mono (le_max_right ..))
        obtain ⟨v', t, hok', hahead', -, -⟩ := hreads s next rest (.empty _) (hahead.trans heq'.symm) hnext
        exact ⟨v', t, (bind_of_ok hok).trans hok', hahead'⟩
    cases r with
    | error cause =>
      have hfails : Verdict.error cause ≠ (.error .limitReached : Verdict β) :=
        fun h => hx'.fails (congrArg Verdict.error (Verdict.error.inj h))
      refine ⟨passed, token₁, rest₁, .error cause, heq, nofun, hfails, fun g hg rest => ?_, hfresh⟩
      exact bind_of_error (hx'.runs g hg rest)
    | ok v a₁ =>
      have hlength := congrArg List.length heq
      rw [List.length_cons, List.length_append, List.length_cons] at hlength
      have hpassed := hx'.passes v a₁ rfl
      obtain ⟨passed₂, token₂, rest₂, r₂, heq₂, hk'⟩ := (hk v).stops (lastKind p passed) a₁ token₁ rest₁
        (heq ▸ hts).split.2 trivial (by omega)
      have hruns (g : Grammar) (hg : g.Reaches (2 * passed.length + b)) (more : List Lexeme)
          (hmore : ∃ rest, more = token₁ :: rest) :
          (x g >>= fun v => k v g) (.before p a (passed ++ more)) = k v g (.before (lastKind p passed) a₁ more) := by
        obtain ⟨rest, rfl⟩ := hmore
        exact bind_of_ok (hx'.runs g hg rest)
      refine ⟨passed ++ passed₂, token₂, rest₂, r₂, by rw [heq, heq₂, List.append_assoc], ?_, hk'.fails, ?_, ?_⟩
      · intro v₂ a₂ hr
        have hpassed₂ := hk'.passes v₂ a₂ hr
        rw [List.length_append]
        omega
      · intro g hg rest
        rw [List.length_append] at hg
        rw [List.append_assoc, hruns g (hg.mono (by omega)) _ (exists_eq_cons heq₂ rest),
          hk'.runs g (hg.mono (by omega)) rest, lastKind, lastKind, lastKind, List.foldl_append]
      · intro hne
        cases passed₂ with
        | nil =>
          rw [List.append_nil] at hne ⊢
          exact hfresh hne
        | cons first passed₂ =>
          obtain ⟨words, m, hwords, hrun⟩ := hk'.completes (List.cons_ne_nil _ _)
          refine ⟨words, max m (2 * passed.length + b), hwords, fun g hg after next rest hafter hnext => ?_⟩
          rw [List.append_assoc, hruns g (hg.mono (le_max_right ..)) _
            ⟨passed₂ ++ after, by rw [(List.cons.inj heq₂).1]; rfl⟩]
          exact hrun g (hg.mono (le_max_left ..)) after next rest hafter hnext
  default := by
    intro w' hw'
    obtain ⟨w₁, hw₁, rfl⟩ := Option.mem_map.1 (hwords ▸ hw')
    have hx' := hx.default w₁ hw₁
    have hk' := (hk (Classical.arbitrary α)).default w rfl
    have hlength := hx'.enough
    have hlength' := hk'.enough
    refine ⟨?_, ?_, fun g hg => ?_⟩
    · rw [List.mem_append, not_or]
      exact ⟨hx'.inside, hk'.inside⟩
    · rw [List.length_append]
      omega
    · rw [List.length_append] at hg
      refine Reads.andThen (hx'.reads g (hg.mono (by omega))) hstop fun v _ _ _ => ?_
      exact (((hk v).default w rfl).reads g (hg.mono (by omega))).anywhere

/-! ## Single tokens -/

section tokens

variable {y : Grammar → Parser α}

theorem advance {k : Lexeme → Grammar → Parser α}
    (hk : ∀ lexeme, Prompt bound (b + 2) (c - 1) (fun _ => True) stop (some w) (k lexeme))
    (hfirst : ∀ word, first word → word ≠ .endOfFile) :
    Prompt bound b c first stop none fun g => Parser.advance >>= fun lexeme => k lexeme g where
  stops := by
    intro p a token rest hts htoken hbound
    have hne := hfirst _ htoken
    have hrest := hts.tail hne
    obtain ⟨second, rest, rfl⟩ := List.exists_cons_of_ne_nil hrest.ne_nil
    rw [List.length_cons] at hbound
    obtain ⟨passed, token', rest', r, heq, hk'⟩ :=
      (hk token).stops (some token.kind) a second rest hrest trivial (by omega)
    refine ⟨token :: passed, token', rest', r, by rw [heq]; rfl, fun v a' hr => ?_, hk'.fails, fun g hg more => ?_,
      fun _ => ?_⟩
    · have hpassed := hk'.passes v a' hr
      rw [List.length_cons]
      omega
    · rw [List.length_cons] at hg
      refine (ParseState.advance_before hne (List.append_ne_nil_of_right_ne_nil _ (List.cons_ne_nil _ _)) _).trans ?_
      exact hk'.runs g (hg.mono (by omega)) more
    · cases passed with
      | nil =>
        have hdefault := (hk token).default w rfl
        refine ⟨w, 2 * w.length + (b + 2) + 4, hdefault.inside, fun g hg after next rest hafter hnext => ?_⟩
        have hafterne : after ≠ [] := by
          rintro rfl
          exact List.append_ne_nil_of_right_ne_nil w (List.cons_ne_nil next rest) hafter.symm
        have hahead := (ParseState.ahead_before (p := some token.kind) (a := a) hafterne).trans hafter
        obtain ⟨v, s, hok, hs, -, -⟩ := hdefault.reads g hg _ next rest (.empty _) hahead hnext
        exact ⟨v, s, (ParseState.advance_before hne hafterne _).trans hok, hs⟩
      | cons first passed =>
        obtain ⟨words, m, hwords, hrun⟩ := hk'.completes (List.cons_ne_nil _ _)
        refine ⟨words, m, hwords, fun g hg after next rest hafter hnext => ?_⟩
        obtain ⟨v, s, hok, hs⟩ := hrun g hg after next rest hafter hnext
        exact ⟨v, s, (ParseState.advance_before hne (List.cons_ne_nil _ _) _).trans hok, hs⟩
  default := nofun

/-- A known token is passed. -/
theorem pass {word : TokenKind} {k : Lexeme → Grammar → Parser α}
    (hk : ∀ lexeme, Prompt bound (b + 2) (c - 1) (fun _ => True) stop (some w) (k lexeme))
    (hword : word ≠ .endOfFile) :
    Prompt bound b c (· = word) stop none fun g => Parser.advance >>= fun lexeme => k lexeme g :=
  advance hk fun _ h => h ▸ hword

theorem kind {k : TokenKind → Grammar → Parser α}
    (hk : ∀ word, first word → Prompt bound b c (· = word) stop none (k word)) :
    Prompt bound b c first stop none fun g => Parser.kind >>= fun word => k word g :=
  .look (y := fun _ _ token => k token.kind) (fun _ _ _ _ _ => rfl) fun _ _ token htoken => hk token.kind htoken

theorem position {k : Position → Grammar → Parser α} (hk : ∀ position, Prompt bound b c first stop words (k position)) :
    Prompt bound b c first stop words fun g => Parser.position >>= fun position => k position g where
  stops := (look (y := fun _ _ token => k token.position) (fun _ _ _ _ _ => rfl) fun _ _ token htoken =>
    (hk token.position).forget.weaken le_rfl le_rfl (fun _ hword => hword ▸ htoken) fun _ h => h).stops
  default := by
    intro w hw
    have hdefault := (hk ⟨⟨0, 0⟩, 1, 1⟩).default w hw
    exact ⟨hdefault.inside, hdefault.enough, fun g hg => .position fun position => ((hk position).default w hw).reads g hg⟩

theorem alloc {kind : NodeKind} {position : Option Position} {k : NodeId → Grammar → Parser α}
    (hk : ∀ id, Prompt bound b c first stop words (k id)) :
    Prompt bound b c first stop words fun g => Parser.alloc kind position >>= fun id => k id g where
  stops := by
    intro p a token rest hts htoken hbound
    obtain ⟨passed, token', rest', r, heq, hk'⟩ :=
      (hk ⟨a.size⟩).stops p (a.alloc ⟨kind, position⟩).2 token rest hts htoken hbound
    exact ⟨passed, token', rest', r, heq, hk'.passes, hk'.fails, hk'.runs, hk'.completes⟩
  default := by
    intro w hw
    have hdefault := (hk ⟨0⟩).default w hw
    refine ⟨hdefault.inside, hdefault.enough, fun g hg => Turns.alloc fun id _ _ _ => ?_⟩
    exact Reads.anywhere (((hk id).default w hw).reads g hg)

/-- A node is made last. -/
theorem alloc_last {kind : NodeKind} {position : Option Position} :
    Prompt bound b 0 first stop (some []) fun _ => Parser.alloc kind position := by
  have h : Prompt bound b 0 first stop (some []) fun _ => Parser.alloc kind position >>= Pure.pure := .alloc fun _ => .pure
  simpa only [bind_pure] using h

/-- Whether the current token is a given one. -/
theorem check {expected : TokenKind} {k : Bool → Grammar → Parser α}
    (hyes : Prompt bound b c (· = expected) stop none (k true)) (hno : Prompt bound b c first stop words (k false))
    (hne : ∀ w ∈ words, ∀ word, Heads stop w word → word ≠ expected) :
    Prompt bound b c first stop words fun g => Parser.check expected >>= fun found => k found g where
  stops := by
    refine (look (y := fun _ _ token => k (decide (token.kind = expected))) (fun _ _ _ _ _ => rfl)
      fun p a token htoken => ?_).stops
    by_cases h : token.kind = expected
    · rw [decide_eq_true h]
      exact hyes.weaken le_rfl le_rfl (fun word hword => hword.trans h) fun _ hword => hword
    · rw [decide_eq_false h]
      exact hno.forget.weaken le_rfl le_rfl (fun word hword => hword ▸ htoken) fun _ hword => hword
  default := fun w hw => ⟨(hno.default w hw).inside, (hno.default w hw).enough,
    fun g hg => .check_no (hne w hw) ((hno.default w hw).reads g hg)⟩

theorem if_check {expected : TokenKind} (hx : Prompt bound b c (· = expected) stop none x)
    (hy : Prompt bound b c first stop words y)
    (hne : ∀ w ∈ words, ∀ word, Heads stop w word → word ≠ expected) :
    Prompt bound b c first stop words fun g => Parser.check expected >>= fun found => if found then x g else y g :=
  check (k := fun found g => if found then x g else y g) hx hy hne

/-- A token that is passed if it is there. -/
theorem eat {expected : TokenKind} {k : Bool → Grammar → Parser α}
    (hyes : Prompt bound (b + 2) (c - 1) (fun _ => True) stop (some w) (k true))
    (hno : Prompt bound b c first stop words (k false))
    (hne : ∀ w ∈ words, ∀ word, Heads stop w word → word ≠ expected)
    (he : expected ≠ .endOfFile) :
    Prompt bound b c first stop words fun g => Parser.eat expected >>= fun found => k found g := by
  simp only [eat_bind]
  exact if_check (pass (fun _ => hyes) he) hno hne

theorem if_eat {expected : TokenKind} (hx : Prompt bound (b + 2) (c - 1) (fun _ => True) stop (some w) x)
    (hy : Prompt bound b c first stop words y)
    (hne : ∀ w ∈ words, ∀ word, Heads stop w word → word ≠ expected)
    (he : expected ≠ .endOfFile) :
    Prompt bound b c first stop words fun g => Parser.eat expected >>= fun found => if found then x g else y g :=
  eat (k := fun found g => if found then x g else y g) hx hy hne he

/-- A token that may stand before the same things as without it. -/
theorem eat_any {expected : TokenKind} {k : Bool → Grammar → Parser α}
    (hk : ∀ found, Prompt bound b c (fun _ => True) stop (some w) (k found))
    (hne : ∀ word, Heads stop w word → word ≠ expected) (he : expected ≠ .endOfFile) :
    Prompt bound b c first stop (some w) fun g => Parser.eat expected >>= fun found => k found g :=
  eat ((hk true).weaken (by omega) (by omega) (fun _ _ => trivial) fun _ hword => hword) ((hk false).deeper le_rfl)
    (fun _ hw => Option.some.inj hw ▸ hne) he

theorem expect {expected : TokenKind} {k : Lexeme → Grammar → Parser α}
    (hk : ∀ lexeme, Prompt bound (b + 2) (c - 1) (fun _ => True) stop (some w) (k lexeme))
    (he : expected ≠ .endOfFile) :
    Prompt bound b c first stop (some (expected :: w)) fun g => Parser.expect expected >>= fun lexeme => k lexeme g := by
  have hdefault := (hk ⟨expected, ⟨0, 0⟩, 1, 1⟩).default w rfl
  have henough := hdefault.enough
  refine withWords ?_ ⟨?_, ?_, fun g hg => .expect he fun lexeme => ((hk lexeme).default w rfl).reads g (hg.mono ?_)⟩
  · unfold Parser.expect
    simp only [bind_assoc, ite_bind, failExpecting, fail_bind]
    exact if_check (pass hk he) (kind fun _ _ => fail nofun) nofun
  · exact List.not_mem_cons_of_ne_of_not_mem he.symm hdefault.inside
  · rw [List.length_cons]
    omega
  · rw [List.length_cons]
    omega

theorem expectSymbol {symbol : Symbol} {k : Position → Grammar → Parser α}
    (hk : ∀ position, Prompt bound (b + 2) (c - 1) (fun _ => True) stop (some w) (k position)) :
    Prompt bound b c first stop (some (.symbol symbol :: w))
      fun g => Parser.expectSymbol symbol >>= fun position => k position g := by
  unfold Parser.expectSymbol
  simp only [bind_assoc, pure_bind]
  exact expect (fun lexeme => hk lexeme.position) nofun

theorem expectKeyword {keyword : Keyword} {k : Position → Grammar → Parser α}
    (hk : ∀ position, Prompt bound (b + 2) (c - 1) (fun _ => True) stop (some w) (k position)) :
    Prompt bound b c first stop (some (.keyword keyword :: w))
      fun g => Parser.expectKeyword keyword >>= fun position => k position g := by
  unfold Parser.expectKeyword
  simp only [bind_assoc, pure_bind]
  exact expect (fun lexeme => hk lexeme.position) nofun

theorem expectLabel {k : Label → Grammar → Parser α}
    (hk : ∀ label, Prompt bound (b + 2) (c - 1) (fun _ => True) stop (some w) (k label)) :
    Prompt bound b c first stop (some (.identifier "x" :: w))
      fun g => Parser.expectLabel >>= fun label => k label g := by
  have hdefault := (hk ⟨"x", none⟩).default w rfl
  have henough := hdefault.enough
  refine withWords ?_ ⟨?_, ?_, fun g hg => .expectLabel fun label _ => ((hk label).default w rfl).reads g (hg.mono ?_)⟩
  · unfold Parser.expectLabel
    simp only [bind_assoc]
    refine kind fun word _ => ?_
    cases word with
    | identifier name =>
      simp only [TokenKind.identifier?, bind_assoc, pure_bind]
      exact pass (fun lexeme => hk _) nofun
    | _ =>
      simp only [TokenKind.identifier?, bind_assoc, fail_bind]
      exact kind fun _ _ => fail nofun
  · exact List.not_mem_cons_of_ne_of_not_mem nofun hdefault.inside
  · rw [List.length_cons]
    omega
  · rw [List.length_cons]
    omega

theorem if_atEnd (hx : Prompt bound b c (· = .endOfFile) stop none x) (hy : Prompt bound b c first stop words y)
    (hne : ∀ w ∈ words, ∀ word, Heads stop w word → word ≠ .endOfFile) :
    Prompt bound b c first stop words fun g => cursor >>= fun cursor => if cursor.atEnd then x g else y g :=
  if_check hx hy hne

end tokens

/-! ## Deeper levels and repetitions -/

/-- What is read one level deeper. -/
theorem read {nonterminal : Nonterminal} (h : Prompt bound b c first stop none fun g => g.produce nonterminal) :
    Prompt (bound + 1) (b + 1) c first stop none fun g => g.read nonterminal where
  stops := by
    intro p a token rest hts htoken hbound
    obtain ⟨passed, token', rest', r, hsplit, hx⟩ := h.stops p a token rest hts htoken (by omega)
    refine ⟨passed, token', rest', r, hsplit, hx.passes, hx.fails, fun g hg more => ?_, fun hne => ?_⟩
    · obtain ⟨g', hg', hread⟩ := hg.read
      rw [hread]
      exact hx.runs g' hg' more
    · obtain ⟨w, m, hw, hrun⟩ := hx.completes hne
      refine ⟨w, m + 1, hw, fun g hg => ?_⟩
      obtain ⟨g', hg', hread⟩ := hg.read
      rw [hread]
      exact hrun g' hg'
  default := nofun

/-- A repetition is prompt after some rounds if a round is. -/
theorem rounds {round : Grammar → γ → Parser (Progress γ α)} {v : γ} {i : Nat}
    (h : PromptRound bound b stop w round) (hi : 2 * i ≤ b) :
    Prompt bound b 0 first stop (some w) fun g => Grammar.rounds (round g) (g.limit - i) v := by
  -- A round later the parser has come two steps closer to the bound.
  have hgo (n : Nat) : ∀ i b' v, b ≤ b' → 2 * i ≤ b' → bound ≤ b' + n →
      Prompt bound b' 0 (fun _ => True) stop (some w) fun g => Grammar.rounds (round g) (g.limit - i) v := by
    induction n using Nat.strong_induction_on with
    | _ n ih =>
      intro i b' v hb hi hn
      have hlimit (g : Grammar) (hg : g.Reaches b') : g.limit - i = g.limit - (i + 1) + 1 := by
        obtain ⟨hle, hpos⟩ := hg.limit
        omega
      refine withWords ?_ ⟨h.inside, Nat.zero_le _, fun g hg => ?_⟩
      · by_cases hbound : bound ≤ b'
        · exact ⟨fun p a token rest _ _ hle => by omega, nofun⟩
        · have hnext (b'' : Nat) (hb'' : b' + 2 ≤ b'') (v : γ) := ih (n - 2) (by omega) (i + 1) b'' v (by omega)
            (by omega) (by omega)
          refine (h.goes_on b' hb (fun v g => Grammar.rounds (round g) (g.limit - (i + 1)) v) hnext v).congr fun g hg => ?_
          rw [hlimit g hg, Grammar.rounds]
          congr
          funext r
          cases r <;> rfl
      · show Reads _ (Grammar.rounds (round g) (g.limit - i) v) w stop _
        rw [hlimit g (hg.mono (by omega))]
        exact Grammar.reads_rounds_done (h.last v g (hg.mono (by omega)))
  exact (hgo bound i b v le_rfl hi (by omega)).deeper le_rfl

/-- A repetition from its first round on. -/
theorem repeating {round : Grammar → γ → Parser (Progress γ α)} {v : γ} (h : PromptRound bound b stop w round) :
    Prompt bound b 0 first stop (some w) fun g => g.repeating v (round g) :=
  rounds (i := 0) h (Nat.zero_le b)

end Prompt

end combinators

end Parser

end DynScript
