import Mathlib.Tactic
import DynScript.Files.Disk

/-!
# Writing files

A file is written only where neither a directory nor a link stands. So whatever a path led to before, it leads there
still, and the canonical path of a file is that of the same file for as long as files are only written.
-/

namespace DynScript

/-- A sequence that succeeds does so in its parts. -/
theorem ok_of_bind {ε α β : Type} {e : Except ε α} {k : α → Except ε β} {b : β} (h : e >>= k = .ok b) :
    ∃ a, e = .ok a ∧ k a = .ok b := by
  cases e with
  | error _ => cases h
  | ok a => exact ⟨a, rfl, h⟩

/-- What is found in a list in which one entry has been replaced. -/
theorem lookup_replaced {κ ν : Type} [BEq κ] [LawfulBEq κ] [DecidableEq κ] (k q : κ) (v : ν) (entries : List (κ × ν)) :
    ((k, v) :: entries.filter fun old => old.1 ≠ k).lookup q =
      if q = k then some v else entries.lookup q := by
  by_cases hq : q = k
  · simp [hq]
  · rw [if_neg hq, List.lookup_cons, beq_false_of_ne hq]
    show (entries.filter fun old => old.1 ≠ k).lookup q = _
    induction entries with
    | nil => rfl
    | cons old rest ih =>
      obtain ⟨key, value⟩ := old
      by_cases ho : key = k
      · have hne : (q == key) = false := beq_false_of_ne (ho ▸ hq)
        rw [List.filter_cons_of_neg (by simpa using ho), ih, List.lookup_cons, hne]
      · rw [List.filter_cons_of_pos (by simpa using ho), List.lookup_cons, List.lookup_cons, ih]

namespace Disk

variable {d d' : Disk} {here there : Location} {part : String} {parts : List String} {links : Nat}
  {taken : Disk.Step}

theorem entry?_put (d : Disk) (place : Location) (entry : Entry) (q : Location) :
    Disk.entry? (d.put place entry) q =
      if q.isEmpty then some .directory else if q = place then some entry else d.entry? q := by
  unfold entry?
  split
  · rfl
  · exact lookup_replaced place q entry d.entries

theorem link?_of_isDirectory {place : Location} (h : d.isDirectory place) : d.link? place = none := by
  unfold isDirectory at h
  unfold link?
  split at h
  · rename_i hentry
    rw [hentry]
  · cases h

/-! ## Where ways end -/

/-- The end of a way is reached before any link, or by way of the first one. -/
theorem follow_eq_ok : d.follow taken links here parts = .ok there ↔
    d.advance taken here parts = .ok (.done there) ∨
      ∃ left found target rest, links = left + 1 ∧ d.advance taken here parts = .ok (.link found target rest) ∧
        d.follow taken left (origin found target) (partsOf target ++ rest) = .ok there := by
  constructor
  · intro h
    cases links with
    | zero =>
      obtain ⟨leg, hleg, h⟩ := ok_of_bind h
      rw [hleg]
      cases leg with
      | done last => exact .inl (congrArg (Except.ok ∘ Leg.done) (Except.ok.inj h))
      | link => cases h
    | succ left =>
      obtain ⟨leg, hleg, h⟩ := ok_of_bind h
      rw [hleg]
      cases leg with
      | done last => exact .inl (congrArg (Except.ok ∘ Leg.done) (Except.ok.inj h))
      | link found target rest => exact .inr ⟨left, found, target, rest, rfl, rfl, h⟩
  · rintro (h | ⟨left, found, target, rest, rfl, hlink, h⟩)
    · cases links <;> rw [follow, h] <;> rfl
    · rw [follow, hlink]
      exact h

/-- A step that is taken from directories only. -/
def Step.FromDirectories (d : Disk) (step : Step) : Prop :=
  ∀ {here there part rest}, step here part rest = .ok there → d.isDirectory here

theorem isDirectory_of_step (h : d.step here part = .ok there) : d.isDirectory here := by
  unfold step at h
  split_ifs at h with hdirectory
  all_goals simpa using hdirectory

theorem writingStep_fromDirectories : Step.FromDirectories d d.writingStep := by
  intro here there part rest h
  unfold writingStep at h
  split_ifs at h with hlast hdirectory
  · exact isDirectory_of_step h
  · simpa using hdirectory

/-- Before a link, a way that has any parts ends at something else. -/
theorem link?_of_advance_done (h : d.advance taken here parts = .ok (.done there))
    (hstart : parts ≠ [] ∨ d.link? here = none) : d.link? there = none := by
  induction parts generalizing here with
  | nil =>
    obtain rfl := Leg.done.inj (Except.ok.inj h)
    exact hstart.resolve_left (· rfl)
  | cons part rest ih =>
    obtain ⟨next, -, h⟩ := ok_of_bind h
    cases hlink : d.link? next with
    | some target =>
      rw [hlink] at h
      cases h
    | none =>
      rw [hlink] at h
      exact ih h (.inr hlink)

/-- A link is found in a directory. -/
theorem isDirectory_of_advance_link (htaken : taken.FromDirectories d) {found : Location} {target : Path}
    {rest : List String} (h : d.advance taken here parts = .ok (.link found target rest)) : d.isDirectory found := by
  induction parts generalizing here with
  | nil => cases h
  | cons part rest ih =>
    obtain ⟨next, hnext, h⟩ := ok_of_bind h
    cases hlink : d.link? next with
    | some target =>
      rw [hlink] at h
      obtain ⟨rfl, -, -⟩ := Leg.link.inj (Except.ok.inj h)
      exact htaken hnext
    | none =>
      rw [hlink] at h
      exact ih h

/-- So no way ends at a link, unless it starts at one and has no parts. -/
theorem link?_of_follow (htaken : taken.FromDirectories d) (hstart : parts ≠ [] ∨ d.link? here = none)
    (h : d.follow taken links here parts = .ok there) : d.link? there = none := by
  induction links generalizing here parts with
  | zero =>
    obtain h | ⟨_, _, _, _, hlinks, -⟩ := follow_eq_ok.1 h
    · exact link?_of_advance_done h hstart
    · cases hlinks
  | succ links ih =>
    obtain h | ⟨_, found, target, rest, ⟨rfl⟩, hlink, h⟩ := follow_eq_ok.1 h
    · exact link?_of_advance_done h hstart
    · refine ih (.inr (link?_of_isDirectory ?_)) h
      unfold origin
      split
      · rfl
      · exact isDirectory_of_advance_link htaken hlink

theorem splitSlashes_ne_nil (cs : List Char) : Path.splitSlashes cs ≠ [] := by
  induction cs with
  | nil => exact List.cons_ne_nil _ _
  | cons c rest ih =>
    obtain ⟨first, more, hsplit⟩ := List.exists_cons_of_ne_nil ih
    rw [Path.splitSlashes, hsplit]
    dsimp only
    split <;> exact List.cons_ne_nil _ _

/-- A relative path that has any text has parts. -/
theorem partsOf_ne_nil {p : Path} (htext : p.text ≠ "") (hrelative : p.isAbsolute = false) : partsOf p ≠ [] := by
  unfold partsOf Path.parts
  unfold Path.isAbsolute at hrelative
  cases hcs : p.text.toList with
  | nil => exact absurd (String.toList_eq_nil_iff.1 hcs) htext
  | cons c rest =>
    have hc : c ≠ '/' := by
      rintro rfl
      simp [hcs] at hrelative
    obtain ⟨first, more, hsplit⟩ := List.exists_cons_of_ne_nil (splitSlashes_ne_nil rest)
    rw [Path.splitSlashes, hsplit]
    simp [hc]

/-- A link leads on to what it says, relative to the directory that it is found in, and no way goes round for ever. -/
example :
    let d := ((Disk.empty.addFile ["lib", "m.blu"] .empty).addLink ["lib", "n.blu"] ⟨"m.blu"⟩).addLink ["o"] ⟨"o"⟩
    d.canonical ⟨"/lib/n.blu"⟩ = .ok ⟨"/lib/m.blu"⟩ ∧ d.canonical ⟨"/o"⟩ = .error .tooManyLinks := by
  decide +kernel

/-! ## What stays -/

/-- What stands at a place is there still, a directory as a directory and a link as the same link. -/
structure Extends (d d' : Disk) : Prop where
  /-- Relative paths start from the same directory. -/
  working : d'.working = d.working
  /-- What is a directory was one. -/
  directories : ∀ place, d'.isDirectory place = d.isDirectory place
  /-- What is a link was one. -/
  links : ∀ place, d'.link? place = d.link? place
  /-- No entry is taken away. -/
  entries : ∀ place, (d.entry? place).isSome → (d'.entry? place).isSome

namespace Extends

@[refl] theorem refl (d : Disk) : d.Extends d := ⟨rfl, fun _ => rfl, fun _ => rfl, fun _ => id⟩

theorem trans {d'' : Disk} (h : d.Extends d') (k : d'.Extends d'') : d.Extends d'' :=
  ⟨k.working.trans h.working, fun place => (k.directories place).trans (h.directories place),
    fun place => (k.links place).trans (h.links place), fun place hp => k.entries place (h.entries place hp)⟩

/-- A file replaces nothing but a file. -/
theorem put_file {place : Location} (hp : d.isDirectory place = false) (hl : d.link? place = none)
    (content : ByteArray) : d.Extends (d.put place (.file content)) := by
  have hne : place.isEmpty = false := by
    cases place with
    | nil => cases hp
    | cons => rfl
  have hsame (q : Location) (hq : q ≠ place) : Disk.entry? (d.put place (.file content)) q = d.entry? q := by
    rw [entry?_put, if_neg hq]
    unfold entry?
    split_ifs <;> rfl
  have hput : Disk.entry? (d.put place (.file content)) place = some (.file content) := by
    rw [entry?_put, hne]
    simp
  refine ⟨rfl, fun q => ?_, fun q => ?_, fun q hq => ?_⟩
  all_goals rcases eq_or_ne q place with rfl | hother
  · rw [hp, isDirectory, hput]
  · rw [isDirectory, isDirectory, hsame q hother]
  · rw [hl, link?, hput]
  · rw [link?, link?, hsame q hother]
  · rw [hput]
    rfl
  · rwa [hsame q hother]

/-- A component that leads somewhere leads there still. -/
theorem step (h : d.Extends d') (hs : d.step here part = .ok there) : d'.step here part = .ok there := by
  unfold Disk.step at hs ⊢
  rw [h.directories]
  by_cases he : (d.entry? (here ++ [part])).isSome
  · simpa only [he, h.entries _ he] using hs
  · split_ifs at hs ⊢ <;> exact hs

theorem writtenStep (h : d.Extends d') (hs : d.writtenStep here part = .ok there) :
    d'.writtenStep here part = .ok there := by
  unfold Disk.writtenStep at hs ⊢
  by_cases hdots : (part = "" || part = "." || part = "..") = true
  · rw [if_pos hdots] at hs ⊢
    exact h.step hs
  · rw [if_neg hdots] at hs ⊢
    split_ifs at hs ⊢
    exact h.step hs

/-- The way along a row of parts is the same, up to its end or the first link. -/
theorem advance {taken' : Disk.Step} (h : d.Extends d')
    (hstep : ∀ {here part rest there}, taken here part rest = .ok there → taken' here part rest = .ok there)
    {leg : Leg} (ha : d.advance taken here parts = .ok leg) : d'.advance taken' here parts = .ok leg := by
  induction parts generalizing here with
  | nil => exact ha
  | cons part rest ih =>
    obtain ⟨next, htaken, ha⟩ := ok_of_bind ha
    rw [Disk.advance, hstep htaken]
    refine Eq.trans (pure_bind next _) ?_
    rw [h.links]
    cases hlink : d.link? next with
    | some target =>
      rw [hlink] at ha
      exact ha
    | none =>
      rw [hlink] at ha
      exact ih ha

theorem follow {taken' : Disk.Step} (h : d.Extends d')
    (hstep : ∀ {here part rest there}, taken here part rest = .ok there → taken' here part rest = .ok there)
    (hf : d.follow taken links here parts = .ok there) : d'.follow taken' links here parts = .ok there := by
  induction links generalizing here parts with
  | zero =>
    obtain hf | ⟨_, _, _, _, hlinks, -⟩ := follow_eq_ok.1 hf
    · exact follow_eq_ok.2 (.inl (h.advance hstep hf))
    · cases hlinks
  | succ links ih =>
    obtain hf | ⟨_, found, target, rest, ⟨rfl⟩, hlink, hf⟩ := follow_eq_ok.1 hf
    · exact follow_eq_ok.2 (.inl (h.advance hstep hf))
    · exact follow_eq_ok.2 (.inr ⟨_, found, target, rest, rfl, h.advance hstep hlink, ih hf⟩)

/-- A path that leads somewhere has the same canonical path still. -/
theorem canonical (h : d.Extends d') {p q : Path} (hp : d.canonical p = .ok q) : d'.canonical p = .ok q := by
  unfold Disk.canonical at hp ⊢
  split at hp
  · cases hp
  · obtain ⟨place, hplace, rfl⟩ : ∃ place, d.follows (fun here part _ => d.writtenStep here part) p = .ok place ∧
        pathOf place = q := by
      cases hf : d.follows (fun here part _ => d.writtenStep here part) p with
      | error e => rw [hf] at hp; cases hp
      | ok place => exact ⟨place, rfl, Except.ok.inj (hf ▸ hp)⟩
    have hsame : d'.follows (fun here part _ => d'.writtenStep here part) p = .ok place := by
      unfold follows at hplace ⊢
      rw [h.working]
      exact h.follow h.writtenStep hplace
    rw [hsame]
    rfl

end Extends

/-- A file is written where neither a directory nor a link stands. -/
theorem of_target {p : Path} {place : Location} (h : d.target p = .ok place) :
    d.isDirectory place = false ∧ d.link? place = none := by
  unfold target at h
  split at h
  · cases h
  · rename_i hwhole
    obtain ⟨found, hfound, h⟩ := ok_of_bind h
    split at h
    · cases h
    · rename_i hdirectory
      obtain rfl := Except.ok.inj h
      refine ⟨Bool.not_eq_true _ ▸ hdirectory, link?_of_follow writingStep_fromDirectories ?_ hfound⟩
      cases habsolute : p.isAbsolute with
      | true => exact .inr (by rw [origin, if_pos habsolute]; rfl)
      | false =>
        refine .inl (partsOf_ne_nil (fun htext => ?_) habsolute)
        simp [wholeError?, textError?, htext] at hwhole

theorem extends_write {p : Path} {text : String} (h : d.write p text = .ok d') : d.Extends d' := by
  unfold write at h
  cases ht : d.target p with
  | error e => rw [ht] at h; cases h
  | ok place =>
    rw [ht] at h
    obtain rfl := Except.ok.inj h
    exact .put_file (of_target ht).1 (of_target ht).2 _

end Disk

end DynScript
