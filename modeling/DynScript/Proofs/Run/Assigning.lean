import DynScript.Proofs.Run.Shielding
import DynScript.Proofs.Value.Copies

/-!
# Assigning and reading back

A lookup goes through the frames and comes to the active record last; an assignment comes to the active record first.
Both find a name in the same cases, and an assignment writes one slot: a variable of a frame or a property of a record.
It is not read back when another frame holds the name in front of the active record, and otherwise it is.
-/

namespace DynScript

/-! ## Slots -/

/-- A value without what depends on the record that it is kept in. -/
def Value.withoutReceiver : Value → Value
  | .function f => .function { f with receiver := none }
  | v => v

theorem Value.withoutReceiver_boundTo (v : Value) (r : RecordId) : (v.boundTo r).withoutReceiver = v.withoutReceiver := by
  cases v <;> rfl

/-- The value that a holder has after it was given one. -/
def Holder.keeps (v : Value) : Holder → Value
  | .locals _ => v
  | .record r => v.boundTo r

theorem Holder.withoutReceiver_keeps (holder : Holder) (v : Value) :
    (holder.keeps v).withoutReceiver = v.withoutReceiver := by
  cases holder with
  | locals index => rfl
  | record r => exact v.withoutReceiver_boundTo r

namespace Environment

variable {env env' : Environment} {h h' : Heap} {name : String} {v : Value} {i n : Nat} {frame : Frame} {holder : Holder}

/-- The value of a name in a slot: a variable of a frame or a property of a record. -/
def slot? (env : Environment) (h : Heap) (name : String) : Holder → Option Value
  | .locals index => env.variableAt? name index
  | .record r => h.property? r name

/-- One slot is written, and nothing else changes. -/
structure Writes (env : Environment) (h : Heap) (name : String) (v : Value) (holder : Holder) (env' : Environment)
    (h' : Heap) : Prop where
  /-- The slot had a value. -/
  had : (env.slot? h name holder).isSome
  /-- It has the new one. -/
  now : env'.slot? h' name holder = some (holder.keeps v)
  /-- The other slots are as they were. -/
  others : ∀ other holder', ¬(other = name ∧ holder' = holder) → env'.slot? h' other holder' = env.slot? h other holder'
  /-- There are as many frames. -/
  depth : env'.depth = env.depth
  /-- The same records stand open in the same places. -/
  opened : ∀ (i : Nat) (r : RecordId), env'.frames[i]? = some (Frame.record r) ↔ env.frames[i]? = some (Frame.record r)
  /-- The same records are active. -/
  active : env'.active = env.active
  /-- There are as many records. -/
  size : h'.size = h.size
  /-- Classes are the same. -/
  template : ∀ r, h'.template? r = h.template? r
  /-- So are parents. -/
  parent : ∀ r, h'.parent? r = h.parent? r

/-- The active record has a name, but the innermost frame that has it is not a frame of this record. -/
def Hides (env : Environment) (h : Heap) (name : String) : Prop :=
  ∃ r, env.active? = some r ∧ h.has r name ∧ ∃ i frame, env.Finds h name i frame ∧ frame ≠ .record r

/-! ## Finding slots -/

/-- The value of a name in a frame is that of a slot. -/
theorem slot?_holder (hf : env.frames[i]? = some frame) : env.slot? h name (frame.holder i) = (frame.names h).get? name := by
  cases frame with
  | locals names =>
    show env.variableAt? name i = _
    rw [variableAt?, hf]
    rfl
  | record r => rfl

/-- The slot that a lookup reads. -/
def source? (env : Environment) (h : Heap) (name : String) : Option Holder :=
  (env.holder? h name).or (env.active?.map .record)

theorem lookup_eq (env : Environment) (h : Heap) (name : String) :
    env.lookup h name = (env.source? h name).bind (env.slot? h name) := by
  unfold lookup source?
  cases hh : env.holder? h name with
  | none =>
    dsimp only [Option.none_or]
    cases env.active? <;> rfl
  | some holder =>
    obtain ⟨i, frame, hf, rfl⟩ := finds_of_holder? hh
    exact (get?_holder hf.there).trans (slot?_holder hf.there).symm

/-- What is assigned was there before. -/
theorem isSome_slot?_of_target? (ht : env.target? h name = some holder) : (env.slot? h name holder).isSome := by
  rcases target?_cases ht with ⟨r, -, hname, rfl⟩ | ⟨-, hholder⟩
  · exact hname
  · obtain ⟨i, frame, hf, rfl⟩ := finds_of_holder? hholder
    rw [slot?_holder hf.there]
    exact hf.has

/-- An assignment and a lookup find the same names. -/
theorem target?_eq_none : env.target? h name = none ↔ env.lookup h name = none := by
  rw [lookup_eq, source?]
  unfold target?
  cases hholder : env.holder? h name with
  | some holder =>
    obtain ⟨i, frame, hf, rfl⟩ := finds_of_holder? hholder
    have hvalue : ((frame.names h).get? name).isSome := hf.has
    refine iff_of_false ?_ ?_
    · split <;> exact Option.some_ne_none _
    · rw [Option.some_or, Option.bind_some, slot?_holder hf.there]
      exact Option.isSome_iff_ne_none.1 hvalue
  | none =>
    rw [Option.none_or]
    cases env.active? with
    | none => exact iff_of_true rfl rfl
    | some r =>
      show _ ↔ h.property? r name = none
      rw [Option.filter_some]
      by_cases hname : h.has r name
      · rw [if_pos hname]
        exact iff_of_false (Option.some_ne_none _) (Option.isSome_iff_ne_none.1 hname)
      · rw [if_neg hname]
        exact iff_of_true rfl (Option.not_isSome_iff_eq_none.1 hname)

/-! ## Writing -/

/-- What is put into a slot that has a value is written there and nowhere else. -/
theorem writes_put (hh : (env.slot? h name holder).isSome) (v : Value) :
    env.Writes h name v holder (env.put h name v holder).1 (env.put h name v holder).2 := by
  cases holder with
  | locals i =>
    obtain ⟨old, hold⟩ := Option.isSome_iff_exists.1 hh
    obtain ⟨frame, hframe, hvariable⟩ := Option.bind_eq_some_iff.1 hold
    have hmodify (j : Nat) : (env.put h name v (.locals i)).1.frames[j]? =
        if i = j then env.frames[j]?.map (Frame.setLocal name v) else env.frames[j]? :=
      Array.getElem?_modify
    cases frame with
    | record r => cases hvariable
    | locals names =>
      have hnow : (env.put h name v (.locals i)).1.frames[i]? = some (.locals (names.set name v)) := by
        rw [hmodify, if_pos rfl, hframe]
        rfl
      refine ⟨hh, ?_, ?_, Eval.Plain.depth_put env h name v _, ?_, rfl, rfl, fun _ => rfl, fun _ => rfl⟩
      · show (env.put h name v (.locals i)).1.frames[i]?.bind (Frame.variableOf? name) = some v
        rw [hnow]
        exact (names.get?_set name name v).trans (if_pos rfl)
      · intro other holder' hne
        cases holder' with
        | record r => rfl
        | locals j =>
          by_cases hother : other = name
          · have hij : i ≠ j := by
              rintro rfl
              exact hne ⟨hother, rfl⟩
            exact variableAt?_put (h := h) hij
          · exact variableAt?_put_of_ne hother
      · intro j r
        rw [hmodify]
        split
        · rename_i hij
          rw [← hij, hframe]
          simp [Frame.setLocal]
        · exact Iff.rfl
  | record r =>
    have hr := Heap.exists_of_has hh
    refine ⟨hh, ?_, ?_, rfl, fun _ _ => Iff.rfl, rfl, h.size_set r name v, Heap.template?_set v, Heap.parent?_set v⟩
    · exact (Heap.property?_set hr v r name).trans (if_pos ⟨rfl, rfl⟩)
    · intro other holder' hne
      cases holder' with
      | locals j => rfl
      | record q =>
        refine (Heap.property?_set hr v q other).trans (if_neg ?_)
        rintro ⟨rfl, rfl⟩
        exact hne ⟨rfl, rfl⟩

/-- Two environments have the same names in the same places. -/
structure SameNames (env : Environment) (h : Heap) (env' : Environment) (h' : Heap) : Prop where
  /-- There are as many frames. -/
  depth : env'.depth = env.depth
  /-- The same records stand open in the same places. -/
  opened : ∀ (i : Nat) (r : RecordId), env'.frames[i]? = some (Frame.record r) ↔ env.frames[i]? = some (Frame.record r)
  /-- A slot has a value in both or in neither. -/
  slots : ∀ other holder, (env'.slot? h' other holder).isSome = (env.slot? h other holder).isSome

theorem SameNames.symm (hs : env.SameNames h env' h') : env'.SameNames h' env h :=
  ⟨hs.depth.symm, fun i r => (hs.opened i r).symm, fun other holder => (hs.slots other holder).symm⟩

/-- Frames in the same place hold their names in the same way. -/
theorem SameNames.standing (hs : env.SameNames h env' h') (hf : env.frames[i]? = some frame) :
    ∃ frame', env'.frames[i]? = some frame' ∧ frame'.holder i = frame.holder i := by
  have hi : i < env.depth := (Array.getElem?_eq_some_iff.1 hf).1
  have hi' : i < env'.frames.size := hi.trans_eq hs.depth.symm
  have hf' := Array.getElem?_eq_getElem hi'
  refine ⟨_, hf', ?_⟩
  cases frame with
  | record r => rw [Option.some.inj (hf'.symm.trans ((hs.opened i r).2 hf))]
  | locals names =>
    cases hframe' : env'.frames[i] with
    | locals names' => rfl
    | record r =>
      rw [hframe'] at hf'
      rw [(hs.opened i r).1 hf'] at hf
      cases hf

/-- And they have the same names. -/
theorem SameNames.has (hs : env.SameNames h env' h') {frame' : Frame} (hf : env.frames[i]? = some frame)
    (hf' : env'.frames[i]? = some frame') : (frame'.names h').has name = (frame.names h).has name := by
  obtain ⟨frame'', hf'', hholder⟩ := hs.standing hf
  obtain rfl := Option.some.inj (hf'.symm.trans hf'')
  have hslot := hs.slots name (frame.holder i)
  rw [slot?_holder hf, ← hholder, slot?_holder hf'] at hslot
  exact hslot

/-- So a name is found in the same place. -/
theorem SameNames.finds (hs : env.SameNames h env' h') (hf : env.Finds h name i frame) :
    ∃ frame', env'.Finds h' name i frame' ∧ frame'.holder i = frame.holder i := by
  obtain ⟨frame', hf', hholder⟩ := hs.standing hf.there
  refine ⟨frame', ⟨hf', ?_, fun j inner hij hinner => ?_⟩, hholder⟩
  · rw [hs.has hf.there hf']
    exact hf.has
  · obtain ⟨inner', hinner', -⟩ := hs.symm.standing hinner
    rw [hs.has hinner' hinner]
    exact hf.innermost j inner' hij hinner'

theorem SameNames.holder? (hs : env.SameNames h env' h') : env'.holder? h' name = env.holder? h name := by
  cases hholder : env.holder? h name with
  | some holder =>
    obtain ⟨i, frame, hf, rfl⟩ := finds_of_holder? hholder
    obtain ⟨frame', hf', hsame⟩ := hs.finds hf
    rw [hf'.holder?, hsame]
  | none =>
    refine Option.eq_none_iff_forall_ne_some.2 fun holder hholder' => ?_
    obtain ⟨i, frame', hf', -⟩ := finds_of_holder? hholder'
    obtain ⟨frame, hf, -⟩ := hs.symm.finds hf'
    rw [hf.holder?] at hholder
    cases hholder

namespace Writes

theorem sameNames (hw : env.Writes h name v holder env' h') : env.SameNames h env' h' where
  depth := hw.depth
  opened := hw.opened
  slots other holder' := by
    by_cases hsame : other = name ∧ holder' = holder
    · obtain ⟨rfl, rfl⟩ := hsame
      rw [hw.now, hw.had]
      rfl
    · rw [hw.others other holder' hsame]

theorem source? (hw : env.Writes h name v holder env' h') : env'.source? h' name = env.source? h name := by
  unfold Environment.source? active?
  rw [hw.sameNames.holder?, hw.active]

/-- What is written into the slot that a lookup reads is read back. -/
theorem lookup_of_eq (hw : env.Writes h name v holder env' h') (hs : env.source? h name = some holder) :
    env'.lookup h' name = some (holder.keeps v) := by
  rw [lookup_eq, hw.source?, hs]
  exact hw.now

/-- What is written elsewhere is not. -/
theorem lookup_of_ne (hw : env.Writes h name v holder env' h') (hs : env.source? h name ≠ some holder) :
    env'.lookup h' name = env.lookup h name := by
  rw [lookup_eq, lookup_eq, hw.source?]
  cases hsource : env.source? h name with
  | none => rfl
  | some source =>
    refine hw.others name source fun hsame => hs ?_
    rw [hsource, hsame.2]

end Writes

/-- An assignment writes the slot that a lookup reads unless the active record is hidden. -/
theorem source?_eq_target? (ht : env.target? h name = some holder) : env.source? h name = some holder ↔ ¬env.Hides h name := by
  unfold source?
  constructor
  · rintro hs ⟨r, hactive, hname, i, frame, hf, hne⟩
    rw [hf.holder?, Option.some_or] at hs
    rcases target?_cases ht with ⟨r', hactive', -, rfl⟩ | ⟨hnone, -⟩
    · obtain rfl := Option.some.inj (hactive.symm.trans hactive')
      cases frame with
      | locals names => cases hs
      | record q =>
        cases hs
        exact hne rfl
    · exact hnone r hactive hname
  · intro hshown
    rcases target?_cases ht with ⟨r, hactive, hname, rfl⟩ | ⟨-, hholder⟩
    · cases hholder : env.holder? h name with
      | none =>
        rw [hactive]
        rfl
      | some holder =>
        obtain ⟨i, frame, hf, rfl⟩ := finds_of_holder? hholder
        have hframe : frame = .record r := by
          by_contra hne
          exact hshown ⟨r, hactive, hname, i, frame, hf, hne⟩
        rw [hframe]
        rfl
    · rw [hholder]
      rfl

end Environment

/-! ## Assignments -/

/-- An assignment succeeds when a lookup finds the name, and as a step of a machine it faults otherwise and leaves the
machine as it is. It writes one slot, and it is read back up to the receiver of a function unless the active record has
the name and something else has it in the innermost frame: then a lookup finds what it found before. -/
theorem assignment_is_read_back_unless_hidden (env : Environment) (h : Heap) (name : String) (v : Value) :
    (env.assign h name v = none ↔ env.lookup h name = none) ∧
    (∀ (m : Machine) held, m.env = env → m.world.heap = h → (Eval.assign name v).runFrom held m =
      match env.assign h name v with
      | none => (.error (.fault (.ofCause (.unboundName name))), m)
      | some (env', h') => (.ok (), { m with env := env', world := { m.world with heap := h' } })) ∧
    ∀ env' h', env.assign h name v = some (env', h') →
      (∃ holder, env.Writes h name v holder env' h') ∧
      (env.Hides h name → env'.lookup h' name = env.lookup h name) ∧
      (¬env.Hides h name → (env'.lookup h' name).map Value.withoutReceiver = some v.withoutReceiver) := by
  refine ⟨?_, ?_, ?_⟩
  · rw [Environment.assign, Option.map_eq_none_iff]
    exact Environment.target?_eq_none
  · rintro m held rfl rfl
    rw [Eval.assign, Eval.runFrom_bind, Eval.runFrom_target?, Environment.assign]
    cases m.env.target? m.world.heap name <;> rfl
  · intro env' h' ha
    obtain ⟨holder, ht, hput⟩ := Option.map_eq_some_iff.1 ha
    have hw := Environment.writes_put (Environment.isSome_slot?_of_target? ht) v
    rw [hput] at hw
    refine ⟨⟨holder, hw⟩, fun hhides => ?_, fun hshown => ?_⟩
    · exact hw.lookup_of_ne fun hs => (Environment.source?_eq_target? ht).1 hs hhides
    · rw [hw.lookup_of_eq ((Environment.source?_eq_target? ht).2 hshown)]
      exact congrArg some (holder.withoutReceiver_keeps v)

/-- In front of a record that is active, a variable hides the property of the same name. Once the record stands open it
does not. -/
theorem hidden_property_is_not_read_back :
    let h := (Heap.empty.ofEntries [("count", .bool false)]).2
    let outside : Environment := (Environment.new.define h "count" .nil).1.enter ⟨0⟩
    let inside := outside.pushRecord ⟨0⟩
    (∃ env' h', outside.assign h "count" (.bool true) = some (env', h') ∧ env'.lookup h' "count" = some .nil) ∧
    (∃ env' h', inside.assign h "count" (.bool true) = some (env', h') ∧
      (env'.lookup h' "count").map Value.withoutReceiver = some (.bool true)) ∧
    outside.assign h "total" .nil = none ∧
    ∀ (m : Machine), m.env = outside → m.world.heap = h →
      (Eval.assign "total" .nil).runFrom [] m = (.error (.fault (.ofCause (.unboundName "total"))), m) := by
  intro h outside inside
  have hvariable : outside.Finds h "count" 0 (.locals (Bindings.empty.set "count" .nil)) := by
    refine ⟨rfl, rfl, fun j inner hj hinner => ?_⟩
    have hlt : j < 1 := (Array.getElem?_eq_some_iff.1 hinner).1
    omega
  have hinside : inside.Finds h "count" 1 (.record ⟨0⟩) := by
    refine ⟨rfl, rfl, fun j inner hj hinner => ?_⟩
    have hlt : j < 2 := (Array.getElem?_eq_some_iff.1 hinner).1
    omega
  have hunbound : outside.lookup h "total" = none := Option.isNone_iff_eq_none.1 (by decide +kernel)
  have hassign := (assignment_is_read_back_unless_hidden outside h "total" .nil).1.2 hunbound
  refine ⟨?_, ?_, ?_, fun m hm hheap => ?_⟩
  · refine ⟨_, _, rfl, ?_⟩
    have hhides : outside.Hides h "count" := ⟨⟨0⟩, rfl, rfl, 0, _, hvariable, Frame.noConfusion⟩
    rw [((assignment_is_read_back_unless_hidden outside h "count" (.bool true)).2.2 _ _ rfl).2.1 hhides]
    exact hvariable.lookup
  · refine ⟨_, _, rfl, ?_⟩
    refine ((assignment_is_read_back_unless_hidden inside h "count" (.bool true)).2.2 _ _ rfl).2.2 ?_
    rintro ⟨r, hactive, -, i, frame, hf, hne⟩
    cases hactive
    have hsame := hf.holder?.symm.trans hinside.holder?
    cases frame with
    | locals names => cases hsame
    | record q =>
      cases hsame
      exact hne rfl
  · exact hassign
  · have hstep := (assignment_is_read_back_unless_hidden outside h "total" .nil).2.1 m [] hm hheap
    rwa [hassign] at hstep

end DynScript
