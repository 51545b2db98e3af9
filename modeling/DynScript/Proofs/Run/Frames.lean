import Mathlib.Tactic
import DynScript.Run.Environment

/-!
# Frames and the names that they have

The search for a name goes through the frames from the innermost one on, and it comes to the first frame that has the
name: `Environment.Finds`. A lookup and an assignment are told by this frame and the active record alone, and giving a
name a value changes one frame or one record.
-/

namespace DynScript

namespace Environment

variable {env : Environment} {h : Heap} {name : String} {v : Value} {i n : Nat} {frame : Frame} {holder : Holder}

/-! ## Frames -/

theorem size_frames_pos (env : Environment) : 0 < env.frames.size := env.nonempty

/-- The frames that stood before a frame is opened. -/
theorem getElem?_push (hi : i < env.frames.size) : (env.frames.push frame)[i]? = env.frames[i]? := by
  rw [Array.getElem?_push, if_neg (Nat.ne_of_lt hi)]

theorem toList_frames_truncate (depth : Nat) :
    (env.truncate depth).frames.toList = env.frames.toList.take (max depth 1) := Array.toList_shrink

theorem getElem?_truncate {depth : Nat} (hi : i < max depth 1) : (env.truncate depth).frames[i]? = env.frames[i]? := by
  rw [← Array.getElem?_toList, ← Array.getElem?_toList, toList_frames_truncate, List.getElem?_take, if_pos hi]

theorem mem_frames_truncate {depth : Nat} (hf : frame ∈ (env.truncate depth).frames) : frame ∈ env.frames := by
  rw [← Array.mem_toList_iff, toList_frames_truncate] at hf
  exact Array.mem_toList_iff.1 (List.mem_of_mem_take hf)

/-- The innermost frame is there. -/
theorem exists_innermost (env : Environment) :
    ∃ frame, env.frames[env.depth - 1]? = some frame ∧ env.innermost = frame.holder (env.depth - 1) := by
  have hlast : env.frames.size - 1 < env.frames.size := Nat.sub_one_lt_of_lt env.size_frames_pos
  have hframe := Array.getElem?_eq_getElem hlast
  refine ⟨_, hframe, ?_⟩
  rw [innermost, Array.back?_eq_getElem?, hframe]
  rfl

/-- A frame of an environment in which a name was given a value stood there before, except for this value. -/
theorem mem_frames_put (hf : frame ∈ (env.put h name v holder).1.frames) :
    frame ∈ env.frames ∨ ∃ old ∈ env.frames, frame = old.setLocal name v := by
  cases holder with
  | record r => exact .inl hf
  | locals index =>
    replace hf : frame ∈ env.frames.modify index (Frame.setLocal name v) := hf
    obtain ⟨i, hi, rfl⟩ := Array.getElem_of_mem hf
    rw [Array.getElem_modify]
    split
    · exact .inr ⟨_, Array.getElem_mem _, rfl⟩
    · exact .inl (Array.getElem_mem _)

/-- What is held can be had. -/
theorem get?_holder (hf : env.frames[i]? = some frame) : env.get? h name (frame.holder i) = (frame.names h).get? name := by
  cases frame with
  | locals names =>
    show env.frames[i]?.bind (Frame.get? h name) = _
    rw [hf]
    rfl
  | record r => rfl

/-! ## Searching -/

/-- A frame is the innermost one that has a name. -/
structure Finds (env : Environment) (h : Heap) (name : String) (i : Nat) (frame : Frame) : Prop where
  /-- The frame is there. -/
  there : env.frames[i]? = some frame
  /-- It has the name. -/
  has : (frame.names h).has name
  /-- Those inside of it do not. -/
  innermost : ∀ j inner, i < j → env.frames[j]? = some inner → ¬(inner.names h).has name

theorem Finds.mem (hf : env.Finds h name i frame) : frame ∈ env.frames := Array.mem_of_getElem? hf.there

/-- There is one innermost frame that has a name. -/
theorem Finds.unique {j : Nat} {frame' : Frame} (hf : env.Finds h name i frame) (hk : env.Finds h name j frame') :
    i = j ∧ frame = frame' := by
  rcases lt_trichotomy i j with hij | rfl | hji
  · exact absurd hk.has (hf.innermost j frame' hij hk.there)
  · exact ⟨rfl, Option.some.inj (hf.there.symm.trans hk.there)⟩
  · exact absurd hf.has (hk.innermost i frame hji hf.there)

/-- The search ends in a frame that has the name, and otherwise it goes on. -/
theorem holderBelow?_succ (hf : env.frames[n]? = some frame) :
    env.holderBelow? h (mark name) name (n + 1) =
      if (frame.names h).has name then some (frame.holder n) else env.holderBelow? h (mark name) name n := by
  rw [holderBelow?, hf]
  dsimp only
  rw [Frame.hasMarked_mark]
  rfl

/-- Where the frames from some number on do not have a name, the search among those before them comes to the innermost
frame that has it, or no frame has it. -/
theorem finds_of_holderBelow? (hn : n ≤ env.depth)
    (hinner : ∀ j inner, n ≤ j → env.frames[j]? = some inner → ¬(inner.names h).has name) :
    match env.holderBelow? h (mark name) name n with
    | some holder => ∃ i frame, env.Finds h name i frame ∧ frame.holder i = holder
    | none => ∀ frame ∈ env.frames, ¬(frame.names h).has name := by
  induction n with
  | zero =>
    intro frame hmem
    obtain ⟨j, hj⟩ := Array.mem_iff_getElem?.1 hmem
    exact hinner j frame j.zero_le hj
  | succ n ih =>
    obtain ⟨last, hlast⟩ : ∃ last, env.frames[n]? = some last := ⟨_, Array.getElem?_eq_getElem hn⟩
    rw [holderBelow?_succ hlast]
    by_cases hname : (last.names h).has name
    · rw [if_pos hname]
      exact ⟨n, last, ⟨hlast, hname, hinner⟩, rfl⟩
    · rw [if_neg hname]
      refine ih (by omega) fun j inner hj hinner' => ?_
      rcases hj.eq_or_lt with rfl | hj
      · rw [hlast] at hinner'
        obtain rfl := Option.some.inj hinner'
        exact hname
      · exact hinner j inner hj hinner'

/-- What the search comes to. -/
theorem finds_of_search (env : Environment) (h : Heap) (name : String) :
    match env.holder? h name with
    | some holder => ∃ i frame, env.Finds h name i frame ∧ frame.holder i = holder
    | none => ∀ frame ∈ env.frames, ¬(frame.names h).has name :=
  finds_of_holderBelow? le_rfl fun _ _ hj hinner => absurd (Array.getElem?_eq_some_iff.1 hinner).1 (Nat.not_lt.2 hj)

/-- A name is held by the innermost frame that has it. -/
theorem finds_of_holder? (hh : env.holder? h name = some holder) :
    ∃ i frame, env.Finds h name i frame ∧ frame.holder i = holder := by
  have hsearch := env.finds_of_search h name
  rwa [hh] at hsearch

/-- Nothing holds a name that no frame has. -/
theorem holder?_eq_none : env.holder? h name = none ↔ ∀ frame ∈ env.frames, ¬(frame.names h).has name := by
  refine ⟨fun hh => ?_, fun hnone => Option.eq_none_iff_forall_ne_some.2 fun holder hh => ?_⟩
  · have hsearch := env.finds_of_search h name
    rwa [hh] at hsearch
  · obtain ⟨i, frame, hf, -⟩ := finds_of_holder? hh
    exact hnone frame hf.mem hf.has

/-- Either a name is found in some frame, or no frame has it. -/
theorem finds_or_none (env : Environment) (h : Heap) (name : String) :
    (∃ i frame, env.Finds h name i frame) ∨ ∀ frame ∈ env.frames, ¬(frame.names h).has name := by
  cases hh : env.holder? h name with
  | none => exact .inr (holder?_eq_none.1 hh)
  | some holder =>
    obtain ⟨i, frame, hf, -⟩ := finds_of_holder? hh
    exact .inl ⟨i, frame, hf⟩

/-- The innermost frame that has a name holds it. -/
theorem Finds.holder? (hf : env.Finds h name i frame) : env.holder? h name = some (frame.holder i) := by
  cases hh : env.holder? h name with
  | none => exact absurd hf.has (holder?_eq_none.1 hh frame hf.mem)
  | some holder =>
    obtain ⟨j, frame', hf', rfl⟩ := finds_of_holder? hh
    obtain ⟨rfl, rfl⟩ := hf.unique hf'
    rfl

/-! ## Looking names up -/

/-- A name stands for what the innermost frame that has it says. -/
theorem Finds.lookup (hf : env.Finds h name i frame) : env.lookup h name = (frame.names h).get? name := by
  rw [Environment.lookup, hf.holder?]
  exact get?_holder hf.there

/-- A name that no frame has is one of the active record. -/
theorem lookup_of_none (hnone : ∀ frame ∈ env.frames, ¬(frame.names h).has name) :
    env.lookup h name = env.active?.bind fun r => h.property? r name := by
  rw [Environment.lookup, holder?_eq_none.2 hnone]

/-- Where a name gets its value from. -/
theorem lookup_cases (hv : env.lookup h name = some v) :
    (∃ frame ∈ env.frames, (frame.names h).get? name = some v) ∨
      ∃ r, env.active? = some r ∧ h.property? r name = some v := by
  rcases env.finds_or_none h name with ⟨i, frame, hf⟩ | hnone
  · exact .inl ⟨frame, hf.mem, hf.lookup ▸ hv⟩
  · rw [lookup_of_none hnone] at hv
    exact .inr (Option.bind_eq_some_iff.1 hv)

/-- A name is assigned in the active record if this has the name, and in the innermost frame that has it otherwise. -/
theorem target?_cases (ht : env.target? h name = some holder) :
    (∃ r, env.active? = some r ∧ h.has r name ∧ holder = .record r) ∨
      ((∀ r, env.active? = some r → ¬h.has r name) ∧ env.holder? h name = some holder) := by
  unfold target? at ht
  split at ht
  · rename_i r hr
    obtain ⟨hactive, hname⟩ := Option.filter_eq_some_iff.1 hr
    exact .inl ⟨r, hactive, hname, (Option.some.inj ht).symm⟩
  · rename_i hr
    exact .inr ⟨fun r hactive => Option.filter_eq_none_iff.1 hr r hactive, ht⟩

end Environment

end DynScript
