import Mathlib.Tactic
import DynScript.Run.Native
import DynScript.Run.Operators

/-!
# Operations on values

What operators and functions of the host do with values of some sort: they give a value of that sort, or stop
for an ordinary cause. `Accepts` says what a sort of values and a set of causes need for this.
-/

namespace DynScript

/-- Whether a value refers to nothing. -/
def Value.isPlain : Value → Bool
  | list _ _ | function _ | record _ => false
  | _ => true

/-- Whether a cause is one for which an operation on values may stop. -/
def Cause.isOrdinary : Cause → Bool
  | unboundName _ | duplicateField _ | internal _ | returning _ => false
  | invalidTarget action _ => action ≠ "assign to"
  | _ => true

/-- A computation gives a value of which `P` holds, or stops for a cause of which `C` holds. -/
def Gives {α : Type} (C : Cause → Prop) (P : α → Prop) : Except Cause α → Prop
  | .ok a => P a
  | .error cause => C cause

theorem Gives.bind {α β : Type} {C : Cause → Prop} {P : α → Prop} {P' : β → Prop} {e : Except Cause α}
    {k : α → Except Cause β} (he : Gives C P e) (hk : ∀ a, P a → Gives C P' (k a)) : Gives C P' (e >>= k) := by
  cases e with
  | ok a => exact hk a he
  | error cause => exact he

/-- A sort of values to which plain values belong and lists of values that do, and a set of causes with all
ordinary ones. -/
structure Accepts (S : Value → Prop) (C : Cause → Prop) : Prop where
  /-- The values that refer to nothing. -/
  plain : ∀ {v : Value}, v.isPlain → S v
  /-- The lists. -/
  list : ∀ {id items}, S (.list id items) ↔ ∀ v ∈ items, S v
  /-- The causes. -/
  ordinary : ∀ {cause : Cause}, cause.isOrdinary → C cause

/-- A value of a sort, and a heap that has the same records. -/
abbrev Heap.Makes (S : Value → Prop) (h : Heap) (result : Value × Heap) : Prop :=
  S result.1 ∧ result.2.records = h.records

/-- A function of the host changes nothing but the host. -/
theorem World.callNative_snd (w : World) (n : Native) (args : List Value) :
    (w.callNative n args).2 = { w with host := (w.callNative n args).2.host } := by
  have hwrite (path content : String) : (w.writeFile path content).2 =
      { w with host := (w.writeFile path content).2.host } := by
    unfold World.writeFile
    split <;> rfl
  unfold World.callNative
  split
  case h_2 =>
    split
    · exact hwrite ..
    all_goals rfl
  case h_7 => split <;> rfl
  all_goals rfl

@[simp] theorem World.heap_callNative (w : World) (n : Native) (args : List Value) :
    (w.callNative n args).2.heap = w.heap := by
  rw [w.callNative_snd]

@[simp] theorem World.units_callNative (w : World) (n : Native) (args : List Value) :
    (w.callNative n args).2.units = w.units := by
  rw [w.callNative_snd]

@[simp] theorem World.cache_callNative (w : World) (n : Native) (args : List Value) :
    (w.callNative n args).2.cache = w.cache := by
  rw [w.callNative_snd]

namespace Accepts

variable {S : Value → Prop} {C : Cause → Prop} (H : Accepts S C) {v u : Value}
include H

/-! ## Operators -/

theorem arithmetic (h : Heap) (op : ArithmeticOp) (hv : S v) (hu : S u) :
    Gives C (h.Makes S) (h.arithmetic op v u) := by
  unfold Heap.arithmetic
  split
  · exact ⟨H.plain rfl, rfl⟩
  · exact ⟨H.plain rfl, rfl⟩
  · refine ⟨H.list.2 fun item hitem => ?_, rfl⟩
    rcases Array.mem_append.1 hitem with hitem | hitem
    · exact H.list.1 hv item hitem
    · exact H.list.1 hu item hitem
  · exact H.ordinary rfl

theorem equality (h : Heap) (op : EqualityOp) (v u : Value) : Gives C S (h.equality op v u) := by
  unfold Heap.equality
  split
  · exact H.plain rfl
  · exact H.ordinary rfl

theorem comparison (h : Heap) (op : ComparisonOp) (v u : Value) : Gives C S (h.comparison op v u) := by
  unfold Heap.comparison
  split
  case h_6 => exact H.ordinary rfl
  all_goals exact H.plain rfl

theorem prepend (h : Heap) (hv : S v) (hu : S u) : Gives C (h.Makes S) (h.prepend v u) := by
  cases u with
  | list id items =>
    refine ⟨H.list.2 fun item hitem => ?_, rfl⟩
    rcases Array.mem_append.1 hitem with hitem | hitem
    · obtain rfl : item = v := by simpa using hitem
      exact hv
    · exact H.list.1 hu item hitem
  | _ => exact H.ordinary rfl

theorem negate (v : Value) : Gives C S v.negate := by
  cases v with
  | number x => exact H.plain rfl
  | _ => exact H.ordinary rfl

theorem len (v : Value) : Gives C S v.len := by
  cases v with
  | list id items => exact H.plain rfl
  | string s => exact H.plain rfl
  | _ => exact H.ordinary rfl

theorem itemAt (hv : S v) (u : Value) : Gives C S (v.itemAt u) := by
  unfold Value.itemAt
  split
  · dsimp only
    split
    · split
      · rename_i item hitem
        split at hitem
        · exact H.list.1 hv item (Array.mem_of_getElem? hitem)
        · cases hitem
      · exact H.ordinary rfl
    · split
      · exact H.plain rfl
      · exact H.ordinary rfl
    · exact H.ordinary rfl
  · exact H.ordinary rfl

/-! ## Functions of the host -/

theorem callNative (w : World) (n : Native) (args : List Value) : Gives C S (w.callNative n args).1 := by
  have hstring (n : Native) (v : Value) : Gives C (fun _ => True) (n.expectString v) := by
    cases v with
    | string s => trivial
    | _ => exact H.ordinary rfl
  have hnumber (n : Native) (v : Value) : Gives C (fun _ => True) (n.expectNumber v) := by
    cases v with
    | number x => trivial
    | _ => exact H.ordinary rfl
  have hread (path : String) : Gives C S (w.readFile path) := by
    unfold World.readFile
    split
    · exact H.plain rfl
    · exact H.ordinary rfl
  have hwrite (path content : String) : Gives C S (w.writeFile path content).1 := by
    unfold World.writeFile
    split
    · exact H.plain rfl
    · exact H.ordinary rfl
  have hassert (condition message : Value) : Gives C S (World.assert condition message) := by
    unfold World.assert
    split
    · exact H.plain rfl
    · exact (hstring _ _).bind fun _ _ => H.ordinary rfl
    · exact H.ordinary rfl
  have hseconds (reading : Reading) : Gives C S (World.secondsOf reading) := by
    unfold World.secondsOf
    split
    · exact H.plain rfl
    · exact H.ordinary rfl
  unfold World.callNative
  split
  · exact (hstring _ _).bind fun path _ => hread path
  · rename_i path content
    have hpath := hstring .ioWrite path
    have hcontent := hstring .ioWrite content
    split
    · exact hwrite ..
    · rename_i hcause
      rwa [hcause] at hcontent
    · rename_i hcause
      rwa [hcause] at hpath
  · exact (hstring _ _).bind fun path _ => H.plain rfl
  · exact hassert _ _
  · exact hseconds _
  · exact H.plain rfl
  · split
    · exact H.plain rfl
    · exact H.ordinary rfl
  · refine (hstring _ _).bind fun name _ => ?_
    cases w.host.valueOf? name with
    | none => exact H.plain rfl
    | some text => exact H.plain rfl
  · exact H.plain rfl
  · exact (hnumber _ _).bind fun code _ => H.ordinary rfl
  · exact H.ordinary rfl

end Accepts

end DynScript
