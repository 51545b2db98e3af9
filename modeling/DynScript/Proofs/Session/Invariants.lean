import DynScript.Proofs.Session.Accepted
import DynScript.Proofs.Session.Loading

/-!
# What holds after every operation of a session

Operations evaluate nothing but entry units and imports. A property of the records and the units that these keep
therefore holds whatever has happened in a session.
-/

namespace DynScript

/-- A property of what all units share that holds after evaluation if it held before. -/
structure Session.Invariant (P : World → Prop) (fuel : Nat) : Prop where
  /-- It has to do only with the records and the units. -/
  same : ∀ {w w' : World}, w'.heap = w.heap → w'.units = w.units → P w → P w'
  /-- Entry units keep it. -/
  entry : ∀ (s : Session) (unit : CompiledUnit), unit.program.Accepted → ∀ held (m : Machine), P m.world →
    P ((s.entry (evalWithin · fuel) unit).runFrom held m).2.world
  /-- Imports keep it. -/
  load : ∀ settings roots request held (m : Machine), P m.world →
    P ((Loader.ofSession settings roots (evalWithin (.ofSession settings roots) fuel) request).runFrom held m).2.world

namespace Session

variable {α β : Type} {P : World → Prop} {fuel : Nat} {s : Session}

/-- If an operation ends, a property holds then. -/
def Ensures (P : World → Prop) (e : Except Stuck (α × Session)) : Prop := ∀ a s, e = .ok (a, s) → P s.world

namespace Ensures

theorem bind {e : Except Stuck (α × Session)} {k : α × Session → Except Stuck (β × Session)} (he : Ensures P e)
    (hk : ∀ a s, e = .ok (a, s) → P s.world → Ensures P (k (a, s))) : Ensures P (e >>= k) := by
  intro b s' h
  obtain ⟨⟨a, s⟩, hfirst, h⟩ := ok_of_bind h
  exact hk a s hfirst (he a s hfirst) b s' h

/-- A step outside of all units that keeps the property. -/
theorem outsideUnits {x : Eval α} (hx : P (x.runFrom [] (Machine.idle s.world)).2.world) :
    Ensures P (s.outsideUnits x) := by
  intro outcome s' h
  rw [outsideUnits_eq] at h
  obtain rfl := world_of_left h
  exact hx

end Ensures

theorem accepted_of_compile {path : Path} {role : Role} {unit : CompiledUnit} {s' : Session}
    (h : s.compile path role = .ok (.ok unit, s')) : unit.program.Accepted := by
  unfold Session.compile at h
  split at h
  · cases h
  · rename_i c hc
    exact compileFile_accepted hc (congrArg Prod.fst (Except.ok.inj h))

namespace Invariant

variable (hP : Invariant P fuel) (hs : P s.world)
include hP hs

/-- Nothing happens to the records and the units. -/
theorem pure {s' : Session} (a : α) (hheap : s'.world.heap = s.world.heap)
    (hunits : s'.world.units = s.world.units) : Ensures P (Pure.pure (a, s')) := by
  intro b t h
  obtain ⟨rfl, rfl⟩ := Prod.mk.inj (Except.ok.inj h)
  exact hP.same hheap hunits hs

theorem runUnit {unit : CompiledUnit} (hu : unit.program.Accepted) : Ensures P (s.runUnit (evalWithin · fuel) unit) := by
  intro status s' h
  rw [runUnit_eq] at h
  obtain ⟨⟨outcome, left⟩, hleft, h⟩ := ok_of_bind h
  obtain rfl := world_of_left hleft
  have hsecond : (ended unit outcome _).2 = s' := congrArg Prod.snd (Except.ok.inj h)
  rw [← hsecond, world_ended]
  have hbegun : P ((Machine.idle s.world).withCache (·.start unit.path)).world := hP.same (w := s.world) rfl rfl hs
  have hrun := hP.entry s unit hu [] _ hbegun
  apply hP.same _ _ hrun <;> rfl

theorem compile (path : Path) (role : Role) : Ensures P (s.compile path role) := by
  unfold Session.compile
  split
  · exact fun _ _ h => nomatch h
  · rename_i c _
    have hunits := congrArg World.units (Eval.Plain.emit_withUnits s.world c.queue path s.world.units)
    exact hP.pure hs _ (Eval.Still.heap_emit ..) hunits

theorem runEntryBy (path : Path) : Ensures P (s.runEntryBy (evalWithin · fuel) path) := by
  unfold Session.runEntryBy
  split
  · exact hP.pure hs _ rfl rfl
  · rename_i file _
    refine (hP.compile hs file .entry).bind fun result s' hcompile hs' => ?_
    cases result with
    | error e => exact hP.pure hs' _ rfl rfl
    | ok unit => exact hP.runUnit hs' (accepted_of_compile hcompile)

theorem perform (operation : Operation) : Ensures P (s.perform (evalWithin · fuel) operation) := by
  cases operation with
  | run path =>
    refine (hP.runEntryBy hs path).bind fun result s' _ hs' => ?_
    cases result with
    | error e => exact hP.pure hs' _ rfl rfl
    | ok status => exact hP.pure hs' _ rfl rfl
  | check path role =>
    have hcheck : Ensures P (s.check path role) := (hP.compile hs path role).bind fun _ _ _ hs' => hP.pure hs' _ rfl rfl
    refine hcheck.bind fun result s' _ hs' => ?_
    cases result with
    | error e => exact hP.pure hs' _ rfl rfl
    | ok _ => exact hP.pure hs' _ rfl rfl
  | load request =>
    have hload : Ensures P (s.loadBy (evalWithin · fuel) request) := .outsideUnits (hP.load _ _ _ _ _ hs)
    exact hload.bind fun _ _ _ hs' => hP.pure hs' _ rfl rfl
  | edit disk => exact hP.pure hs _ rfl rfl

theorem performAll (operations : List Operation) : Ensures P (s.performAll (evalWithin · fuel) operations) := by
  induction operations generalizing s with
  | nil => exact hP.pure hs _ rfl rfl
  | cons operation rest ih =>
    refine (hP.perform hs operation).bind fun _ _ _ hs' => ?_
    exact (ih hs').bind fun _ _ _ hs'' => hP.pure hs'' _ rfl rfl

end Invariant

end Session

end DynScript
