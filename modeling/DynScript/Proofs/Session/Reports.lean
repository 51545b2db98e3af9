import DynScript.Proofs.Run.Positions
import DynScript.Proofs.Run.Returns
import DynScript.Proofs.Session.Manners

/-!
# Reports of faults

A session that reports a fault names the file of the unit in whose run the fault arose. The place that stands in the
report belongs to the text of this file, unless the fault came out of a function or a class of another unit that was
called: the place is then one in that unit.
-/

namespace DynScript

namespace Eval

variable {α : Type}

/-- The faults in which the run of a unit in a machine of its own ends. -/
theorem Leaving.inNewMachine {unit : CompiledUnit} {Φ : Fault → Prop} {x : Eval α}
    (hx : ∀ id, Leaving id unit.program.arena Φ x) (maxDepth : Nat) : Stops Φ (inNewMachine unit maxDepth x) := by
  intro held m fault hf
  refine (hx (m.world.addUnit unit.program.arena).1).fault (m.kept held)
    (Machine.start (m.world.addUnit unit.program.arena).2 (m.world.addUnit unit.program.arena).1 unit.directory maxDepth)
    ⟨rfl, ?_⟩ fault hf
  simp [Machine.start, World.addUnit]

/-- No return leaves the call of `main`. -/
theorem Stops.invokeMain (eval : Evaluator) : Stops (·.cause.Quiet) (invokeMain eval) := by
  refine bind (simple (fun _ h => h.cause) (.lookup? _)) fun value => ?_
  split
  · refine bind (functionParts (fun _ h => h.cause) _) fun (params, body) => ?_
    dsimp only
    split
    · refine bind (fun held m => ?_) fun _ => simple (fun _ h => h.cause) (.pure _)
      exact callFunction .usual eval _ [] none _ m
    · exact simple (fun _ h => h.cause) (.pure _)
  · exact simple (fun _ h => h.cause) (.pure _)

/-- What compiling finds is printed. -/
theorem runFrom_compiled {path : Path} {role : Role} {c : Compilation} (held : List Value) {m : Machine}
    (hc : compileFile m.world.host.disk path role = .ok c) :
    (compiled path role).runFrom held m = (.ok c.result, { m with world := m.world.emit c.queue path }) := by
  rw [compiled, runFrom_bind, runFrom_get]
  dsimp only
  rw [hc]
  rfl

/-- A module that ends in a fault which is no signal is reported with its file. -/
theorem runFrom_moduleRecord_fault {settings : Settings} {eval : Evaluator} {path : Path} {dotted : String}
    {held : List Value} {m n : Machine} {c : Compilation} {unit : CompiledUnit} {fault : Fault}
    (hc : compileFile m.world.host.disk path .module = .ok c) (hu : c.result = .ok unit)
    (hrun : (inNewMachine unit settings.maxDepth (runUnit eval unit.program.body)).runFrom held
      { m with world := m.world.emit c.queue path } = (.error (.fault fault), n)) (hsignal : fault.isSignal = false) :
    (moduleRecord settings eval path dotted).runFrom held m =
      (importFailure dotted (.faulted path fault)).runFrom held n := by
  rw [moduleRecord, runFrom_bind, runFrom_compiled held hc]
  dsimp only
  rw [hu]
  dsimp only
  rw [runFrom_bind, attempt, runFrom_finishing, hrun]
  dsimp only
  rw [if_neg (by simp [hsignal])]

end Eval

namespace Session

/-- The place of a fault in which an entry unit ends belongs to the unit, in the confined manner. -/
theorem stops_confined (s : Session) (fuel : Nat) (unit : CompiledUnit) :
    Eval.Stops unit.program.arena.Placed (s.entryInManner .confined fuel unit) := by
  refine Eval.Leaving.inNewMachine (fun id => ?_) s.settings.maxDepth
  let imports : Imports := .session s.settings (some (s.settings.rootsFor unit.directory))
  have heval (i : NodeId) := Eval.Leaving.confined imports fuel id unit.program.arena i
  exact (Eval.Leaving.runUnit heval _).bind fun _ =>
    (Eval.Leaving.invokeMain heval (.evaluator Manner.confined_restoring imports fuel)).bind fun _ =>
      .simple unit.program.arena.admits_placed.fresh (.pure _)

theorem agrees_confined (s : Session) (fuel : Nat) (unit : CompiledUnit) :
    Eval.Agrees (s.entry (evalWithin · fuel) unit) (s.entryInManner .confined fuel unit) := by
  rw [← entryInManner_usual]
  exact .entryInManner Manner.confined_agrees s fuel unit

/-- Compiling a unit does not run it. -/
theorem not_faulted_of_compileFile {disk : Disk} {path file : Path} {role : Role} {c : Compilation} {fault : Fault}
    (h : compileFile disk path role = .ok c) : c.result ≠ .error (.faulted file fault) := by
  intro hfaulted
  unfold compileFile DynScript.compile at h
  split at h
  · obtain rfl := Except.ok.inj h
    cases hfaulted
  · split at h
    · obtain rfl := Except.ok.inj h
      cases hfaulted
    · split at h
      · cases h
      · split at h <;> obtain rfl := Except.ok.inj h <;> cases hfaulted

/-- A unit whose run is reported has ended in the fault, which is no signal. -/
theorem faulted_of_runUnit {s s' : Session} {fuel : Nat} {unit : CompiledUnit} {file : Path} {fault : Fault}
    (h : s.runUnit (evalWithin · fuel) unit = .ok (.error (.faulted file fault), s')) :
    unit.path = file ∧ fault.isSignal = false ∧
      ((s.entry (evalWithin · fuel) unit).runFrom [] ((Machine.idle s.world).withCache (·.start unit.path))).1 =
        .error (.fault fault) := by
  have hquiet : Eval.Stops (·.cause.Quiet) (s.entry (evalWithin · fuel) unit) :=
    (Eval.Stops.bind (Eval.Stops.runUnit _ _) fun _ => (Eval.Stops.invokeMain _).bind fun _ =>
      .simple (fun _ h => h.cause) (.pure _)).inNewMachine unit s.settings.maxDepth
  rw [runUnit_eq] at h
  obtain ⟨⟨outcome, t⟩, hleft, hended⟩ := ok_of_bind h
  rcases hrun : (s.entry (evalWithin · fuel) unit).runFrom [] ((Machine.idle s.world).withCache (·.start unit.path)) with
    ⟨⟨inner | stuck⟩ | value, n⟩ <;> rw [hrun] at hleft
  · obtain ⟨rfl, -⟩ := Prod.mk.inj (Except.ok.inj hleft)
    have hinner := hquiet _ _ inner (congrArg Prod.fst hrun)
    obtain ⟨cause, position, backtrace⟩ := inner
    cases cause with
    | returning value => exact absurd rfl (hinner value)
    | exiting code => cases hended
    | _ =>
      obtain ⟨rfl, rfl⟩ := LoadError.faulted.inj (Except.error.inj (Prod.mk.inj (Except.ok.inj hended)).1)
      exact ⟨rfl, rfl, rfl⟩
  · cases hleft
  · obtain ⟨rfl, -⟩ := Prod.mk.inj (Except.ok.inj hleft)
    cases hended

/-- The run of an entry unit that is reported was the run of the unit in the file that is named. -/
theorem faulted_of_runEntry {s s' : Session} {fuel : Nat} {path file : Path} {fault : Fault}
    (h : s.runEntry fuel path = .ok (.error (.faulted file fault), s')) :
    s.world.host.disk.canonical path = .ok file ∧
    ∃ c unit, compileFile s.world.host.disk file .entry = .ok c ∧ c.result = .ok unit ∧ unit.path = file ∧
      fault.isSignal = false ∧
      let begun : Session := { s with world := s.world.emit c.queue file }
      ((begun.entry (evalWithin · fuel) unit).runFrom [] ((Machine.idle begun.world).withCache (·.start file))).1 =
        .error (.fault fault) := by
  unfold runEntry runEntryBy at h
  cases hcanonical : s.world.host.disk.canonical path with
  | error e =>
    rw [hcanonical] at h
    cases h
  | ok found =>
    rw [hcanonical] at h
    obtain ⟨⟨result, t⟩, hcompile, h⟩ := ok_of_bind h
    unfold Session.compile at hcompile
    cases hc : compileFile s.world.host.disk found .entry with
    | error d =>
      rw [hc] at hcompile
      cases hcompile
    | ok c =>
      rw [hc] at hcompile
      obtain ⟨rfl, rfl⟩ := Prod.mk.inj (Except.ok.inj hcompile)
      cases hu : c.result with
      | error e =>
        rw [hu] at h
        obtain rfl := Except.error.inj (Prod.mk.inj (Except.ok.inj h)).1
        exact absurd hu (not_faulted_of_compileFile hc)
      | ok unit =>
        rw [hu] at h
        have hfound := path_of_compileFile hc hu
        obtain ⟨hpath, hsignal, hrun⟩ := faulted_of_runUnit h
        obtain rfl := hfound.symm.trans hpath
        exact ⟨rfl, c, unit, hc, hu, hpath, hsignal, hpath ▸ hrun⟩

end Session

/-- The file whose evaluation has failed, if this is how a run ends. -/
def faultedFile? : Except LoadError RunStatus → Option Path
  | .error (.faulted file _) => some file
  | _ => none

theorem exists_of_faultedFile? {outcome : Except LoadError RunStatus} {file : Path}
    (h : faultedFile? outcome = some file) : ∃ fault, outcome = .error (.faulted file fault) := by
  unfold faultedFile? at h
  split at h
  · obtain rfl := Option.some.inj h
    exact ⟨_, rfl⟩
  · cases h

/-- A report of the fault in which the run of an entry unit or the evaluation of a module ends names the file that the
unit was read from. Its place belongs to the nodes of this unit, or else the same run gets stuck in the manner that
lets no fault out of a call into another unit with a place in there. -/
theorem reported_places_belong_to_the_file (fuel : Nat) :
    (∀ (s s' : Session) path file fault, s.runEntry fuel path = .ok (.error (.faulted file fault), s') →
      ∃ c unit, compileFile s.world.host.disk file .entry = .ok c ∧ c.result = .ok unit ∧ unit.path = file ∧
        let begun : Session := { s with world := s.world.emit c.queue file }
        (∀ p, fault.position = some p → unit.program.arena.HasPlace p) ∨
          ∃ d, ((begun.entryInManner .confined fuel unit).runFrom []
            ((Machine.idle begun.world).withCache (·.start file))).1 = .error (.stuck (.defect d))) ∧
      ∀ settings roots path dotted held (m : Machine) c unit,
        compileFile m.world.host.disk path .module = .ok c → c.result = .ok unit →
          unit.path = path ∧
          let compiled : Machine := { m with world := m.world.emit c.queue path }
          let run (M : Manner) := (Eval.runInManner M settings roots fuel unit).runFrom held compiled
          ∀ fault, (run .usual).1 = .error (.fault fault) → fault.isSignal = false →
            (Eval.moduleRecord settings (evalWithin (.ofSession settings roots) fuel) path dotted).runFrom held m =
              (Eval.importFailure dotted (.faulted path fault)).runFrom held (run .usual).2 ∧
            ((∀ p, fault.position = some p → unit.program.arena.HasPlace p) ∨
              ∃ d, (run .confined).1 = .error (.stuck (.defect d))) := by
  refine ⟨fun s s' path file fault h => ?_, fun settings roots path dotted held m c unit hc hu =>
    ⟨Session.path_of_compileFile hc hu, ?_⟩⟩
  · obtain ⟨-, c, unit, hc, hu, hpath, hsignal, hrun⟩ := Session.faulted_of_runEntry h
    refine ⟨c, unit, hc, hu, hpath, ?_⟩
    intro begun
    rcases Session.agrees_confined begun fuel unit [] ((Machine.idle begun.world).withCache (·.start file)) with hsame | hd
    · refine .inl ((Session.stops_confined begun fuel unit []
        ((Machine.idle begun.world).withCache (·.start file)) fault ?_).resolve_left (by simp [hsignal]))
      rw [hsame]
      exact hrun
    · exact .inr hd
  · intro compiled run fault hfault hsignal
    have hplaced : Eval.Stops unit.program.arena.Placed (Eval.runInManner .confined settings roots fuel unit) :=
      Eval.Leaving.inNewMachine (fun id => .runUnit (fun i => .confined (.session settings roots) fuel id _ i) _)
        settings.maxDepth
    refine ⟨?_, ?_⟩
    · rw [← Manner.evaluator_usual]
      exact Eval.runFrom_moduleRecord_fault hc hu (Prod.ext hfault rfl) hsignal
    · rcases Eval.Agrees.runInManner Manner.confined_agrees settings roots fuel unit held compiled with hsame | hd
      · exact .inl ((hplaced held compiled fault (by rw [hsame]; exact hfault)).resolve_left (by simp [hsignal]))
      · exact .inr hd

/-- A unit that calls `nil` is reported with its own file. -/
theorem fault_of_called_nil_belongs_to_its_file :
    let s := Session.new .standard .silent ⟨⟨[(["m"], .file "nil()".toUTF8)], []⟩, [], .still⟩
    ∃ s' fault, s.runEntry 9 ⟨"/m"⟩ = .ok (.error (.faulted ⟨"/m"⟩ fault), s') ∧
      ∃ c unit, compileFile s.world.host.disk ⟨"/m"⟩ .entry = .ok c ∧ c.result = .ok unit ∧ unit.path = ⟨"/m"⟩ ∧
        let begun : Session := { s with world := s.world.emit c.queue ⟨"/m"⟩ }
        (∀ p, fault.position = some p → unit.program.arena.HasPlace p) ∨
          ∃ d, ((begun.entryInManner .confined 9 unit).runFrom []
            ((Machine.idle begun.world).withCache (·.start ⟨"/m"⟩))).1 = .error (.stuck (.defect d)) := by
  intro s
  have hfaults : (s.runEntry 9 ⟨"/m"⟩).toOption.any fun r => faultedFile? r.1 = some ⟨"/m"⟩ := by
    decide +kernel
  obtain ⟨⟨outcome, s'⟩, hrun, houtcome⟩ := exists_of_any hfaults
  obtain ⟨fault, rfl⟩ := exists_of_faultedFile? (of_decide_eq_true houtcome)
  exact ⟨s', fault, hrun, (reported_places_belong_to_the_file 9).1 s s' ⟨"/m"⟩ _ _ hrun⟩

end DynScript
