import DynScript.Proofs.Number.Truncation
import DynScript.Proofs.Session.Halting

/-!
# What an exit leaves behind

An exit travels through everything that looks at faults: calls, loops, blocks, and the loading of modules. The run that
stops dead at the call of the exit function shows what there is at that moment; from there the whole run ends at once.
Nothing is evaluated any more, so that the world may be changed at will when the program asks for the exit, and every
module that was still being loaded is given up without a record.
-/

namespace DynScript

namespace Manner

/-- The usual manner, except that something else is done where an exit is asked for with certain numbers. -/
def exiting (asked : Float → Bool) (leave : Float → Eval Value) : Manner :=
  { usual with
    native := fun n args =>
      match n, args with
      | .systemExit, [.number x] => if asked x then leave x else Eval.callNative n args
      | _, _ => Eval.callNative n args }

/-- The usual manner, except that the world is changed before such an exit. -/
def leaving (asked : Float → Bool) (g : World → World) : Manner :=
  exiting asked fun x => do
    Eval.modifyWorld g
    Eval.callNative .systemExit [.number x]

/-- The usual manner, except that evaluation gets stuck at such an exit, for a reason that is given, and that the modules
that are being loaded there stay in progress. -/
def halting (asked : Float → Bool) (why : Stuck) : Manner :=
  { exiting asked fun _ => throw (.stuck why) with known := Eval.loadOrHalt }

/-- A world that is changed in no way is left as usual. -/
theorem leaving_id (asked : Float → Bool) : leaving asked id = usual := by
  have hnative : (leaving asked id).native = usual.native := by
    funext n args
    show (match n, args with
      | .systemExit, [.number x] =>
        if asked x then (do Eval.modifyWorld id; Eval.callNative .systemExit [.number x]) else Eval.callNative n args
      | _, _ => Eval.callNative n args) = Eval.callNative n args
    split
    · split
      · exact Eval.ext_runFrom fun held m => rfl
      · rfl
    · rfl
  exact congrArg (fun native => { usual with native }) hnative

end Manner

/-- What an exit leaves of a world `w` that was there before. In the world `halted` the exit is asked for with a
number that is watched for; it becomes the world `ended`, changed by `g`. -/
structure World.Exits (asked : Float → Bool) (g : World → World) (w halted ended : World) (cause : Cause) : Prop where
  /-- The cause is the exit with the code of the number. -/
  cause : ∃ x, asked x ∧ cause = .exiting (Native.exitCode x)
  /-- Some modules are still being loaded. -/
  amid : ∃ chain, w.Amid chain halted
  /-- Only these are no longer in progress. -/
  world : ended = (g halted).withLoading w.cache.loading

namespace World.Exits

variable {asked : Float → Bool} {g : World → World}

theorem retold : Eval.Retold (World.Exits asked g) := by
  intro w w' halted ended cause hw h
  obtain ⟨chain, hamid⟩ := h.amid
  exact ⟨h.cause, ⟨chain, hamid.earlier hw⟩, hw.loading ▸ h.world⟩

/-- The exit itself. -/
theorem here {w : World} {x : Float} (hx : asked x) (hg : (g w).cache = w.cache) :
    World.Exits asked g w w (g w) (.exiting (Native.exitCode x)) := by
  refine ⟨⟨x, hx, rfl⟩, ⟨[], .ofProceeds (.refl w)⟩, ?_⟩
  rw [← hg]
  rfl

/-- A module that was being loaded is given up. -/
theorem stop {w halted ended : World} {cause : Cause} {path : Path} (hfree : path.key ∉ w.cache.loading)
    (hnone : w.cache.get? path = none)
    (h : World.Exits asked g (w.withCache (·.start path)) halted ended cause) :
    World.Exits asked g w halted (ended.withCache (·.stop path)) cause := by
  obtain ⟨chain, hamid⟩ := h.amid
  refine ⟨h.cause, ⟨chain ++ [path.key], hamid.start hfree hnone⟩, ?_⟩
  rw [h.world, stop_withLoading hfree]

theorem isSignal {w halted ended : World} {cause : Cause} (h : World.Exits asked g w halted ended cause) :
    cause.isSignal := by
  obtain ⟨x, -, rfl⟩ := h.cause
  rfl

end World.Exits

namespace Manner

open Eval

variable {asked : Float → Bool} {g : World → World}

/-- The run that leaves ends where the other one halts. -/
theorem leaving_halting (hg : ∀ w, (g w).cache = w.cache) (why : Stuck) :
    Alike (fun x y => Halts (World.Exits asked g) x y) (leaving asked g) (halting asked why) := by
  have H : Calling fun x y => Halts (World.Exits asked g) x y :=
    Halts.calling World.Exits.retold
  refine { H.usual with native := fun n args => ?_ }
  show Halts _
    (match n, args with
      | .systemExit, [.number x] => if asked x then (do
          modifyWorld g
          callNative .systemExit [.number x]) else callNative n args
      | _, _ => callNative n args)
    (match n, args with
      | .systemExit, [.number x] => if asked x then throw (.stuck why) else callNative n args
      | _, _ => callNative n args)
  split
  · split
    · rename_i x hx
      exact fun held m hm => .halted rfl nofun rfl (.here hx (hg m.world))
    · exact .ofPlain (.callNative ..)
  · exact .ofPlain (.callNative ..)

end Manner

namespace Eval.Halts

variable {asked : Float → Bool} {g : World → World}

/-- No module gets a record on which an exit comes. -/
theorem moduleRecord_exits {eval eval' : Evaluator} (he : ∀ id, Halts (World.Exits asked g) (eval id) (eval' id))
    (settings : Settings) (path : Path) (dotted : String) :
    Halts (World.Exits asked g) (moduleRecord settings eval path dotted)
      (moduleRecord settings eval' path dotted) := by
  have H : Calling fun x y => Halts (World.Exits asked g) x y := calling World.Exits.retold
  refine H.bind (H.still (.compiled ..)) fun result => ?_
  cases result with
  | error e => exact H.still (.importFailure ..)
  | ok unit =>
    refine attempting World.Exits.retold (inNewMachine World.Exits.retold _ _ (H.runUnit he _)) (fun result => ?_)
      World.Exits.isSignal fun fault hsignal => by simp only [hsignal, if_true]
    cases result with
    | ok exports => exact H.still (.ofEntries _)
    | error fault =>
      dsimp only
      split
      · exact H.raise _
      · exact H.still (.importFailure ..)

end Eval.Halts

namespace Session

/-- The run of an entry unit that ends in a fault. -/
theorem runEntryBy_of_fault {s : Session} (evaluation : Loader → Evaluator) {path : Path} {c : Compilation}
    {unit : CompiledUnit} {fault : Fault} {n : Machine} (hfound : s.world.host.disk.canonical path = .ok unit.path)
    (hc : compileFile s.world.host.disk unit.path .entry = .ok c) (hu : c.result = .ok unit)
    (hrun : let begun : Session := { s with world := s.world.emit c.queue unit.path }
      (begun.entry evaluation unit).runFrom [] ((Machine.idle begun.world).withCache (·.start unit.path)) =
        (.error (.fault fault), n)) :
    s.runEntryBy evaluation path =
      .ok (ended unit (.error fault) ⟨s.settings, n.world, some (s.settings.rootsFor unit.directory)⟩) := by
  have hcompile : s.compile unit.path .entry =
      .ok (.ok unit, { s with world := s.world.emit c.queue unit.path }) := by
    rw [Session.compile, hc]
    dsimp only
    rw [hu]
  unfold runEntryBy
  rw [hfound]
  dsimp only
  rw [hcompile]
  show Session.runUnit _ evaluation unit = _
  rw [runUnit_eq, hrun]
  rfl

/-- An exit ends a run with its code. -/
theorem ended_of_exiting {unit : CompiledUnit} {fault : Fault} {code : Int} (s : Session)
    (hcause : fault.cause = .exiting code) :
    ended unit (.error fault) s = (.ok (.exited code), { s with world := s.world.withCache (·.stop unit.path) }) := by
  obtain ⟨cause, position, backtrace⟩ := fault
  obtain rfl : cause = _ := hcause
  rfl

/-- The run of an entry unit that stops dead where the program asks for an exit with a number that is watched for.
What is in progress then stays so. -/
def haltedAtExit (s : Session) (asked : Float → Bool) (fuel : Nat) (unit : CompiledUnit) (why : Stuck) :
    Except Interruption Unit × Machine :=
  let load : Loader := (Manner.halting asked why).loader s.settings (some (s.settings.rootsFor unit.directory))
  (s.entry (fun _ => (Manner.halting asked why).evaluator load fuel) unit).runFrom []
    ((Machine.idle s.world).withCache (·.start unit.path))

/-- Running a file as an entry unit comes to a call of the exit function with a number that is watched for, wherever
that is, in the world `halted`. The run that stops there is then stuck for the reason that it is given, whichever of
two it is. -/
def MeetsExit (s : Session) (asked : Float → Bool) (fuel : Nat) (path file : Path) (halted : World) : Prop :=
  s.world.host.disk.canonical path = .ok file ∧
    ∃ c unit, compileFile s.world.host.disk file .entry = .ok c ∧ c.result = .ok unit ∧
      let run := ({ s with world := s.world.emit c.queue file } : Session).haltedAtExit asked fuel unit
      ∃ why other, why ≠ other ∧ (run why).1 = .error (.stuck why) ∧ (run why).2.world = halted ∧
        (run other).1 = .error (.stuck other)

/-- An exit that is met is the end of the run. -/
theorem exits_of_meetsExit {s : Session} (hs : s.world.cache.loading = []) {asked : Float → Bool} {fuel : Nat}
    {path file : Path} {halted : World} (hmeets : s.MeetsExit asked fuel path file halted) {g : World → World}
    (hg : ∀ w, (g w).cache = w.cache) :
    (∃ chain, halted.cache.loading = chain ++ [file.key] ∧
        ∀ module : Path, module.key ∈ chain → halted.cache.get? module = none) ∧
      ∃ x t, asked x ∧ s.runEntryBy ((Manner.leaving asked g).evaluator · fuel) path =
          .ok (.ok (.exited (Native.exitCode x)), t) ∧ t.world = (g halted).withLoading [] := by
  obtain ⟨hfound, c, unit, hc, hu, why, other, hne, hwhy, rfl, hother⟩ := hmeets
  obtain rfl := path_of_compileFile hc hu
  let begun : Session := { s with world := s.world.emit c.queue unit.path }
  let start : Machine := (Machine.idle begun.world).withCache (·.start unit.path)
  obtain ⟨hidle, hfree, hstart⟩ := starts hs hfound c.queue
  have hloading : start.world.cache.loading = [unit.path.key] := congrArg (unit.path.key :: ·) hidle
  let run := (begun.entry ((Manner.leaving asked g).evaluator · fuel) unit).runFrom [] start
  have hruns (why : Stuck) : Eval.Halting (World.Exits asked g) start.world run
      (begun.haltedAtExit asked fuel unit why) := by
    refine Eval.Halts.entry World.Exits.retold begun unit (fun id => ?_) [] start hstart
    refine Eval.Halts.evaluator World.Exits.retold (Manner.leaving_halting hg why) (fun he request => ?_) fuel id
    exact Eval.Halts.loader World.Exits.retold rfl (fun path _ => Eval.Halts.moduleRecord_exits he _ path _)
      (fun _ _ hfree hnone h => h.stop hfree hnone) request
  obtain ⟨fault, hfault, hends⟩ := (hruns why).of_reasons (hruns other) hne hwhy hother
  obtain ⟨x, hx, hcause⟩ := hends.cause
  have hended := runEntryBy_of_fault ((Manner.leaving asked g).evaluator · fuel) hfound hc hu
    (Prod.ext hfault rfl)
  rw [ended_of_exiting _ hcause] at hended
  obtain ⟨chain, hamid⟩ := hends.amid
  refine ⟨⟨chain, hloading ▸ hamid.loading, hamid.records⟩, x, _, hx, hended, ?_⟩
  show run.2.world.withCache (·.stop unit.path) = _
  rw [hends.world]
  exact (World.stop_withLoading hfree _).trans (congrArg (g _).withLoading hidle)

end Session

/-- Why a step got stuck, if this is how it ends. -/
def stuckWith? {α : Type} : Except Interruption α → Option Stuck
  | .error (.stuck why) => some why
  | _ => none

theorem eq_of_stuckWith? {α : Type} {result : Except Interruption α} {why : Stuck}
    (h : stuckWith? result = some why) : result = .error (.stuck why) := by
  unfold stuckWith? at h
  split at h
  · exact congrArg (Except.error ∘ Interruption.stuck) (Option.some.inj h)
  · cases h

/-- However a session has gone on from its beginning, when it runs a file as an entry unit and the program comes to a
call of the exit function, in whatever calls, loops, constructors, blocks and modules, then the run ends with the code
of the number that the function was called with, cut down to an integer of 32 bits. The world is then the one in which
the exit was asked for, with all that was printed, except that no unit is in progress any more. None of the modules that
were still being loaded, from the innermost one to the one that the entry unit imports, has a record.

Nothing is evaluated after the exit: the run ends in the same way when the world is changed in whatever way before it,
as long as the cache stays, and the world that it leaves is the changed one. -/
theorem exit_ends_the_run (settings : Settings) (printer : Printer) (host : Host) (fuel : Nat)
    (before : List Session.Operation) (outcomes : List Session.Outcome) (s : Session)
    (hs : (Session.new settings printer host).performAll (evalWithin · fuel) before = .ok (outcomes, s))
    (asked : Float → Bool) (path file : Path) (halted : World) (hmeets : s.MeetsExit asked fuel path file halted) :
    (∃ x chain s', asked x ∧ s.runEntry fuel path = .ok (.ok (.exited (Number.cut (-2 ^ 31) (2 ^ 31 - 1) x)), s') ∧
      s'.world = halted.withLoading [] ∧ halted.cache.loading = chain ++ [file.key] ∧
      ∀ module : Path, module.key ∈ chain → s'.world.cache.get? module = none) ∧
    ∀ g : World → World, (∀ w, (g w).cache = w.cache) →
      ∃ x t, asked x ∧ s.runEntryBy ((Manner.leaving asked g).evaluator · fuel) path =
          .ok (.ok (.exited (Number.cut (-2 ^ 31) (2 ^ 31 - 1) x)), t) ∧ t.world = (g halted).withLoading [] := by
  have hidle : s.world.cache.loading = [] := Session.idle_of_performAll rfl hs
  refine ⟨?_, fun g hg => ?_⟩
  · obtain ⟨⟨chain, hchain, hgone⟩, x, s', hx, hrun, hworld⟩ :=
      Session.exits_of_meetsExit hidle hmeets (g := id) fun _ => rfl
    have husual : ((Manner.leaving asked id).evaluator · fuel) = (evalWithin · fuel) :=
      funext fun load => by rw [Manner.leaving_id, Manner.evaluator_usual]
    rw [husual] at hrun
    refine ⟨x, chain, s', hx, Number.exitCode_eq_cut x ▸ hrun, hworld, hchain, fun module hmodule => ?_⟩
    rw [hworld]
    exact hgone module hmodule
  · obtain ⟨-, x, t, hx, hrun, hworld⟩ := Session.exits_of_meetsExit hidle hmeets hg
    exact ⟨x, t, hx, Number.exitCode_eq_cut x ▸ hrun, hworld⟩

/-- The code of an exit, if this is how a run ends. -/
def exitedWith? : Except LoadError RunStatus → Option Int
  | .ok (.exited code) => some code
  | _ => none

/-- An exit in a function that a module calls while it is imported. -/
theorem exit_while_a_module_is_imported :
    let disk : Disk := ⟨[(["m.blu"], .file "import n; print 2;".toUTF8),
      (["n.blu"], .file "print 1; (fun() \x7b blu.system.exit(3.9); \x7d)(); print 2;".toUTF8)], []⟩
    let s := Session.new .standard .empty ⟨disk, [], .still⟩
    ∃ halted : World, halted.cache.loading.length = 2 ∧ s.MeetsExit (fun _ => true) 30 ⟨"/m.blu"⟩ ⟨"/m.blu"⟩ halted ∧
      ∃ s', s.runEntry 30 ⟨"/m.blu"⟩ = .ok (.ok (.exited 3), s') ∧ s'.world = halted.withLoading [] ∧
        s'.world.printer.output = "1\n" := by
  intro disk s
  have hcompiled : (compileFile s.world.host.disk ⟨"/m.blu"⟩ .entry).toOption.any fun c =>
      c.result.toOption.any fun unit =>
        let run := ({ s with world := s.world.emit c.queue ⟨"/m.blu"⟩ } : Session).haltedAtExit (fun _ => true) 30 unit
        let other := Stuck.defect (.missingNode ⟨0⟩)
        stuckWith? (run .outOfFuel).1 = some .outOfFuel ∧ stuckWith? (run other).1 = some other ∧
          (run .outOfFuel).2.world.cache.loading.length = 2 := by
    decide +kernel
  obtain ⟨c, hc, hresult⟩ := exists_of_any hcompiled
  obtain ⟨unit, hu, htest⟩ := exists_of_any hresult
  obtain ⟨hwhy, hother, hlength⟩ := of_decide_eq_true htest
  obtain ⟨halted, hhalted, hmeets⟩ : ∃ halted : World, halted.cache.loading.length = 2 ∧
      s.MeetsExit (fun _ => true) 30 ⟨"/m.blu"⟩ ⟨"/m.blu"⟩ halted :=
    ⟨_, hlength, by decide +kernel, c, unit, hc, hu, .outOfFuel, .defect (.missingNode ⟨0⟩), by simp,
      eq_of_stuckWith? hwhy, rfl, eq_of_stuckWith? hother⟩
  obtain ⟨⟨x, -, s', -, hrun, hworld, -⟩, -⟩ := exit_ends_the_run .standard .empty ⟨disk, [], .still⟩ 30 [] [] s rfl
    (fun _ => true) ⟨"/m.blu"⟩ ⟨"/m.blu"⟩ halted hmeets
  have hends : (s.runEntry 30 ⟨"/m.blu"⟩).toOption.any fun r =>
      exitedWith? r.1 = some 3 ∧ r.2.world.printer.output = "1\n" := by
    decide +kernel
  obtain ⟨r, hr, hends⟩ := exists_of_any hends
  obtain ⟨hcode, houtput⟩ := of_decide_eq_true hends
  obtain rfl := Except.ok.inj (hrun.symm.trans hr)
  rw [Option.some.inj hcode] at hrun
  exact ⟨halted, hhalted, hmeets, s', hrun, hworld, houtput⟩

end DynScript
