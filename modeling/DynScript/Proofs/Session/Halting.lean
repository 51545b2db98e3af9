import DynScript.Proofs.Run.Invariants
import DynScript.Proofs.Session.Manners

/-!
# Runs that halt where others end in a fault

A fault leaves everything that stands open, and modules that are being loaded are given up on its way. To tell what it
leaves behind, a run is compared with another one that does the same but gets stuck at the place of interest. There it
halts: what is still being loaded stays so in the end. `Eval.Halts` relates the steps of two such runs, by what the
worlds have to do with each other in which they end.
-/

namespace DynScript

namespace World

/-- What evaluation may do to the modules and to what was printed. -/
structure Proceeds (w w' : World) : Prop extends w.Loads w' where
  /-- What was printed is still there. -/
  printer : w.printer.GrowsTo w'.printer

theorem Keeps.proceeds {w w' : World} (h : w.Keeps w') : w.Proceeds w' := ⟨h.loads, h.printer⟩

namespace Proceeds

variable {w w' : World}

@[refl] theorem refl (w : World) : w.Proceeds w := (Keeps.refl w).proceeds

theorem trans {w'' : World} (h : w.Proceeds w') (k : w'.Proceeds w'') : w.Proceeds w'' :=
  ⟨h.toLoads.trans k.toLoads, h.printer.trans k.printer⟩

end Proceeds

/-- In the second world some units are in progress beside those of the first one, the innermost of them first: it is
the world in which their evaluation stands still. -/
structure Amid (w : World) (chain : List PathKey) (w' : World) : Prop where
  /-- The units in progress. -/
  loading : w'.cache.loading = chain ++ w.cache.loading
  /-- They are still different from each other. -/
  distinct : w.cache.loading.Nodup → w'.cache.loading.Nodup
  /-- The new ones have no records. -/
  records : ∀ path : Path, path.key ∈ chain → w'.cache.get? path = none
  /-- The old ones have none either if they had none. -/
  pending : ∀ path : Path, path.key ∈ w.cache.loading → w.cache.get? path = none → w'.cache.get? path = none
  /-- No file is taken away. -/
  disk : w.host.disk.Extends w'.host.disk
  /-- What was printed is still there. -/
  printer : w.printer.GrowsTo w'.printer

namespace Amid

variable {w w' : World} {chain : List PathKey}

/-- Where no new unit is in progress. -/
theorem ofProceeds (h : w.Proceeds w') : w.Amid [] w' where
  loading := h.loading
  distinct hw := h.loading ▸ hw
  records _ hpath := nomatch hpath
  pending := h.pending
  disk := h.disk
  printer := h.printer

theorem earlier {v : World} (hv : v.Proceeds w) (h : w.Amid chain w') : v.Amid chain w' where
  loading := hv.loading ▸ h.loading
  distinct hloading := h.distinct (hv.loading ▸ hloading)
  records := h.records
  pending path hpath hnone := h.pending path (hv.loading ▸ hpath) (hv.pending path hpath hnone)
  disk := hv.disk.trans h.disk
  printer := hv.printer.trans h.printer

/-- A unit that was started is a new one. -/
theorem start {path : Path} (hfree : path.key ∉ w.cache.loading) (hnone : w.cache.get? path = none)
    (h : (w.withCache (·.start path)).Amid chain w') : w.Amid (chain ++ [path.key]) w' where
  loading := by
    rw [h.loading, List.append_assoc]
    rfl
  distinct hloading := h.distinct (List.nodup_cons.2 ⟨hfree, hloading⟩)
  records other hother := by
    rcases List.mem_append.1 hother with hother | hother
    · exact h.records other hother
    · have hpath := h.pending path List.mem_cons_self hnone
      rw [ModuleCache.get?] at hpath ⊢
      rw [List.mem_singleton.1 hother]
      exact hpath
  pending other hother := h.pending other (List.mem_cons_of_mem _ hother)
  disk := h.disk
  printer := h.printer

end Amid

/-- The same world with these units in progress. -/
def withLoading (w : World) (loading : List PathKey) : World := w.withCache ({ · with loading })

/-- When a unit that was started is stopped the others are in progress. -/
theorem stop_withLoading {w : World} {path : Path} (hfree : path.key ∉ w.cache.loading) (w' : World) :
    (w'.withLoading (w.withCache (·.start path)).cache.loading).withCache (·.stop path) =
      w'.withLoading w.cache.loading := by
  have hstop : ((w.withCache (·.start path)).cache.stop path).loading = w.cache.loading :=
    ModuleCache.loading_stop hfree rfl
  exact congrArg w'.withLoading hstop

end World

namespace Eval

variable {α β : Type}

/-- The record of a module as in `loadOnce`, except that the module stays in progress where the step that makes the
record is stuck. -/
def loadOrHalt (path : Path) (make : Eval RecordId) : Eval RecordId := do
  match (← get).world.cache.status path with
  | .loaded record => return record
  | .inProgress => fail (.circularImport path.text)
  | .unknown =>
    modifyWorld fun w => { w with cache := w.cache.start path }
    let record ← finishing make fun
      | .error (.stuck why), m => (.error (.stuck why), m)
      | result, m => (result, m.withCache (·.stop path))
    modifyWorld fun w => { w with cache := w.cache.insert path record }
    return record

/-- Loading a module in this way, by what the cache knows about it. -/
theorem runFrom_loadOrHalt (path : Path) (make : Eval RecordId) (held : List Value) (m : Machine) :
    (loadOrHalt path make).runFrom held m =
      match m.world.cache.status path with
      | .loaded record => (.ok record, m)
      | .inProgress => (.error (.fault (.ofCause (.circularImport path.text))), m)
      | .unknown =>
        match make.runFrom held (m.withCache (·.start path)) with
        | (.ok record, n) => (.ok record, n.withCache fun c => (c.stop path).insert path record)
        | (.error (.fault fault), n) => (.error (.fault fault), n.withCache (·.stop path))
        | (.error (.stuck why), n) => (.error (.stuck why), n) := by
  rw [loadOrHalt, runFrom_bind, runFrom_get]
  dsimp only
  cases m.world.cache.status path with
  | loaded record => rfl
  | inProgress => rfl
  | unknown =>
    have hstart : ({ m with world := { m.world with cache := m.world.cache.start path } } : Machine) =
      m.withCache (·.start path) := rfl
    simp only [runFrom_bind, modifyWorld, runFrom_modify, runFrom_finishing, hstart]
    rcases make.runFrom held (m.withCache (·.start path)) with ⟨⟨fault | why⟩ | record, n⟩ <;> rfl

/-- A sequence ends with its first step if that step has no value. -/
theorem runFrom_bind_of_error {x : Eval α} {k : α → Eval β} {held : List Value} {m : Machine} {e : Interruption}
    (h : (x.runFrom held m).1 = .error e) : (x >>= k).runFrom held m = (.error e, (x.runFrom held m).2) := by
  rw [runFrom_bind]
  rcases hx : x.runFrom held m with ⟨r, n⟩
  rw [hx] at h
  obtain rfl : r = _ := h
  rfl

/-- What two steps come to that begin in the same world, when the second one may halt where the first one ends in a
fault. `R` relates the world before, the one in which the second step halts, the one in which the first step ends, and
the cause of its fault. -/
inductive Halting (R : World → World → World → Cause → Prop) (w : World)
    (first second : Except Interruption α × Machine) : Prop where
  /-- Both come to the same. -/
  | same : w.Proceeds first.2.world → second = first → Halting R w first second
  /-- Both are stuck. -/
  | stuck {why : Stuck} : first.1 = .error (.stuck why) → second.1 = .error (.stuck why) → Halting R w first second
  /-- The first step ends in a fault where the second one has halted. -/
  | halted {fault : Fault} {why : Stuck} : first.1 = .error (.fault fault) → fault.cause.Quiet →
      second.1 = .error (.stuck why) → R w second.2.world first.2.world fault.cause → Halting R w first second

/-- The second step does what the first one does, or halts where the first one ends in a fault. -/
def Halts (R : World → World → World → Cause → Prop) (x y : Eval α) : Prop :=
  ∀ held (m : Machine), m.world.Orderly → Halting R m.world (x.runFrom held m) (y.runFrom held m)

/-- What was related later is related to a world before. -/
def Retold (R : World → World → World → Cause → Prop) : Prop :=
  ∀ ⦃w w' halted ended : World⦄ ⦃cause : Cause⦄, w.Proceeds w' → R w' halted ended cause → R w halted ended cause

variable {R : World → World → World → Cause → Prop}

namespace Halting

variable {w : World} {first second : Except Interruption α × Machine}

theorem earlier (hR : Retold R) {w' : World} (hw : w.Proceeds w') (h : Halting R w' first second) :
    Halting R w first second := by
  cases h with
  | same hloads heq => exact .same (hw.trans hloads) heq
  | stuck hfirst hsecond => exact .stuck hfirst hsecond
  | halted hfirst hquiet hsecond hends => exact .halted hfirst hquiet hsecond (hR hw hends)

/-- Looking at the end of both steps, when faults get through. -/
theorem passing {f : Except Interruption α → Machine → Except Interruption β × Machine} (hf : Passing f)
    (h : Halting R w first second) : Halting R w (f first.1 first.2) (f second.1 second.2) := by
  cases h with
  | same hloads heq => exact .same (by rwa [hf.world]) (by rw [heq])
  | stuck hfirst hsecond => exact .stuck (by rw [hfirst, hf.stuck]) (by rw [hsecond, hf.stuck])
  | halted hfirst hquiet hsecond hends =>
    obtain ⟨fault', hpasses, hcause⟩ := hf.passes _ first.2 hquiet
    refine .halted (by rw [hfirst, hpasses]) (hcause ▸ hquiet) (by rw [hsecond, hf.stuck]) ?_
    rw [hf.world, hf.world, hcause]
    exact hends

/-- A closing change that has nothing to do with the world. -/
theorem closing {g : Machine → Machine} (hg : ∀ m, (g m).world = m.world) (h : Halting R w first second) :
    Halting R w (first.1, g first.2) (second.1, g second.2) := by
  cases h with
  | same hloads heq => exact .same (by rwa [hg]) (by rw [heq])
  | stuck hfirst hsecond => exact .stuck hfirst hsecond
  | halted hfirst hquiet hsecond hends =>
    refine .halted hfirst hquiet hsecond ?_
    rw [hg, hg]
    exact hends

/-- When the second step gets stuck for whichever of two reasons it is given, then it has halted. -/
theorem of_reasons {second' : Except Interruption α × Machine} {why other : Stuck} (h : Halting R w first second)
    (h' : Halting R w first second') (hne : why ≠ other) (hsecond : second.1 = .error (.stuck why))
    (hsecond' : second'.1 = .error (.stuck other)) :
    ∃ fault, first.1 = .error (.fault fault) ∧ R w second.2.world first.2.world fault.cause := by
  have hstuck (h : first.1 = .error (.stuck why)) : False := by
    have hwhy {s : Stuck} (hs : first.1 = .error (.stuck s)) : s = why := by
      rw [h] at hs
      cases hs
      rfl
    cases h' with
    | same hloads heq => exact hne (hwhy (heq ▸ hsecond')).symm
    | stuck hfirst hstuck =>
      rw [hsecond'] at hstuck
      cases hstuck
      exact hne (hwhy hfirst).symm
    | halted hfirst hquiet hstuck hends =>
      rw [h] at hfirst
      cases hfirst
  cases h with
  | same hloads heq => exact (hstuck (heq ▸ hsecond)).elim
  | stuck hfirst hsecond'' =>
    rw [hsecond] at hsecond''
    cases hsecond''
    exact (hstuck hfirst).elim
  | halted hfirst hquiet hsecond'' hends => exact ⟨_, hfirst, hends⟩

end Halting

namespace Halts

/-- A step that has nothing to do with the modules. -/
theorem keeping {x : Eval α} (h : ∀ held (m : Machine), m.world.Keeps (x.runFrom held m).2.world) : Halts R x x :=
  fun held m _ => .same (h held m).proceeds rfl

theorem ofPlain {x : Eval α} (hx : x.Plain) : Halts R x x := keeping hx.keeps

theorem looking {x : Eval α} (hx : Looks x) : Halts R x x := keeping fun held m => by rw [hx held m]

/-- A step between an opening and a closing change, neither of which changes the world. -/
theorem between {x y : Eval α} (f g : Machine → Machine) (hf : ∀ m, (f m).world = m.world)
    (hg : ∀ m, (g m).world = m.world) (h : Halts R x y) :
    Halts R (modify f >>= fun _ => afterwards g x) (modify f >>= fun _ => afterwards g y) := by
  intro held m hm
  have hxy := h held (f m) (hf m ▸ hm)
  rw [hf] at hxy
  exact hxy.closing hg

section

variable (hR : Retold R)
include hR

theorem bind {x y : Eval α} {k l : α → Eval β} (h : Halts R x y) (hk : ∀ a, Halts R (k a) (l a)) :
    Halts R (x >>= k) (y >>= l) := by
  intro held m hm
  cases h held m hm with
  | same hloads heq =>
    rw [runFrom_bind, runFrom_bind, heq]
    rcases hx : x.runFrom held m with ⟨e | a, n⟩ <;> rw [hx] at hloads
    · exact .same hloads rfl
    · exact (hk a held n (hloads.orderly hm)).earlier hR hloads
  | stuck hfirst hsecond =>
    rw [runFrom_bind_of_error hfirst, runFrom_bind_of_error hsecond]
    exact .stuck rfl rfl
  | halted hfirst hquiet hsecond hends =>
    rw [runFrom_bind_of_error hfirst, runFrom_bind_of_error hsecond]
    exact .halted rfl hquiet rfl hends

theorem inFrame {x y : Eval α} (push : Environment → Environment) (h : Halts R x y) :
    Halts R (inFrame push x) (inFrame push y) :=
  bind hR (looking .get) fun _ => h.between _ _ (fun _ => rfl) fun _ => rfl

theorem inUnit {x y : Eval α} (unit : UnitId) (h : Halts R x y) : Halts R (inUnit unit x) (inUnit unit y) :=
  bind hR (looking .get) fun _ => h.between _ _ (fun _ => rfl) fun _ => rfl

theorem inCall {x y : Eval α} (frame : CallFrame) (h : Halts R x y) :
    Halts R (inCall frame x) (inCall frame y) := by
  have hmap : Halts R (mapFault (fun m fault => m.calls.attachBacktrace m.world.heap fault) x)
      (mapFault (fun m fault => m.calls.attachBacktrace m.world.heap fault) y) := by
    refine fun held m hm => (h held m hm).passing (.mapFault (fun _ _ _ _ => rfl) fun m fault => ?_)
    unfold CallStack.attachBacktrace
    split <;> rfl
  have hcall := hmap.between (fun m => { m with calls := m.calls.enter frame })
    (fun m => { m with calls := m.calls.pop }) (fun _ => rfl) fun _ => rfl
  refine bind hR (looking .get) fun m => ?_
  split
  · exact bind hR (ofPlain (.fail _)) fun _ => hcall
  · exact hcall

/-- All of evaluation but the loading of modules is put together so. -/
theorem calling : Calling fun x y => Halts R x y where
  still hx := ofPlain hx.toPlain
  bind := bind hR
  passing hf h := fun held m hm => (h held m hm).passing hf
  holding g _ _ h := fun held m => h (g held) m
  inScope := inFrame hR _
  inRecord _ _ _ := inFrame hR _
  withActive _ _ _ _ h := h.between _ _ (fun _ => rfl) fun _ => rfl
  inUnit unit _ _ := inUnit hR unit
  inCall frame _ _ := inCall hR frame
  blockItems? unit id := looking (.blockItems? unit id)
  functionParts f := looking (.functionParts f)
  memberParts unit id := looking (.memberParts unit id)
  templateParts t := looking (.templateParts t)
  define name value := ofPlain (Simple.define name value).toPlain
  assign name value := ofPlain (Simple.assign name value).toPlain
  raise _ := ofPlain (.throw _)

/-- A machine of its own has the same modules. -/
theorem inNewMachine {x y : Eval α} (unit : CompiledUnit) (maxDepth : Nat) (h : Halts R x y) :
    Halts R (inNewMachine unit maxDepth x) (inNewMachine unit maxDepth y) := by
  intro held m hm
  have hkeeps : m.world.Keeps (Machine.start (m.world.addUnit unit.program.arena).2
      (m.world.addUnit unit.program.arena).1 unit.directory maxDepth).world := ⟨rfl, .refl _, .refl _⟩
  cases h (m.kept held) _ (hkeeps.loads.orderly hm) with
  | same hloads heq =>
    exact .same (hkeeps.proceeds.trans hloads) (congrArg (fun r => (r.1, { m with world := r.2.world })) heq)
  | stuck hfirst hsecond => exact .stuck hfirst hsecond
  | halted hfirst hquiet hsecond hends => exact .halted hfirst hquiet hsecond (hR hkeeps.proceeds hends)

end

/-- A module is made by the first step where the second one makes it, too, or halts with the module in progress. -/
theorem loadOnce {R' : World → World → World → Cause → Prop} {x y : Eval RecordId} {file path : Path}
    (h : Halts R' x y)
    (hstop : ∀ {w halted ended : World} {cause : Cause}, w.Orderly → w.host.disk.canonical file = .ok path →
      path.key ∉ w.cache.loading → w.cache.get? path = none → R' (w.withCache (·.start path)) halted ended cause →
        R w halted (ended.withCache (·.stop path)) cause)
    (held : List Value) {m : Machine} (hm : m.world.Orderly) (hpath : m.world.host.disk.canonical file = .ok path) :
    Halting R m.world ((loadOnce path x).runFrom held m) ((loadOrHalt path y).runFrom held m) := by
  rw [runFrom_loadOnce, runFrom_loadOrHalt]
  cases hstatus : m.world.cache.status path with
  | loaded record => exact .same (.refl _) rfl
  | inProgress => exact .same (.refl _) rfl
  | unknown =>
    obtain ⟨hnone, hfree⟩ := ModuleCache.status_eq_unknown hstatus
    have hxy := h held (m.withCache (·.start path)) (hm.start hfree hpath)
    dsimp only
    rcases hx : x.runFrom held (m.withCache (·.start path)) with ⟨⟨fault | why⟩ | record, n⟩ <;>
      rw [hx] at hxy
    · cases hxy with
      | same hloads heq =>
        rw [heq]
        exact .same ⟨hloads.stop hfree, hloads.printer⟩ rfl
      | stuck hfirst hsecond => cases hfirst
      | halted hfirst hquiet hsecond hends =>
        obtain rfl := Interruption.fault.inj (Except.error.inj hfirst)
        rcases hy : y.runFrom held (m.withCache (·.start path)) with ⟨r, n'⟩
        rw [hy] at hsecond hends
        obtain rfl : r = _ := hsecond
        exact .halted rfl hquiet rfl (hstop hm hpath hfree hnone hends)
    · cases hxy with
      | same hloads heq =>
        rw [heq]
        exact .stuck rfl rfl
      | stuck hfirst hsecond =>
        rcases hy : y.runFrom held (m.withCache (·.start path)) with ⟨r, n'⟩
        rw [hy] at hsecond
        obtain rfl : r = _ := hsecond
        exact .stuck hfirst rfl
      | halted hfirst hquiet hsecond hends => cases hfirst
    · cases hxy with
      | same hloads heq =>
        rw [heq]
        exact .same ⟨hloads.insert hfree hnone record, hloads.printer⟩ rfl
      | stuck hfirst hsecond => cases hfirst
      | halted hfirst hquiet hsecond hends => cases hfirst

/-- Modules are loaded alike when their records are made so, given what has to be told of a module in progress. -/
theorem loader {R' : Path → ImportRequest → World → World → World → Cause → Prop} (hR : Retold R) {M : Manner}
    (hknown : M.known = loadOrHalt) {eval eval' : Evaluator} {settings : Settings} {roots : Option SearchRoots}
    (h : ∀ path request, Halts (R' path request) (moduleRecord settings eval path request.dotted)
      (M.moduleRecord settings eval' path request.dotted))
    (hstop : ∀ {path : Path} {request : ImportRequest} {w halted ended : World} {cause : Cause}, w.Orderly →
      w.host.disk.canonicalModule (settings.fileOf roots request) = .ok path → path.key ∉ w.cache.loading →
        w.cache.get? path = none → R' path request (w.withCache (·.start path)) halted ended cause →
          R w halted (ended.withCache (·.stop path)) cause)
    (request : ImportRequest) :
    Halts R (Loader.ofSession settings roots eval request) (M.loader settings roots eval' request) := by
  have H : Calling fun x y => Halts R x y := calling hR
  rw [ofSession_eq, ← Settings.fileOf, loader_eq, hknown]
  refine H.bind (fun held m hm => ?_) fun _ => H.still (.pure _)
  simp only [loadFile, runFrom_bind, runFrom_located]
  unfold Disk.canonicalModule
  cases hpath : m.world.host.disk.canonical _ with
  | ok path =>
    refine (h path request).loadOnce (fun hw hfile => hstop hw ?_) held hm hpath
    rw [Disk.canonicalModule, hfile]
  | error e => cases e <;> exact .same (.refl _) rfl

section

variable (hR : Retold R)
include hR

theorem evaluator {M M' : Manner} (hM : Alike (fun x y => Halts R x y) M M') {load load' : Loader}
    (hl : ∀ {eval eval' : Evaluator}, (∀ id, Halts R (eval id) (eval' id)) →
      ∀ request, Halts R (load eval request) (load' eval' request)) (fuel : Nat) (id : NodeId) :
    Halts R (M.evaluator load fuel id) (M'.evaluator load' fuel id) := by
  have H : Calling fun x y => Halts R x y := calling hR
  exact H.evaluatorInManner hM hl (fun unit id => looking (.nodeIn unit id)) (fun unit id => looking (.assignee unit id))
    fuel id

/-- The runs of an entry unit. -/
theorem entry (s : Session) (unit : CompiledUnit) {evaluation evaluation' : Loader → Evaluator}
    (he : let load : Loader := .ofSession s.settings (some (s.settings.rootsFor unit.directory))
      ∀ id, Halts R (evaluation load id) (evaluation' load id)) :
    Halts R (s.entry evaluation unit) (s.entry evaluation' unit) := by
  have H : Calling fun x y => Halts R x y := calling hR
  exact inNewMachine hR unit s.settings.maxDepth <| H.bind (H.runUnit he unit.program.body) fun _ =>
    H.bind (H.invokeMain he) fun _ => H.still (.pure ())

/-- Looking at the fault in which a step ends, when signals are thrown again and nothing else is left by halting. -/
theorem attempting {x y : Eval α} {k : Except Fault α → Eval β} (h : Halts R x y)
    (hk : ∀ result, Halts R (k result) (k result))
    (hsignals : ∀ {w halted ended : World} {cause : Cause}, R w halted ended cause → cause.isSignal)
    (hthrown : ∀ fault : Fault, fault.isSignal → k (.error fault) = throw (.fault fault)) :
    Halts R (attempt x >>= k) (attempt y >>= k) := by
  intro held m hm
  rw [runFrom_bind, runFrom_bind, runFrom_attempt, runFrom_attempt]
  rcases hx : x.runFrom held m with ⟨rx, n⟩
  rcases hy : y.runFrom held m with ⟨ry, n'⟩
  have hxy := h held m hm
  rw [hx, hy] at hxy
  cases hxy with
  | same hloads heq =>
    obtain ⟨rfl, rfl⟩ := Prod.mk.inj heq
    rcases ry with ⟨fault | why⟩ | a
    · exact (hk (.error fault) held _ (hloads.orderly hm)).earlier hR hloads
    · exact .same hloads rfl
    · exact (hk (.ok a) held _ (hloads.orderly hm)).earlier hR hloads
  | stuck hfirst hsecond =>
    obtain rfl : rx = _ := hfirst
    obtain rfl : ry = _ := hsecond
    exact .stuck rfl rfl
  | halted hfirst hquiet hsecond hends =>
    obtain rfl : rx = _ := hfirst
    obtain rfl : ry = _ := hsecond
    dsimp only
    rw [hthrown _ (hsignals hends)]
    exact .halted rfl hquiet rfl hends

end

end Halts

end Eval

/-- An entry unit that has been found and compiled is the only one in progress when it starts. -/
theorem Session.starts {s : Session} (hs : s.world.cache.loading = []) {path file : Path}
    (hfound : s.world.host.disk.canonical path = .ok file) (queue : Queue) :
    let w := s.world.emit queue file
    w.cache.loading = [] ∧ file.key ∉ w.cache.loading ∧ (w.withCache (·.start file)).Orderly := by
  intro w
  have hkeeps : s.world.Keeps w := Eval.Plain.keeps_emit s.world queue file
  have hidle : w.cache.loading = [] := (congrArg ModuleCache.loading hkeeps.cache).trans hs
  have hfree : file.key ∉ w.cache.loading := by
    rw [hidle]
    exact List.not_mem_nil
  exact ⟨hidle, hfree, (Session.LoadsOnce.orderly_idle (s := { s with world := w }) hidle).start hfree
    (hkeeps.disk.canonical hfound)⟩

end DynScript
