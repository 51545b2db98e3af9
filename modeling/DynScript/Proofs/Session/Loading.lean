import DynScript.Proofs.Run.Moments
import DynScript.Proofs.Session.Steps

/-!
# Modules are loaded once

The cache of a session is changed again and again while units import each other. Whatever is evaluated leaves
the units in progress as they were, keeps every record that has been made, and makes none for a unit that was
in progress: `World.Loads`. The units in progress have different paths all the time, so there are never more
of them than canonical paths.
-/

namespace DynScript

namespace ModuleCache

/-- Every path that has a record in the first cache has the same one in the second. -/
def KeptIn (c d : ModuleCache) : Prop := ∀ path record, c.get? path = some record → d.get? path = some record

@[refl] theorem KeptIn.refl (c : ModuleCache) : c.KeptIn c := fun _ _ h => h

theorem KeptIn.trans {b c d : ModuleCache} (h : b.KeptIn c) (k : c.KeptIn d) : b.KeptIn d :=
  fun path record hr => k path record (h path record hr)

@[simp] theorem get?_start (c : ModuleCache) (path other : Path) :
    (c.start path).get? other = c.get? other := rfl

@[simp] theorem get?_stop (c : ModuleCache) (path other : Path) :
    (c.stop path).get? other = c.get? other := rfl

theorem get?_insert (c : ModuleCache) (path other : Path) (record : RecordId) :
    (c.insert path record).get? other = if other.key = path.key then some record else c.get? other :=
  lookup_replaced path.key other.key record c.modules

/-- A path that has no record may get one. -/
theorem KeptIn.insert {c : ModuleCache} {path : Path} (hpath : c.get? path = none) (record : RecordId) :
    c.KeptIn (c.insert path record) := by
  intro other r hr
  have hne : other.key ≠ path.key := by
    intro heq
    rw [get?, ← heq] at hpath
    rw [get?, hpath] at hr
    cases hr
  rw [get?_insert, if_neg hne]
  exact hr

/-- A unit that has been started and is stopped is in progress no longer, and the others are still. -/
theorem loading_stop {c d : ModuleCache} {path : Path} (hpath : path.key ∉ c.loading)
    (hd : d.loading = (c.start path).loading) : (d.stop path).loading = c.loading := by
  have hne : ∀ key ∈ c.loading, key ≠ path.key := fun key hkey heq => hpath (heq ▸ hkey)
  show d.loading.filter (fun key => key ≠ path.key) = _
  rw [hd]
  show (path.key :: c.loading).filter (fun key => key ≠ path.key) = _
  rw [List.filter_cons_of_neg (by simp), List.filter_eq_self]
  simpa using hne

theorem status_eq_loaded {c : ModuleCache} {path : Path} {record : RecordId}
    (h : c.status path = .loaded record) : c.get? path = some record := by
  unfold status at h
  split at h
  · rename_i hsome
    obtain rfl := ModuleStatus.loaded.inj h
    exact hsome
  · split at h <;> cases h

theorem status_eq_inProgress {c : ModuleCache} {path : Path} (h : c.status path = .inProgress) :
    c.get? path = none ∧ path.key ∈ c.loading := by
  unfold status at h
  split at h
  · cases h
  · rename_i hnone
    refine ⟨hnone, ?_⟩
    by_contra hmem
    rw [if_neg hmem] at h
    cases h

theorem status_eq_unknown {c : ModuleCache} {path : Path} (h : c.status path = .unknown) :
    c.get? path = none ∧ path.key ∉ c.loading := by
  unfold status at h
  split at h
  · cases h
  · rename_i hnone
    refine ⟨hnone, fun hmem => ?_⟩
    rw [if_pos hmem] at h
    cases h

end ModuleCache

namespace World

/-- The units in progress have different paths, and these are canonical. -/
structure Orderly (w : World) : Prop where
  /-- No unit is evaluated while it is evaluated. -/
  distinct : w.cache.loading.Nodup
  /-- Each was found under its canonical path. -/
  canonical : ∀ key ∈ w.cache.loading, ∃ file path, w.host.disk.canonical file = .ok path ∧ path.key = key

/-- There are no more units in progress than there are canonical paths. -/
theorem Orderly.length_loading_le {w : World} (h : w.Orderly) (known : Finset PathKey)
    (hk : ∀ file path, w.host.disk.canonical file = .ok path → path.key ∈ known) :
    w.cache.loading.length ≤ known.card := by
  rw [← List.toFinset_card_of_nodup h.distinct]
  refine Finset.card_le_card fun key hkey => ?_
  obtain ⟨file, path, hpath, rfl⟩ := h.canonical key (List.mem_toFinset.1 hkey)
  exact hk file path hpath

/-- What evaluation may do to the modules. -/
structure Loads (w w' : World) : Prop where
  /-- The same units are in progress. -/
  loading : w'.cache.loading = w.cache.loading
  /-- Every record stays that of its path. -/
  kept : w.cache.KeptIn w'.cache
  /-- A unit in progress gets no record. -/
  pending : ∀ path : Path, path.key ∈ w.cache.loading → w.cache.get? path = none → w'.cache.get? path = none
  /-- No file is taken away. -/
  disk : w.host.disk.Extends w'.host.disk

theorem Keeps.loads {w w' : World} (h : w.Keeps w') : w.Loads w' where
  loading := congrArg ModuleCache.loading h.cache
  kept _ _ hr := by rwa [h.cache]
  pending _ _ hn := by rwa [h.cache]
  disk := h.disk

namespace Loads

variable {w w' : World}

@[refl] theorem refl (w : World) : w.Loads w := (Keeps.refl w).loads

theorem trans {w'' : World} (h : w.Loads w') (k : w'.Loads w'') : w.Loads w'' where
  loading := k.loading.trans h.loading
  kept := h.kept.trans k.kept
  pending path hp hn := k.pending path (h.loading ▸ hp) (h.pending path hp hn)
  disk := h.disk.trans k.disk

theorem orderly (h : w.Loads w') (hw : w.Orderly) : w'.Orderly where
  distinct := h.loading ▸ hw.distinct
  canonical key hkey := by
    obtain ⟨file, path, hpath, hk⟩ := hw.canonical key (h.loading ▸ hkey)
    exact ⟨file, path, h.disk.canonical hpath, hk⟩

end Loads

section

variable {w w' : World} {path : Path} (hfree : path.key ∉ w.cache.loading)
include hfree

/-- A unit that is found under a canonical path may be started when it is not in progress. -/
theorem Orderly.start (hw : w.Orderly) {file : Path} (hfile : w.host.disk.canonical file = .ok path) :
    (w.withCache (·.start path)).Orderly where
  distinct := List.nodup_cons.2 ⟨hfree, hw.distinct⟩
  canonical key hkey := by
    rcases List.mem_cons.1 hkey with rfl | hkey
    · exact ⟨file, path, hfile, rfl⟩
    · exact hw.canonical key hkey

/-- What happens while a unit is in progress, which then is so no longer. -/
theorem Loads.stop (h : (w.withCache (·.start path)).Loads w') : w.Loads (w'.withCache (·.stop path)) where
  loading := ModuleCache.loading_stop hfree h.loading
  kept := h.kept
  pending other ho hn := h.pending other (List.mem_cons_of_mem _ ho) hn
  disk := h.disk

omit hfree in
/-- Meanwhile it gets no record. -/
theorem Loads.get?_started (h : (w.withCache (·.start path)).Loads w') (hnone : w.cache.get? path = none) :
    w'.cache.get? path = none :=
  h.pending path List.mem_cons_self hnone

/-- In the end it may get one. -/
theorem Loads.insert (h : (w.withCache (·.start path)).Loads w') (hnone : w.cache.get? path = none)
    (record : RecordId) : w.Loads (w'.withCache fun c => (c.stop path).insert path record) where
  loading := (h.stop hfree).loading
  kept := (h.stop hfree).kept.trans (.insert (h.get?_started hnone) record)
  pending other ho hn := by
    show ((w'.cache.stop path).insert path record).get? other = none
    have hne : other.key ≠ path.key := fun heq => hfree (heq ▸ ho)
    rw [ModuleCache.get?_insert, if_neg hne]
    exact (h.stop hfree).pending other ho hn
  disk := h.disk

end

end World

/-- The units in progress are in order, the records of the first cache are kept, and those that there are will
be kept in the last one, if there is a last one. -/
structure Machine.Between (first : ModuleCache) (last : Option ModuleCache) (m : Machine) : Prop where
  orderly : m.world.Orderly
  first : first.KeptIn m.world.cache
  last : ∀ d ∈ last, m.world.cache.KeptIn d

namespace Eval

variable {α β : Type}

/-- Loading a module, by what the cache knows about it. -/
theorem runFrom_loadOnce (path : Path) (make : Eval RecordId) (held : List Value) (m : Machine) :
    (loadOnce path make).runFrom held m =
      match m.world.cache.status path with
      | .loaded record => (.ok record, m)
      | .inProgress => (.error (.fault (.ofCause (.circularImport path.text))), m)
      | .unknown =>
        match make.runFrom held (m.withCache (·.start path)) with
        | (.ok record, n) => (.ok record, n.withCache fun c => (c.stop path).insert path record)
        | (.error e, n) => (.error e, n.withCache (·.stop path)) := by
  rw [loadOnce, runFrom_bind, runFrom_get]
  dsimp only
  cases m.world.cache.status path with
  | loaded record => rfl
  | inProgress => rfl
  | unknown =>
    have hstart : ({ m with world := { m.world with cache := m.world.cache.start path } } : Machine) =
      m.withCache (·.start path) := rfl
    simp only [runFrom_bind, modifyWorld, runFrom_modify, afterwards, runFrom_finishing, hstart]
    rcases make.runFrom held (m.withCache (·.start path)) with ⟨e | record, n⟩ <;> rfl

/-- Looking at the fault in which a step ends. -/
theorem runFrom_attempt (x : Eval α) (held : List Value) (m : Machine) :
    (attempt x).runFrom held m = match x.runFrom held m with
      | (.ok a, n) => (.ok (.ok a), n)
      | (.error (.fault fault), n) => (.ok (.error fault), n)
      | (.error (.stuck why), n) => (.error (.stuck why), n) := by
  rw [attempt, runFrom_finishing]
  rcases x.runFrom held m with ⟨⟨_ | _⟩ | _, _⟩ <;> rfl

theorem runFrom_located (file : Path) (held : List Value) (m : Machine) :
    (located file).runFrom held m = (ofExcept (m.world.host.disk.canonicalModule file)).runFrom held m := by
  rw [located, runFrom_bind, runFrom_get]

/-- Between two caches the second step does what the first one does, which loads modules in order. -/
def LoadsOnce (first : ModuleCache) (last : Option ModuleCache) (x y : Eval α) : Prop :=
  ∀ held (m : Machine), m.world.Orderly →
    m.world.Loads (x.runFrom held m).2.world ∧
      (first.KeptIn m.world.cache → (∀ d ∈ last, (x.runFrom held m).2.world.cache.KeptIn d) →
        y.runFrom held m = x.runFrom held m)

namespace LoadsOnce

variable {first : ModuleCache} {last : Option ModuleCache}

/-- A step that has nothing to do with the modules. -/
theorem keeping {x : Eval α} (h : ∀ held (m : Machine), m.world.Keeps (x.runFrom held m).2.world) :
    LoadsOnce first last x x :=
  fun held m _ => ⟨(h held m).loads, fun _ _ => rfl⟩

theorem ofPlain {x : Eval α} (h : x.Plain) : LoadsOnce first last x x := keeping h.keeps

theorem nodeIn (unit : UnitId) (id : NodeId) : LoadsOnce first last (nodeIn unit id) (nodeIn unit id) := by
  refine keeping fun held m => ?_
  rw [← bind_pure (Eval.nodeIn unit id), runFrom_nodeIn_bind]
  cases m.world.node? unit id <;> exact .refl _

theorem bind {x y : Eval α} {k l : α → Eval β} (h : LoadsOnce first last x y)
    (hk : ∀ a, LoadsOnce first last (k a) (l a)) : LoadsOnce first last (x >>= k) (y >>= l) := by
  intro held m hm
  obtain ⟨hloads, hsame⟩ := h held m hm
  rw [runFrom_bind, runFrom_bind]
  rcases hr : x.runFrom held m with ⟨e | a, n⟩ <;> rw [hr] at hloads hsame
  · refine ⟨hloads, fun hfirst hlast => ?_⟩
    rw [hsame hfirst hlast]
  · obtain ⟨hloads', hsame'⟩ := hk a held n (hloads.orderly hm)
    refine ⟨hloads.trans hloads', fun hfirst hlast => ?_⟩
    rw [hsame hfirst fun d hd => hloads'.kept.trans (hlast d hd)]
    exact hsame' (hfirst.trans hloads.kept) hlast

theorem nodeOf {k : Node → Eval α} (unit : UnitId) (id : NodeId) (hk : ∀ node, (k node).Plain) :
    LoadsOnce first last (Eval.nodeOf unit id >>= k) (Eval.nodeOf unit id >>= k) :=
  bind (bind (ofPlain (.requireUnit unit id)) fun _ => nodeIn unit id) fun node => ofPlain (hk node)

/-- Looking at the end of a step, when the world stays. -/
theorem finishing {f : Except Interruption α → Machine → Except Interruption β × Machine} {x y : Eval α}
    (hf : ∀ result (m : Machine), (f result m).2.world = m.world) (h : LoadsOnce first last x y) :
    LoadsOnce first last (finishing x f) (finishing y f) := by
  intro held m hm
  obtain ⟨hloads, hsame⟩ := h held m hm
  simp only [runFrom_finishing, hf]
  exact ⟨hloads, fun hfirst hlast => by rw [hsame hfirst hlast]⟩

/-- A step between an opening and a closing change, neither of which changes the world. -/
theorem between {x y : Eval α} (f g : Machine → Machine) (hf : ∀ m, (f m).world = m.world)
    (hg : ∀ m, (g m).world = m.world) (h : LoadsOnce first last x y) :
    LoadsOnce first last (modify f >>= fun _ => afterwards g x) (modify f >>= fun _ => afterwards g y) := by
  refine bind (keeping fun _ m => ?_) fun _ => h.finishing fun _ m => hg m
  rw [runFrom_modify, hf]

theorem inFrame {x y : Eval α} (push : Environment → Environment) (h : LoadsOnce first last x y) :
    LoadsOnce first last (inFrame push x) (inFrame push y) :=
  bind (keeping fun _ m => .refl m.world) fun _ => h.between _ _ (fun _ => rfl) fun _ => rfl

theorem inUnit {x y : Eval α} (unit : UnitId) (h : LoadsOnce first last x y) :
    LoadsOnce first last (inUnit unit x) (inUnit unit y) :=
  bind (keeping fun _ m => .refl m.world) fun _ => h.between _ _ (fun _ => rfl) fun _ => rfl

theorem inCall {x y : Eval α} (frame : CallFrame) (h : LoadsOnce first last x y) :
    LoadsOnce first last (inCall frame x) (inCall frame y) := by
  have hmap : LoadsOnce first last (mapFault (fun m fault => m.calls.attachBacktrace m.world.heap fault) x)
      (mapFault (fun m fault => m.calls.attachBacktrace m.world.heap fault) y) :=
    h.finishing fun result m => by split <;> rfl
  have hcall := hmap.between (fun m => { m with calls := m.calls.enter frame })
    (fun m => { m with calls := m.calls.pop }) (fun _ => rfl) fun _ => rfl
  refine bind (keeping fun _ m => .refl m.world) fun m => ?_
  split
  · exact bind (ofPlain (.fail _)) fun _ => hcall
  · exact hcall

/-- A machine of its own has the same modules. -/
theorem inNewMachine {x y : Eval α} (unit : CompiledUnit) (maxDepth : Nat) (h : LoadsOnce first last x y) :
    LoadsOnce first last (inNewMachine unit maxDepth x) (inNewMachine unit maxDepth y) := by
  intro held m hm
  have hkeeps : m.world.Keeps (Machine.start (m.world.addUnit unit.program.arena).2
      (m.world.addUnit unit.program.arena).1 unit.directory maxDepth).world := ⟨rfl, .refl _, .refl _⟩
  have hstart := hkeeps.loads
  obtain ⟨hloads, hsame⟩ := h (m.kept held) _ (hstart.orderly hm)
  refine ⟨hstart.trans hloads, fun hfirst hlast => ?_⟩
  exact congrArg (fun r => (r.1, { m with world := r.2.world })) (hsame hfirst hlast)

/-- While a module is made its path is in progress, and afterwards it has a record or is as it was. -/
theorem loadOnce {x y : Eval RecordId} {file path : Path} (h : LoadsOnce first last x y) (held : List Value)
    {m : Machine} (hm : m.world.Orderly) (hpath : m.world.host.disk.canonical file = .ok path) :
    m.world.Loads ((loadOnce path x).runFrom held m).2.world ∧
      (first.KeptIn m.world.cache → (∀ d ∈ last, ((loadOnce path x).runFrom held m).2.world.cache.KeptIn d) →
        (loadOnce path y).runFrom held m = (loadOnce path x).runFrom held m) := by
  rw [runFrom_loadOnce, runFrom_loadOnce]
  cases hstatus : m.world.cache.status path with
  | loaded record => exact ⟨.refl _, fun _ _ => rfl⟩
  | inProgress => exact ⟨.refl _, fun _ _ => rfl⟩
  | unknown =>
    obtain ⟨hnone, hfree⟩ := ModuleCache.status_eq_unknown hstatus
    obtain ⟨hloads, hsame⟩ := h held (m.withCache (·.start path)) (hm.start hfree hpath)
    dsimp only
    rcases hr : x.runFrom held (m.withCache (·.start path)) with ⟨e | record, n⟩ <;> rw [hr] at hloads hsame
    · refine ⟨hloads.stop hfree, fun hfirst hlast => ?_⟩
      rw [hsame hfirst hlast]
    · refine ⟨hloads.insert hfree hnone record, fun hfirst hlast => ?_⟩
      have hkept : n.world.cache.KeptIn ((n.world.cache.stop path).insert path record) :=
        .insert (hloads.get?_started hnone) record
      rw [hsame hfirst fun d hd => hkept.trans (hlast d hd)]

theorem loadFile {x y : Path → Eval RecordId} (file : Path)
    (h : ∀ path, LoadsOnce first last (x path) (y path)) :
    LoadsOnce first last (loadFile file x) (loadFile file y) := by
  intro held m hm
  simp only [Eval.loadFile, runFrom_bind, runFrom_located]
  unfold Disk.canonicalModule
  cases hpath : m.world.host.disk.canonical file with
  | ok path => exact (h path).loadOnce held hm hpath
  | error e => cases e <;> exact ⟨.refl _, fun _ _ => rfl⟩

/-- All of evaluation is put together so that modules are loaded in order. -/
theorem congruence : Congruence fun x y => LoadsOnce first last x y where
  plain := ofPlain
  bind := bind
  ending hf h := h.finishing hf.world
  holding g _ _ h := fun held m => h (g held) m
  inScope h := h.inFrame _
  inRecord _ _ _ h := h.inFrame _
  withActive _ _ _ _ h := h.between _ _ (fun _ => rfl) fun _ => rfl
  inUnit unit _ _ := inUnit unit
  inCall frame _ _ := inCall frame
  blockItems? unit id := nodeOf unit id fun node => by split <;> exact .pure _
  functionParts f := (nodeIn f.unit f.node).bind fun node => ofPlain <| by
    split <;> first | exact .pure _ | exact .defect _
  memberParts unit id := nodeOf unit id fun node => by split <;> first | exact .pure _ | exact .defect _
  templateParts t := (nodeIn t.unit t.node).bind fun node => ofPlain <| by
    split <;> first | exact .pure _ | exact .defect _
  inNewMachine unit maxDepth _ _ := inNewMachine unit maxDepth
  loadFile file _ _ := loadFile file

theorem assignee (unit : UnitId) (id : NodeId) : LoadsOnce first last (assignee unit id) (assignee unit id) :=
  nodeOf unit id fun node => by split <;> first | exact .pure _ | exact .fail _

/-- Watching whether a machine is between the two caches makes no difference. -/
theorem watching {x y : Eval α} (id : NodeId) (h : LoadsOnce first last x y) :
    LoadsOnce first last x (watching (·.Between first last) id y) := by
  intro held m hm
  obtain ⟨hloads, hsame⟩ := h held m hm
  refine ⟨hloads, fun hfirst hlast => ?_⟩
  have hy : y.runFrom held m = x.runFrom held m := hsame hfirst hlast
  have hbegin : m.Between first last := ⟨hm, hfirst, fun d hd => hloads.kept.trans (hlast d hd)⟩
  have hend : (x.runFrom held m).2.Between first last :=
    ⟨hloads.orderly hm, hfirst.trans hloads.kept, hlast⟩
  rw [runFrom_watching id hbegin (hy ▸ hend), hy]

variable (first last) in
theorem watchedWithin (imports : Imports) (fuel : Nat) (id : NodeId) :
    LoadsOnce first last (evalWithin imports.loader fuel id)
      (watchedWithin (·.Between first last) imports.loader fuel id) :=
  congruence.watchedWithin nodeIn assignee (fun id _ _ h => h.watching id) imports fuel id

end LoadsOnce

end Eval

/-! ## Sessions -/

namespace Session

variable {α β : Type} {first : ModuleCache} {last : Option ModuleCache}

/-- Between two caches the second operation does what the first one does, which loads modules in order and
leaves no unit in progress. -/
structure LoadsOnce (first : ModuleCache) (last : Option ModuleCache) (s : Session)
    (e e' : Except Stuck (α × Session)) : Prop where
  lands : ∀ a s', e = .ok (a, s') → s'.world.cache.loading = [] ∧ s.world.cache.KeptIn s'.world.cache
  same : first.KeptIn s.world.cache →
    (∀ d ∈ last, ∃ a s', e = .ok (a, s') ∧ s'.world.cache.KeptIn d) → e' = e

namespace LoadsOnce

theorem pure {s s' : Session} (hs : s.world.cache.loading = []) (hc : s'.world.cache = s.world.cache) (a : α) :
    LoadsOnce first last s (.ok (a, s')) (.ok (a, s')) where
  lands b t ht := by
    obtain ⟨rfl, rfl⟩ := Prod.mk.inj (Except.ok.inj ht)
    rw [hc]
    exact ⟨hs, .refl _⟩
  same _ _ := rfl

theorem bind {s : Session} {e e' : Except Stuck (α × Session)}
    {k k' : α × Session → Except Stuck (β × Session)} (h : LoadsOnce first last s e e')
    (hk : ∀ a s₁, s₁.world.cache.loading = [] → LoadsOnce first last s₁ (k (a, s₁)) (k' (a, s₁))) :
    LoadsOnce first last s (e >>= k) (e' >>= k') := by
  rcases e with stuck | ⟨a, s₁⟩
  · refine ⟨fun _ _ he => (nomatch he), fun hfirst hlast => ?_⟩
    have hnone (d : ModuleCache) (hd : d ∈ last) : False := by
      obtain ⟨_, _, he, -⟩ := hlast d hd
      cases he
    rw [h.same hfirst fun d hd => (hnone d hd).elim]
    rfl
  · obtain ⟨hidle, hkept⟩ := h.lands a s₁ rfl
    have hrest := hk a s₁ hidle
    constructor
    · intro b s₂ he
      obtain ⟨hidle', hkept'⟩ := hrest.lands b s₂ he
      exact ⟨hidle', hkept.trans hkept'⟩
    · intro hfirst hlast
      have hmiddle (d : ModuleCache) (hd : d ∈ last) : s₁.world.cache.KeptIn d := by
        obtain ⟨b, s₂, he, hd'⟩ := hlast d hd
        exact (hrest.lands b s₂ he).2.trans hd'
      rw [h.same hfirst fun d hd => ⟨a, s₁, rfl, hmiddle d hd⟩]
      exact hrest.same (hfirst.trans hkept) hlast

section

variable {s : Session} (hs : s.world.cache.loading = [])
include hs

theorem orderly_idle : s.world.Orderly := by
  constructor
  · rw [hs]
    exact List.nodup_nil
  · rw [hs]
    exact fun _ hkey => nomatch hkey

/-- A step outside of all units. -/
theorem outsideUnits {x y : Eval α} (h : Eval.LoadsOnce first last x y) :
    LoadsOnce first last s (s.outsideUnits x) (s.outsideUnits y) := by
  obtain ⟨hloads, hsame⟩ := h [] (Machine.idle s.world) (orderly_idle hs)
  have hidle : (x.runFrom [] (Machine.idle s.world)).2.world.cache.loading = [] := hloads.loading.trans hs
  rw [outsideUnits_eq, outsideUnits_eq]
  constructor
  · intro result s' he
    obtain rfl := world_of_left he
    exact ⟨hidle, hloads.kept⟩
  · intro hfirst hlast
    rw [hsame hfirst fun d hd => ?_]
    obtain ⟨result, s', he, hd'⟩ := hlast d hd
    obtain rfl := world_of_left he
    exact hd'

theorem compile {path : Path} {role : Role} {k k' : Except LoadError CompiledUnit × Session →
      Except Stuck (α × Session)}
    (hk : ∀ result (s' : Session), s'.world.cache.loading = [] → s.world.Keeps s'.world →
      (∀ unit, result = .ok unit → unit.path = path) →
        LoadsOnce first last s' (k (result, s')) (k' (result, s'))) :
    LoadsOnce first last s (s.compile path role >>= k) (s.compile path role >>= k') := by
  unfold Session.compile
  cases hc : compileFile s.world.host.disk path role with
  | error d => exact ⟨fun _ _ he => (nomatch he), fun _ _ => rfl⟩
  | ok c =>
    have hkeeps := Eval.Plain.keeps_emit s.world c.queue path
    have hidle : (s.world.emit c.queue path).cache.loading = [] := by rw [hkeeps.cache, hs]
    have hrest := hk c.result { s with world := s.world.emit c.queue path } hidle hkeeps fun unit hu =>
      path_of_compileFile hc hu
    refine ⟨fun a s' he => ?_, fun hfirst hlast => ?_⟩
    · obtain ⟨hidle', hkept⟩ := hrest.lands a s' he
      exact ⟨hidle', hkeeps.loads.kept.trans hkept⟩
    · exact hrest.same (hfirst.trans hkeeps.loads.kept) hlast

end

end LoadsOnce

/-- Between two caches a conduct does what the usual one does, which loads modules in order. -/
structure Conduct.LoadsOnce (first : ModuleCache) (last : Option ModuleCache) (fuel : Nat) (c : Conduct) : Prop where
  /-- Nodes are evaluated so. -/
  eval : ∀ settings roots id, Eval.LoadsOnce first last (evalWithin (.ofSession settings roots) fuel id)
    (c.eval settings roots id)
  /-- Modules are loaded so. -/
  load : ∀ settings roots request, Eval.LoadsOnce first last
    (Loader.ofSession settings roots (evalWithin (.ofSession settings roots) fuel) request)
    (c.manner.loader settings roots (c.eval settings roots) request)
  /-- The `main` of an entry unit is called so. -/
  main : ∀ settings roots, Eval.LoadsOnce first last (Eval.invokeMain (evalWithin (.ofSession settings roots) fuel))
    (c.manner.invokeMain (c.eval settings roots))

namespace LoadsOnce

section

variable {fuel : Nat} {c : Conduct} (hc : c.LoadsOnce first last fuel) {s : Session}
  (hs : s.world.cache.loading = [])
include hc hs

/-- The run of an entry unit, which is in progress meanwhile. -/
theorem runUnit {unit : CompiledUnit} {file : Path}
    (hfile : s.world.host.disk.canonical file = .ok unit.path) :
    LoadsOnce first last s (s.runUnit (evalWithin · fuel) unit) (s.runUnitAs c unit) := by
  have H : Eval.Congruence fun x y => Eval.LoadsOnce first last x y := Eval.LoadsOnce.congruence
  have hx : Eval.LoadsOnce first last (s.entry (evalWithin · fuel) unit) (s.entryAs c unit) :=
    H.inNewMachine unit s.settings.maxDepth <| H.bind (H.runUnit (hc.eval _ _) unit.program.body) fun _ =>
      H.bind (hc.main _ _) fun _ => H.plain (.pure ())
  have hfree : unit.path.key ∉ s.world.cache.loading := by
    rw [hs]
    exact List.not_mem_nil
  obtain ⟨hloads, hsame⟩ := hx [] ((Machine.idle s.world).withCache (·.start unit.path))
    ((orderly_idle hs).start hfree hfile)
  have hstop := hloads.stop hfree
  rw [runUnit_eq]
  have hend {status s'} (he : ({ s with roots := some (s.settings.rootsFor unit.directory) } : Session).left
      ((s.entry (evalWithin · fuel) unit).runFrom [] ((Machine.idle s.world).withCache (·.start unit.path))) >>=
        (fun left => .ok (ended unit left.1 left.2)) = .ok (status, s')) :
      s'.world = (((s.entry (evalWithin · fuel) unit).runFrom []
        ((Machine.idle s.world).withCache (·.start unit.path))).2.world.withCache (·.stop unit.path)) := by
    obtain ⟨⟨outcome, s₁⟩, hleft, he⟩ := ok_of_bind he
    obtain rfl := world_of_left hleft
    have hsecond : (ended unit outcome _).2 = s' := congrArg Prod.snd (Except.ok.inj he)
    rw [← hsecond]
    exact world_ended ..
  constructor
  · intro status s' he
    rw [hend he]
    exact ⟨hstop.loading.trans hs, hstop.kept⟩
  · intro hfirst hlast
    unfold runUnitAs
    rw [← hsame hfirst fun d hd => ?_]
    · rfl
    obtain ⟨status, s', he, hd'⟩ := hlast d hd
    rw [hend he] at hd'
    exact hd'

theorem runEntry (path : Path) :
    LoadsOnce first last s (s.runEntryBy (evalWithin · fuel) path) (s.runEntryAs c path) := by
  unfold Session.runEntryBy Session.runEntryAs
  cases hpath : s.world.host.disk.canonical path with
  | error e => exact pure hs rfl _
  | ok found =>
    refine compile hs fun result s' hs' hkeeps hu => ?_
    cases result with
    | error e => exact pure hs' rfl _
    | ok unit => exact runUnit hc hs' (hu unit rfl ▸ hkeeps.disk.canonical hpath)

theorem perform (operation : Operation) :
    LoadsOnce first last s (s.perform (evalWithin · fuel) operation) (s.performAs c operation) := by
  cases operation with
  | run path =>
    refine (runEntry hc hs path).bind fun result s' hs' => ?_
    cases result <;> exact pure hs' (by rfl) _
  | check path role =>
    have hcheck : LoadsOnce first last s (s.check path role) (s.check path role) :=
      compile hs fun result s' hs' _ _ => pure hs' rfl _
    refine hcheck.bind fun result s' hs' => ?_
    cases result <;> exact pure hs' (by rfl) _
  | load request =>
    exact (outsideUnits hs (hc.load _ _ request)).bind fun result s' hs' => pure hs' rfl _
  | edit disk => exact pure hs (by rfl) _

theorem performAll (operations : List Operation) :
    LoadsOnce first last s (s.performAll (evalWithin · fuel) operations)
      (s.performAllAs (operations.map (·, c))) := by
  induction operations generalizing s with
  | nil => exact pure hs rfl _
  | cons operation rest ih =>
    refine (perform hc hs operation).bind fun outcome s₁ hs₁ => ?_
    exact (ih hs₁).bind fun outcomes s₂ hs₂ => pure hs₂ rfl _

end

end LoadsOnce

end Session

/-- Watching whether a machine is between two caches makes no difference. -/
theorem Session.Conduct.LoadsOnce.watching (first : ModuleCache) (last : Option ModuleCache) (fuel : Nat) :
    (Conduct.evaluating (Eval.watchedWithin (·.Between first last) · fuel)).LoadsOnce first last fuel := by
  have H : Eval.Congruence fun x y => Eval.LoadsOnce first last x y := Eval.LoadsOnce.congruence
  have heval (settings : Settings) (roots : Option SearchRoots) :=
    Eval.LoadsOnce.watchedWithin first last (.session settings roots) fuel
  exact ⟨heval, fun settings roots => H.ofSession (heval settings roots) settings roots,
    fun settings roots => H.invokeMain (heval settings roots)⟩

/-- No unit is in progress after operations, if none was before. -/
theorem Session.idle_of_performAll {s s' : Session} (hs : s.world.cache.loading = []) {fuel : Nat}
    {operations : List Operation} {outcomes : List Outcome}
    (h : s.performAll (evalWithin · fuel) operations = .ok (outcomes, s')) : s'.world.cache.loading = [] :=
  ((LoadsOnce.performAll (.watching .empty none fuel) hs operations).lands _ _ h).1

end DynScript
