import DynScript.Proofs.Run.Blindness
import DynScript.Proofs.Session.Naming

/-!
# Modules do not get hold of a record

The modules that an evaluation imports run in machines of their own, and what they export is not a record that was hidden
from them. So no node gets hold of a record that is being made, and in particular not the values of its members, although
the record stands open in the innermost frame while these are evaluated.
-/

namespace DynScript

variable {r : RecordId}

namespace Machine

variable {m n : Machine} {path : Path}

/-- A unit starts in a machine that hides the record, too, where the record does not stand open. -/
theorem Hides.start (hm : m.Hides r) (a : Arena) (unit : UnitId) (directory : Path) (maxDepth : Nat) :
    let started := Machine.start (m.world.addUnit a).2 unit directory maxDepth
    started.Hides r ∧ started.Apart r ∧ m.world.heap.Spares r started.world.heap := by
  obtain ⟨hne, hspares, hheap⟩ := Heap.newNamespace_apart hm.there hm.heap
  let empty : Machine :=
    { world := { (m.world.addUnit a).2 with heap := m.world.heap.newNamespace.2 }, env := .new,
      calls := .ofMaxDepth maxDepth, unit, exports := .empty, directory }
  have hempty : empty.Hides r := by
    refine ⟨⟨hheap, hm.modules, fun frame hf => ?_, Bindings.avoids_empty r⟩, hm.there.trans_le hspares.size⟩
    obtain rfl : frame = .locals .empty := by simpa [empty, Environment.new] using hf
    exact Bindings.avoids_empty r
  refine ⟨hempty.put (.record hne) empty.env.innermost Native.namespaceName, ?_, hspares⟩
  have hgrows : Environment.new.GrowsTo (Environment.new.define m.world.heap.newNamespace.2 Native.namespaceName
      (.record m.world.heap.newNamespace.1)).1 := .put ..
  intro hopen
  cases hgrows.innermost.symm.trans hopen

/-- What has happened in a machine of its own is left to the machine around it. -/
theorem Hides.withWorld (hm : m.Hides r) (hn : n.Hides r) : Hides r { m with world := n.world } :=
  ⟨⟨hn.heap, hn.modules, hm.frames, hm.exports⟩, hn.there⟩

/-- A module that has been loaded has another record. -/
theorem Hides.loaded (hm : m.Hides r) {q : RecordId} (hq : q ≠ r) (path : Path) :
    Hides r (m.withCache (·.insert path q)) := by
  refine ⟨⟨hm.heap, fun entry he => ?_, hm.frames, hm.exports⟩, hm.there⟩
  rcases List.mem_cons.1 he with rfl | he
  · exact hq
  · exact hm.modules entry (List.mem_of_mem_filter he)

end Machine

namespace Eval

namespace Blind

variable {α : Type} {P : Machine → Prop} {Q : α → Prop}

/-! ## Modules -/

theorem inNewMachine (unit : CompiledUnit) (maxDepth : Nat) {x : Eval α} (hx : Blind r (Machine.Apart r) x Q) :
    Blind r P (inNewMachine unit maxDepth x) Q := by
  intro held m hm _
  let started := Machine.start (m.world.addUnit unit.program.arena).2 (m.world.addUnit unit.program.arena).1
    unit.directory maxDepth
  obtain ⟨hstart, hapart, hspares⟩ := hm.start unit.program.arena (m.world.addUnit unit.program.arena).1 unit.directory
    maxDepth
  obtain ⟨hn, hleaves, hend⟩ := hx (m.kept held) started hstart hapart
  refine ⟨hm.withWorld hn, ⟨.refl _, rfl, ?_, hspares.gains.trans hleaves.record, fun name => ?_⟩, hend⟩
  · refine List.IsPrefix.trans ?_ hleaves.units
    simp [started, World.addUnit, Machine.start]
  · rw [← hspares.property? name]
    exact hleaves.values name

/-- A change of the world that makes no difference to names, nodes and records. -/
theorem modifyWorld {f : World → World} (hh : ∀ w, (f w).heap = w.heap) (hu : ∀ w, (f w).units = w.units)
    (hc : ∀ w, (f w).cache.modules = w.cache.modules) : Blind r P (Eval.modifyWorld f) Whatever :=
  unmoved (fun _ m => ⟨congrArg Heap.records (hh m.world), hc m.world, hu m.world, rfl, rfl, rfl⟩) fun _ _ _ _ => trivial

section

variable (hP : Machine.Lasting r P)
include hP

theorem importFailure (dotted : String) (e : LoadError) : Blind r P (Eval.importFailure dotted e) Q :=
  bind hP (modifyWorld (fun _ => rfl) (fun _ => rfl) fun _ => rfl) fun _ _ => fail nofun

theorem compiled (path : Path) (role : Role) : Blind r P (Eval.compiled path role) Whatever := by
  refine reading fun m _ _ => ?_
  split
  · exact stuck _
  · rename_i c _
    refine bind hP (modifyWorld (fun w => Still.heap_emit w c.queue path) (fun w => ?_) fun w => ?_) fun _ _ => pure trivial
    · have hunits := congrArg World.units (Plain.emit_withUnits w c.queue path w.units)
      exact hunits
    · exact congrArg ModuleCache.modules (Plain.keeps_emit w c.queue path).cache

theorem loadOnce (path : Path) {make : Eval RecordId} (hmake : Blind r P make (· ≠ r)) :
    Blind r P (Eval.loadOnce path make) (· ≠ r) := by
  have hquiet : (Cause.circularImport path.text).Avoids r := nofun
  intro held m hm hp
  rw [runFrom_loadOnce]
  cases hstatus : m.world.cache.status path with
  | loaded record =>
    obtain ⟨before, after, hmem, -⟩ := List.lookup_eq_some_iff.1 (ModuleCache.status_eq_loaded hstatus)
    exact pure (P := P) (hm.modules (path.key, record) (by rw [hmem]; simp)) held m hm hp
  | inProgress => exact fail (P := P) hquiet held m hm hp
  | unknown =>
    have hstart : m.Unmoved (m.withCache (·.start path)) := ⟨rfl, rfl, rfl, rfl, rfl, rfl⟩
    obtain ⟨hn, hleaves, hend⟩ := hmake held _ (hstart.hides hm) (hP _ _ hstart.leaves hp)
    dsimp only
    rcases hr : make.runFrom held (m.withCache (·.start path)) with ⟨e | record, n⟩ <;> rw [hr] at hn hleaves hend
    all_goals
      have hstop : n.Unmoved (n.withCache (·.stop path)) := ⟨rfl, rfl, rfl, rfl, rfl, rfl⟩
      have hstopped := (hstart.leaves.trans hleaves).trans hstop.leaves
    · exact ⟨hstop.hides hn, hstopped, hend⟩
    · exact ⟨(hstop.hides hn).loaded hend path, hstopped.trans (.of_spares rfl rfl List.prefix_rfl (.refl _)), hend⟩

theorem unitStatements {eval : Evaluator} {items : List NodeId}
    (hi : ∀ i ∈ items, Blind r P (eval i) (Value.Avoids r)) : Blind r P (unitStatements eval items) Whatever := by
  induction items with
  | nil => exact pure trivial
  | cons statement rest ih =>
    obtain ⟨hstatement, hrest⟩ := List.forall_mem_cons.1 hi
    refine bind hP (returned hstatement) fun ended _ => ?_
    split
    · exact pure trivial
    · exact ih hrest

section

variable {eval : Evaluator} (he : ∀ id, Blind r (Machine.Apart r) (eval id) (Value.Avoids r))
include he

omit hP in
theorem runUnit (bodyId : NodeId) : Blind r (Machine.Apart r) (runUnit eval bodyId) (Bindings.Avoids r) := by
  have hP := Machine.lasting_apart (r := r)
  refine reading fun m _ _ => ?_
  have htop : Blind r (Machine.Apart r) (topLevel bodyId) Whatever :=
    reading fun m _ _ => bind hP (blockItems? hP bodyId) fun _ _ => pure trivial
  refine bind hP htop fun items _ => bind hP (unitStatements hP fun i _ => withinApart he m.unit i) fun _ _ => ?_
  intro held n hn _
  exact ⟨⟨⟨hn.heap, hn.modules, hn.frames, Bindings.avoids_empty r⟩, hn.there⟩,
    .of_spares rfl rfl List.prefix_rfl (.refl _), hn.exports⟩

theorem moduleRecord (settings : Settings) (path : Path) (dotted : String) :
    Blind r P (moduleRecord settings eval path dotted) (· ≠ r) := by
  refine bind hP (compiled hP path .module) fun result _ => ?_
  cases result with
  | error e => exact importFailure hP dotted e
  | ok unit =>
    refine bind hP (attempt (inNewMachine unit _ (runUnit he unit.program.body))) fun result hresult => ?_
    cases result with
    | ok exports =>
      refine onHeap fun h hr hh => ⟨.ofEntries hr _, hh.ofEntries fun entry hmem => ?_, Heap.Spares.new_ne hr⟩
      exact hresult entry.2 (List.mem_map.2 ⟨entry, hmem, rfl⟩)
    | error fault =>
      dsimp only
      split
      · exact throw hresult
      · exact importFailure hP dotted _

/-- An import does not get hold of the record. -/
theorem loader (imports : Imports) (request : ImportRequest) :
    Blind r P (imports.loader eval request) (Value.Avoids r) := by
  cases imports with
  | unserved => exact fail nofun
  | session settings roots =>
    refine reading fun m _ _ => bind hP (Q := Whatever) (ofExcept ?_) fun path _ => ?_
    · unfold Disk.canonicalModule
      split
      · trivial
      · exact nofun
      · exact nofun
    · exact bind hP (loadOnce hP path (moduleRecord hP he settings path _)) fun _ hq => pure (.record hq)

end

end

/-! ## Nodes -/

/-- Where the record does not stand open in the innermost frame, no node gets hold of it. -/
theorem apart (imports : Imports) (fuel : Nat) (id : NodeId) :
    Blind r (Machine.Apart r) (evalWithin imports.loader fuel id) (Value.Avoids r) := by
  induction fuel generalizing id with
  | zero => exact stuck _
  | succ fuel ih =>
    refine reading fun m _ _ => nodeIn fun node => locating ?_
    have hP := Machine.lasting_apart (r := r)
    have hown (c : NodeId) := withinApart ih m.unit c
    refine nodeKind (hP.knowing m.unit id node) ⟨fun _ hm => hm.2, fun c _ => ?_, fun target owner name => ?_, hown, ?_⟩ ih ?_
    · exact (hown c).assuming fun _ hm => hm.1
    · exact (hown owner).assuming fun _ hm => hm.1.1
    · exact fun _ _ hm => hm.1
    · exact loader (hP.knowing m.unit id node) ih imports

/-- In a unit in which bindings are statements or members, no node but a binding gets hold of a record even where it
stands open in the innermost frame. -/
theorem outside (imports : Imports) {unit : UnitId} {a : Arena} (ha : a.Orderly) (fuel : Nat) (id : NodeId)
    (hb : ∀ name, ¬ a.Binds name id) :
    Blind r (Machine.Evaluates unit a) (evalWithin imports.loader fuel id) (Value.Avoids r) := by
  induction fuel generalizing id with
  | zero => exact stuck _
  | succ fuel ih =>
    refine reading fun m _ hm => ?_
    rw [hm.current]
    refine nodeIn fun node => knowing (R := a.get? id = some node) (fun n hn => hn.1.node? id ▸ hn.2) fun hnode => locating ?_
    have hP := (Machine.lasting_evaluates (r := r) unit a).knowing unit id node
    have hinner := apart (r := r) imports fuel
    have hown (c : NodeId) (hc : ∀ name, ¬ a.Binds name c) :
        Blind r (Machine.Evaluates unit a) (Eval.within unit (evalWithin imports.loader fuel) c) (Value.Avoids r) :=
      within (Machine.lasting_evaluates unit a) (ih c hc)
    have hkind : ¬ node.kind.isBinding := by
      intro hbinding
      cases hk : node.kind with
      | binding name mode isFinal value =>
        exact hb name ⟨mode, isFinal, value, Arena.kind?_eq_some.2 ⟨node.position, by rw [hnode, ← hk]⟩⟩
      | _ =>
        rw [hk] at hbinding
        cases hbinding
    refine nodeKind hP ⟨fun _ hm => hm.2, fun c hc => ?_, fun target owner name => ?_, withinApart hinner unit, ?_⟩ hinner ?_
    · exact (hown c (ha.not_binds hnode hc)).assuming fun _ hm => hm.1
    · -- The owner is an operand of what stands left of the assignment.
      refine knowing (R := ∃ position, a.get? target = some ⟨.property owner name, position⟩) (fun n hn => ?_) ?_
      · exact hn.2.imp fun position htarget => hn.1.1.node? target ▸ htarget
      · rintro ⟨position, htarget⟩
        exact (hown owner (ha.not_binds htarget (List.mem_singleton_self _))).assuming fun _ hm => hm.1.1
    · exact fun hbinding => absurd hbinding hkind
    · exact loader hP hinner imports

end Blind

end Eval

end DynScript
