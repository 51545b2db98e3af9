import DynScript.Proofs.Run.Balance
import DynScript.Proofs.Run.Invariants
import DynScript.Proofs.Run.Within

/-!
# Variables behind a frame

A name is defined in the innermost frame, and it is assigned in the innermost frame that has it. So a frame that has a
name shields the variables of that name in the frames outside of it, whatever is evaluated: `Eval.Shielding`.
-/

namespace DynScript

/-- The value of a variable of a frame. A record that stands open has properties instead. -/
def Frame.variableOf? (name : String) : Frame → Option Value
  | locals names => names.get? name
  | record _ => none

theorem Frame.variableOf?_setLocal {name other : String} (hne : name ≠ other) (v : Value) (frame : Frame) :
    (frame.setLocal other v).variableOf? name = frame.variableOf? name := by
  cases frame with
  | locals names => exact Bindings.get?_set_of_ne hne v
  | record r => rfl

namespace Environment

variable {env env' : Environment} {h : Heap} {name other : String} {v : Value} {i k n index : Nat} {frame : Frame}

/-- The value of a variable in the frame with a number. -/
def variableAt? (env : Environment) (name : String) (i : Nat) : Option Value :=
  env.frames[i]?.bind (Frame.variableOf? name)

theorem variableAt?_congr (he : env'.frames[i]? = env.frames[i]?) :
    env'.variableAt? name i = env.variableAt? name i := by
  rw [variableAt?, he, variableAt?]

theorem variableAt?_truncate {depth : Nat} (hi : i < depth) :
    (env.truncate depth).variableAt? name i = env.variableAt? name i :=
  variableAt?_congr (getElem?_truncate (by omega))

/-- To give a name a value in one frame changes no variable of another frame. -/
theorem variableAt?_put (hne : index ≠ i) :
    (env.put h other v (.locals index)).1.variableAt? name i = env.variableAt? name i := by
  refine variableAt?_congr ?_
  show (env.frames.modify index (Frame.setLocal other v))[i]? = _
  rw [Array.getElem?_modify, if_neg hne]

/-- Nor does it change a variable of another name. -/
theorem variableAt?_put_of_ne (hne : name ≠ other) {holder : Holder} :
    (env.put h other v holder).1.variableAt? name i = env.variableAt? name i := by
  cases holder with
  | record r => rfl
  | locals index =>
    show ((env.frames.modify index (Frame.setLocal other v))[i]?).bind _ = _
    rw [Array.getElem?_modify, variableAt?]
    split
    · cases env.frames[i]? with
      | none => rfl
      | some frame => exact frame.variableOf?_setLocal hne v
    · rfl

/-- A variable is assigned in no frame outside of one that has the name. -/
theorem le_of_target? (ht : env.target? h name = some (.locals index)) (hk : env.frames[k]? = some frame)
    (hname : (frame.names h).has name) : k ≤ index := by
  obtain ⟨-, hholder⟩ := (target?_cases ht).resolve_left nofun
  obtain ⟨i, found, hf, hfound⟩ := finds_of_holder? hholder
  cases found with
  | record r => cases hfound
  | locals names =>
    cases hfound
    exact Nat.not_lt.1 fun hlt => hf.innermost k frame hlt hk hname

/-- What is defined is defined in the last frame. -/
theorem eq_of_innermost (hi : env.innermost = .locals index) : index = env.depth - 1 := by
  obtain ⟨frame, -, hholder⟩ := env.exists_innermost
  rw [hi] at hholder
  cases frame with
  | locals names =>
    cases hholder
    rfl
  | record r => cases hholder

end Environment

/-- What stands open in the first machine is still there in the second one, and where a frame has a name the variables
of that name in the frames outside of it have stayed as they were. -/
structure Machine.Shields (m n : Machine) : Prop where
  /-- Frames may have taken more names. -/
  env : m.env.GrowsTo n.env
  /-- Records may have grown. -/
  heap : m.world.heap.GrowsTo n.world.heap
  /-- Behind a frame that has a name. -/
  outer : ∀ {name : String} {k i : Nat} {frame : Frame}, m.env.frames[k]? = some frame →
    (frame.names m.world.heap).has name → i < k → n.env.variableAt? name i = m.env.variableAt? name i

namespace Machine.Shields

variable {l m n m' n' : Machine}

@[refl] theorem refl (m : Machine) : m.Shields m := ⟨.refl _, .refl _, fun _ _ _ => rfl⟩

theorem trans (h : l.Shields m) (k : m.Shields n) : l.Shields n where
  env := h.env.trans k.env
  heap := h.heap.trans k.heap
  outer hk hname hi := by
    obtain ⟨frame', hk', hgrows⟩ := h.env.frames _ _ hk
    exact (k.outer hk' (hgrows.names h.heap _ hname) hi).trans (h.outer hk hname hi)

/-- Where the frames stay and records grow at most. -/
theorem still (he : n.env.frames = m.env.frames) (hh : m.world.heap.GrowsTo n.world.heap) : m.Shields n where
  env := ⟨congrArg Array.size he, fun i frame hf => ⟨frame, he ▸ hf, .refl frame⟩⟩
  heap := hh
  outer _ _ _ := Environment.variableAt?_congr (by rw [he])

/-- To define a name. -/
theorem put_innermost (m : Machine) (name : String) (v : Value) :
    m.Shields { m with
      env := (m.env.put m.world.heap name v m.env.innermost).1
      world := { m.world with heap := (m.env.put m.world.heap name v m.env.innermost).2 } } where
  env := .put ..
  heap := Environment.growsTo_put ..
  outer {other k i frame} hk hname hi := by
    cases hholder : m.env.innermost with
    | record r => rfl
    | locals index =>
      have hlast := Environment.eq_of_innermost hholder
      have hlt : k < m.env.frames.size := (Array.getElem?_eq_some_iff.1 hk).1
      have hdepth : m.env.depth = m.env.frames.size := rfl
      exact Environment.variableAt?_put (h := m.world.heap) (by omega)

/-- To assign to a name. -/
theorem put_target {holder : Holder} {name : String} (ht : m.env.target? m.world.heap name = some holder) (v : Value) :
    m.Shields { m with
      env := (m.env.put m.world.heap name v holder).1
      world := { m.world with heap := (m.env.put m.world.heap name v holder).2 } } where
  env := .put ..
  heap := Environment.growsTo_put ..
  outer {other k i frame} hk hname hi := by
    by_cases hother : other = name
    · subst hother
      cases holder with
      | record r => rfl
      | locals index =>
        have hle := Environment.le_of_target? ht hk hname
        exact Environment.variableAt?_put (h := m.world.heap) (by omega)
    · exact Environment.variableAt?_put_of_ne hother

/-- What is evaluated in a frame of its own, which is cut off again. -/
theorem inFrame {env : Environment} {frame : Frame} (hpush : env.frames = m.env.frames.push frame)
    (h : Shields { m with env } n) : m.Shields { n with env := n.env.truncate m.env.depth } := by
  have hbelow {i : Nat} (hi : i < m.env.frames.size) : env.frames[i]? = m.env.frames[i]? := by
    rw [hpush, Environment.getElem?_push hi]
  refine ⟨.of_inner (by rw [hpush, Array.size_push]) (fun i => hbelow) h.env, h.heap, ?_⟩
  intro name k i frame hk hname hi
  have hlt : k < m.env.frames.size := (Array.getElem?_eq_some_iff.1 hk).1
  have hi' : i < m.env.depth := hi.trans hlt
  have hinner : n.env.variableAt? name i = env.variableAt? name i := h.outer ((hbelow hlt).trans hk) hname hi
  rw [Environment.variableAt?_congr (hbelow (hi.trans hlt))] at hinner
  exact (Environment.variableAt?_truncate hi').trans hinner

end Machine.Shields

namespace Eval

variable {α β : Type}

/-- Frames shield the variables behind them. -/
def Shielding (x : Eval α) : Prop := ∀ held (m : Machine), m.Shields (x.runFrom held m).2

namespace Shielding

theorem still {x : Eval α} (hx : x.Still) : Shielding x :=
  fun held m => .still (congrArg Environment.frames (hx.env held m)) (hx.heap held m)

theorem throw (e : Interruption) : Shielding (MonadExcept.throw e : Eval α) := fun _ m => .refl m

theorem get : Shielding (MonadState.get : Eval Machine) := fun _ m => .refl m

theorem bind {x : Eval α} {f : α → Eval β} (hx : Shielding x) (hf : ∀ a, Shielding (f a)) : Shielding (x >>= f) := by
  intro held m
  have h := hx held m
  rw [runFrom_bind]
  rcases hr : x.runFrom held m with ⟨e | a, n⟩ <;> rw [hr] at h
  · exact h
  · exact h.trans (hf a held n)

theorem finishing {x : Eval α} {f : Except Interruption α → Machine → Except Interruption β × Machine}
    (hx : Shielding x) (hf : ∀ result (m : Machine), m.Shields (f result m).2) : Shielding (finishing x f) :=
  fun held m => (hx held m).trans (hf _ _)

/-- A step between two changes that have nothing to do with frames and records. -/
theorem between {x : Eval α} (hx : Shielding x) {f g : Machine → Machine}
    (hf : ∀ m, (f m).env.frames = m.env.frames ∧ (f m).world.heap = m.world.heap)
    (hg : ∀ m, (g m).env.frames = m.env.frames ∧ (g m).world.heap = m.world.heap) :
    Shielding (modify f >>= fun _ => afterwards g x) := by
  have hchange (m : Machine) {f : Machine → Machine}
      (hf : (f m).env.frames = m.env.frames ∧ (f m).world.heap = m.world.heap) : m.Shields (f m) :=
    .still hf.1 (by rw [hf.2])
  exact bind (fun held m => hchange m (hf m)) fun _ => hx.finishing fun _ m => hchange m (hg m)

theorem inFrame {x : Eval α} {push : Environment → Environment}
    (hpush : ∀ env, ∃ frame, (push env).frames = env.frames.push frame) (hx : Shielding x) :
    Shielding (inFrame push x) := by
  intro held m
  obtain ⟨frame, hframe⟩ := hpush m.env
  exact .inFrame hframe (hx held _)

theorem inCall {x : Eval α} (frame : CallFrame) (hx : Shielding x) : Shielding (inCall frame x) := by
  have hmap : Shielding (mapFault (fun m fault => m.calls.attachBacktrace m.world.heap fault) x) :=
    hx.finishing fun result m => by split <;> rfl
  have hcall := hmap.between (f := fun m => { m with calls := m.calls.enter frame })
    (g := fun m => { m with calls := m.calls.pop }) (fun _ => ⟨rfl, rfl⟩) fun _ => ⟨rfl, rfl⟩
  refine get.bind fun m => ?_
  split
  · exact bind (throw _) fun _ => hcall
  · exact hcall

/-- The machine of a module has frames of its own. -/
theorem inNewMachine {x : Eval α} (unit : CompiledUnit) (maxDepth : Nat) (hx : Shielding x) :
    Shielding (inNewMachine unit maxDepth x) := by
  intro held m
  have h := hx (m.kept held) (Machine.start (m.world.addUnit unit.program.arena).2
    (m.world.addUnit unit.program.arena).1 unit.directory maxDepth)
  have hstart : m.world.heap.GrowsTo (Environment.new.define m.world.heap.newNamespace.2 Native.namespaceName
      (.record m.world.heap.newNamespace.1)).2 := (Heap.GrowsTo.newNamespace _).trans (Environment.growsTo_put ..)
  exact .still rfl (hstart.trans h.heap)

theorem modifyWorld {f : World → World} (hf : ∀ w, (f w).heap = w.heap) : Shielding (modifyWorld f) :=
  fun _ m => .still rfl (by
    show m.world.heap.GrowsTo (f m.world).heap
    rw [hf])

theorem loadOnce {x : Eval RecordId} (path : Path) (hx : Shielding x) : Shielding (loadOnce path x) := by
  refine get.bind fun m => ?_
  split
  · exact still (.pure _)
  · exact throw _
  · refine bind (modifyWorld fun _ => rfl) fun _ => bind ?_ fun record => ?_
    · exact hx.finishing fun _ m => .still rfl (.refl _)
    · exact bind (modifyWorld fun _ => rfl) fun _ => still (.pure _)

theorem define (name : String) (v : Value) : Shielding (define name v) := fun _ m => .put_innermost m name v

theorem assign (name : String) (v : Value) : Shielding (assign name v) := by
  intro held m
  rw [Eval.assign, runFrom_bind, runFrom_target?]
  dsimp only
  cases ht : m.env.target? m.world.heap name with
  | some holder => exact .put_target ht v
  | none => exact .refl m

theorem looking {x : Eval α} (hx : Looks x) : Shielding x := fun held m => by rw [hx held m]

/-- All of evaluation is put together so that frames shield the variables behind them. -/
theorem loading : Loading fun x _ => Shielding x where
  still := still
  bind := bind
  holding g _ _ hx := fun held m => hx (g held) m
  inScope := inFrame fun _ => ⟨_, rfl⟩
  inRecord _ _ _ := inFrame fun _ => ⟨_, rfl⟩
  raise _ := throw _
  define := define
  assign := assign
  ending hf hx := hx.finishing fun result m => .still (by rw [hf.env]) (by rw [hf.world])
  withActive _ _ _ _ hx := hx.between (fun _ => ⟨rfl, rfl⟩) fun _ => ⟨rfl, rfl⟩
  inUnit _ _ _ hx := get.bind fun _ => hx.between (fun _ => ⟨rfl, rfl⟩) fun _ => ⟨rfl, rfl⟩
  inCall frame _ _ := inCall frame
  blockItems? unit id := looking (.blockItems? unit id)
  functionParts f := looking (.functionParts f)
  memberParts unit id := looking (.memberParts unit id)
  templateParts t := looking (.templateParts t)
  inNewMachine unit maxDepth _ _ := inNewMachine unit maxDepth
  loadFile file _ _ hx := bind (still (.located file)) fun path => loadOnce path (hx path)

/-- In a manner that does not interfere, frames shield the variables behind them. -/
theorem evaluator {M : Manner} (hM : Alike (fun x _ => Shielding x) M M) (imports : Imports) (fuel : Nat)
    (id : NodeId) : Shielding (M.evaluator imports.loader fuel id) :=
  @Loading.evaluator _ loading M M hM (fun unit id => looking (.nodeIn unit id))
    (fun unit id => looking (.assignee unit id)) imports fuel id

end Shielding

end Eval

end DynScript
