import DynScript.Proofs.Run.Within
import DynScript.Proofs.Tree.Scoping
import DynScript.Run.Evaluate

/-!
# Steps that stay within a realm

A step stays within a realm when it leads from machines of the realm to such machines, closes what it opens,
loses no name, and comes to an end that the realm allows for. What is known of the machine before it and after it
is said by two predicates, as in a Hoare triple. Most of what is known is stable: steps do not undo it.
-/

namespace DynScript

namespace Machine

variable {ρ : Realm} {c : Context}

/-- What no step undoes. -/
def Stable (P : Machine → Prop) : Prop := ∀ m n : Machine, m.Extends n → P m → P n

/-- What a context says of a machine. Nothing is said of names where names without a value may be met. -/
structure Sees (ρ : Realm) (c : Context) (m : Machine) : Prop where
  /-- The calls in progress. -/
  depth : m.calls.depth = c.depth
  /-- The names that have a value. -/
  names : ρ.misses ∨ ∀ name ∈ c.names, m.Binds name
  /-- Names can be defined. -/
  definable : ρ.misses ∨ m.env.Definable m.world.heap

theorem stable_sees (ρ : Realm) (c : Context) : Stable (Sees ρ c) := by
  intro m n h hm
  constructor
  · rw [h.calls]
    exact hm.depth
  · exact hm.names.imp id fun hnames name hname => (hnames name hname).later h
  · exact hm.definable.imp id fun hd => h.env.definable h.heap hd

/-- Less may be said of a machine. -/
theorem Sees.fewer {c' : Context} {m : Machine} (hm : m.Sees ρ c) (hd : c'.depth = c.depth)
    (hn : ∀ name ∈ c'.names, name ∈ c.names) : m.Sees ρ c' where
  depth := hm.depth.trans hd.symm
  names := hm.names.imp id fun hnames name hname => hnames name (hn name hname)
  definable := hm.definable

/-- One more name has a value. -/
theorem Sees.define {name : String} {m : Machine} (hm : m.Sees ρ c) (hb : ρ.misses ∨ m.Binds name) :
    m.Sees ρ (c.define name) where
  depth := hm.depth
  names := by
    rcases hb with hmiss | hb
    · exact .inl hmiss
    · refine hm.names.imp id fun hnames other hother => ?_
      rcases List.mem_cons.1 hother with rfl | hother
      · exact hb
      · exact hnames other hother
  definable := hm.definable

/-- A record stands open, and it is there. -/
structure Opens (r : RecordId) (m : Machine) : Prop where
  /-- The frame. -/
  frame : Frame.record r ∈ m.env.frames
  /-- The record. -/
  there : r.index < m.world.heap.size

theorem stable_opens (r : RecordId) : Stable (Opens r) :=
  fun _ _ h hm => ⟨h.env.opens hm.frame, hm.there.trans_le h.heap.size⟩

theorem Stable.and {P R : Machine → Prop} (hP : Stable P) (hR : Stable R) : Stable fun m => P m ∧ R m :=
  fun m n h hm => ⟨hP m n h hm.1, hR m n h hm.2⟩

theorem stable_depth (d : Nat) : Stable fun m => m.calls.depth = d := by
  intro m n h hm
  rw [h.calls]
  exact hm

end Machine

namespace Eval

open Machine (Sees Opens Stable)

variable {α β : Type} {ρ : Realm} {P P' R : Machine → Prop} {Q : α → Prop} {Q' : β → Prop}

/-- How a step may end: in a value of which `Q` holds and a machine of which `P` holds, in a fault that the realm
allows for, or without fuel if the realm allows for that. -/
def Ends (ρ : Realm) (Q : α → Prop) (P : Machine → Prop) : Except Interruption α × Machine → Prop
  | (.ok a, n) => Q a ∧ P n
  | (.error (.fault fault), _) => fault.cause.Harmless ρ
  | (.error (.stuck stuck), _) => stuck = .outOfFuel ∧ ρ.starves

/-- From the machines of a realm of which `P` holds a step leads to machines of the realm, and to an end that is
allowed for. -/
def Stays (ρ : Realm) (P : Machine → Prop) (x : Eval α) (Q : α → Prop) (P' : Machine → Prop) : Prop :=
  ∀ held (m : Machine), m.Within ρ → P m →
    m.Extends (x.runFrom held m).2 ∧ (x.runFrom held m).2.Within ρ ∧ Ends ρ Q P' (x.runFrom held m)

/-- A name may be looked up. -/
def Knows (ρ : Realm) (P : Machine → Prop) (name : String) : Prop := ρ.misses ∨ ∀ m : Machine, P m → m.Binds name

/-- A context knows the names that may be looked up in it. -/
theorem knows_of_bound {c : Context} {name : String} (hb : c.Bound ρ.misses name)
    (hP : ∀ m, P m → m.Sees ρ c) : Knows ρ P name := by
  by_cases hmiss : ρ.misses
  · exact .inl hmiss
  · refine .inr fun m hm => ?_
    exact (hP m hm).names.resolve_left hmiss name (hb.resolve_right hmiss)

theorem harmless_unbound {name : String} (hm : ρ.misses) : (Cause.unboundName name).Harmless ρ where
  unbound _ _ := hm
  returning _ h := by cases h

theorem harmless_returning {v : Value} (hv : v.Within ρ) : (Cause.returning v).Harmless ρ where
  unbound _ h := by cases h
  returning _ h := by
    cases h
    exact hv

/-- Most faults are allowed for anywhere. -/
theorem harmless_of {cause : Cause} (hu : ∀ name, cause ≠ .unboundName name) (hr : ∀ v, cause ≠ .returning v) :
    cause.Harmless ρ where
  unbound name h := (hu name h).elim
  returning v h := (hr v h).elim

/-- How a step ends has nothing to do with the machine, but for what is known of it after a value. -/
theorem Ends.elsewhere {result : Except Interruption α} {n n' : Machine} (h : Ends ρ Q P (result, n))
    (hp : P' n') : Ends ρ Q P' (result, n') := by
  rcases result with ⟨fault | stuck⟩ | a
  · exact h
  · exact h
  · exact ⟨h.1, hp⟩

namespace Stays

/-! ### Rules -/

theorem pure {a : α} (h : Q a) : Stays ρ P (Pure.pure a) Q P := fun _ m hm hp => ⟨.refl m, hm, h, hp⟩

theorem throw {fault : Fault} (h : fault.cause.Harmless ρ) :
    Stays ρ P (MonadExcept.throw (Interruption.fault fault)) Q P' :=
  fun _ m hm _ => ⟨.refl m, hm, h⟩

theorem fail {cause : Cause} (h : cause.Harmless ρ) : Stays ρ P (Eval.fail cause) Q P' := throw h

theorem failAt {position : Option Position} {cause : Cause} (h : cause.Harmless ρ) :
    Stays ρ P (Eval.failAt position cause) Q P' :=
  throw h

theorem bind {x : Eval α} {k : α → Eval β} (hx : Stays ρ P x Q R) (hk : ∀ a, Q a → Stays ρ R (k a) Q' P') :
    Stays ρ P (x >>= k) Q' P' := by
  intro held m hm hp
  obtain ⟨hext, hn, hend⟩ := hx held m hm hp
  rw [runFrom_bind]
  rcases hr : x.runFrom held m with ⟨⟨fault | stuck⟩ | a, n⟩ <;> rw [hr] at hext hn hend
  · exact ⟨hext, hn, hend⟩
  · exact ⟨hext, hn, hend⟩
  · obtain ⟨hext', hn', hend'⟩ := hk a hend.1 held n hn hend.2
    exact ⟨hext.trans hext', hn', hend'⟩

/-- Less may be known before, and more than is needed afterwards. -/
theorem weaken {P₀ R' : Machine → Prop} {Q₀ : α → Prop} {x : Eval α} (hx : Stays ρ P x Q P')
    (hP : ∀ m, P₀ m → P m) (hQ : ∀ a, Q a → Q₀ a) (hP' : ∀ m, P' m → R' m) : Stays ρ P₀ x Q₀ R' := by
  intro held m hm hp
  obtain ⟨hext, hn, hend⟩ := hx held m hm (hP m hp)
  refine ⟨hext, hn, ?_⟩
  rcases hr : x.runFrom held m with ⟨⟨fault | stuck⟩ | a, n⟩ <;> rw [hr] at hend
  · exact hend
  · exact hend
  · exact ⟨hQ a hend.1, hP' n hend.2⟩

/-- What is stable is still known afterwards. -/
theorem keeping {x : Eval α} (hR : Stable R) (hx : Stays ρ P x Q P') (hP : ∀ m, R m → P m) :
    Stays ρ R x Q fun n => R n ∧ P' n := by
  intro held m hm hr
  obtain ⟨hext, hn, hend⟩ := hx held m hm (hP m hr)
  refine ⟨hext, hn, ?_⟩
  have hstill := hR m _ hext hr
  rcases hresult : x.runFrom held m with ⟨⟨fault | stuck⟩ | a, n⟩ <;> rw [hresult] at hend hstill
  · exact hend
  · exact hend
  · exact ⟨hend.1, hstill, hend.2⟩

/-- A step that is made only under a condition, and what comes after it. -/
theorem guarded (c : Prop) [Decidable c] {stop : Eval PUnit} {k : PUnit → Eval α}
    (hs : Stays ρ P stop Whatever R) (hR : ∀ m, P m → ¬ c → R m) (hk : ∀ u, Stays ρ R (k u) Q P') :
    Stays ρ P (if c then stop >>= k else k ()) Q P' := by
  split
  · exact hs.bind fun u _ => hk u
  · rename_i hc
    exact (hk ()).weaken (fun m hm => hR m hm hc) (fun _ h => h) fun _ h => h

/-- A condition under which a step stops. -/
theorem stopping (c : Prop) [Decidable c] {stop : Eval PUnit} {k : PUnit → Eval α}
    (hs : Stays ρ P stop (fun _ => False) P) (hk : ∀ u, Stays ρ P (k u) Q P') :
    Stays ρ P (if c then stop >>= k else k ()) Q P' :=
  guarded c (hs.weaken (fun _ h => h) (fun _ _ => trivial) fun _ h => h) (fun _ h _ => h) hk

theorem holding {x : Eval α} (g : List Value → List Value) (hx : Stays ρ P x Q P') :
    Stays ρ P (withReader g x : Eval α) Q P' :=
  fun held m hm hp => hx (g held) m hm hp

/-- Looking at a machine and going on, when only what is known of it matters. -/
theorem reading {k : Machine → Eval α} (hk : ∀ m, m.Within ρ → P m → Stays ρ P (k m) Q P') :
    Stays ρ P (get >>= k) Q P' :=
  fun held m hm hp => hk m hm hp held m hm hp

/-- A change of a machine. -/
theorem change {f : Machine → α × Machine} (hP : Stable P)
    (h : ∀ m : Machine, m.Within ρ → P m → m.Extends (f m).2 ∧ (f m).2.Within ρ ∧ Q (f m).1) :
    Stays ρ P (modifyGet f) Q P := by
  intro held m hm hp
  obtain ⟨hext, hn, hq⟩ := h m hm hp
  exact ⟨hext, hn, hq, hP m _ hext hp⟩

/-- Looking at the end of a step. -/
theorem finishing {x : Eval α} {f : Except Interruption α → Machine → Except Interruption β × Machine}
    (hP : Stable P) (hx : Stays ρ P x Q R)
    (hf : ∀ result (n : Machine), P n → Ends ρ Q R (result, n) →
      (f result n).2 = n ∧ Ends ρ Q' P' (f result n)) :
    Stays ρ P (finishing x f) Q' P' := by
  intro held m hm hp
  obtain ⟨hext, hn, hend⟩ := hx held m hm hp
  obtain ⟨hsame, hend'⟩ := hf (x.runFrom held m).1 (x.runFrom held m).2 (hP m _ hext hp) hend
  rw [runFrom_finishing]
  refine ⟨?_, ?_, hend'⟩
  · rw [hsame]
    exact hext
  · rw [hsame]
    exact hn

/-- A step between two changes, the second of which undoes the first one. -/
theorem between {x : Eval α} {f g : Machine → Machine} (hP : Stable P) (hx : Stays ρ R x Q P')
    (hf : ∀ m, m.Within ρ → P m → (f m).Within ρ ∧ R (f m))
    (hg : ∀ m n : Machine, m.Within ρ → n.Within ρ → (f m).Extends n → m.Extends (g n) ∧ (g n).Within ρ) :
    Stays ρ P (modify f >>= fun _ => afterwards g x) Q P := by
  intro held m hm hp
  obtain ⟨hfm, hr⟩ := hf m hm hp
  obtain ⟨hext, hn, hend⟩ := hx held (f m) hfm hr
  obtain ⟨hext', hn'⟩ := hg m _ hm hn hext
  exact ⟨hext', hn', hend.elsewhere (hP m _ hext' hp)⟩

theorem mapFault {x : Eval α} {f : Machine → Fault → Fault} (hP : Stable P) (hx : Stays ρ P x Q P')
    (hf : ∀ m fault, (f m fault).cause = fault.cause) : Stays ρ P (mapFault f x) Q P' := by
  refine hx.finishing hP fun result n _ hend => ?_
  rcases result with ⟨fault | stuck⟩ | a
  · refine ⟨rfl, ?_⟩
    show (f n fault).cause.Harmless ρ
    rw [hf]
    exact hend
  · exact ⟨rfl, hend⟩
  · exact ⟨rfl, hend⟩

theorem locating {position : Option Position} {x : Eval α} (hP : Stable P) (hx : Stays ρ P x Q P') :
    Stays ρ P (locating position x) Q P' :=
  hx.mapFault hP fun _ fault => by split <;> rfl

theorem catchReturn {x : Eval Value} (hP : Stable P) (hx : Stays ρ P x (Value.Within ρ) P) :
    Stays ρ P (catchReturn x) (Value.Within ρ) P := by
  refine hx.finishing hP fun result n hp hend => ?_
  split
  · exact ⟨rfl, hend.returning _ rfl, hp⟩
  · exact ⟨rfl, hend⟩

theorem returned {Q : Value → Prop} {x : Eval Value} (hP : Stable P) (hx : Stays ρ P x Q R) :
    Stays ρ P (returned x) Whatever P := by
  refine hx.finishing hP fun result n hp hend => ?_
  split
  · exact ⟨rfl, trivial, hp⟩
  · exact ⟨rfl, trivial, hp⟩
  · rename_i interruption _
    cases interruption <;> exact ⟨rfl, hend⟩

/-! ### What is opened and closed -/

/-- A step in a frame of its own: what was known of the frames that stood before still holds. -/
theorem inFrame {x : Eval α} {push : Environment → Environment} (hP : Stable P) (hx : Stays ρ R x Q P')
    (hw : ∀ env : Environment, env.Within ρ → (push env).Within ρ)
    (hs : ∀ env : Environment, (push env).frames.size = env.frames.size + 1)
    (hb : ∀ (env : Environment) (i : Nat), i < env.frames.size → (push env).frames[i]? = env.frames[i]?)
    (hR : ∀ m : Machine, m.Within ρ → P m → R { m with env := push m.env }) :
    Stays ρ P (inFrame push x) Q P := by
  intro held m hm hp
  have hglobal := hb m.env 0 m.env.size_frames_pos
  obtain ⟨hext, hn, hend⟩ := hx held { m with env := push m.env }
    (hm.withEnv (hw m.env hm.env) hglobal) (hR m hm hp)
  have hgrows : m.Extends ((Eval.inFrame push x).runFrom held m).2 :=
    ⟨.of_inner (hs m.env) (hb m.env) hext.env, hext.heap, hext.calls⟩
  refine ⟨hgrows, ?_, hend.elsewhere (hP m _ hgrows hp)⟩
  exact hn.withEnv (hn.env.truncate _) (Environment.getElem?_truncate (by omega))

theorem inScope {x : Eval α} (hP : Stable P) (hx : Stays ρ R x Q P')
    (hR : ∀ m : Machine, m.Within ρ → P m → R { m with env := m.env.pushScope }) :
    Stays ρ P (inScope x) Q P :=
  hx.inFrame hP (fun _ he => he.pushScope) (fun _ => Array.size_push _)
    (fun _ _ hi => Environment.getElem?_push hi) hR

theorem inRecord {x : Eval α} {r : RecordId} (hP : Stable P) (hr : ρ.Owns r) (hx : Stays ρ R x Q P')
    (hR : ∀ m : Machine, m.Within ρ → P m → R { m with env := m.env.pushRecord r }) :
    Stays ρ P (inRecord r x) Q P :=
  hx.inFrame hP (fun _ he => he.pushRecord hr) (fun _ => Array.size_push _)
    (fun _ _ hi => Environment.getElem?_push hi) hR

/-- Which record is active makes no difference to the frames. -/
theorem withActive {x : Eval α} {r : RecordId} (hP : Stable P) (hr : ρ.Owns r) (hx : Stays ρ P x Q P')
    (hR : ∀ m : Machine, P m → P { m with env := m.env.enter r }) : Stays ρ P (withActive r x) Q P := by
  refine hx.between hP (fun m hm hp => ⟨hm.withEnv (hm.env.enter hr) rfl, hR m hp⟩) fun m n hm hn hext => ?_
  exact ⟨⟨⟨hext.env.depth, hext.env.frames⟩, hext.heap, hext.calls⟩, hn.withEnv hn.env.leave rfl⟩

/-- The unit that is evaluated stays the same. -/
theorem inUnit {x : Eval α} (hx : Stays ρ P x Q P') : Stays ρ P (inUnit ρ.unit x) Q P' := by
  intro held m hm hp
  obtain ⟨hext, hn, hend⟩ := hx held m hm hp
  have hrun : (Eval.inUnit ρ.unit x).runFrom held m = x.runFrom held m := by
    have hbefore : { m with unit := ρ.unit } = m := by
      rw [← hm.unit]
    have hafter : { (x.runFrom held m).2 with unit := m.unit } = (x.runFrom held m).2 := by
      rw [hm.unit, ← hn.unit]
    have hunfold : (Eval.inUnit ρ.unit x).runFrom held m =
        ((x.runFrom held { m with unit := ρ.unit }).1,
          { (x.runFrom held { m with unit := ρ.unit }).2 with unit := m.unit }) := rfl
    rw [hunfold, hbefore, hafter]
  rw [hrun]
  exact ⟨hext, hn, hend⟩

/-- A call is entered only if there may be one more. -/
theorem inCall {x : Eval α} {frame : CallFrame} {d : Nat} (hP : Stable P) (hd : ∀ m, P m → m.calls.depth = d)
    (hR : Stable R) (hx : d < ρ.maxDepth → Stays ρ R x Q R)
    (hin : ∀ m : Machine, P m → R { m with calls := m.calls.enter frame }) : Stays ρ P (inCall frame x) Q P := by
  have hcause (m : Machine) (fault : Fault) :
      (m.calls.attachBacktrace m.world.heap fault).cause = fault.cause := by
    unfold CallStack.attachBacktrace
    split <;> rfl
  refine reading fun m hm hp => ?_
  cases hrefused : m.calls.refusal? with
  | some cause =>
    dsimp only
    refine bind (Q := fun _ => False) (R := P) (fail ?_) fun _ h => h.elim
    unfold CallStack.refusal? at hrefused
    split at hrefused
    · obtain rfl := Option.some.inj hrefused
      exact ρ.accepts.ordinary rfl
    · cases hrefused
  | none =>
    have hlt : d < ρ.maxDepth := by
      unfold CallStack.refusal? at hrefused
      split at hrefused
      · cases hrefused
      · rename_i hmore
        rw [← hd m hp, ← hm.maxDepth]
        omega
    refine ((hx hlt).mapFault hR hcause).between hP (fun n hn hp => ⟨hn.withCalls rfl, hin n hp⟩) ?_
    intro n n' hn hn' hext
    have hcalls : n'.calls.pop = n.calls := by
      rw [hext.calls]
      simp [CallStack.enter, CallStack.pop]
    exact ⟨⟨hext.env, hext.heap, hcalls⟩, hn'.withCalls rfl⟩

/-! ### Records -/

theorem ofExcept {e : Except Cause α} (hP : Gives (Cause.Harmless ρ) Q e) :
    Stays ρ P (Eval.ofExcept e) Q P := by
  cases e with
  | ok a => exact pure hP
  | error cause => exact fail hP

theorem requireUnit (id : NodeId) : Stays ρ P (Eval.requireUnit ρ.unit id) Whatever P := by
  refine reading fun m hm _ => ?_
  rw [if_neg (not_not.2 hm.unit)]
  exact pure trivial

theorem heap : Stays ρ P Eval.heap (Heap.Within ρ) P := fun _ m hm hp => ⟨.refl m, hm, hm.heap, hp⟩

theorem onHeap {f : Heap → α × Heap} (hP : Stable P)
    (h : ∀ heap, heap.Within ρ → heap.GrowsTo (f heap).2 ∧ (f heap).2.Within ρ ∧ Q (f heap).1) :
    Stays ρ P (Eval.onHeap f) Q P := by
  refine change hP fun m hm _ => ?_
  obtain ⟨hgrows, hheap, hq⟩ := h m.world.heap hm.heap
  exact ⟨⟨.refl _, hgrows, rfl⟩, hm.withHeap hheap hgrows, hq⟩

theorem modifyHeap {f : Heap → Heap} (hP : Stable P)
    (h : ∀ heap, heap.Within ρ → heap.GrowsTo (f heap) ∧ (f heap).Within ρ) :
    Stays ρ P (Eval.modifyHeap f) Whatever P := by
  refine change hP fun m hm _ => ?_
  obtain ⟨hgrows, hheap⟩ := h m.world.heap hm.heap
  exact ⟨⟨.refl _, hgrows, rfl⟩, hm.withHeap hheap hgrows, trivial⟩

/-- A new record is there and belongs to the unit. -/
theorem newRecord (hP : Stable P) {k : RecordId → Eval α}
    (hk : ∀ r, ρ.Owns r → Stays ρ (fun m => P m ∧ r.index < m.world.heap.size) (k r) Q P') :
    Stays ρ P (Eval.onHeap Heap.newRecord >>= k) Q P' := by
  intro held m hm hp
  obtain ⟨hheap, howns⟩ := hm.heap.alloc (RecordData.within_empty ρ none)
  have hgrows := Heap.GrowsTo.alloc m.world.heap ⟨none, .empty, none⟩
  have hext : m.Extends { m with world := { m.world with heap := m.world.heap.newRecord.2 } } :=
    ⟨.refl _, hgrows, rfl⟩
  have hthere : m.world.heap.newRecord.1.index < m.world.heap.newRecord.2.size := by
    simp [Heap.newRecord, Heap.alloc, Heap.size]
  obtain ⟨hext', hn, hend⟩ := hk _ howns held _ (hm.withHeap hheap hgrows) ⟨hP m _ hext hp, hthere⟩
  exact ⟨hext.trans hext', hn, hend⟩

theorem newList {items : Array Value} (hP : Stable P) (hi : ∀ v ∈ items, v.Within ρ) :
    Stays ρ P (Eval.newList items) (Value.Within ρ) P :=
  onHeap hP fun _ hh => ⟨.of_records rfl, hh.of_records rfl, .list hi⟩

theorem setProperty (hP : Stable P) {r : RecordId} (hr : ρ.Owns r) (name : String) {v : Value}
    (hv : v.Within ρ) : Stays ρ P (Eval.setProperty r name v) Whatever P :=
  modifyHeap hP fun h hh => ⟨.set h r name v, hh.set hr hv name⟩

theorem lives (hP : Stable P) (r : RecordId) : Stays ρ P (Eval.lives r) Whatever P := by
  intro held m hm hp
  have hrecords := m.records_lives held r
  have hgrows := Heap.GrowsTo.of_records hrecords
  have hext : m.Extends (m.lives held r).2 := by
    rw [m.snd_lives]
    exact ⟨.refl _, hgrows, rfl⟩
  have hn : (m.lives held r).2.Within ρ := by
    rw [m.snd_lives]
    exact hm.withHeap (hm.heap.of_records hrecords) hgrows
  exact ⟨hext, hn, trivial, hP m _ hext hp⟩

theorem receiverOf (hP : Stable P) {f : Function} (hf : f.Within ρ) :
    Stays ρ P (Eval.receiverOf f) (fun receiver => ∀ r, receiver = some r → ρ.Owns r) P := by
  unfold Eval.receiverOf Function.receiver?
  split
  · exact pure (by simp)
  · rename_i r hr
    refine pure fun q hq => hf.receiver q (.inr ?_)
    rw [hr, Option.some.inj hq]
  · rename_i r hr
    refine bind (lives hP r) fun b _ => pure fun q hq => hf.receiver q (.inl ?_)
    split at hq
    · rw [hr, Option.some.inj hq]
    · cases hq

theorem holdReceiver (hP : Stable P) {f : Function} (hf : f.Within ρ) (owner : RecordId) :
    Stays ρ P (Eval.holdReceiver owner f) (Function.Within ρ) P := by
  refine holding _ ?_
  unfold Function.holding
  split
  · rename_i r hr
    have hlives : Stays ρ P (if r = owner then Pure.pure true else Eval.lives r) Whatever P := by
      split
      · exact pure trivial
      · exact lives hP r
    refine bind hlives fun b _ => pure ⟨hf.unit, hf.literal, fun q hq => hf.receiver q (.inl ?_)⟩
    cases b <;> simp at hq
    rw [hr, hq]
  · exact pure hf

/-! ### Names -/

theorem lookup? (name : String) : Stays ρ P (Eval.lookup? name)
    (fun value => (∀ v, value = some v → v.Within ρ) ∧ (value = none → Knows ρ P name → ρ.misses)) P := by
  refine fun _ m hm hp => ⟨.refl m, hm, ⟨fun v hv => hm.env.lookup hm.heap hv, fun hnone hb => ?_⟩, hp⟩
  refine hb.resolve_right fun hbinds => ?_
  obtain ⟨v, hv⟩ := (hbinds m hp).lookup
  rw [hv] at hnone
  cases hnone

theorem lookup {name : String} (hb : Knows ρ P name) :
    Stays ρ P (Eval.lookup name) (Value.Within ρ) P := by
  refine bind (lookup? name) fun value ⟨hv, hmiss⟩ => ?_
  cases value with
  | some v => exact pure (hv v rfl)
  | none => exact fail (harmless_unbound (hmiss rfl hb))

/-- A name is given a value in a holder. -/
theorem put_holder {m : Machine} (hm : m.Within ρ) {holder : Holder} (hh : holder.Within ρ) (name : String)
    {v : Value} (hv : v.Within ρ) :
    let n := { m with
      env := (m.env.put m.world.heap name v holder).1
      world := { m.world with heap := (m.env.put m.world.heap name v holder).2 } }
    m.Extends n ∧ n.Within ρ := by
  intro n
  obtain ⟨henv, hheap⟩ := hm.env.put hm.heap hh hv name
  have hgrows := Environment.GrowsTo.put m.env m.world.heap name v holder
  have hheaps := m.env.growsTo_put m.world.heap name v holder
  refine ⟨⟨hgrows, hheaps, rfl⟩, hm.unit, hm.arena, hheap, henv, hm.exports, hm.maxDepth, fun g hg => ?_⟩
  exact hgrows.bindsGlobally hheaps (hm.globals g hg)

/-- A name that is defined has a value from then on. -/
theorem define {c : Context} (name : String) {v : Value} (hv : v.Within ρ) :
    Stays ρ (Sees ρ c) (Eval.define name v) Whatever (Sees ρ (c.define name)) := by
  intro held m hm hp
  obtain ⟨hext, hn⟩ := put_holder hm hm.env.innermost name hv
  refine ⟨hext, hn, trivial, (Machine.stable_sees ρ c m _ hext hp).define ?_⟩
  exact hp.definable.imp id fun hd => Environment.binds_define hd name v

theorem assign {name : String} (hP : Stable P) (hb : Knows ρ P name) {v : Value} (hv : v.Within ρ) :
    Stays ρ P (Eval.assign name v) Whatever P := by
  intro held m hm hp
  cases ht : m.env.target? m.world.heap name with
  | some holder =>
    obtain ⟨hext, hn⟩ := put_holder hm (hm.env.target? ht) name hv
    have hrun : (Eval.assign name v).runFrom held m = (.ok (), { m with
        env := (m.env.put m.world.heap name v holder).1
        world := { m.world with heap := (m.env.put m.world.heap name v holder).2 } }) := by
      simp [Eval.assign, Eval.target?, runFrom_bind, ht, Eval.put]
    rw [hrun]
    exact ⟨hext, hn, trivial, hP m _ hext hp⟩
  | none =>
    have hmiss : ρ.misses := by
      refine hb.resolve_right fun hbinds => ?_
      obtain ⟨holder, hholder⟩ := (hbinds m hp).target?
      rw [hholder] at ht
      cases ht
    have hrun : (Eval.assign name v).runFrom held m =
        (.error (.fault (.ofCause (.unboundName name))), m) := by
      simp only [Eval.assign, Eval.target?, runFrom_bind, runFrom_get, runFrom_pure, ht]
      rfl
    rw [hrun]
    exact ⟨.refl m, hm, harmless_unbound hmiss⟩

theorem defineAll {c : Context} {bound : List (String × Value)} (hb : ∀ entry ∈ bound, entry.2.Within ρ) :
    Stays ρ (Sees ρ c) (Eval.defineAll bound) Whatever (Sees ρ (c.defineAll (bound.map Prod.fst))) := by
  induction bound generalizing c with
  | nil => exact pure trivial
  | cons entry rest ih =>
    have hrest := ih (c := c.define entry.1) fun e he => hb e (by simp [he])
    refine (bind (define entry.1 (hb entry (by simp))) fun _ _ => hrest).weaken (fun _ h => h)
      (fun _ h => h) fun m hm => hm.fewer rfl fun name hname => ?_
    simp only [Context.defineAll, Context.define, List.map_cons, List.cons_append, List.mem_cons,
      List.mem_append] at hname ⊢
    tauto

theorem compose (hP : Stable P) {r : RecordId} (hr : ρ.Owns r) {sources : List Label}
    (hs : ∀ source ∈ sources, Knows ρ P source.name) : Stays ρ P (Eval.compose r sources) Whatever P := by
  induction sources with
  | nil => exact pure trivial
  | cons source rest ih =>
    have hrest := ih fun s hmem => hs s (by simp [hmem])
    refine bind (lookup? source.name) fun value hvalue => ?_
    split
    · exact failAt (harmless_unbound (hvalue.2 rfl (hs source (by simp))))
    · rename_i from_
      have hfrom : ρ.Owns from_ := by
        cases hvalue.1 _ rfl
        assumption
      refine bind (modifyHeap hP fun h hh => ⟨.setAll h r _, hh.setAll hr fun e he => ?_⟩) fun _ _ => hrest
      exact hh.properties hfrom _ (List.mem_map.2 ⟨e, he, rfl⟩)
    · exact failAt (ρ.accepts.ordinary rfl)

theorem exportNames (hP : Stable P) {labels : List Label} (hl : ∀ label ∈ labels, Knows ρ P label.name) :
    Stays ρ P (Eval.exportNames labels) Whatever P := by
  induction labels with
  | nil => exact pure trivial
  | cons label rest ih =>
    have hrest := ih fun l hmem => hl l (by simp [hmem])
    refine bind (lookup? label.name) fun value ⟨hv, hmiss⟩ => ?_
    cases value with
    | some v =>
      refine bind (Q := Whatever) (change hP fun m hm _ => ⟨⟨.refl _, .refl _, rfl⟩, ?_, trivial⟩) fun _ _ => hrest
      exact ⟨hm.unit, hm.arena, hm.heap, hm.env, hm.exports.set (hv v rfl) _, hm.maxDepth, hm.globals⟩
    | none =>
      have hmisses := hmiss rfl (hl label (by simp))
      exact bind (Q := fun _ => False) (R := P) (failAt (harmless_unbound hmisses)) fun _ h => h.elim

theorem clone (hP : Stable P) {v : Value} (hv : v.Within ρ) : Stays ρ P (Eval.clone v) (Value.Within ρ) P := by
  cases hv with
  | record hr =>
    refine bind (onHeap (Q := ρ.Owns) hP fun h hh => ⟨.shallowClone h _, hh.shallowClone hr⟩) fun r hr' => ?_
    exact pure (.record hr')
  | list hi => exact newList hP hi
  | function hf => exact pure (.function hf)
  | _ => exact pure (by constructor)

theorem truth (operator : String) (v : Value) : Stays ρ P (Eval.truth operator v) Whatever P := by
  unfold Eval.truth
  split
  · exact pure trivial
  · exact fail (ρ.accepts.ordinary rfl)

theorem callNative (hP : Stable P) (n : Native) (args : List Value) :
    Stays ρ P (Eval.callNative n args) (Value.Within ρ) P := by
  intro held m hm hp
  have hheap := m.world.heap_callNative n args
  have hext : m.Extends { m with world := (m.world.callNative n args).2 } := ⟨.refl _, hheap ▸ .refl _, rfl⟩
  obtain ⟨hmore, hend⟩ := ofExcept (P := P) (ρ.accepts.callNative m.world n args) held _
    (hm.withWorld (m.world.units_callNative n args) hheap) (hP m _ hext hp)
  exact ⟨hext.trans hmore, hend⟩

end Stays

end Eval

end DynScript
