import DynScript.Proofs.Run.Receivers
import DynScript.Proofs.Session.Invariants

/-!
# When it matters that functions do not keep their records

In a session functions in records point back at all times. A function that is read out of a record as a property
therefore keeps the record. A function that is found by its bare name does not; it sees the record as long as the
record lives. So evaluation does what the strong manner does, in which every function keeps its record, unless a
function of the second kind is called after its record has died.
-/

namespace DynScript

/-! ## Evaluation -/

namespace Eval

variable {α : Type}

/-- What two steps do is the same, unless a third one gets stuck that agrees with both of them. -/
theorem SameWhile.unless_stuck {I : Machine → Prop} {x y z w : Eval α} (hxy : SameWhile I x y) (hyw : Agrees y w)
    (hzw : Agrees z w) (held : List Value) {m : Machine} (hm : I m) :
    I (x.runFrom held m).2 ∧
      (z.runFrom held m = x.runFrom held m ∨ ∃ d, (w.runFrom held m).1 = .error (.stuck (.defect d))) := by
  obtain ⟨hn, hsame⟩ := hxy held m hm
  refine ⟨hn, ?_⟩
  rcases hyw held m with hy | hd
  · rcases hzw held m with hz | hd
    · exact .inl (by rw [← hz, hy, hsame])
    · exact .inr hd
  · exact .inr hd

section

variable (imports : Imports) (fuel : Nat)

theorem SameWhile.keepingNodes (id : NodeId) :
    SameWhile Machine.PointsBack (evalWithin imports.loader fuel id) (Manner.keeping.evaluator imports.loader fuel id) := by
  rw [← Manner.evaluator_usual]
  exact loading.evaluator Manner.keeping_same (fun unit id => looking (.nodeIn unit id))
    (fun unit id => looking (.assignee unit id)) imports fuel id

end

end Eval

/-! ## Sessions -/

namespace Session

theorem keepingEntry (s : Session) (fuel : Nat) (unit : CompiledUnit) :
    Eval.SameWhile Machine.PointsBack (s.entry (evalWithin · fuel) unit) (s.entryInManner .keeping fuel unit) := by
  rw [← entryInManner_usual]
  exact Eval.SameWhile.loading.entryInManner Manner.keeping_same (fun unit id => .looking (.nodeIn unit id))
    (fun unit id => .looking (.assignee unit id)) s fuel unit

/-- Functions in records point back whatever happens in a session. -/
theorem invariant_pointsBack (fuel : Nat) : Invariant (·.heap.PointsBack) fuel where
  same hheap _ h := by rwa [hheap]
  entry s unit _ held m hm := (s.keepingEntry fuel unit held m hm).1
  load settings roots request held m hm := by
    have heval := Eval.SameWhile.keepingNodes (.session settings roots) fuel
    exact (Eval.SameWhile.loading.ofSession heval settings roots request held m hm).1

end Session

namespace Eval

/-- A function that is read as a property keeps the record. -/
theorem runFrom_property {eval : Evaluator} {target : NodeId} {r : RecordId} {f : Function} (name : String)
    {held : List Value} {m n : Machine} (htarget : (eval target).runFrom held m = (.ok (.record r), n))
    (hn : n.world.heap.PointsBack) (hf : n.world.heap.property? r name = some (.function f)) :
    (property eval target name).runFrom held m = (.ok (.function (f.keeping r)), n) := by
  rw [property, runFrom_bind, htarget]
  dsimp only
  rw [runFrom_bind, runFrom_heap]
  dsimp only
  rw [hf]
  dsimp only
  rw [holdReceiver_eq (hn.property? hf)]
  rfl

/-- A stored function sees a record that is active, held or open, unless the record was found dead before. -/
theorem runFrom_receiverOf {f : Function} {r : RecordId} {held : List Value} {m : Machine}
    (hf : f.receiver = some (.stored r)) (hpresent : m.world.heap.present.contains r) (hshows : m.shows held r) :
    (receiverOf f).runFrom held m = (.ok (some r), m) := by
  have hlives : (lives r).runFrom held m = (.ok true, m) := by
    show (Except.ok (m.lives held r).1, (m.lives held r).2) = _
    rw [Machine.lives, if_neg (by simp [hpresent]), if_pos hshows]
  unfold receiverOf Function.receiver?
  rw [hf]
  dsimp only
  rw [runFrom_bind, hlives]
  rfl

end Eval

/-- Whatever has happened in a session, functions in records point back, and the run of an entry unit does just what
it does in the strong manner, in which functions keep the records that they are stored in, unless it gets stuck in the
wary manner: it calls a function that is stored in a dead record. The same goes for every node and every call, from
any machine in which functions in records point back. A function that is read as a property of a record keeps the
record and sees it wherever it is called later; a stored one sees the record while it is active, held or open. -/
theorem functions_see_their_records (fuel : Nat) :
    (∀ settings printer host operations outcomes s,
      (Session.new settings printer host).performAll (evalWithin · fuel) operations = .ok (outcomes, s) →
        s.world.heap.PointsBack ∧ ∀ unit,
          let begun := (Machine.idle s.world).withCache (·.start unit.path)
          let run (M : Manner) := (s.entryInManner M fuel unit).runFrom [] begun
          run .strong = (s.entry (evalWithin · fuel) unit).runFrom [] begun ∨
            ∃ d, (run .wary).1 = .error (.stuck (.defect d))) ∧
      (∀ imports held (m : Machine), m.world.heap.PointsBack →
        let eval := evalWithin (Imports.loader imports) fuel
        let manner (M : Manner) := M.evaluator imports.loader fuel
        (∀ id, ((eval id).runFrom held m).2.world.heap.PointsBack ∧
          ((manner .strong id).runFrom held m = (eval id).runFrom held m ∨
            ∃ d, ((manner .wary id).runFrom held m).1 = .error (.stuck (.defect d)))) ∧
        ∀ callee args callSite,
          let call (M : Manner) := (M.callValue (manner M) callee args callSite).runFrom held m
          call .strong = (Eval.callValue eval callee args callSite).runFrom held m ∨
            ∃ d, (call .wary).1 = .error (.stuck (.defect d))) ∧
      (∀ eval target name r f held m n, (eval target).runFrom held m = (.ok (.record r), n) →
        n.world.heap.PointsBack → n.world.heap.property? r name = some (.function f) →
          (Eval.property eval target name).runFrom held m = (.ok (.function (f.keeping r)), n) ∧
            Eval.receiverOf (f.keeping r) = pure (some r)) ∧
      ∀ f r held (m : Machine), f.receiver = some (.stored r) → m.world.heap.present.contains r → m.shows held r →
        (Eval.receiverOf f).runFrom held m = (.ok (some r), m) := by
  refine ⟨fun settings printer host operations outcomes s h => ?_, fun imports held m hm => ⟨fun id => ?_, ?_⟩,
    fun eval target name r f held m n htarget hn hf => ⟨Eval.runFrom_property name htarget hn hf, rfl⟩,
    fun f r held m => Eval.runFrom_receiverOf⟩
  · have hs : s.world.heap.PointsBack :=
      (Session.invariant_pointsBack fuel).performAll (s := .new settings printer host) Heap.pointsBack_empty operations
        outcomes s h
    refine ⟨hs, fun unit => ?_⟩
    exact ((s.keepingEntry fuel unit).unless_stuck (.entryInManner Manner.keeping_wary s fuel unit)
      (.entryInManner Manner.strong_wary s fuel unit) []
      (m := (Machine.idle s.world).withCache (·.start unit.path)) hs).2
  · exact (Eval.SameWhile.keepingNodes imports fuel id).unless_stuck (.evaluator Manner.keeping_wary imports fuel id)
      (.evaluator Manner.strong_wary imports fuel id) held hm
  · intro callee args callSite call
    have H : Eval.Calling fun x y => Eval.Agrees x y := Eval.Agrees.congruence.toCalling
    have hkeeping : Eval.SameWhile Machine.PointsBack
        (Eval.callValue (evalWithin imports.loader fuel) callee args callSite)
        (Manner.keeping.callValue (Manner.keeping.evaluator imports.loader fuel) callee args callSite) := by
      rw [← Manner.callValue_usual]
      exact Eval.SameWhile.loading.callInManner (Eval.SameWhile.keepingNodes imports fuel) Manner.keeping_same _ _ _
    have hwary := H.callInManner (.evaluator Manner.keeping_wary imports fuel) Manner.keeping_wary callee args callSite
    have hstrong := H.callInManner (.evaluator Manner.strong_wary imports fuel) Manner.strong_wary callee args callSite
    exact (hkeeping.unless_stuck hwary hstrong held hm).2

/-- A method that is called on a record that nothing else keeps. -/
theorem functions_see_their_records_in_method_call :
    let start := Session.new .standard .silent .empty
    (start.performAll (evalWithin · 9) [] = .ok ([], start) ∧ start.world.heap.PointsBack) ∧
      ∃ c unit, compile ⟨"main.blu"⟩ "object { m: fun() { nil } }.m()" .entry .empty = .ok c ∧ c.result = .ok unit ∧
        let m := Machine.idle (start.world.addUnit unit.program.arena).2
        m.world.heap.PointsBack ∧
          (Manner.strong.evaluator Loader.none 9 unit.program.body).runFrom [] m =
            (evalWithin Loader.none 9 unit.program.body).runFrom [] m := by
  intro start
  have hnone : start.performAll (evalWithin · 9) [] = .ok ([], start) := rfl
  have hback := ((functions_see_their_records 9).1 .standard .silent .empty [] [] start hnone).1
  refine ⟨⟨hnone, hback⟩, ?_⟩
  have hwary : (compile ⟨"main.blu"⟩ "object { m: fun() { nil } }.m()" .entry .empty).toOption.any fun c =>
      c.result.toOption.any fun unit =>
        ((Manner.wary.evaluator Loader.none 9 unit.program.body).runFrom []
          (Machine.idle (start.world.addUnit unit.program.arena).2)).1.toOption.isSome := by decide +kernel
  obtain ⟨c, hc, hresult⟩ := exists_of_any hwary
  obtain ⟨unit, hu, hvalue⟩ := exists_of_any hresult
  refine ⟨c, unit, hc, hu, ?_⟩
  intro m
  have hm : m.world.heap.PointsBack := hback
  refine ⟨hm, (((functions_see_their_records 9).2.1 .unserved [] m hm).1 unit.program.body).2.resolve_right ?_⟩
  rintro ⟨d, hd⟩
  change ((Manner.wary.evaluator Imports.unserved.loader 9 unit.program.body).runFrom [] m).1.toOption.isSome at hvalue
  rw [hd] at hvalue
  cases hvalue

end DynScript
