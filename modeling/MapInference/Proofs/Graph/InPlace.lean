import MapInference.Proofs.Graph.Sequences
import MapInference.Graph.InPlace

/-!
# Calls in place are atomic

All checks of a call in place come before its first write, so a call that fails leaves the whole
graph as it was, with the active sets of its factors, and a call that succeeds writes the graph that
it is said to lead to.
-/

namespace MapInference

open Scalar
variable {α β : Type}

namespace FactorGraph

def ending (g : FactorGraph α) :
    Except (ConstructionError α) (β × FactorGraph α) →
      EStateM.Result (ConstructionError α) (FactorGraph α) β
  | .ok (b, g') => .ok b g'
  | .error e => .error e g

theorem ending_eq_ok_iff {g g' : FactorGraph α} {b : β}
    {r : Except (ConstructionError α) (β × FactorGraph α)} :
    ending g r = .ok b g' ↔ r = .ok (b, g') := by
  cases r <;> simp [ending, Prod.ext_iff]

theorem ending_eq_error_iff {g g' : FactorGraph α} {e : ConstructionError α}
    {r : Except (ConstructionError α) (β × FactorGraph α)} :
    ending g r = .error e g' ↔ r = .error e ∧ g' = g := by
  cases r <;> simp [ending, eq_comm]

namespace InPlace

theorem run_discard {m : InPlace α β} {g : FactorGraph α}
    {r : Except (ConstructionError α) (β × FactorGraph α)} (h : m.run g = ending g r) :
    EStateM.run (discard m) g = ending g (r.map fun p => ((), p.2)) := by
  change EStateM.run ((fun _ => ()) <$> m) g = _
  rw [EStateM.run_map, h]
  cases r <;> rfl

@[simp] theorem run_ask (f : FactorGraph α → Except (ConstructionError α) β) (g : FactorGraph α) :
    (ask f).run g = ending g ((f g).map (·, g)) := by
  simp only [ask, EStateM.run_bind, EStateM.run_get]
  cases f g <;> rfl

theorem run_setLogPotential (v : BinaryVariable) (x : α) (g : FactorGraph α) :
    (setLogPotential v x).run g = ending g ((g.setLogPotential v x).map ((), ·)) := by
  simp only [setLogPotential, FactorGraph.setLogPotential, EStateM.run_bind, run_ask]
  cases g.checkVariable v <;> rfl

theorem run_setStateLogPotential (m : MultiVariable) (state : ℕ) (x : α) (g : FactorGraph α) :
    (setStateLogPotential m state x).run g =
      ending g ((g.setStateLogPotential m state x).map ((), ·)) := by
  simp only [setStateLogPotential, FactorGraph.setStateLogPotential, EStateM.run_bind, run_ask]
  cases g.checkMulti m with
  | error e => rfl
  | ok _ => cases m.state? state <;> rfl

theorem run_setAdditional (id : FactorId) (xs : List α) (g : FactorGraph α) :
    (setAdditional id xs).run g = ending g ((g.setAdditional id xs).map ((), ·)) := by
  simp only [setAdditional, factor, FactorGraph.setAdditional, EStateM.run_bind, run_ask]
  cases g.checkFactor id with
  | error e => rfl
  | ok _ =>
    cases g.factors.get? id with
    | none => rfl
    | some w =>
      change EStateM.run (if xs.length ≠ w.factor.numAdditionals then _ else _) g =
        ending g (Except.map _ (if xs.length ≠ w.factor.numAdditionals then _ else _))
      split_ifs <;> rfl

variable [Scalar α]

theorem run_addBinaries (n : ℕ) (g : FactorGraph α) :
    (addBinaries n).run g =
      .ok () { g with logPotentials := ⟨g.logPotentials.values ++ zeros n⟩ } := by
  induction n generalizing g with
  | zero => simp [addBinaries, zeros]
  | succ n ih =>
    simp only [addBinaries, addBinary, EStateM.run_bind, EStateM.run_get, EStateM.run_modify,
      EStateM.run_pure, ih]
    simp [zeros, List.replicate_succ]

theorem run_addMulti (numStates : ℕ) (g : FactorGraph α) :
    (addMulti numStates).run g = ending g (g.addMulti numStates) := by
  unfold addMulti FactorGraph.addMulti
  split_ifs with hzero
  · rfl
  · simp only [EStateM.run_bind, EStateM.run_get, EStateM.run_modify, EStateM.run_pure,
      run_addBinaries, ending]

theorem run_declare (spec : FactorSpec α) (g : FactorGraph α) :
    (declare spec).run g = ending g (g.declare spec) := by
  simp only [declare, FactorGraph.declare, EStateM.run_bind, EStateM.run_get]
  split_ifs with hsealed
  · rfl
  · simp only [EStateM.run_bind, run_ask]
    cases g.check spec with
    | error e => rfl
    | ok _ => cases spec.toFactor <;> rfl

theorem run_solveProgram (id : FactorId) (scores additional : List α) (g : FactorGraph α) :
    (solveProgram id scores additional).run g =
      ending g ((g.solveProgram id scores additional).map Prod.swap) := by
  simp only [solveProgram, factor, FactorGraph.solveProgram, EStateM.run_bind, run_ask]
  cases g.checkFactor id with
  | error e => rfl
  | ok _ =>
    cases g.factors.get? id with
    | none => rfl
    | some w =>
      simp only [ending, Except.map, bind, Except.bind, pure, Except.pure]
      cases w.oracle? with
      | none => rfl
      | some oracle =>
        dsimp only
        cases QuadraticProgram.solveChecked oracle scores additional w.activeSet <;> rfl

end InPlace

variable [Scalar α]

theorem Call.run_inPlace (c : Call α) (g : FactorGraph α) :
    c.inPlace.run g = ending g ((g.attempt c).map ((), ·)) := by
  cases c with
  | addBinary => rfl
  | addMulti numStates =>
    refine (InPlace.run_discard (InPlace.run_addMulti numStates g)).trans ?_
    rw [attempt]
    cases g.addMulti numStates <;> rfl
  | setLogPotential v x => exact InPlace.run_setLogPotential v x g
  | setStateLogPotential m state x => exact InPlace.run_setStateLogPotential m state x g
  | declare spec =>
    refine (InPlace.run_discard (InPlace.run_declare spec g)).trans ?_
    rw [attempt]
    cases g.declare spec <;> rfl
  | setAdditional id xs => exact InPlace.run_setAdditional id xs g
  | solve options monitor monitorState => rfl
  | solveProgram id scores additional =>
    refine (InPlace.run_discard (InPlace.run_solveProgram id scores additional g)).trans ?_
    rw [attempt]
    cases g.solveProgram id scores additional <;> rfl

theorem Call.eq_of_run_eq_error {c : Call α} {g g' : FactorGraph α} {e : ConstructionError α}
    (h : c.inPlace.run g = .error e g') : g.attempt c = .error e ∧ g' = g := by
  rw [run_inPlace] at h
  obtain ⟨hattempt, hg⟩ := ending_eq_error_iff.mp h
  refine ⟨?_, hg⟩
  cases hc : g.attempt c with
  | ok g'' => rw [hc] at hattempt; cases hattempt
  | error e' => rw [hc] at hattempt; rw [Except.error.inj hattempt]

/-- What calls in place do to a graph that any calls have made. One that fails changes nothing. A
declaration that succeeds appends one factor, over its literals, under the next handle, and marks
the variables of a dense factor. After a solve no declaration succeeds. -/
theorem atomic_inPlace (calls : List (Call α)) :
    (∀ (c : Call α) (e : ConstructionError α) (g' : FactorGraph α),
      c.inPlace.run (run calls) = .error e g' → (run calls).attempt c = .error e ∧ g' = run calls) ∧
    (∀ (spec : FactorSpec α) (id : FactorId) (g' : FactorGraph α),
      (InPlace.declare spec).run (run calls) = .ok id g' →
        (run calls).declare spec = .ok (id, g') ∧ id.id = (run calls).numDeclared ∧
        ∃ f, spec.toFactor = .ok f ∧ f.literals = spec.literals ∧
          g'.factors.get? id = some { factor := f } ∧
          g' = { run calls with
            coveredByDense := (run calls).coveredByDense ++ spec.denseVariables
            factors := (run calls).factors.push { factor := f }
            numDeclared := (run calls).numDeclared + 1 }) ∧
    ((∃ c ∈ calls, c.isSolve = true) → ∀ spec : FactorSpec α,
      (InPlace.declare spec).run (run calls) = .error .graphSealed (run calls)) := by
  refine ⟨fun c e g' h => Call.eq_of_run_eq_error h, ?_, ?_⟩
  · intro spec id g' h
    rw [InPlace.run_declare, ending_eq_ok_iff] at h
    have hgrouped := isGrouped_run calls
    have hid := (hgrouped.of_declare h).1.trans hgrouped.length_declaredFactors
    obtain ⟨_, _, f, hf, rfl, hg⟩ := exists_of_declare_eq_ok h
    refine ⟨h, hid, f, hf, FactorSpec.literals_of_toFactor hf, ?_, hg⟩
    rw [hg]
    simp [Arena.get?, Arena.nextKey, Handle.index, Handle.ofIndex]
  · rintro ⟨c, hc, hsolve⟩ spec
    have hsealed : (run calls).isSealed = true := by
      rw [isSealed_run]
      exact List.any_eq_true.mpr ⟨c, hc, hsolve⟩
    rw [InPlace.run_declare, declare, if_pos hsealed]
    rfl

/-- A variable of two states that a dense factor names twice is not marked as covered: the factor
fails its last check. -/
theorem atomic_inPlace_duplicate :
    let m : MultiVariable := ⟨0, ⟨0⟩, 2⟩
    let twice : FactorSpec ℚ := .dense [m, m] [1, 2, 3, 4]
    let once : FactorSpec ℚ := .dense [m] [1, 2]
    (∃ g', (Call.declare twice).inPlace.run (run [.addMulti 2]) = .error (.duplicateVariable 0) g' ∧
      g'.coveredByDense = []) ∧
    (∃ id g', (InPlace.declare once).run (run [.addMulti 2]) = .ok id g' ∧
      id.id = 0 ∧ g'.coveredByDense = [m] ∧ g'.factors.size = 1) := by
  intro m twice once
  obtain ⟨hfail, hdeclare, _⟩ := atomic_inPlace ([.addMulti 2] : List (Call ℚ))
  constructor
  · obtain ⟨g', hrun⟩ : ∃ g', (Call.declare twice).inPlace.run (run [.addMulti 2]) =
        .error (.duplicateVariable 0) g' := ⟨_, rfl⟩
    refine ⟨g', hrun, ?_⟩
    rw [(hfail _ _ _ hrun).2]
    rfl
  · obtain ⟨id, g', hrun⟩ : ∃ id g', (InPlace.declare once).run (run [.addMulti 2]) =
        .ok id g' := ⟨_, _, rfl⟩
    obtain ⟨_, hid, f, _, _, _, rfl⟩ := hdeclare once id g' hrun
    exact ⟨id, _, hrun, hid, rfl, rfl⟩

end FactorGraph
end MapInference
