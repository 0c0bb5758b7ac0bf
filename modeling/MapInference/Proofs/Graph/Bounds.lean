import MapInference.Proofs.Graph.Factors

/-!
# Bounds of solved problems

The bounds of relaxations and of searches, for problems whose factors come from graphs.
-/

namespace MapInference

open Scalar

def exampleProblem : Problem ℚ := ⟨[exampleFactor], [1, 2]⟩

theorem declarable_exampleProblem :
    ∀ f ∈ exampleProblem.factors, f.Declarable exampleProblem.numVariables := by
  intro f hf
  rw [List.mem_singleton.mp hf]
  exact declarable_exampleFactor

variable {α : Type} [ExactScalar α]

namespace Relaxation

variable {p : Problem α}

/-- A relaxation bounds the value of every assignment that agrees with the fixed variables; its
integral solution is such an assignment, and is within the tolerance of the bound when it is
certified. -/
theorem weak_duality (hfactors : ∀ f ∈ p.factors, f.Declarable p.numVariables)
    {fixed : List (Option Bool)} (hfixed : fixed.length = p.numVariables) (options : Options α) :
    let x := solve p fixed options
    (∀ values v, Agrees fixed values → p.value? values = some v → x.bound.Covers v) ∧
      (∀ a, x.integral = some a → a.assignment.length = p.numVariables ∧
        Agrees fixed a.assignment ∧ p.value? a.assignment = some a.value) ∧
      (x.certified → ∃ a b, x.integral = some a ∧ x.bound = .value b ∧
        b - a.value ≤ 1 / 10 ^ 6 * max 1 |b|) := by
  have hwf : ∀ f ∈ p.factors, f.WellFormed p.numVariables := fun f hf => (hfactors f hf).wellFormed
  have hsound := isSound_solve hwf hfixed options
  refine ⟨fun values v => hsound.covers, ?_, ?_⟩
  · intro a ha
    obtain ⟨hlength, hvalue⟩ := Search.integral_eq_of_isSound hsound ha
    exact ⟨hlength, (hsound.integral_eq ha).2, hvalue⟩
  · intro hcertified
    obtain ⟨a, b, ha, hb, hgap⟩ := hsound.certified hcertified
    refine ⟨a, b, ha, hb, ?_⟩
    rw [max_comm]
    simpa [gapTolerance, tenthPower_eq] using hgap

theorem weak_duality_example :
    exampleProblem.value? [true, true] = some 3 ∧
      let x := solve exampleProblem [none, some true] .standard
      x.bound.Covers 3 ∧ x.certified ∧
        ∃ a b, x.integral = some a ∧ x.bound = .value b ∧
          b - a.value ≤ 1 / 10 ^ 6 * max 1 |b| := by
  have hagree : Agrees ((List.replicate 2 none).set 1 (some true)) [true, true] :=
    (agrees_replicate_none 2 _).set rfl
  have hvalue : exampleProblem.value? [true, true] = some 3 := by decide +kernel
  have hcertified : (solve exampleProblem [none, some true] .standard).certified = true := by
    decide +kernel
  have hfixed : [none, some true].length = exampleProblem.numVariables := rfl
  obtain ⟨hcovers, _, hgap⟩ := weak_duality declarable_exampleProblem hfixed .standard
  exact ⟨hvalue, hcovers _ _ hagree hvalue, hcertified, hgap hcertified⟩

end Relaxation

namespace Search

variable {σ : Type} {p : Problem α}

/-- The bound of a search, also of one that has been stopped, covers every value up to the
tolerance, and the incumbent of an exhausted search is feasible and best up to the tolerance. -/
theorem optimality (hfactors : ∀ f ∈ p.factors, f.Declarable p.numVariables)
    (options : Options α) (monitor : Monitor σ) (m : σ) :
    let root := Relaxation.solve p (List.replicate p.numVariables none) options
    let outcome := finish (finalState p options root monitor m) root
    (∀ values v, values.length = p.numVariables → p.value? values = some v →
        outcome.bound.Covers (v - 2 / 10 ^ 6 * max 1 |v|)) ∧
      (outcome.exhausted →
        (∃ values v, values.length = p.numVariables ∧ p.value? values = some v) →
        ∃ a, outcome.incumbent = some a ∧ a.assignment.length = p.numVariables ∧
          p.value? a.assignment = some a.value ∧
          ∀ values v, values.length = p.numVariables → p.value? values = some v →
            v ≤ a.value + 2 / 10 ^ 6 * max 1 |v|) := by
  have hwf : ∀ f ∈ p.factors, f.WellFormed p.numVariables := fun f hf => (hfactors f hf).wellFormed
  have hnone : (List.replicate p.numVariables (none : Option Bool)).length = p.numVariables :=
    List.length_replicate
  let root := Relaxation.solve p (List.replicate p.numVariables none) options
  let last := finalState p options root monitor m
  have hroot : root.IsSound p (List.replicate p.numVariables none) :=
    Relaxation.isSound_solve hwf hnone options
  have hsound : IsSound p last := isSound_finalState hwf hroot options monitor m
  have hfinished : last.isFinished = true := isFinished_finalState p options root monitor m
  refine ⟨fun values v hlen hv => covers_provedBound hsound hfinished hroot hlen hv, ?_⟩
  intro hexhausted hfeasible
  have hstopped : last.stopped = false := by
    have hnot : (!last.stopped) = true := hexhausted
    simpa using hnot
  obtain ⟨values, v, hlen, hv⟩ := hfeasible
  obtain ⟨a, ha, _⟩ := exists_incumbent_of_exhausted hsound hfinished hstopped hlen hv
  obtain ⟨hlength, hvalue⟩ := hsound.incumbent_eq ha
  refine ⟨a, ha, hlength, hvalue, ?_⟩
  intro values v hlen hv
  obtain ⟨b, hb, hle⟩ := exists_incumbent_of_exhausted hsound hfinished hstopped hlen hv
  rw [ha] at hb
  exact Option.some.inj hb ▸ hle

/-- Without a round, every relaxation leaves its node open, and the search goes through all
assignments. -/
theorem optimality_example :
    exampleProblem.value? [true, true] = some 3 ∧
      let options : Options ℚ := { Options.standard with maxIterations := 0 }
      let root := Relaxation.solve exampleProblem [none, none] options
      let last := finalState exampleProblem options root (Condition.monitor 0) .indefinite
      (finish last root).bound.Covers (3 - 2 / 10 ^ 6 * max 1 |3|) ∧
        (finish last root).exhausted ∧
        ∃ a, (finish last root).incumbent = some a ∧ 3 ≤ a.value + 2 / 10 ^ 6 * max 1 |3| := by
  have hvalue : exampleProblem.value? [true, true] = some 3 := by decide +kernel
  refine ⟨hvalue, ?_⟩
  intro options root last
  have hexhausted : (finish last root).exhausted = true := by decide +kernel
  obtain ⟨hcovers, hbest⟩ :=
    optimality declarable_exampleProblem options (Condition.monitor 0) .indefinite
  obtain ⟨a, ha, _, _, hle⟩ := hbest hexhausted ⟨_, 3, rfl, hvalue⟩
  exact ⟨hcovers _ _ rfl hvalue, hexhausted, a, ha, hle _ _ rfl hvalue⟩

end Search
end MapInference
