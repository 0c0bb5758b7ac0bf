import MapInference.Proofs.Graph.Integral
import MapInference.Proofs.Relaxation.Multipliers

/-!
# The objective of a solution

The value of a solution is the objective at its own marginals: that of the last consensus with the
additional posteriors of the same round, or that of an assignment with the indicators of its
additional variables. The edge marginals consist of a block for each declared factor; the factors
that group states have no additional variables, so that they neither have a block nor add to the
value.
-/

namespace MapInference

open Scalar
variable {α : Type} [ExactScalar α]

namespace Relaxation

/-- After at least one round the value of a relaxation is that of its consensus with the additional
posteriors of its workers, of which each additional variable has one. -/
theorem value_solve (p : Problem α) (fixed : List (Option Bool)) {options : Options α}
    (h : 0 < options.maxIterations) :
    (solve p fixed options).value = .value
        (dot p.logPotentials (solve p fixed options).consensus +
          ((solve p fixed options).workers.map Worker.additionalValue).sum) ∧
      ∀ w ∈ (solve p fixed options).workers,
        w.additionalPosteriors.length = w.factor.numAdditionals := by
  let r : Restriction α := { problem := p, fixed }
  have hstart : State.Reached r options (State.start r options) := .start
  obtain ⟨s, _, hrun⟩ := hstart.exists_run_eq h
  obtain ⟨hworkers, hconsensus, hvalue⟩ := s.advance_spec r options
  rw [← hrun] at hworkers hconsensus hvalue
  have hworkers : (solve p fixed options).workers = (s.round r options).workers := hworkers
  have hconsensus : (solve p fixed options).consensus = (s.round r options).consensus := hconsensus
  have hvalue : (solve p fixed options).value = .value (s.round r options).value := hvalue
  rw [hworkers, hconsensus, hvalue]
  refine ⟨?_, fun w hw => ?_⟩
  · rw [← total_eq_sum]
    rfl
  · obtain ⟨v, hv, rfl⟩ := List.mem_map.mp hw
    obtain ⟨u, _, rfl⟩ := List.mem_map.mp hv
    exact u.length_additionalPosteriors_project _ _ _ _ _

end Relaxation

theorem gain_eq_dot {scores : List α} {values : List Bool} (h : values.length = scores.length) :
    gain scores values = dot scores (values.map ofBool) := by
  induction scores generalizing values with
  | nil => simp [dot]
  | cons s scores ih =>
    obtain ⟨value, values, rfl⟩ := List.exists_cons_of_length_eq_add_one h
    have hrest := ih (by simpa using h)
    simp only [dot, total_eq_sum] at hrest
    rw [gain_cons, hrest]
    cases value <;> simp [dot, ofBool]

theorem Factor.additionalScore_eq_dot (f : Factor α) (values : List Bool) :
    f.additionalScore values = dot f.additional (f.additionalIndicator values) := by
  classical
  rw [additionalScore, dot_eq_sum (n := f.numAdditionals) le_rfl]
  refine Finset.sum_congr rfl fun j hj => ?_
  have hj := Finset.mem_range.mp hj
  simp [additionalIndicator, coordinate, hj]

namespace FactorGraph

variable {σ : Type} {g : FactorGraph α} {options : Options α}

/-- The objective at marginals and a block of edge marginals for each declared factor. -/
def objective (g : FactorGraph α) (marginals : List α) (blocks : List (List α)) : α :=
  dot g.logPotentials.values marginals +
    (List.zipWith (fun f block => dot f.additional block) g.declaredFactors blocks).sum

/-- A solution whose value is the objective at its marginals and edge marginals; the latter are
those of the declared factors, one block after the other. -/
def HasObjective (g : FactorGraph α) (s : Solution α) : Prop :=
  s.marginals.length = g.numBinary ∧ ∃ blocks : List (List α),
    blocks.map List.length = g.declaredFactors.map (·.numAdditionals) ∧
    (∀ i block, blocks[i]? = some block → s.factorEdgeMarginals ⟨i⟩ = .ok block) ∧
    s.edgeMarginals = blocks.flatten ∧ s.value = .value (g.objective s.marginals blocks)

theorem hasObjective_integralSolution (h : g.IsGrouped) (hconsistent : g.IsConsistent)
    (statistics : Statistics α) {a : Integral α} (bound : Extended α)
    (hlen : a.assignment.length = g.sealed.problem.numVariables)
    (hvalue : g.sealed.problem.value? a.assignment = some a.value) :
    g.HasObjective (g.sealed.integralSolution statistics a bound) := by
  have hfeasible : g.sealed.problem.IsFeasible a.assignment :=
    Problem.isFeasible_iff.mpr ⟨hlen, a.value, hvalue⟩
  have hdeclared : ∀ f ∈ g.declaredFactors, (f.evaluate (f.restrict a.assignment)).isSome := by
    intro f hf
    rw [← declaredFactors_sealed h] at hf
    obtain ⟨w, hw, rfl⟩ := List.mem_map.mp hf
    exact hfeasible.2 w.factor (List.mem_map_of_mem (List.mem_of_mem_take hw))
  let blocks := g.declaredFactors.map fun f => f.additionalIndicator a.assignment
  have hedges := integralEdges_eq_flatten h hconsistent hdeclared
  have hblocks : blocks.map List.length = g.declaredFactors.map (·.numAdditionals) :=
    length_additionalIndicators g a.assignment
  have hscores : g.declaredFactors.map (fun f => f.additionalScore a.assignment) =
      List.zipWith (fun f block => dot f.additional block) g.declaredFactors blocks := by
    rw [List.zipWith_map_right, List.zipWith_self]
    exact List.map_congr_left fun f _ => f.additionalScore_eq_dot a.assignment
  refine ⟨(List.length_map _).trans hlen, blocks, hblocks, fun i block hi => ?_, hedges, ?_⟩
  · rw [integralSolution, hedges]
    exact factorEdgeMarginals_solution h hblocks _ _ _ _ _ hi
  · change Extended.value a.value = _
    rw [Problem.value?_eq hconsistent.sealed.wellFormed_problem hvalue, sum_additionalScore h,
      gain_eq_dot hlen, hscores]
    rfl

omit [ExactScalar α] in
theorem additional_eq_nil_of_exactlyOneShape {f : Factor α} {n : ℕ} (hf : f.WellFormed n)
    {m : MultiVariable} (hshape : f.shape = exactlyOneShape m) : f.additional = [] := by
  have hkind : f.kind = .logic (.ofOperator .xor m.numStates) := congrArg Prod.snd hshape
  have hfits := hf.fits
  rw [hkind] at hfits
  obtain ⟨_, _, _, hnone⟩ := hfits
  exact List.length_eq_zero_iff.mp hnone

/-- The root relaxation has the objective as its value, with the additional posteriors of the
declared factors as blocks: the implicit factors behind them add nothing. -/
theorem hasObjective_relaxed (h : g.IsGrouped) (hconsistent : g.IsConsistent)
    (hrounds : 1 ≤ options.maxIterations) (statistics : Statistics α) (status : Status)
    (bound : Extended α) :
    let root := (g.begin options).root
    g.HasObjective (g.sealed.solution statistics status root.value bound root.consensus
      (g.sealed.relaxedEdges root.workers)) := by
  intro root
  have hroot : root.IsSound g.sealed.problem _ := isSound_begin hconsistent options
  obtain ⟨hvalue, hposteriors⟩ : root.value = .value
        (dot g.sealed.problem.logPotentials root.consensus +
          (root.workers.map Worker.additionalValue).sum) ∧
      ∀ w ∈ root.workers, w.additionalPosteriors.length = w.factor.numAdditionals :=
    Relaxation.value_solve g.sealed.problem (List.replicate g.sealed.numBinary none) hrounds
  let declared := root.workers.take g.numDeclared
  have hfactors : declared.map (·.factor) = g.declaredFactors := by
    rw [List.map_take, hroot.factors_eq, ← declaredFactors_sealed h, declaredFactors, List.map_take]
    rfl
  have himplicit : ((root.workers.drop g.numDeclared).map Worker.additionalValue).sum = 0 := by
    refine List.sum_eq_zero fun x hx => ?_
    obtain ⟨w, hw, rfl⟩ := List.mem_map.mp hx
    have hmem : w.factor ∈ g.sealed.problem.factors.drop g.sealed.numDeclared := by
      rw [← hroot.factors_eq, ← List.map_drop]
      exact List.mem_map_of_mem hw
    obtain ⟨m, hshape⟩ := exists_exactlyOneShape h.sealed hmem
    have hwf := hconsistent.sealed.wellFormed_problem _ (List.mem_of_mem_drop hmem)
    simp [Worker.additionalValue, additional_eq_nil_of_exactlyOneShape hwf hshape, dot]
  have hscores : declared.map Worker.additionalValue = List.zipWith
      (fun f block => dot f.additional block) g.declaredFactors
      (declared.map (·.additionalPosteriors)) := by
    rw [← hfactors, List.zipWith_map, List.zipWith_self]
    rfl
  have hblocks : (declared.map (·.additionalPosteriors)).map List.length =
      g.declaredFactors.map (·.numAdditionals) := by
    rw [← hfactors, List.map_map, List.map_map]
    exact List.map_congr_left fun w hw => hposteriors w (List.mem_of_mem_take hw)
  have hedges : g.sealed.relaxedEdges root.workers =
      (declared.map (·.additionalPosteriors)).flatten := List.flatMap_def
  refine ⟨hroot.length_consensus, _, hblocks, fun i block hi => ?_, hedges, ?_⟩
  · rw [hedges]
    exact factorEdgeMarginals_solution h hblocks _ _ _ _ _ hi
  · change root.value = _
    rw [hvalue, ← List.take_append_drop g.numDeclared root.workers, List.map_append,
      List.sum_append, himplicit, add_zero, hscores]
    rfl

/-- A solution that is neither integral nor infeasible is that of the root relaxation. -/
theorem exists_relaxedSolution (g : FactorGraph α) (options : Options α) (monitor : Monitor σ)
    (m : σ) (hintegral : (g.solve options monitor m).1.solution.status ≠ .integral)
    (hinfeasible : (g.solve options monitor m).1.solution.status ≠ .infeasible) :
    ∃ statistics status bound,
      (g.solve options monitor m).1.solution =
        g.sealed.solution statistics status (g.begin options).root.value bound
          (g.begin options).root.consensus
          (g.sealed.relaxedEdges (g.begin options).root.workers) := by
  let s := g.begin options
  cases hsearch : s.needsSearch with
  | false =>
    have hsolve : (g.solve options monitor m).1 = s.relaxed :=
      congrArg Prod.fst (if_neg (by simp [s, hsearch]))
    rw [hsolve] at hintegral ⊢
    cases hroot : s.root.integral with
    | some a => exact absurd (by simp only [Solving.relaxed, hroot]; rfl) hintegral
    | none =>
      refine ⟨{ engine := s.rootStatistics }, .fractional, s.root.bound, ?_⟩
      simp only [Solving.relaxed, hroot]
      rfl
  | true =>
    let o := Search.finish (Search.finalState g.sealed.problem options s.root monitor m) s.root
    have hsolve : (g.solve options monitor m).1 = s.searched o := by
      unfold FactorGraph.solve
      exact congrArg Prod.fst (if_pos hsearch)
    rw [hsolve] at hintegral hinfeasible ⊢
    rw [status_searched] at hintegral hinfeasible
    cases hincumbent : o.incumbent with
    | some a => exact absurd (by simp [hincumbent]) hintegral
    | none =>
      cases hexhausted : o.exhausted with
      | true => exact absurd (by simp [hincumbent, hexhausted]) hinfeasible
      | false =>
        refine ⟨s.searchedStatistics o, .unsolved, o.bound, ?_⟩
        simp only [Solving.searched, hincumbent, hexhausted]
        rfl

/-- Unless it is infeasible, a solution has a marginal for each variable and a block of edge
marginals for each declared factor, with one for each of its additional variables; the blocks make
up the edge marginals, and the value is the objective at all of them. -/
theorem objective_solve (h : g.Reachable) (hrounds : 1 ≤ options.maxIterations)
    (monitor : Monitor σ) (m : σ)
    (hstatus : (g.solve options monitor m).1.solution.status ≠ .infeasible) :
    g.HasObjective (g.solve options monitor m).1.solution := by
  have hconsistent := h.isConsistent
  by_cases hintegral : (g.solve options monitor m).1.solution.status = .integral
  · obtain ⟨a, statistics, bound, hlen, hvalue, hsolution⟩ :=
      exists_integralSolution hconsistent options monitor m hintegral
    rw [hsolution]
    exact hasObjective_integralSolution h.isGrouped hconsistent statistics bound hlen hvalue
  · obtain ⟨statistics, status, bound, hsolution⟩ :=
      exists_relaxedSolution g options monitor m hintegral hstatus
    rw [hsolution]
    exact hasObjective_relaxed h.isGrouped hconsistent hrounds statistics status bound

/-- After one round with a large step size the solution is fractional, with the value
`2 * (3 / 5)`. -/
theorem objective_solve_rewarded :
    let options : Options ℚ := { Options.standard with stepSize := 10, maxIterations := 1 }
    let solution := (rewarded.solve options (Condition.monitor 0) .indefinite).1.solution
    1 ≤ options.maxIterations ∧ solution.status = .fractional ∧
      solution.marginals = [3 / 5, 11 / 20, 1 / 2] ∧ solution.edgeMarginals = [3 / 5] ∧
      solution.value = .value (6 / 5) ∧ rewarded.HasObjective solution := by
  intro options solution
  have hstatus : solution.status = .fractional := by decide +kernel
  have hvalues : solution.marginals = [3 / 5, 11 / 20, 1 / 2] ∧ solution.edgeMarginals = [3 / 5] ∧
      solution.value = .value (6 / 5) := by
    decide +kernel
  have hrounds : 1 ≤ options.maxIterations := le_rfl
  exact ⟨hrounds, hstatus, hvalues.1, hvalues.2.1, hvalues.2.2,
    objective_solve reachable_rewarded hrounds (Condition.monitor 0) .indefinite
      (by rw [hstatus]; exact nofun)⟩

end FactorGraph
end MapInference
