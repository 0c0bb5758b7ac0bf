import MapInference.Proofs.Graph.Sequences

/-!
# History

A solve depends only on the problem of the graph. Active sets and statistics of earlier calls, the
seal of an earlier solve and the implicit factors that it has added leave no trace: the sealed
problem is determined by the log-potentials, the multi-state variables and the declared factors.
-/

namespace MapInference

open Scalar
variable {α : Type}

namespace FactorGraph

structure Matches (g g' : FactorGraph α) : Prop where
  problem_eq : g.problem = g'.problem
  numDeclared_eq : g.numDeclared = g'.numDeclared

variable {g g' : FactorGraph α}

theorem problem_sealed (hgrouped : g.IsGrouped) (hlaid : g.IsLaidOut) :
    g.sealed.problem =
      ⟨g.declaredFactors ++ (g.multiVariables.filter
        fun m => !g.declaredFactors.any (·.isDenseOver m)).map exactlyOneState,
        g.logPotentials.values⟩ := by
  have himplicit := (hlaid.sealed hgrouped).implicitFactors_eq_map hgrouped.sealed
  have hall : g.sealed.multiVariables.take g.sealed.numGrouped = g.multiVariables := List.take_length
  rw [hall, declaredFactors_sealed hgrouped] at himplicit
  rw [← himplicit, ← declaredFactors_sealed hgrouped, declaredFactors_append_implicitFactors]
  rfl

namespace Matches

theorem declaredFactors_eq (h : g.Matches g') : g.declaredFactors = g'.declaredFactors := by
  have hfactors := congrArg Problem.factors h.problem_eq
  rw [declaredFactors, declaredFactors, List.map_take, List.map_take, h.numDeclared_eq]
  exact congrArg (List.take g'.numDeclared) hfactors

theorem numBinary_eq (h : g.Matches g') : g.numBinary = g'.numBinary :=
  congrArg (fun p => p.logPotentials.length) h.problem_eq

theorem relaxedEdges_eq (h : g.Matches g') (workers : List (Worker α)) :
    g.relaxedEdges workers = g'.relaxedEdges workers := by
  rw [relaxedEdges, relaxedEdges, h.numDeclared_eq]

theorem solution_eq (h : g.Matches g') (statistics : Statistics α) (status : Status)
    (value bound : Extended α) (marginals edgeMarginals : List α) :
    g.solution statistics status value bound marginals edgeMarginals =
      g'.solution statistics status value bound marginals edgeMarginals := by
  rw [solution, solution, edgeOffsets, edgeOffsets, h.declaredFactors_eq]

end Matches

variable [Scalar α]

theorem matches_sealed_run {calls calls' : List (Call α)}
    (hlogPotentials : (run calls).logPotentials = (run calls').logPotentials)
    (hmulti : (run calls).multiVariables = (run calls').multiVariables)
    (hdeclared : (run calls).declaredFactors = (run calls').declaredFactors) :
    (run calls).sealed.Matches (run calls').sealed where
  problem_eq := by
    rw [problem_sealed (isGrouped_run calls) (isLaidOut_run calls),
      problem_sealed (isGrouped_run calls') (isLaidOut_run calls'), hlogPotentials, hmulti,
      hdeclared]
  numDeclared_eq := by
    change (run calls).numDeclared = (run calls').numDeclared
    rw [← (isGrouped_run calls).length_declaredFactors,
      ← (isGrouped_run calls').length_declaredFactors, hdeclared]

theorem Matches.integralSolution_eq (h : g.Matches g') (statistics : Statistics α) (a : Integral α)
    (bound : Extended α) :
    g.integralSolution statistics a bound = g'.integralSolution statistics a bound := by
  rw [integralSolution, integralSolution, integralEdges, integralEdges, h.declaredFactors_eq,
    h.solution_eq]

structure Solved.Agrees (s s' : Solved α) : Prop where
  solution_eq : s.solution = s'.solution
  statistics_eq : s.graph.statistics = s'.graph.statistics
  factors_eq : s.graph.factors = s'.graph.factors
  events_eq : s.events = s'.events
  emptied_eq : s.emptied = s'.emptied

namespace Solving

variable {s s' : Solving α} (hgraph : s.graph.Matches s'.graph) (hoptions : s.options = s'.options)
  (hroot : s.root = s'.root)

include hgraph hroot

theorem agrees_relaxed : s.relaxed.Agrees s'.relaxed := by
  obtain ⟨g, options, root⟩ := s
  obtain ⟨g', options', root'⟩ := s'
  obtain rfl : root = root' := hroot
  refine ⟨?_, rfl, rfl, rfl, rfl⟩
  simp only [relaxed, rootStatistics]
  split
  · exact hgraph.integralSolution_eq _ _ _
  · rw [hgraph.relaxedEdges_eq]
    exact hgraph.solution_eq _ _ _ _ _ _

theorem agrees_searched (o : Search.Outcome α) : (s.searched o).Agrees (s'.searched o) := by
  obtain ⟨g, options, root⟩ := s
  obtain ⟨g', options', root'⟩ := s'
  obtain rfl : root = root' := hroot
  refine ⟨?_, rfl, rfl, rfl, rfl⟩
  simp only [searched]
  split
  · exact hgraph.integralSolution_eq _ _ _
  · simp only [hgraph.relaxedEdges_eq, hgraph.solution_eq]
    rfl

end Solving

theorem agrees_solve {σ : Type} (h : g.sealed.Matches g'.sealed) (options : Options α)
    (monitor : Monitor σ) (m : σ) :
    (g.solve options monitor m).1.Agrees (g'.solve options monitor m).1 ∧
      (g.solve options monitor m).2 = (g'.solve options monitor m).2 := by
  have hgraph : (g.begin options).graph.Matches (g'.begin options).graph := h
  have hroot : (g.begin options).root = (g'.begin options).root := by
    change Relaxation.solve g.sealed.problem (List.replicate g.sealed.numBinary none) options = _
    rw [h.problem_eq, h.numBinary_eq]
    rfl
  have hneeds : (g.begin options).needsSearch = (g'.begin options).needsSearch := by
    change (options.exact && !(g.begin options).root.certified) = _
    rw [hroot]
    rfl
  have hlast : Search.finalState (g.begin options).graph.problem options (g.begin options).root
      monitor m = Search.finalState (g'.begin options).graph.problem options
        (g'.begin options).root monitor m := by
    rw [hgraph.problem_eq, hroot]
  simp only [solve, hneeds]
  split_ifs
  · rw [hlast]
    refine ⟨?_, rfl⟩
    rw [hroot]
    exact Solving.agrees_searched hgraph hroot _
  · exact ⟨Solving.agrees_relaxed hgraph hroot, rfl⟩

/-- A solve depends only on the problem that the calls before it have posed, and it leaves that
problem as it is. -/
theorem solve_run_eq {calls calls' : List (Call α)}
    (hlogPotentials : (run calls).logPotentials = (run calls').logPotentials)
    (hmulti : (run calls).multiVariables = (run calls').multiVariables)
    (hdeclared : (run calls).declaredFactors = (run calls').declaredFactors)
    {σ : Type} (options : Options α) (monitor : Monitor σ) (m : σ) :
    let solved := (run calls).solve options monitor m
    let solved' := (run calls').solve options monitor m
    (solved.1.solution = solved'.1.solution ∧
      solved.1.graph.statistics = solved'.1.graph.statistics ∧
      solved.1.graph.factors = solved'.1.graph.factors ∧
      solved.1.events = solved'.1.events ∧ solved.1.emptied = solved'.1.emptied ∧
      solved.2 = solved'.2) ∧
    (solved.1.graph.logPotentials = (run calls).logPotentials ∧
      solved.1.graph.multiVariables = (run calls).multiVariables ∧
      solved.1.graph.declaredFactors = (run calls).declaredFactors) := by
  have hmatches := matches_sealed_run hlogPotentials hmulti hdeclared
  obtain ⟨hagrees, hmonitor⟩ := agrees_solve hmatches options monitor m
  obtain ⟨workers, statistics, hworkers, hsolve⟩ :=
    (run calls).exists_settle_eq_solve options monitor m
  refine ⟨⟨hagrees.solution_eq, hagrees.statistics_eq, hagrees.factors_eq, hagrees.events_eq,
    hagrees.emptied_eq, hmonitor⟩, ?_⟩
  rw [hsolve]
  exact ⟨rfl, rfl, declaredFactors_settle (isGrouped_run calls) hworkers _⟩

def pairCalls : List (Call ℚ) :=
  [.addBinary, .addBinary, .declare (.pair ⟨⟨0⟩, false⟩ ⟨⟨1⟩, true⟩ 2)]

/-- The calls of an earlier solve that leaves an active set behind, and of a program. -/
def solveCalls : List (Call ℚ) :=
  [.solve { Options.standard with maxIterations := 2 } (Condition.monitor 0) .indefinite,
    .solveProgram ⟨0⟩ [1, 2] [3]]

/-- A variable with two states that is added after an earlier solve, or without one. -/
theorem solve_run_eq_pairCalls :
    ((run (pairCalls ++ [.addMulti 2])).solve .standard (Condition.monitor 0)
        .indefinite).1.solution =
      ((run (pairCalls ++ solveCalls ++ [.addMulti 2])).solve .standard (Condition.monitor 0)
        .indefinite).1.solution := by
  have hlogPotentials : (run (pairCalls ++ [.addMulti 2])).logPotentials =
      (run (pairCalls ++ solveCalls ++ [.addMulti 2])).logPotentials :=
    congrArg Arena.mk (by decide +kernel)
  have hmulti : (run (pairCalls ++ [.addMulti 2])).multiVariables =
      (run (pairCalls ++ solveCalls ++ [.addMulti 2])).multiVariables := by decide +kernel
  have hdeclared : (run (pairCalls ++ [.addMulti 2])).declaredFactors =
      (run (pairCalls ++ solveCalls ++ [.addMulti 2])).declaredFactors := by decide +kernel
  exact (solve_run_eq hlogPotentials hmulti hdeclared .standard (Condition.monitor 0)
    .indefinite).1.1

end FactorGraph
end MapInference
