import MapInference.Graph
import MapInference.Search
import MapInference.Solution

/-!
# Solving a factor graph

A solve seals the graph and solves the relaxation of its problem. When the options ask for an exact
solution and the relaxation is not certified, the search follows. The pieces are kept apart so that
a caller with a clock can run the search step by step.
-/

namespace MapInference

open Scalar

namespace FactorGraph

structure Solving (α : Type) where
  graph : FactorGraph α
  options : Options α
  root : Relaxation α

structure Solved (α : Type) where
  /-- The graph with the active sets of the last relaxation and the statistics of the solve. -/
  graph : FactorGraph α
  solution : Solution α
  events : List (Event α)
  /-- Whether there is no answer: a projection has lost its last configuration, or the table of a
  knapsack or the cost of an assignment has left the machine words. -/
  emptied : Bool

/-- The solution, unless there is no answer. -/
def Solved.answer? {α : Type} (x : Solved α) : Option (Solution α) :=
  if x.emptied then none else some x.solution

variable {α : Type} [Scalar α]

/-- Whether the first round of a solve meets a table that leaves the machine words, so that there is
no answer. -/
def breaksDown (g : FactorGraph α) (options : Options α) : Bool :=
  options.maxIterations != 0 && g.sealed.problem.outgrows

def begin (g : FactorGraph α) (options : Options α) : Solving α :=
  let graph := g.sealed
  let fixed := List.replicate graph.numBinary none
  ⟨graph, options, Relaxation.solve graph.problem fixed options⟩

def relaxedEdges (g : FactorGraph α) (workers : List (Worker α)) : List α :=
  (workers.take g.numDeclared).flatMap (·.additionalPosteriors)

/-- The indicators of the additional variables of the declared factors in an assignment. -/
def integralEdges (g : FactorGraph α) (values : List Bool) : List α :=
  g.declaredFactors.flatMap fun f =>
    ((f.evaluate (f.restrict values)).map (·.2)).getD (zeros f.numAdditionals)

def edgeOffsets (g : FactorGraph α) : List Nat :=
  Solution.offsets 0 (g.declaredFactors.map (·.numAdditionals))

def solution (g : FactorGraph α) (statistics : Statistics α) (status : Status)
    (value bound : Extended α) (marginals edgeMarginals : List α) : Solution α where
  status
  value
  bound
  marginals
  edgeMarginals
  edgeOffsets := g.edgeOffsets
  iterations := statistics.engine.iterations
  nodes := statistics.search.explored

def integralSolution (g : FactorGraph α) (statistics : Statistics α) (a : Integral α)
    (bound : Extended α) : Solution α :=
  g.solution statistics .integral (.value a.value) (Extended.max bound (.value a.value))
    (a.assignment.map ofBool) (g.integralEdges a.assignment)

/-- Keeps the active sets that a solve leaves behind, and its statistics. -/
def settle (g : FactorGraph α) (workers : List (Worker α)) (statistics : Statistics α) :
    FactorGraph α :=
  { g with factors := ⟨workers.map (·.toWarmFactor)⟩, statistics }

namespace Solving

def needsSearch (s : Solving α) : Bool := s.options.exact && !s.root.certified

def rootStatistics (s : Solving α) : EngineStatistics α := EngineStatistics.zero.record s.root

def relaxed (s : Solving α) : Solved α :=
  let statistics : Statistics α := { engine := s.rootStatistics }
  { graph := s.graph.settle s.root.workers statistics
    solution :=
      match s.root.integral with
      | some a => s.graph.integralSolution statistics a s.root.bound
      | none =>
        s.graph.solution statistics .fractional s.root.value s.root.bound s.root.consensus
          (s.graph.relaxedEdges s.root.workers)
    events := s.root.events
    emptied := s.root.emptied }

def searchedStatistics (s : Solving α) (o : Search.Outcome α) : Statistics α where
  engine :=
    { relaxations := s.rootStatistics.relaxations + o.engine.relaxations
      iterations := s.rootStatistics.iterations + o.engine.iterations
      innerIterations := s.rootStatistics.innerIterations + o.engine.innerIterations
      adaptations := s.rootStatistics.adaptations + o.engine.adaptations
      finalStepSize :=
        if o.engine.relaxations = 0 then s.rootStatistics.finalStepSize
        else o.engine.finalStepSize }
  search := o.statistics

def searched (s : Solving α) (o : Search.Outcome α) : Solved α :=
  let statistics := s.searchedStatistics o
  let edges := s.graph.relaxedEdges s.root.workers
  { graph := s.graph.settle o.workers statistics
    solution :=
      match o.incumbent with
      | some a => s.graph.integralSolution statistics a o.bound
      | none =>
        if o.exhausted then
          s.graph.solution statistics .infeasible .bottom o.bound s.root.consensus edges
        else s.graph.solution statistics .unsolved s.root.value o.bound s.root.consensus edges
    events := s.root.events ++ o.events
    emptied := s.root.emptied || o.emptied }

end Solving

/-- Solves the problem of a graph. The search, if there is one, also ends when the monitor says so;
the state of the monitor is returned. -/
def solve {σ : Type} (g : FactorGraph α) (options : Options α) (monitor : Monitor σ)
    (monitorState : σ) : Solved α × σ :=
  let s := g.begin options
  if s.needsSearch then
    let last := Search.finalState s.graph.problem options s.root monitor monitorState
    (s.searched (Search.finish last s.root), last.monitorState.2)
  else (s.relaxed, monitorState)

end FactorGraph
end MapInference
