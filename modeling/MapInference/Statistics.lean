import MapInference.Relaxation

/-!
# Statistics of a solve
-/

namespace MapInference

structure EngineStatistics (α : Type) where
  relaxations : Nat := 0
  iterations : Nat := 0
  innerIterations : Nat := 0
  adaptations : Nat := 0
  finalStepSize : α
  deriving Repr, DecidableEq

structure SearchStatistics where
  /-- Nodes whose relaxation was solved. -/
  explored : Nat := 0
  /-- Nodes that were discarded because nothing better lies below them. -/
  pruned : Nat := 0
  incumbentUpdates : Nat := 0
  deriving Repr, DecidableEq

structure Statistics (α : Type) where
  engine : EngineStatistics α
  search : SearchStatistics := {}
  deriving Repr, DecidableEq

variable {α : Type} [Scalar α]

def EngineStatistics.zero : EngineStatistics α := { finalStepSize := 0 }

def Statistics.zero : Statistics α := { engine := .zero }

def EngineStatistics.record (s : EngineStatistics α) (x : Relaxation α) : EngineStatistics α where
  relaxations := s.relaxations + 1
  iterations := s.iterations + x.iterations
  innerIterations := s.innerIterations + x.innerIterations
  adaptations := s.adaptations + x.adaptations
  finalStepSize := x.stepSize

end MapInference
