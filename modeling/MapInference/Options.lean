import MapInference.Branching

/-!
# Options of a solve
-/

namespace MapInference

structure Options (α : Type) where
  /-- The initial step size of the consensus iterations. -/
  stepSize : α
  /-- Whether the step size is balanced between the two residuals. -/
  adaptive : Bool := true
  /-- The greatest number of consensus iterations of a relaxation. -/
  maxIterations : Nat := 1000
  /-- A relaxation has converged when both residuals are below this. -/
  residualThreshold : α
  /-- Whether fractional relaxations are followed by an exact search. -/
  exact : Bool := false
  selection : VariableSelection := .mostFractional
  /-- The greatest number of nodes that the search explores. -/
  maxNodes : Nat := 100000
  /-- The number of active-set iterations of a projection; at least one is made. -/
  maxActiveSetIterations : Nat := 10
  deriving Repr, DecidableEq

def Options.standard {α : Type} [Scalar α] : Options α where
  stepSize := Scalar.tenthPower 1
  residualThreshold := Scalar.tenthPower 6

def Options.projectionLimit {α : Type} (o : Options α) : Nat :=
  if o.maxActiveSetIterations = 0 then 1 else o.maxActiveSetIterations

end MapInference
