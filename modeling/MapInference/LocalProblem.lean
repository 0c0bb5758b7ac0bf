import MapInference.ActiveSet.Program
import MapInference.Logic.Constraint

/-!
# The local problems of a factor

What the solver asks of a factor over its own literals: the projection of a point onto the convex
hull of its configurations, with a linear reward for the additional variables, the largest score of
a configuration, and the value of an assignment. A factor either has a closed form for these or is
solved through its oracle by the active-set method.
-/

namespace MapInference

open Scalar

structure ClosedForm (α : Type) where
  project : List α → List α
  best : List α → α
  holds : List Bool → Bool

inductive LocalProblem (α C : Type) where
  | closedForm (form : ClosedForm α)
  | oracle (oracle : Oracle α C)

structure LocalSolution (α C : Type) where
  point : List α
  additionals : List α
  iterations : Nat
  activeSet : ActiveSet α C
  /-- Whether the active set has lost its last configuration. -/
  emptied : Bool

namespace LocalProblem

variable {α C : Type} [Scalar α] [DecidableEq C]

def best (p : LocalProblem α C) (scores additional : List α) : α :=
  match p with
  | closedForm form => form.best scores
  | oracle o => o.best scores additional

/-- The score of the additional variables of an assignment, and their indicators; `none` when the
factor does not admit the assignment. -/
def evaluate (p : LocalProblem α C) (values : List Bool) (additional : List α) :
    Option (α × List α) :=
  match p with
  | closedForm form => if form.holds values then some (0, zeros additional.length) else none
  | oracle o => o.evaluate values additional

/-- The solution of the projection problem, with at most `limit` iterations of the active-set
method, which starts from `s`. It has the lengths of the target and of the additional scores. -/
def project (p : LocalProblem α C) (target additional : List α) (limit : Nat)
    (s : ActiveSet α C) : LocalSolution α C :=
  match p with
  | closedForm form =>
    ⟨resized target.length (form.project target), zeros additional.length, 0, s, false⟩
  | oracle o =>
    let outcome := QuadraticProgram.solve o target additional limit s
    let marginals := outcome.activeSet.marginals o
    ⟨resized target.length marginals.1, resized additional.length marginals.2, outcome.iterations,
      outcome.activeSet, outcome.stop == .emptied⟩

@[simp] theorem length_point_project (p : LocalProblem α C) (target additional : List α)
    (limit : Nat) (s : ActiveSet α C) :
    (p.project target additional limit s).point.length = target.length := by
  cases p <;> exact length_resized _ _

@[simp] theorem length_additionals_project (p : LocalProblem α C) (target additional : List α)
    (limit : Nat) (s : ActiveSet α C) :
    (p.project target additional limit s).additionals.length = additional.length := by
  cases p
  · exact length_zeros _
  · exact length_resized _ _

end LocalProblem
end MapInference
