import MapInference.ActiveSet
import MapInference.ConstructionError

/-!
# The quadratic program of an oracle

For a target `a` and additional scores `b`, the program asks for the point `(q, r)` of the
marginal polytope that maximizes `b ⬝ r - ‖q - a‖² / 2`. `iterate` improves an active set by one
step of the active-set method, `run` repeats it. The run ends when no configuration improves the
objective, and it reports why it ended.
-/

namespace MapInference.QuadraticProgram

open Scalar
variable {α C : Type} [Scalar α] [DecidableEq C]

def optimalityTolerance : α := tenthPower 9

inductive Stop where
  | optimal
  /-- The best configuration is active already. -/
  | alreadyActive
  /-- The best configuration depends on the active ones and cannot be exchanged for one. -/
  | notExchanged
  | iterationLimit
  /-- The active set has lost its last configuration. -/
  | emptied
  deriving Repr, DecidableEq

inductive Step (α C : Type) where
  | next (s : ActiveSet α C)
  | stop (reason : Stop) (s : ActiveSet α C)

/-- The first active configuration that loses its weight on the way to the weights `goal`, and the
part of the way until then. -/
def blocking? (s : ActiveSet α C) (goal : List α) : Option (Nat × α) :=
  Extremum.firstLeast? (·.2)
    ((List.zipWith Prod.mk goal s.weights).zipIdx.filterMap fun ((new, old), i) =>
      if new < -Matrix.pivotTolerance then some (i, old / (old - new)) else none)

/-- Moves the weights a part of the way to `goal` and takes out the configuration `i`. -/
def partialStep (oracle : Oracle α C) (s : ActiveSet α C) (goal : List α) (i : Nat) (part : α) :
    ActiveSet α C :=
  let moved := List.zipWith (fun w new => larger (w + part * (new - w)) 0) s.weights goal
  (ActiveSet.remove oracle { s with weights := moved } i).normalised

def fullStep (s : ActiveSet α C) (goal : List α) : ActiveSet α C :=
  { s with weights := goal.map fun w => larger w 0 }.normalised

/-- The best configuration for the gradient of the objective at the marginals of `s`. -/
def candidate (oracle : Oracle α C) (target additional : List α) (s : ActiveSet α C) : C × α :=
  oracle.maximize (List.zipWith (· - ·) target (s.marginals oracle).1) additional

def enter (oracle : Oracle α C) (s : ActiveSet α C) (c : C) : Step α C :=
  match s.insert oracle c with
  | .inserted t => .next t
  | .noInverse => .stop .emptied s
  | .dependent coefficients =>
    match s.exchange oracle c coefficients with
    | .exchanged t => .next t
    | .refused t => .stop .notExchanged t
    | .noInverse => .stop .emptied s

def iterate (oracle : Oracle α C) (target additional : List α) (s : ActiveSet α C) : Step α C :=
  match s.unsignedOptimum? (s.configurations.map (oracle.score target additional)) with
  | none => .stop .emptied s
  | some (multiplier, goal) =>
    match blocking? s goal with
    | some (i, part) => .next (partialStep oracle s goal i part)
    | none =>
      let t := fullStep s goal
      let (c, value) := candidate oracle target additional t
      if value ≤ multiplier + optimalityTolerance then .stop .optimal t
      else if c ∈ t.configurations then .stop .alreadyActive t
      else enter oracle t c

structure Outcome (α C : Type) where
  activeSet : ActiveSet α C
  iterations : Nat
  stop : Stop

def run (oracle : Oracle α C) (target additional : List α) (s : ActiveSet α C) (iterations : Nat) :
    (limit : Nat) → Outcome α C
  | 0 => ⟨s, iterations, .iterationLimit⟩
  | limit + 1 =>
    match iterate oracle target additional s with
    | .next t => run oracle target additional t (iterations + 1) limit
    | .stop reason t => ⟨t, iterations + 1, reason⟩

/-- The active set to start from: the one that is left from before, or the best configuration. -/
def start (oracle : Oracle α C) (target additional : List α) (s : ActiveSet α C) :
    ActiveSet α C :=
  if s.isEmpty then ActiveSet.singleton oracle (oracle.maximize target additional).1 else s

/-- Solves the program with at most `limit` iterations, starting from the active set `s`. -/
def solve (oracle : Oracle α C) (target additional : List α) (limit : Nat) (s : ActiveSet α C) :
    Outcome α C :=
  run oracle target additional (start oracle target additional s) 0 limit

def directLimit : Nat := 1000

structure Solution (α : Type) where
  marginals : List α
  additionals : List α
  /-- The true variables of the active configurations. -/
  activeSet : List (List Nat)
  distribution : List α
  /-- The inverse of the bordered matrix, row by row. -/
  inverse : List α
  iterations : Nat
  deriving Repr, DecidableEq

def Outcome.solution (oracle : Oracle α C) (o : Outcome α C) : Solution α :=
  let marginals := o.activeSet.marginals oracle
  { marginals := marginals.1
    additionals := marginals.2
    activeSet := o.activeSet.configurations.map oracle.trueVariables
    distribution := o.activeSet.weights
    inverse := o.activeSet.inverse.flatten
    iterations := o.iterations }

def solveChecked (oracle : Oracle α C) (scores additional : List α) (s : ActiveSet α C) :
    Except (ConstructionError α) (Outcome α C) :=
  if scores.length ≠ oracle.numVariables then
    .error (.lengthMismatch .variableScores oracle.numVariables scores.length)
  else if additional.length ≠ oracle.numAdditionals then
    .error (.lengthMismatch .additionalScores oracle.numAdditionals additional.length)
  else .ok (solve oracle scores additional directLimit s)

end MapInference.QuadraticProgram
