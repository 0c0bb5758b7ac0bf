import MapInference.ConstructionError
import MapInference.Factor
import MapInference.Word

/-!
# Specifications of factors

What is said about a factor when it is declared, and the factor that it comes down to. All checks
that do not depend on the graph are made here.
-/

namespace MapInference

open Scalar

inductive FactorSpec (α : Type) where
  | logic (operator : LogicOperator) (literals : List Literal)
  /-- Rewards the conjunction of two literals. -/
  | pair (first second : Literal) (logPotential : α)
  | budget (literals : List Literal) (limit : Nat)
  /-- The costs of the true literals sum to at most the budget. -/
  | knapsack (literals : List Literal) (costs : List α) (budget : α)
  /-- One log-potential for each joint state, the last variable changing fastest. -/
  | dense (vars : List MultiVariable) (logPotentials : List α)
  | matching (vars : List BinaryVariable) (numRows numColumns : Nat)
  /-- One variable for each interval of a sequence, and one log-potential for each interval that
  does not start it. -/
  | segmentation (vars : List BinaryVariable) (length : Nat) (transitions : List α)
  deriving Repr, DecidableEq

namespace FactorSpec

variable {α : Type}

def literals : FactorSpec α → List Literal
  | logic _ literals => literals
  | pair first second _ => [first, second]
  | budget literals _ => literals
  | knapsack literals _ _ => literals
  | dense vars _ => vars.flatMap fun m => m.states.map BinaryVariable.literal
  | matching vars _ _ => vars.map BinaryVariable.literal
  | segmentation vars _ _ => vars.map BinaryVariable.literal

def denseVariables : FactorSpec α → List MultiVariable
  | dense vars _ => vars
  | _ => []

/-- The number of intervals of a sequence, computed with words. The product that is halved has to be
a word as well. -/
def wordIntervals? (length : Nat) : Option Nat := do
  let next ← Word.checked (length + 1)
  let double ← Word.checked (length * next)
  return double / 2

def wordTransitions? (length : Nat) : Option Nat := do
  let double ← Word.checked (length * (length - 1))
  return double / 2

def checkShape : FactorSpec α → Except (ConstructionError α) Unit
  | logic operator literals =>
    if literals.length < operator.minimumArity then
      .error (.notEnoughLiterals operator operator.minimumArity literals.length)
    else .ok ()
  | pair _ _ _ => .ok ()
  | budget _ _ => .ok ()
  | knapsack literals costs _ =>
    if costs.length ≠ literals.length then
      .error (.lengthMismatch .costs literals.length costs.length)
    else .ok ()
  | dense vars logPotentials =>
    let sizes := vars.map (·.numStates)
    if Word.product? sizes ≠ some logPotentials.length then
      .error (.shapeMismatch (.jointStates logPotentials.length sizes))
    else .ok ()
  | matching vars numRows numColumns =>
    let expected := Word.saturate (numRows * numColumns)
    if numRows = 0 ∨ numColumns = 0 then
      .error (.shapeMismatch (.matchingWithoutPairs numRows numColumns))
    else if vars.length ≠ expected then
      .error (.lengthMismatch .factorVariables expected vars.length)
    else .ok ()
  | segmentation vars length transitions =>
    if length = 0 then .error (.shapeMismatch .segmentationWithoutPositions)
    else
      match wordIntervals? length with
      | none => .error .sizeOverflow
      | some numIntervals =>
        if vars.length ≠ numIntervals then
          .error (.lengthMismatch .factorVariables numIntervals vars.length)
        else
          match wordTransitions? length with
          | none => .error .sizeOverflow
          | some numTransitions =>
            if transitions.length ≠ numTransitions then
              .error (.lengthMismatch .transitions numTransitions transitions.length)
            else .ok ()

variable [Scalar α]

/-- The natural number that a scalar is equal to, or the largest machine word when that is
smaller. -/
def natural? (x : α) : Option Nat :=
  match toInt? x with
  | some (.ofNat n) => some (Word.saturate n)
  | _ => none

def natural (parameter : Parameter) (x : α) : Except (ConstructionError α) Nat :=
  match natural? x with
  | some n => .ok n
  | none => .error (.invalidParameter parameter x)

def isNegativeInteger (x : α) : Bool :=
  match toInt? x with
  | some (.negSucc _) => true
  | _ => false

/-- The capacity of a knapsack; a negative integral budget counts as zero. -/
def capacity (budget : α) : Except (ConstructionError α) Nat :=
  if isNegativeInteger budget then .ok 0 else natural .budget budget

def toFactor : FactorSpec α → Except (ConstructionError α) (Factor α)
  | logic operator literals =>
    .ok ⟨literals, [], .logic (.ofOperator operator literals.length)⟩
  | pair first second logPotential => .ok ⟨[first, second], [logPotential], .pair⟩
  | budget literals limit => .ok ⟨literals, [], .budget ⟨limit⟩⟩
  | knapsack literals costs total => do
    let costs ← costs.mapM (natural .cost)
    let capacity ← capacity total
    return ⟨literals, [], .knapsack costs capacity⟩
  | s@(dense vars logPotentials) =>
    .ok ⟨s.literals, logPotentials, .dense (vars.map (·.numStates))⟩
  | s@(matching _ numRows numColumns) => .ok ⟨s.literals, [], .matching numRows numColumns⟩
  | s@(segmentation _ length transitions) => .ok ⟨s.literals, transitions, .segmentation length⟩

def replacedBudget? : FactorSpec α → Option α
  | knapsack _ _ total => if isNegativeInteger total then some total else none
  | _ => none

end FactorSpec
end MapInference
