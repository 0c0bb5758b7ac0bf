import MapInference.Oracle

/-!
# Joint states

Variables with several states, one additional variable for each joint state. The binary variables
are the states of all variables in turn; the joint states are numbered in the order of the
mixed-radix numerals that they are, the last digit changing fastest.
-/

namespace MapInference.Dense

open Scalar
variable {α : Type} [Scalar α]

def numStates (sizes : List Nat) : Nat := sizes.foldr (· + ·) 0

def numJointStates (sizes : List Nat) : Nat := sizes.foldr (· * ·) 1

def jointIndex (sizes states : List Nat) : Nat :=
  (List.zipWith Prod.mk states sizes).foldl (fun index (state, size) => index * size + state) 0

/-- The binary variables of a joint state, when the first variable's states start at `offset`. -/
def stateIndices (offset : Nat) : (sizes states : List Nat) → List Nat
  | size :: sizes, state :: states => (offset + state) :: stateIndices (offset + size) sizes states
  | _, _ => []

def jointStates : (sizes : List Nat) → List (List Nat)
  | [] => [[]]
  | size :: sizes =>
    (List.range size).flatMap fun state => (jointStates sizes).map fun states => state :: states

def score (sizes : List Nat) (scores additional : List α) (states : List Nat) : α :=
  Oracle.scoreAt (stateIndices 0 sizes states) scores
    + coordinate additional (jointIndex sizes states)

def onlyTrue? (values : List Bool) : Option Nat :=
  match Oracle.trueIndices values with
  | [i] => some i
  | _ => none

def ofAssignment? : (sizes : List Nat) → List Bool → Option (List Nat)
  | [], _ => some []
  | size :: sizes, values => do
    let state ← onlyTrue? (values.take size)
    let states ← ofAssignment? sizes (values.drop size)
    return state :: states

def oracle (sizes : List Nat) : Oracle α (List Nat) where
  numVariables := numStates sizes
  numAdditionals := numJointStates sizes
  maximize scores additional :=
    (Extremum.firstBest? (score sizes scores additional) (jointStates sizes)).getD
      (sizes.map fun _ => 0, lowest)
  score := score sizes
  accumulate states weight sums :=
    (Oracle.accumulateAt (stateIndices 0 sizes states) weight sums.1,
      addAt sums.2 (jointIndex sizes states) weight)
  trueVariables := stateIndices 0 sizes
  common first second := (List.zipWith (· == ·) first second).count true
  ofAssignment? := ofAssignment? sizes

end MapInference.Dense
