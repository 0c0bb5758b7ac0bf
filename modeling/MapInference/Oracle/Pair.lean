import MapInference.Oracle

/-!
# Pairs

Two variables of which every assignment is a configuration, with one additional variable that is
true when both are.
-/

namespace MapInference.Pair

open Scalar
variable {α : Type} [Scalar α]

def configurations : List (Bool × Bool) :=
  [(false, false), (true, false), (false, true), (true, true)]

def score (scores additional : List α) (c : Bool × Bool) : α :=
  let sum : α := 0
  let sum := if c.1 then sum + coordinate scores 0 else sum
  let sum := if c.2 then sum + coordinate scores 1 else sum
  if c.1 && c.2 then sum + coordinate additional 0 else sum

def trueVariables (c : Bool × Bool) : List Nat :=
  (if c.1 then [0] else []) ++ (if c.2 then [1] else [])

def trueAdditionals (c : Bool × Bool) : List Nat := if c.1 && c.2 then [0] else []

def common (c d : Bool × Bool) : Nat := (c.1 && d.1).toNat + (c.2 && d.2).toNat

def ofAssignment? (values : List Bool) : Option (Bool × Bool) :=
  match values with
  | first :: second :: _ => some (first, second)
  | _ => none

def oracle : Oracle α (Bool × Bool) where
  numVariables := 2
  numAdditionals := 1
  maximize scores additional :=
    (Extremum.firstBest? (score scores additional) configurations).getD ((false, false), lowest)
  score := score
  accumulate c weight sums :=
    (Oracle.accumulateAt (trueVariables c) weight sums.1,
      Oracle.accumulateAt (trueAdditionals c) weight sums.2)
  trueVariables := trueVariables
  common := common
  ofAssignment? := ofAssignment?

theorem mem_configurations (c : Bool × Bool) : c ∈ configurations := by
  obtain ⟨first, second⟩ := c
  cases first <;> cases second <;> decide

end MapInference.Pair
