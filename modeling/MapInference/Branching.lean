import MapInference.Extremum

/-!
# Branching variables

The choice of the variable whose values the search tries, among those that are not fixed and whose
consensus value is not an integer up to a tolerance.
-/

namespace MapInference

open Scalar

inductive VariableSelection where
  /-- The first of the variables that are farthest from an integer. -/
  | mostFractional
  | firstFractional
  deriving Repr, DecidableEq

def fractionality {α : Type} [Scalar α] (x : α) : α := abs (x - round x)

namespace VariableSelection

variable {α : Type} [Scalar α]

def name : VariableSelection → String
  | mostFractional => "most-fractional"
  | firstFractional => "first-fractional"

def ofName? (text : String) : Option VariableSelection :=
  [mostFractional, firstFractional].find? fun s => s.name == text

def candidates (consensus : List α) (fixed : List (Option Bool)) (tolerance : α) :
    List (Nat × α) :=
  (List.zipWith Prod.mk consensus fixed).zipIdx.filterMap fun ((x, value), i) =>
    if value.isNone && decide (tolerance < fractionality x) then some (i, fractionality x) else none

def select? (s : VariableSelection) (consensus : List α) (fixed : List (Option Bool))
    (tolerance : α) : Option Nat :=
  let cs := candidates consensus fixed tolerance
  match s with
  | mostFractional => (Extremum.firstGreatest? (·.2) cs).map (·.1)
  | firstFractional => cs.head?.map (·.1)

theorem ofName?_name (s : VariableSelection) : ofName? s.name = some s := by
  cases s <;> decide

end VariableSelection
end MapInference
