import MapInference.Complement
import MapInference.Extremum
import MapInference.Logic.Operator
import MapInference.Projection.CappedSimplex
import MapInference.Projection.OrOutput

/-!
# Logic constraints

Every logic operator is one of four constraints on truth values, some of which are negated first.
For each constraint there is the condition on assignments, the largest score of an assignment that
meets it, and the projection onto the convex hull of the assignments that meet it.
-/

namespace MapInference

open Scalar

inductive TruthCondition where
  | exactlyOne
  | atMostOne
  | atLeastOne
  /-- The last value is the disjunction of the others. -/
  | lastIsDisjunction
  deriving Repr, DecidableEq

namespace TruthCondition

variable {α : Type} [Scalar α]

def holds (c : TruthCondition) (values : List Bool) : Bool :=
  match c with
  | exactlyOne => values.count true == 1
  | atMostOne => values.count true ≤ 1
  | atLeastOne => 1 ≤ values.count true
  | lastIsDisjunction =>
    match values.getLast? with
    | some output => output == values.dropLast.any id
    | none => true

def bestNonEmpty? (scores : List α) : Option α :=
  if scores.any fun s => decide (0 < s) then
    some (total (scores.filter fun s => decide (0 < s)))
  else Extremum.largest? scores

def best (c : TruthCondition) (scores : List α) : α :=
  match c with
  | exactlyOne => (Extremum.largest? scores).getD lowest
  | atMostOne =>
    match Extremum.largest? scores with
    | some s => larger s 0
    | none => 0
  | atLeastOne => (bestNonEmpty? scores).getD lowest
  | lastIsDisjunction =>
    match scores.getLast?, bestNonEmpty? scores.dropLast with
    | some output, some inputs => larger (output + inputs) 0
    | _, _ => 0

/-- The closest point of the convex hull of the assignments that meet the condition, before
rounding errors are cut off. -/
def project (c : TruthCondition) (point : List α) : List α :=
  match c with
  | exactlyOne => Projection.simplex point
  | atMostOne => Projection.budgetPolytope 1 point
  | atLeastOne => Projection.coveringPolytope point
  | lastIsDisjunction =>
    match point.getLast? with
    | some output =>
      let (inputs, output) := Projection.disjunction point.dropLast output
      inputs ++ [output]
    | none => []

end TruthCondition

structure LogicConstraint where
  condition : TruthCondition
  flipped : List Bool
  deriving Repr, DecidableEq

def LogicOperator.condition : LogicOperator → TruthCondition
  | xor | xorOut => .exactlyOne
  | atMostOne => .atMostOne
  | or | imply => .atLeastOne
  | orOut | andOut => .lastIsDisjunction

/-- Which of `arity` literals are negated before the condition is applied. -/
def LogicOperator.flips (op : LogicOperator) (arity : Nat) : List Bool :=
  match op with
  | xor | atMostOne | or | orOut => List.replicate arity false
  | andOut => List.replicate arity true
  | xorOut => (List.range arity).map fun i => i == arity - 1
  | imply => (List.range arity).map fun i => i != arity - 1

@[simp] theorem LogicOperator.length_flips (op : LogicOperator) (arity : Nat) :
    (op.flips arity).length = arity := by
  cases op <;> simp [flips]

namespace LogicConstraint

variable {α : Type} [Scalar α]

def ofOperator (op : LogicOperator) (arity : Nat) : LogicConstraint :=
  ⟨op.condition, op.flips arity⟩

def holds (c : LogicConstraint) (values : List Bool) : Bool :=
  c.condition.holds (Complement.assignment c.flipped values)

def best (c : LogicConstraint) (scores : List α) : α :=
  Complement.constant c.flipped scores + c.condition.best (Complement.scores c.flipped scores)

/-- The closest point of the convex hull of the assignments that meet the constraint. -/
def project (c : LogicConstraint) (point : List α) : List α :=
  Complement.point c.flipped
    (Projection.box (c.condition.project (Complement.point c.flipped point)))

end LogicConstraint

structure BudgetConstraint where
  limit : Nat
  deriving Repr, DecidableEq

namespace BudgetConstraint

variable {α : Type} [Scalar α]

def holds (b : BudgetConstraint) (values : List Bool) : Bool := values.count true ≤ b.limit

def best (b : BudgetConstraint) (scores : List α) : α :=
  total ((Projection.descending (scores.filter fun s => decide (0 < s))).take b.limit)

def project (b : BudgetConstraint) (point : List α) : List α :=
  Projection.budgetPolytope (ofNat b.limit) point

end BudgetConstraint
end MapInference
