import MapInference.Scalar

/-!
# Scalars with two ends

Bounds and objective values before anything is known about them, and of problems without a
solution. The ends are kept apart from the scalars, so that they are there for every carrier. A
carrier that has infinities of its own compares them with the ends as equals.
-/

namespace MapInference

inductive Extended (α : Type) where
  | bottom
  | value (x : α)
  | top
  deriving Repr, DecidableEq

namespace Extended

open Scalar
variable {α : Type} [Scalar α]

def min : Extended α → Extended α → Extended α
  | value x, value y => value (smaller x y)
  | bottom, _ => bottom
  | _, bottom => bottom
  | top, value y => if isNumber y then value y else top
  | value x, top => if isNumber x then value x else top
  | top, top => top

def max : Extended α → Extended α → Extended α
  | value x, value y => value (larger x y)
  | top, _ => top
  | _, top => top
  | bottom, value y => if isNumber y then value y else bottom
  | value x, bottom => if isNumber x then value x else bottom
  | bottom, bottom => bottom

def atMost (b : Extended α) (x : α) : Bool :=
  match b with
  | bottom => isNumber x
  | value y => decide (y ≤ x)
  | top => isNumber x && !belowTop x

def ofOption : Option α → Extended α
  | none => bottom
  | some x => value x

/-- Whether `x` is larger than the best value so far, which is minus infinity at first. -/
def exceeds (x : α) : Option α → Bool
  | none => aboveBottom x
  | some best => decide (best < x)

/-- Whether `x` is smaller than the best value so far, which is plus infinity at first. -/
def undercuts (x : α) : Option α → Bool
  | none => belowTop x
  | some best => decide (x < best)

end Extended
end MapInference
