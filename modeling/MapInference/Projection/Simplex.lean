import MapInference.InsertionSort
import MapInference.Projection.Box

/-!
# Projection onto the probability simplex

The projection of a point onto the non-negative points with sum one subtracts a threshold from
every coordinate and cuts at zero. The threshold is read off the prefix sums of the coordinates in
descending order.
-/

namespace MapInference.Projection

open Scalar
variable {α : Type} [Scalar α]

def descending (point : List α) : List α :=
  InsertionSort.sort (fun x y => decide (y < x)) point

/-- The threshold for coordinates in descending order, of which `count` with sum `sum` have been
found to be positive after subtracting `threshold`. -/
def simplexThreshold (count : Nat) (sum threshold : α) : List α → α
  | [] => threshold
  | x :: rest =>
    let sum := sum + x
    let candidate := (sum - 1) / ofNat (count + 1)
    if 0 < x - candidate then simplexThreshold (count + 1) sum candidate rest else threshold

def simplex (point : List α) : List α :=
  let threshold := simplexThreshold 0 0 0 (descending point)
  point.map fun x => larger (x - threshold) 0

@[simp] theorem length_simplex (point : List α) : (simplex point).length = point.length := by
  simp [simplex]

end MapInference.Projection
