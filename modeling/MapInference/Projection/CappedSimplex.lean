import MapInference.Failure
import MapInference.Projection.Simplex

/-!
# Projections onto the capped simplex, and onto its two sides

The capped simplex with a given total holds the points of the unit box whose coordinates sum to
it. The projection of a point shifts all coordinates by the same amount and clips them to the unit
interval. The sum after the shift is piecewise linear in the shift, with a breakpoint at every
coordinate, which becomes zero there, and one below it, where the coordinate stops being one; the
shift is found by a sweep over the breakpoints in ascending order.

The points of the box with a sum of at most a budget, and those with a sum of at least one, have
the clipped point as their projection when it qualifies, and lie on a capped simplex otherwise.
-/

namespace MapInference.Projection

open Scalar
variable {α : Type} [Scalar α]

/-- A shift at which the coordinate `coordinate` leaves the upper end of the unit interval, or at
which it reaches the lower end. -/
structure Breakpoint (α : Type) where
  position : α
  coordinate : α
  leavesUpper : Bool

def breakpoints (point : List α) : List (Breakpoint α) :=
  InsertionSort.sort (fun b c => decide (b.position < c.position))
    (point.flatMap fun x => [⟨x - 1, x, true⟩, ⟨x, x, false⟩])

/-- The state of the sweep: how many coordinates are at one, how many lie inside of the interval,
and the sum of the latter. -/
structure Sweep (α : Type) where
  saturated : α
  interior : α
  interiorSum : α

namespace Sweep

def sumAt (s : Sweep α) (position : α) : α :=
  s.saturated + s.interiorSum - s.interior * position

def pass (s : Sweep α) (b : Breakpoint α) : Sweep α :=
  if b.leavesUpper then
    ⟨s.saturated - 1, s.interior + 1, s.interiorSum + b.coordinate⟩
  else
    ⟨s.saturated, s.interior - 1, s.interiorSum - b.coordinate⟩

/-- The shift at which the sum falls to `goal`, before the first breakpoint where it has done so;
`fallback` when there is none. -/
def shift (goal fallback : α) (s : Sweep α) : List (Breakpoint α) → α
  | [] => fallback
  | b :: rest =>
    if s.sumAt b.position ≤ goal then
      if 0 < s.interior then (s.saturated + s.interiorSum - goal) / s.interior else b.position
    else shift goal fallback (s.pass b) rest

end Sweep

/-- The point of the unit box with coordinates summing to `goal` that is closest to `point`. -/
def cappedSimplex (goal : α) (point : List α) : List α :=
  if ofNat point.length ≤ goal then point.map fun _ => 1
  else if goal ≤ 0 then point.map fun _ => 0
  else
    let bs := breakpoints point
    let last := (bs.getLast?.map (·.position)).getD 0
    let shift := Sweep.shift goal last ⟨ofNat point.length, 0, 0⟩ bs
    point.map fun x => clip (x - shift)

/-- The point of the unit box with a sum of at most `budget` that is closest to `point`; the
budget is not negative. -/
def budgetPolytope (budget : α) (point : List α) : List α :=
  let clipped := box point
  if total clipped ≤ budget then clipped else cappedSimplex budget point

/-- The projection onto the points with a sum of at most `budget`, which must not be negative. -/
def budgetPolytopeChecked (budget : α) (point : List α) : Except Failure (List α) :=
  if 0 ≤ budget then .ok (budgetPolytope budget point) else .error .negativeBudget

def coveringPolytope (point : List α) : List α :=
  let clipped := box point
  if 1 ≤ total clipped then clipped else cappedSimplex 1 point

@[simp] theorem length_cappedSimplex (goal : α) (point : List α) :
    (cappedSimplex goal point).length = point.length := by
  unfold cappedSimplex
  split
  · simp
  · split <;> simp

@[simp] theorem length_budgetPolytope (budget : α) (point : List α) :
    (budgetPolytope budget point).length = point.length := by
  unfold budgetPolytope
  dsimp only
  split <;> simp

@[simp] theorem length_coveringPolytope (point : List α) :
    (coveringPolytope point).length = point.length := by
  unfold coveringPolytope
  dsimp only
  split <;> simp

end MapInference.Projection
