import MapInference.Scalar

/-!
# Complemented coordinates

A negated variable contributes one minus its value. Given which coordinates are negated, the
functions here carry points, assignments and linear scores over to the negated coordinates: the
score of a point is that of its complement plus a constant.
-/

namespace MapInference.Complement

open Scalar
variable {α : Type} [Scalar α]

def point (marks : List Bool) (xs : List α) : List α :=
  List.zipWith (fun mark x => if mark then 1 - x else x) marks xs

def assignment (marks values : List Bool) : List Bool :=
  List.zipWith (fun mark value => value != mark) marks values

def scores (marks : List Bool) (xs : List α) : List α :=
  List.zipWith (fun mark x => if mark then -x else x) marks xs

/-- The sum of the scores at the marked coordinates, by which the score of a point exceeds that of
its complement. -/
def constant (marks : List Bool) (xs : List α) : α :=
  (List.zipWith (fun mark x => (mark, x)) marks xs).foldl
    (fun sum p => if p.1 then sum + p.2 else sum) 0

@[simp] theorem length_point (marks : List Bool) (xs : List α) :
    (point marks xs).length = min marks.length xs.length := by
  simp [point]

@[simp] theorem length_scores (marks : List Bool) (xs : List α) :
    (scores marks xs).length = min marks.length xs.length := by
  simp [scores]

theorem assignment_assignment {marks values : List Bool} (h : marks.length = values.length) :
    assignment marks (assignment marks values) = values := by
  induction marks generalizing values with
  | nil =>
    cases values with
    | nil => rfl
    | cons _ _ => simp at h
  | cons mark marks ih =>
    cases values with
    | nil => simp at h
    | cons value values =>
      have hv : ((value != mark) != mark) = value := by cases value <;> cases mark <;> rfl
      have hl : marks.length = values.length := by simpa using h
      simpa [assignment, hv] using ih hl

end MapInference.Complement
