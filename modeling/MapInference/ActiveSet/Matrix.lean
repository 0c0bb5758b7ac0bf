import MapInference.Extremum

/-!
# Small matrices

Square matrices as lists of rows, with what the active set needs of them: products with a column,
the bordered inverse after a row and a column are added or removed, and inversion by elimination
with the greatest pivot of each column.
-/

namespace MapInference.Matrix

open Scalar
variable {α : Type} [Scalar α]

def pivotTolerance : α := tenthPower 12

def entry (rows : List (List α)) (i j : Nat) : α := coordinate (rows[i]?.getD []) j

def mulColumn (rows : List (List α)) (column : List α) : List α :=
  rows.map fun row => dot row column

/-- Extends the inverse of a symmetric matrix by one row and column, for the product of the inverse
with the new column and the Schur complement of the new diagonal entry. -/
def bordered (inverse : List (List α)) (product : List α) (schur : α) : List (List α) :=
  List.zipWith
      (fun row p => List.zipWith (fun x q => x + p * q / schur) row product ++ [-p / schur])
      inverse product
    ++ [product.map (fun p => -p / schur) ++ [1 / schur]]

/-- Takes the row and the column `k` out of an inverse, which leaves the inverse of the matrix
without them. -/
def downdated (inverse : List (List α)) (k : Nat) : List (List α) :=
  let pivot := entry inverse k k
  let pivotRow := (inverse[k]?.getD []).eraseIdx k
  (inverse.eraseIdx k).map fun row =>
    List.zipWith (fun x p => x - coordinate row k * p / pivot) (row.eraseIdx k) pivotRow

def unitRow (n i : Nat) : List α := (List.range n).map fun j => if j = i then 1 else 0

def augmented (rows : List (List α)) : List (List α) :=
  List.zipWith (fun row i => row ++ unitRow rows.length i) rows (List.range rows.length)

/-- The row, from `k` on, with the entry of the greatest magnitude in the column `k`. -/
def pivotRow? (rows : List (List α)) (k : Nat) : Option Nat :=
  Extremum.lastGreatest? (fun i => abs (entry rows i k))
    ((List.range rows.length).filter fun i => k ≤ i)

def swapRows (rows : List (List α)) (i j : Nat) : List (List α) :=
  (rows.set i (rows[j]?.getD [])).set j (rows[i]?.getD [])

/-- Subtracts a multiple of the pivot row that clears the entry of `row` in the column `k`. -/
def clearEntry (pivotRow row : List α) (k : Nat) : List α :=
  let x := coordinate row k
  if same x 0 then row else List.zipWith (fun a b => a - x * b) row pivotRow

/-- Turns the column `k` into a unit column by row operations; `none` when it has no pivot. -/
def eliminate (rows : List (List α)) (k : Nat) : Option (List (List α)) :=
  (pivotRow? rows k).bind fun p =>
    let pivot := entry rows p k
    if abs pivot < pivotTolerance then none
    else
      let swapped := if p = k then rows else swapRows rows p k
      let scaled := (swapped[k]?.getD []).map (· / pivot)
      some ((swapped.zipIdx).map fun (row, i) => if i = k then scaled else clearEntry scaled row k)

/-- The inverse of a square matrix; `none` when an elimination step finds no pivot. -/
def invert (rows : List (List α)) : Option (List (List α)) :=
  ((List.range rows.length).foldlM eliminate (augmented rows)).map fun reduced =>
    reduced.map fun row => row.drop rows.length

@[simp] theorem length_mulColumn (rows : List (List α)) (column : List α) :
    (mulColumn rows column).length = rows.length := by
  simp [mulColumn]

@[simp] theorem length_augmented (rows : List (List α)) :
    (augmented rows).length = rows.length := by
  simp [augmented]

theorem length_bordered {inverse : List (List α)} {product : List α}
    (h : product.length = inverse.length) (schur : α) :
    (bordered inverse product schur).length = inverse.length + 1 := by
  simp [bordered, h]

end MapInference.Matrix
