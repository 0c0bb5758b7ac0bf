import MapInference.Assignment
import MapInference.Oracle

/-!
# Bipartite matchings

One variable for each pair of a row and a column, row by row. A configuration matches every
element of the smaller side to an element of the other side, no two to the same.
-/

namespace MapInference.Matching

open Scalar
variable {α : Type} [Scalar α]

/-- The variable of a row and a column, for `numColumns` columns. -/
def pairIndex (numColumns row column : Nat) : Nat := row * numColumns + column

/-- The variables of the matched pairs; `columns` holds the column of each row that has one. -/
def trueVariables (numColumns : Nat) (columns : List (Option Nat)) : List Nat :=
  columns.zipIdx.filterMap fun (column, row) => column.map (pairIndex numColumns row)

def ofRows (numRows : Nat) (rows : List Nat) : List (Option Nat) :=
  rows.zipIdx.foldl (fun columns (row, column) => columns.set row (some column))
    (List.replicate numRows none)

/-- A best configuration. Rows are assigned to columns or columns to rows, the smaller side to the
larger one. -/
def bestColumns (numRows numColumns : Nat) (scores : List α) : List (Option Nat) :=
  if numRows ≤ numColumns then
    (Assignment.solve (fun row column => -coordinate scores (pairIndex numColumns row column))
      numRows numColumns).map some
  else
    ofRows numRows
      (Assignment.solve (fun column row => -coordinate scores (pairIndex numColumns row column))
        numColumns numRows)

def score (numColumns : Nat) (scores : List α) (columns : List (Option Nat)) : α :=
  Oracle.scoreAt (trueVariables numColumns columns) scores

def rowColumn? (values : List Bool) : Option (Option Nat) :=
  match Oracle.trueIndices values with
  | [] => some none
  | [column] => some (some column)
  | _ => none

def rowColumns? (numColumns : Nat) : (numRows : Nat) → List Bool → Option (List (Option Nat))
  | 0, _ => some []
  | numRows + 1, values => do
    let column ← rowColumn? (values.take numColumns)
    let columns ← rowColumns? numColumns numRows (values.drop numColumns)
    return column :: columns

def ofAssignment? (numRows numColumns : Nat) (values : List Bool) :
    Option (List (Option Nat)) := do
  let columns ← rowColumns? numColumns numRows values
  let matched := columns.filterMap id
  if matched.Nodup ∧ matched.length = min numRows numColumns then some columns else none

def oracle (numRows numColumns : Nat) : Oracle α (List (Option Nat)) where
  numVariables := numRows * numColumns
  numAdditionals := 0
  maximize scores _ :=
    let columns := bestColumns numRows numColumns scores
    (columns, score numColumns scores columns)
  score scores _ := score numColumns scores
  accumulate columns weight sums :=
    (Oracle.accumulateAt (trueVariables numColumns columns) weight sums.1, sums.2)
  trueVariables := trueVariables numColumns
  common first second :=
    (List.zipWith (fun c d => c.isSome && c == d) first second).count true
  ofAssignment? := ofAssignment? numRows numColumns

end MapInference.Matching
