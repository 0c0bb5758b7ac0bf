import MapInference.Extremum

/-!
# The assignment problem

Assigns each row of a cost matrix to a column of its own so that the total cost is least, for at
most as many rows as columns. The rows are assigned one after the other. For a new row, a search
over alternating paths extends a tree of visited columns by the unvisited column with the least
slack and moves the potentials so that reduced costs stay non-negative and those on the tree stay
zero, until it visits a column without a row; then the rows along the path move up by one column.
-/

namespace MapInference.Assignment

open Scalar
variable {α : Type} [Scalar α]

structure Matching (α : Type) where
  rowPotentials : List α
  columnPotentials : List α
  rowOf : List (Option Nat)

/-- The search for a path from a new row. Columns are reached from other columns, or from the new
row itself. -/
structure Search (α : Type) where
  matching : Matching α
  /-- The least reduced cost at which a column has been reached; plus infinity at first. -/
  slack : List (Option α)
  reachedFrom : List (Option Nat)
  visited : List Bool
  /-- The column visited last, if there is one. -/
  current : Option Nat

namespace Matching

def empty (numRows numColumns : Nat) : Matching α :=
  ⟨zeros numRows, zeros numColumns, List.replicate numColumns none⟩

/-- The row that is assigned to a visited column, or the new row for the start of the path. -/
def rowAt (m : Matching α) (newRow : Nat) : Option Nat → Nat
  | none => newRow
  | some column => (m.rowOf[column]?.join).getD newRow

def augment (m : Matching α) (newRow : Nat) (reachedFrom : List (Option Nat)) :
    (limit : Nat) → (column : Option Nat) → Matching α
  | 0, _ => m
  | _, none => m
  | limit + 1, some column =>
    let previous := reachedFrom[column]?.join
    let moved := { m with rowOf := m.rowOf.set column (some (m.rowAt newRow previous)) }
    augment moved newRow reachedFrom limit previous

/-- The column of each row, column zero for a row without one. -/
def columns (m : Matching α) (numRows : Nat) : List Nat :=
  (List.range numRows).map fun row =>
    ((m.rowOf.zipIdx.filter fun (r, _) => r == some row).getLast?.map (·.2)).getD 0

end Matching

namespace Search

variable (cost : Nat → Nat → α) (newRow : Nat)

def start (m : Matching α) : Search α :=
  let n := m.rowOf.length
  ⟨m, List.replicate n none, List.replicate n none, List.replicate n false, none⟩

def isVisited (s : Search α) (column : Nat) : Bool := s.visited[column]?.getD true

def reducedCost (s : Search α) (column : Nat) : α :=
  let row := s.matching.rowAt newRow s.current
  cost row column - coordinate s.matching.rowPotentials row
    - coordinate s.matching.columnPotentials column

def improves (s : Search α) (column : Nat) : Bool :=
  !s.isVisited column
    && Extended.undercuts (s.reducedCost cost newRow column) (s.slack[column]?.join)

def relax (s : Search α) : Search α :=
  { s with
    slack := s.slack.zipIdx.map fun (slack, column) =>
      if s.improves cost newRow column then some (s.reducedCost cost newRow column) else slack
    reachedFrom := s.reachedFrom.zipIdx.map fun (origin, column) =>
      if s.improves cost newRow column then s.current else origin }

/-- The first unvisited column with the least slack. -/
def nearest? (s : Search α) : Option (Nat × α) :=
  s.slack.zipIdx.foldl (fun best (slack, column) =>
    match slack with
    | some x =>
      if !s.isVisited column && Extended.undercuts x (best.map (·.2)) then some (column, x)
      else best
    | none => best) none

def shift (s : Search α) (delta : α) : Search α :=
  let m := s.matching
  let treeRows := newRow :: (List.range m.rowOf.length).filterMap fun column =>
    if s.isVisited column then m.rowOf[column]?.join else none
  { s with
    matching :=
      { m with
        rowPotentials := treeRows.foldl (fun us row => addAt us row delta) m.rowPotentials
        columnPotentials := m.columnPotentials.zipIdx.map fun (v, column) =>
          if s.isVisited column then v - delta else v }
    slack := s.slack.zipIdx.map fun (slack, column) =>
      if s.isVisited column then slack else slack.map (· - delta) }

def visit (s : Search α) (column : Nat) : Search α :=
  { s with visited := s.visited.set column true, current := some column }

def grow (s : Search α) : (limit : Nat) → Search α
  | 0 => s
  | limit + 1 =>
    let relaxed := s.relax cost newRow
    match relaxed.nearest? with
    | none => relaxed
    | some (column, delta) =>
      let shifted := relaxed.shift newRow delta
      if (shifted.matching.rowOf[column]?.join).isNone then { shifted with current := some column }
      else grow (shifted.visit column) limit

end Search

def addRow (cost : Nat → Nat → α) (m : Matching α) (row : Nat) : Matching α :=
  let n := m.rowOf.length
  let s := (Search.start m).grow cost row (n + 1)
  s.matching.augment row s.reachedFrom (n + 1) s.current

/-- The column of every row in an assignment of least total cost. -/
def solve (cost : Nat → Nat → α) (numRows numColumns : Nat) : List Nat :=
  ((List.range numRows).foldl (addRow cost) (Matching.empty numRows numColumns)).columns numRows

end MapInference.Assignment
