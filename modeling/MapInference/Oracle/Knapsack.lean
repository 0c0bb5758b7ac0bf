import MapInference.Oracle
import MapInference.Word

/-!
# Knapsacks

Items with natural costs, of which any selection within the capacity is a configuration. The best
score is found for every capacity up to the given one, with one item after the other, and for every
item it is noted for which capacities it is taken. The notes are read from the last item to the
first to find a best selection.
-/

namespace MapInference.Knapsack

open Scalar
variable {α : Type} [Scalar α]

def cost (costs : List Nat) (items : List Nat) : Nat :=
  (items.map fun i => costs[i]?.getD 0).foldr (· + ·) 0

structure Table (α : Type) where
  /-- The best scores for the capacities `0, 1, …`. -/
  best : List α
  /-- For every item, the last one first, whether it is taken for the capacities `0, 1, …`. -/
  taken : List (List Bool) := []

namespace Table

/-- No item, for all capacities up to the given one. -/
def start (capacity : Nat) : Table α := { best := zeros (capacity + 1) }

/-- The best score for a capacity and whether one more item is taken, given the best scores without
it for the capacity that it leaves and for the whole one. -/
def choose (score smaller current : α) : α × Bool :=
  if current < smaller + score then (smaller + score, true) else (current, false)

def choices (best : List α) (cost : Nat) (score : α) : List (α × Bool) :=
  if score ≤ 0 then best.map fun current => (current, false)
  else (best.take cost).map (fun current => (current, false))
    ++ List.zipWith (choose score) best (best.drop cost)

def add (t : Table α) (item : Nat × α) : Table α :=
  let entries := choices t.best item.1 item.2
  ⟨entries.map (·.1), entries.map (·.2) :: t.taken⟩

def ofItems (capacity : Nat) (items : List (Nat × α)) : Table α := items.foldl add (start capacity)

end Table

/-- The items that are taken, the last one first, each with what remains of the capacity before it
is taken. -/
def backtrack (costs : List Nat) : (remaining : Nat) → (taken : List (List Bool)) →
    List (Nat × Nat)
  | _, [] => []
  | remaining, row :: rows =>
    let item := rows.length
    if row[remaining]?.getD false then
      (item, remaining) :: backtrack costs (remaining - costs[item]?.getD 0) rows
    else backtrack costs remaining rows

def Table.selection (costs : List Nat) (t : Table α) (capacity : Nat) : List Nat :=
  (backtrack costs capacity t.taken).map (·.1)

def table (costs : List Nat) (capacity : Nat) (scores : List α) : Table α :=
  .ofItems capacity (List.zipWith Prod.mk costs scores)

/-- Whether the number of entries of the table, `capacity + 1` for every item, is no machine word. -/
def outgrows (costs : List Nat) (capacity : Nat) : Bool :=
  ((Word.checked (capacity + 1)).bind fun width => Word.checked (costs.length * width)).isNone

def maximize (costs : List Nat) (capacity : Nat) (scores : List α) : List Nat × α :=
  let t := table costs capacity scores
  ((t.selection costs capacity).reverse, coordinate t.best capacity)

/-- Whether the cost of the true values, which is added up in machine words, is none. -/
def overflows (costs : List Nat) (values : List Bool) : Bool :=
  (Word.checked (cost costs (Oracle.trueIndices values))).isNone

/-- The true values as a selection, if it is within the capacity. There is no answer when their total
cost is no machine word, which `overflows` records. -/
def ofAssignment? (costs : List Nat) (capacity : Nat) (values : List Bool) : Option (List Nat) :=
  let items := Oracle.trueIndices values
  if cost costs items ≤ capacity then some items else none

def oracle (costs : List Nat) (capacity : Nat) : Oracle α (List Nat) where
  numVariables := costs.length
  numAdditionals := 0
  maximize scores _ := maximize costs capacity scores
  score scores _ items := Oracle.scoreAt items scores
  accumulate items weight sums := (Oracle.accumulateAt items weight sums.1, sums.2)
  trueVariables := id
  common := Oracle.countCommon
  ofAssignment? := ofAssignment? costs capacity

namespace Table

@[simp] theorem length_choices (best : List α) (cost : Nat) (score : α) :
    (choices best cost score).length = best.length := by
  unfold choices
  split
  · exact List.length_map _
  · simp only [List.length_append, List.length_map, List.length_take, List.length_zipWith,
      List.length_drop]
    omega

@[simp] theorem length_best_add (t : Table α) (item : Nat × α) :
    (t.add item).best.length = t.best.length := by
  simp [add]

@[simp] theorem taken_add (t : Table α) (item : Nat × α) :
    (t.add item).taken = (choices t.best item.1 item.2).map (·.2) :: t.taken := rfl

theorem ofItems_concat (capacity : Nat) (items : List (Nat × α)) (item : Nat × α) :
    ofItems capacity (items ++ [item]) = (ofItems capacity items).add item := by
  simp [ofItems]

theorem length_best_foldl_add (t : Table α) (items : List (Nat × α)) :
    (items.foldl add t).best.length = t.best.length := by
  induction items generalizing t with
  | nil => rfl
  | cons item items ih => rw [List.foldl_cons, ih, length_best_add]

@[simp] theorem length_best_ofItems (capacity : Nat) (items : List (Nat × α)) :
    (ofItems capacity items).best.length = capacity + 1 := by
  rw [ofItems, length_best_foldl_add, start, length_zeros]

end Table
end MapInference.Knapsack
