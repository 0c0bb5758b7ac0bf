import MapInference.Extremum

/-!
# Oracles

A factor that is known by its configurations: each has true variables and true additional
variables, and an oracle finds a configuration with the largest linear score. Everything else that
the solver does with such a factor is built on these functions.
-/

namespace MapInference

structure Oracle (α C : Type) where
  numVariables : Nat
  numAdditionals : Nat
  /-- A configuration with the largest score, and that score. -/
  maximize : (scores additional : List α) → C × α
  score : (scores additional : List α) → C → α
  /-- Adds `weight` times the indicators of a configuration to two points, one over the variables
  and one over the additional variables. -/
  accumulate : C → (weight : α) → List α × List α → List α × List α
  /-- The true variables of a configuration, in ascending order. -/
  trueVariables : C → List Nat
  /-- The number of variables that are true in both of two configurations. -/
  common : C → C → Nat
  /-- The configuration with the given values of the variables. -/
  ofAssignment? : List Bool → Option C

namespace Oracle

variable {α C : Type} [Scalar α]

def countCommon : List Nat → List Nat → Nat
  | [], _ => 0
  | _, [] => 0
  | i :: is, j :: js =>
    if i < j then countCommon is (j :: js)
    else if j < i then countCommon (i :: is) js
    else countCommon is js + 1
termination_by is js => is.length + js.length

def accumulateAt (indices : List Nat) (weight : α) (xs : List α) : List α :=
  indices.foldl (fun xs i => Scalar.addAt xs i weight) xs

def scoreAt (indices : List Nat) (scores : List α) : α :=
  Scalar.total (indices.map (Scalar.coordinate scores))

def trueIndices (values : List Bool) : List Nat :=
  (List.range values.length).filter fun i => values[i]?.getD false

def indicator (oracle : Oracle α C) (c : C) : List α × List α :=
  oracle.accumulate c 1 (Scalar.zeros oracle.numVariables, Scalar.zeros oracle.numAdditionals)

def best (oracle : Oracle α C) (scores additional : List α) : α :=
  (oracle.maximize scores additional).2

/-- The score of the additional variables of a 0/1 assignment, and their indicators; `none` when no
configuration has the assignment. -/
def evaluate (oracle : Oracle α C) (values : List Bool) (additional : List α) :
    Option (α × List α) :=
  (oracle.ofAssignment? values).map fun c =>
    (oracle.score (Scalar.zeros oracle.numVariables) additional c, (oracle.indicator c).2)

@[simp] theorem length_accumulateAt (indices : List Nat) (weight : α) (xs : List α) :
    (accumulateAt indices weight xs).length = xs.length := by
  induction indices generalizing xs with
  | nil => rfl
  | cons i rest ih => simpa [accumulateAt] using ih (Scalar.addAt xs i weight)

theorem mem_trueIndices {values : List Bool} {i : Nat} :
    i ∈ trueIndices values ↔ values[i]? = some true := by
  simp only [trueIndices, List.mem_filter, List.mem_range]
  constructor
  · rintro ⟨hi, hv⟩
    rw [List.getElem?_eq_getElem hi] at hv ⊢
    simpa using hv
  · intro h
    obtain ⟨hi, hv⟩ := List.getElem?_eq_some_iff.mp h
    exact ⟨hi, by simp [h]⟩

end Oracle
end MapInference
