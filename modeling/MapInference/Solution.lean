import MapInference.Extended
import MapInference.Failure
import MapInference.Variable

/-!
# Solutions

The result of a solve. Marginals are indexed by binary variables; the edge marginals are those of
the additional variables of the declared factors, one factor after the other.
-/

namespace MapInference

open Scalar

inductive Status where
  /-- The marginals are a feasible assignment. -/
  | integral
  /-- The marginals are those of the relaxation. -/
  | fractional
  /-- No assignment is feasible. -/
  | infeasible
  /-- The search was stopped before it found a feasible assignment. -/
  | unsolved
  deriving Repr, DecidableEq

def Status.name : Status → String
  | integral => "integral"
  | fractional => "fractional"
  | infeasible => "infeasible"
  | unsolved => "unsolved"

structure Solution (α : Type) where
  status : Status
  value : Extended α
  /-- An upper bound of the value of every assignment. -/
  bound : Extended α
  marginals : List α
  edgeMarginals : List α
  /-- Where the edge marginals of each declared factor start, and where the last ones end. -/
  edgeOffsets : List Nat
  iterations : Nat
  nodes : Nat
  deriving Repr, DecidableEq

namespace Solution

variable {α : Type}

/-- The offsets of consecutive blocks of the given sizes, and the end of the last one. -/
def offsets (start : Nat) : List Nat → List Nat
  | [] => [start]
  | size :: sizes => start :: offsets (start + size) sizes

def slice (xs : List α) (first last : Nat) : Except Failure (List α) :=
  if first ≤ last ∧ last ≤ xs.length then .ok ((xs.take last).drop first) else .error .missingEntry

def marginal (s : Solution α) (v : BinaryVariable) : Except Failure α :=
  match s.marginals[v.id]? with
  | some x => .ok x
  | none => .error (.variableOutOfRange v.id s.marginals.length)

def stateMarginals (s : Solution α) (m : MultiVariable) : Except Failure (List α) :=
  slice s.marginals m.firstState.id (m.firstState.id + m.numStates)

def factorEdgeMarginals (s : Solution α) (f : FactorId) : Except Failure (List α) :=
  match s.edgeOffsets[f.id]?, s.edgeOffsets[f.id + 1]? with
  | some first, some last => slice s.edgeMarginals first last
  | _, _ => .error .missingEntry

variable [Scalar α]

def literalMarginal (s : Solution α) (l : Literal) : Except Failure α :=
  (s.marginal l.atom).map fun x => if l.negated then 1 - x else x

def firstLargest (xs : List α) : Nat :=
  (xs.zipIdx.foldl (fun best (x, i) =>
    if Extended.exceeds x best.2 then (i, some x) else best) (0, none)).1

def bestState (s : Solution α) (m : MultiVariable) : Except Failure Nat :=
  (s.stateMarginals m).map firstLargest

def value? (s : Solution α) (v : BinaryVariable) : Except Failure (Option Bool) :=
  if s.status = .integral then (s.marginal v).map fun x => some (decide (half ≤ x)) else .ok none

end Solution
end MapInference
