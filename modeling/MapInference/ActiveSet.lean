import MapInference.ActiveSet.Matrix
import MapInference.Oracle

/-!
# Active sets

A distribution over a few configurations of an oracle, together with the inverse of the bordered
matrix `[[0, 1ᵀ], [1, M]]`, where `M` counts the variables that two configurations have in common.
The inverse gives the weights that are optimal without regard to their signs. It is kept up to date
while configurations enter and leave.
-/

namespace MapInference

open Scalar

structure ActiveSet (α C : Type) where
  configurations : List C := []
  weights : List α := []
  /-- The rows of the inverse of the bordered matrix. -/
  inverse : List (List α) := []
  deriving Repr, DecidableEq

namespace ActiveSet

variable {α C : Type} [Scalar α]

def isEmpty (s : ActiveSet α C) : Bool := s.configurations.isEmpty

def singleton (oracle : Oracle α C) (c : C) : ActiveSet α C :=
  ⟨[c], [1], [[-ofNat (oracle.common c c), 1], [1, 0]]⟩

def borderedMatrix (oracle : Oracle α C) (cs : List C) : List (List α) :=
  (0 :: cs.map fun _ => 1) ::
    cs.map fun c => 1 :: cs.map fun d => ofNat (oracle.common c d)

/-- The multiplier of the condition that the weights sum to one, and the weights that are optimal
without regard to their signs, for the scores of the configurations. -/
def unsignedOptimum? (s : ActiveSet α C) (scores : List α) : Option (α × List α) :=
  match s.inverse.map fun row => row.headD 0 + dot row.tail scores with
  | [] => none
  | multiplier :: weights => some (multiplier, weights)

def normalised (s : ActiveSet α C) : ActiveSet α C :=
  let sum := total s.weights
  if 0 < sum then { s with weights := s.weights.map (· / sum) } else s

inductive Insertion (α C : Type) where
  /-- It is active, with weight zero. -/
  | inserted (s : ActiveSet α C)
  /-- Its indicator is the affine combination of the active ones with these coefficients. -/
  | dependent (coefficients : List α)
  | noInverse

def insert (oracle : Oracle α C) (s : ActiveSet α C) (c : C) : Insertion α C :=
  if s.inverse.isEmpty then .noInverse
  else
    let border := 1 :: s.configurations.map fun d => ofNat (oracle.common c d)
    let product := Matrix.mulColumn s.inverse border
    let schur := ofNat (oracle.common c c) - dot border product
    if abs schur < Matrix.pivotTolerance then .dependent product.tail
    else
      .inserted
        ⟨s.configurations ++ [c], s.weights ++ [0], Matrix.bordered s.inverse product schur⟩

/-- The configuration with the largest weight, the last of several. -/
def heaviest (s : ActiveSet α C) : Nat :=
  ((Extremum.lastGreatest? (·.1) s.weights.zipIdx).map (·.2)).getD 0

/-- Computes the inverse afresh; when there is none, only the heaviest configuration is kept. -/
def rebuilt (oracle : Oracle α C) (s : ActiveSet α C) : ActiveSet α C :=
  if s.isEmpty then {}
  else
    match Matrix.invert (borderedMatrix oracle s.configurations) with
    | some inverse => { s with inverse }
    | none =>
      match s.configurations[s.heaviest]? with
      | some c => singleton oracle c
      | none => {}

def remove (oracle : Oracle α C) (s : ActiveSet α C) (i : Nat) : ActiveSet α C :=
  let rest :=
    { s with configurations := s.configurations.eraseIdx i, weights := s.weights.eraseIdx i }
  if abs (Matrix.entry s.inverse (i + 1) (i + 1)) < Matrix.pivotTolerance then rebuilt oracle rest
  else { rest with inverse := Matrix.downdated s.inverse (i + 1) }

/-- What comes of exchanging a dependent configuration for an active one. -/
inductive Exchange (α C : Type) where
  | exchanged (s : ActiveSet α C)
  /-- The configuration is not active afterwards. -/
  | refused (s : ActiveSet α C)
  | noInverse

/-- The first weight to reach zero when weight moves onto a configuration with the given
coefficients, and the amount moved until then. -/
def blocking? (s : ActiveSet α C) (coefficients : List α) : Option (Nat × α) :=
  Extremum.firstLeast? (·.2)
    ((List.zipWith Prod.mk coefficients s.weights).zipIdx.filterMap fun ((a, w), i) =>
      if Matrix.pivotTolerance < a then some (i, w / a) else none)

/-- Moves weight onto a dependent configuration until an active one has none left, which leaves.
The averaged indicator stays the same. -/
def exchange (oracle : Oracle α C) (s : ActiveSet α C) (c : C) (coefficients : List α) :
    Exchange α C :=
  match s.blocking? coefficients with
  | none => .refused s
  | some (i, amount) =>
    let moved := List.zipWith (fun w a => larger (w - amount * a) 0) s.weights coefficients
    let rest := remove oracle { s with weights := moved.set i 0 } i
    match insert oracle rest c with
    | .inserted t =>
      .exchanged (normalised { t with weights := t.weights.dropLast ++ [amount] })
    | .dependent _ => .refused (normalised rest)
    | .noInverse => .noInverse

def marginals (oracle : Oracle α C) (s : ActiveSet α C) : List α × List α :=
  (List.zipWith Prod.mk s.configurations s.weights).foldl
    (fun sums (c, w) => oracle.accumulate c w sums)
    (zeros oracle.numVariables, zeros oracle.numAdditionals)

@[simp] theorem configurations_normalised (s : ActiveSet α C) :
    s.normalised.configurations = s.configurations := by
  unfold normalised
  dsimp only
  split <;> rfl

end ActiveSet
end MapInference
