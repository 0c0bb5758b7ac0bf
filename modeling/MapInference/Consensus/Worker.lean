import MapInference.Problem

/-!
# Workers

During a relaxation every factor has local copies of its variables, the posteriors, and a
multiplier for each that prices its disagreement with the consensus. A worker is a factor with this
state.
-/

namespace MapInference

open Scalar

structure Worker (α : Type) extends WarmFactor α where
  multipliers : List α
  posteriors : List α
  additionalPosteriors : List α
  /-- The number of active-set iterations of all projections so far. -/
  iterations : Nat := 0
  /-- Whether the active set of a projection has lost its last configuration. -/
  emptied : Bool := false

namespace Worker

variable {α : Type} [Scalar α]

def start (f : Factor α) : Worker α where
  factor := f
  multipliers := zeros f.literals.length
  posteriors := zeros f.literals.length
  additionalPosteriors := zeros f.numAdditionals

/-- The share of the log-potential of a variable that falls to one of its occurrences. -/
def share (logPotentials : List α) (degrees : List Nat) (i : Nat) : α :=
  coordinate logPotentials i / ofNat (degrees[i]?.getD 0)

def target (w : Worker α) (consensus logPotentials : List α) (degrees : List Nat) (stepSize : α) :
    List α :=
  List.zipWith
    (fun i multiplier =>
      coordinate consensus i + (share logPotentials degrees i + multiplier) / stepSize)
    w.factor.indices w.multipliers

/-- The proximal step: projects the posteriors onto the factor's polytope, with at most `limit`
active-set iterations. -/
def project (w : Worker α) (consensus logPotentials : List α) (degrees : List Nat) (stepSize : α)
    (limit : Nat) : Worker α :=
  let marks := w.factor.marks
  let s := w.factor.localProblem.project
    (Complement.point marks (w.target consensus logPotentials degrees stepSize))
    (w.factor.additional.map (· / stepSize)) limit w.activeSet
  { w with
    activeSet := s.activeSet
    posteriors := Complement.point marks s.point
    additionalPosteriors := s.additionals
    iterations := w.iterations + s.iterations
    emptied := w.emptied || s.emptied }

def disagreements (w : Worker α) (consensus : List α) : List α :=
  List.zipWith (fun i q => q - coordinate consensus i) w.factor.indices w.posteriors

def price (w : Worker α) (consensus : List α) (stepSize : α) : Worker α :=
  { w with
    multipliers :=
      List.zipWith (fun m d => m - stepSize * d) w.multipliers (w.disagreements consensus) }

/-- The largest local score, where every variable counts with its share and its multiplier. -/
def localBest (w : Worker α) (logPotentials : List α) (degrees : List Nat) : α :=
  w.factor.best (List.zipWith (fun i m => share logPotentials degrees i + m)
    w.factor.indices w.multipliers)

def additionalValue (w : Worker α) : α := dot w.factor.additional w.additionalPosteriors

/-- The occurrences of variables among workers, each with the quantity that `quantity` lists for
it. -/
def occurrences (workers : List (Worker α)) (quantity : Worker α → List α) : List (Nat × α) :=
  workers.flatMap fun w => List.zipWith Prod.mk w.factor.indices (quantity w)

def sumAt (occurrences : List (Nat × α)) (i : Nat) : α :=
  (occurrences.filter fun o => o.1 == i).foldl (fun sum o => sum + o.2) 0

@[simp] theorem factor_project (w : Worker α) (consensus logPotentials : List α)
    (degrees : List Nat) (stepSize : α) (limit : Nat) :
    (w.project consensus logPotentials degrees stepSize limit).factor = w.factor := rfl

@[simp] theorem factor_price (w : Worker α) (consensus : List α) (stepSize : α) :
    (w.price consensus stepSize).factor = w.factor := rfl

end Worker
end MapInference
