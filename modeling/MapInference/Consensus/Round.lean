import MapInference.Consensus.Worker
import MapInference.Options

/-!
# Rounds of the consensus iteration

A round projects the posteriors of every factor, averages them into the consensus and moves the
multipliers. It also evaluates the two objectives: the value of the consensus with the additional
posteriors, and the dual function at the multipliers, which bounds the value of every assignment.
-/

namespace MapInference

open Scalar

structure Restriction (α : Type) where
  problem : Problem α
  fixed : List (Option Bool)
  degrees : List Nat := problem.degrees

namespace Restriction

variable {α : Type} [Scalar α]

def degree (r : Restriction α) (i : Nat) : Nat := r.degrees[i]?.getD 0

def fixedValue? (r : Restriction α) (i : Nat) : Option Bool := r.fixed[i]?.join

/-- Whether the consensus value of a variable is the average of its posteriors. -/
def isShared (r : Restriction α) (i : Nat) : Bool :=
  (r.fixedValue? i).isNone && r.degree i != 0

def numOccurrences (r : Restriction α) : Nat := r.degrees.foldr (· + ·) 0

def initialConsensus (r : Restriction α) : List α :=
  r.problem.logPotentials.zipIdx.map fun (x, i) =>
    match r.fixedValue? i with
    | some value => ofBool value
    | none => if r.degree i = 0 then ofBool (decide (0 < x)) else half

/-- What a variable contributes to the dual function, for the sum of its multipliers. -/
def freeBest (r : Restriction α) (i : Nat) (multiplierSum : α) : α :=
  let x := coordinate r.problem.logPotentials i
  match r.fixedValue? i, r.degree i with
  | some true, 0 => x
  | some false, 0 => 0
  | none, 0 => larger x 0
  | some true, _ + 1 => -multiplierSum
  | some false, _ + 1 => 0
  | none, _ + 1 => larger (-multiplierSum) 0

def dualObjective (r : Restriction α) (workers : List (Worker α)) : α :=
  let multipliers := Worker.occurrences workers Worker.multipliers
  (List.range r.problem.numVariables).foldl
    (fun sum i => sum + r.freeBest i (Worker.sumAt multipliers i))
    (total (workers.map fun w => w.localBest r.problem.logPotentials r.degrees))

def primalObjective (r : Restriction α) (workers : List (Worker α)) (consensus : List α) : α :=
  dot r.problem.logPotentials consensus + total (workers.map Worker.additionalValue)

def average (r : Restriction α) (workers : List (Worker α)) (consensus : List α) : List α :=
  let posteriors := Worker.occurrences workers Worker.posteriors
  consensus.zipIdx.map fun (x, i) =>
    if r.isShared i then Worker.sumAt posteriors i / ofNat (r.degree i) else x

def squaredChange (r : Restriction α) (before after : List α) : α :=
  (List.zipWith Prod.mk before after).zipIdx.foldl (fun sum ((old, new), i) =>
    if r.isShared i then sum + ofNat (r.degree i) * (new - old) * (new - old) else sum) 0

def squaredDisagreement (workers : List (Worker α)) (consensus : List α) : α :=
  (workers.flatMap fun w => w.disagreements consensus).foldl (fun sum d => sum + d * d) 0

end Restriction

/-- The assignment nearest to a consensus. -/
def Relaxation.rounded {α : Type} [Scalar α] (consensus : List α) : List Bool :=
  consensus.map fun x => decide (half ≤ x)

structure Round (α : Type) where
  workers : List (Worker α)
  consensus : List α
  value : α
  dualValue : α
  primalResidual : α
  dualResidual : α
  /-- Whether the table of a factor leaves the machine words, or a value does when the rounded
  consensus is evaluated. -/
  overflowed : Bool

def Restriction.round {α : Type} [Scalar α] (r : Restriction α) (limit : Nat) (stepSize : α)
    (workers : List (Worker α)) (consensus : List α) : Round α :=
  let projected := workers.map fun w =>
    w.project consensus r.problem.logPotentials r.degrees stepSize limit
  let averaged := r.average projected consensus
  let priced := projected.map fun w => w.price averaged stepSize
  let n := r.numOccurrences
  { workers := priced
    consensus := averaged
    value := r.primalObjective priced averaged
    dualValue := r.dualObjective priced
    primalResidual :=
      if n = 0 then 0
      else sqrt (Restriction.squaredDisagreement projected averaged / ofNat n)
    dualResidual :=
      if n = 0 then 0 else stepSize * sqrt (r.squaredChange consensus averaged / ofNat n)
    overflowed := r.problem.outgrows || r.problem.overflows (Relaxation.rounded averaged) }

end MapInference
