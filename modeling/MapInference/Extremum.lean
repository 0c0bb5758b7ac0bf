import MapInference.Extended

/-!
# Extreme elements of lists

The choices that the solver makes among candidates, each with its rule for ties: `firstLeast?`
keeps the first of several least elements, `lastGreatest?` and `firstGreatest?` the last and the
first of several greatest ones, and `firstBest?` the first of several best scored ones. `largest?`
is the largest number of a list.
-/

namespace MapInference.Extremum

open Scalar
variable {α β : Type} [Scalar α]

def firstLeast? (key : β → α) : List β → Option β
  | [] => none
  | b :: rest =>
    some (rest.foldl (fun best c => if precedes (key best) (key c) then best else c) b)

def lastGreatest? (key : β → α) : List β → Option β
  | [] => none
  | b :: rest =>
    some (rest.foldl (fun best c => if precedes (key best) (key c) then c else best) b)

def firstGreatest? (key : β → α) : List β → Option β
  | [] => none
  | b :: rest =>
    some (rest.foldl (fun best c => if precedes (key c) (key best) then best else c) b)

/-- The better of the best scored element so far and the next one, which must exceed it. -/
def keepBetter (score : β → α) (best : Option (β × α)) (b : β) : Option (β × α) :=
  if Extended.exceeds (score b) (best.map (·.2)) then some (b, score b) else best

/-- The first element with the largest score, with that score; `none` when no score is above minus
infinity. -/
def firstBest? (score : β → α) (bs : List β) : Option (β × α) :=
  bs.foldl (keepBetter score) none

def largest? (xs : List α) : Option α :=
  xs.foldl (fun best x => match best with
    | none => if isNumber x then some x else none
    | some b => some (larger b x)) none

end MapInference.Extremum
