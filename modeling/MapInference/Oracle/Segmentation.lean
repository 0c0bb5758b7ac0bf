import MapInference.Oracle

/-!
# Segmentations

Sets of disjoint segments of a sequence of positions. There is one variable for each interval
`[start, stop]`, in the order of their starts and then of their ends, and one additional variable
for each interval that starts after the first position, which is true when the segment directly
follows another one. The best segmentation is found for all prefixes of the sequence, with and
without a segment at the end, and it is noted which shorter prefix it extends. The notes are
followed back from the whole sequence to read off the segments.
-/

namespace MapInference.Segmentation

open Scalar
variable {α : Type} [Scalar α]

def numIntervals (length : Nat) : Nat := length * (length + 1) / 2

def numTransitions (length : Nat) : Nat := length * (length - 1) / 2

def intervalIndex (length start stop : Nat) : Nat :=
  start * length - start * (start - 1) / 2 + (stop - start)

/-- The additional variable of an interval that starts after the first position. -/
def transitionIndex (length start stop : Nat) : Nat := intervalIndex length start stop - length

def intervals (length : Nat) : List (Nat × Nat) :=
  (List.range length).flatMap fun start =>
    ((List.range length).filter (start ≤ ·)).map fun stop => (start, stop)

def follows (previous : Option Nat) (start : Nat) : Bool :=
  decide (1 ≤ start) && previous == some (start - 1)

def transitions (previous : Option Nat) : List (Nat × Nat) → List ((Nat × Nat) × Bool)
  | [] => []
  | (start, stop) :: rest =>
    ((start, stop), follows previous start) :: transitions (some stop) rest

def trueVariables (length : Nat) (segments : List (Nat × Nat)) : List Nat :=
  segments.map fun (start, stop) => intervalIndex length start stop

def trueAdditionals (length : Nat) (segments : List (Nat × Nat)) : List Nat :=
  (transitions none segments).filterMap fun ((start, stop), follows) =>
    if follows then some (transitionIndex length start stop) else none

def score (length : Nat) (scores additional : List α) (segments : List (Nat × Nat)) : α :=
  (transitions none segments).foldl (fun sum ((start, stop), follows) =>
    let sum := sum + coordinate scores (intervalIndex length start stop)
    if follows then sum + coordinate additional (transitionIndex length start stop) else sum) 0

/-- Where the best segmentation of a prefix comes from: the shorter prefix it extends, whether that
one is closed by a segment at its end, and where the segment stops that is put behind it, if there
is one. -/
structure Origin where
  position : Nat
  closed : Bool
  stop : Option Nat

def Origin.segment? (o : Origin) : Option (Nat × Nat) := o.stop.map (o.position, ·)

structure Entry (α : Type) where
  score : α
  origin : Option Origin := none

namespace Entry

def empty : Entry α := ⟨0, none⟩

def skip (position : Nat) (closed : Bool) (e : Entry α) : Entry α :=
  ⟨e.score, some ⟨position, closed, none⟩⟩

/-- Puts a segment behind a prefix, which directly follows another one if that prefix is closed. -/
def append (length : Nat) (scores additional : List α) (start stop : Nat) (closed : Bool)
    (e : Entry α) : Entry α :=
  let score := e.score + coordinate scores (intervalIndex length start stop)
  { score :=
      if closed && decide (1 ≤ start) then
        score + coordinate additional (transitionIndex length start stop)
      else score
    origin := some ⟨start, closed, some stop⟩ }

end Entry

def bestOf (candidates : List (Entry α)) : Option (Entry α) :=
  (Extremum.firstBest? Entry.score candidates).map (·.1)

/-- The best segmentations of a prefix, without and with a segment at its end. -/
structure Prefixes (α : Type) where
  outside : Option (Entry α)
  inside : Option (Entry α)

namespace Prefixes

def get? (p : Prefixes α) (closed : Bool) : Option (Entry α) :=
  if closed then p.inside else p.outside

/-- The best segmentations that there are, each with whether a segment is at its end. -/
def candidates (p : Prefixes α) : List (Bool × Entry α) :=
  (p.outside.map (false, ·)).toList ++ (p.inside.map (true, ·)).toList

/-- The segmentations that leave the position behind the prefix outside of all segments. -/
def skip (position : Nat) (p : Prefixes α) : List (Entry α) :=
  p.candidates.map fun (closed, e) => e.skip position closed

def append (length : Nat) (scores additional : List α) (start stop : Nat) (p : Prefixes α) :
    List (Entry α) :=
  p.candidates.map fun (closed, e) => e.append length scores additional start stop closed

def best? (p : Prefixes α) : Option (Bool × α) :=
  (Extremum.firstBest? (·.2.score) p.candidates).map fun best => (best.1.1, best.2)

end Prefixes

/-- The best segmentations of the prefix that is longer by the position `stop`, from those of all
shorter prefixes. -/
def extend (length : Nat) (scores additional : List α) (stop : Nat) (table : List (Prefixes α)) :
    Prefixes α where
  outside := bestOf ((table[stop]?.map (·.skip stop)).getD [])
  inside := bestOf (table.zipIdx.flatMap fun row =>
    row.1.append length scores additional row.2 stop)

def table (length : Nat) (scores additional : List α) : (n : Nat) → List (Prefixes α)
  | 0 => [⟨some .empty, none⟩]
  | n + 1 =>
    let shorter := table length scores additional n
    shorter ++ [extend length scores additional n shorter]

def lookup? (table : List (Prefixes α)) (position : Nat) (closed : Bool) : Option (Entry α) :=
  table[position]?.bind (·.get? closed)

/-- The way back from a prefix to the prefixes that it comes from, in at most `limit` steps. -/
def walk (table : List (Prefixes α)) : (limit position : Nat) → (closed : Bool) → List Origin
  | 0, _, _ => []
  | limit + 1, position, closed =>
    match (lookup? table position closed).bind (·.origin) with
    | none => []
    | some o => o :: walk table limit o.position o.closed

def maximize (length : Nat) (scores additional : List α) : List (Nat × Nat) × α :=
  let rows := table length scores additional length
  match rows[length]?.bind (·.best?) with
  | some (closed, value) =>
    (((walk rows length length closed).filterMap Origin.segment?).reverse, value)
  | none => ([], lowest)

def ofAssignment? (length : Nat) (values : List Bool) : Option (List (Nat × Nat)) :=
  let segments := (intervals length).filter fun (start, stop) =>
    values[intervalIndex length start stop]?.getD false
  if (segments.zip segments.tail).all fun (first, second) => first.2 < second.1 then some segments
  else none

def oracle (length : Nat) : Oracle α (List (Nat × Nat)) where
  numVariables := numIntervals length
  numAdditionals := numTransitions length
  maximize := maximize length
  score := score length
  accumulate segments weight sums :=
    (Oracle.accumulateAt (trueVariables length segments) weight sums.1,
      Oracle.accumulateAt (trueAdditionals length segments) weight sums.2)
  trueVariables := trueVariables length
  common first second :=
    Oracle.countCommon (trueVariables length first) (trueVariables length second)
  ofAssignment? := ofAssignment? length

@[simp] theorem length_table (length : Nat) (scores additional : List α) (n : Nat) :
    (table length scores additional n).length = n + 1 := by
  induction n with
  | zero => rfl
  | succ n ih => simp [table, ih]

end MapInference.Segmentation
