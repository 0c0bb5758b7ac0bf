import MapInference.Projection.Simplex

/-!
# Projection onto the polytope of a disjunction

The polytope of an output that is the disjunction of its inputs holds the points of the unit box
where no input exceeds the output and the output does not exceed the sum of the inputs. The
projection first pools the largest inputs with the output until no input exceeds it, and clips. If
the output still exceeds the sum of the inputs, the projection lies on the face where both are
equal.
-/

namespace MapInference.Projection

open Scalar
variable {α : Type} [Scalar α]

/-- The common value of the output and of the inputs that exceed it, for inputs in descending
order, of which `count` have been pooled to the sum `sum`. -/
def pooledValue (count : Nat) (sum pooled : α) : List α → α
  | [] => pooled
  | x :: rest =>
    if pooled < x then
      pooledValue (count + 1) (sum + x) ((sum + x) / ofNat (count + 2)) rest
    else pooled

/-- The amount that is subtracted from the inputs on the face where they sum to the output, for
inputs in descending order, of which `count` with sum `sum` stay positive. -/
def faceShift (output : α) (count : Nat) (sum shift : α) : List α → α
  | [] => shift
  | x :: rest =>
    if x ≤ shift then shift
    else faceShift output (count + 1) (sum + x) ((sum + x - output) / ofNat (count + 2)) rest

/-- The projection onto the face where the inputs sum to the output. -/
def disjunctionFace (inputs : List α) (output : α) : List α × α :=
  let shift := faceShift output 0 0 (-output) (descending inputs)
  if shift + output ≤ 1 then
    let moved := inputs.map fun x => larger (x - shift) 0
    (moved, total moved)
  else (simplex inputs, 1)

/-- The point of the disjunction's polytope that is closest to `(inputs, output)`, up to an
output that may exceed the sum of the inputs by `tenthPower 12`. -/
def disjunction (inputs : List α) (output : α) : List α × α :=
  let pooled := pooledValue 0 output output (descending inputs)
  let lowered := inputs.map fun x => clip (smaller x pooled)
  let raised := clip pooled
  if raised ≤ total lowered + tenthPower 12 then (lowered, raised)
  else disjunctionFace inputs output

@[simp] theorem length_disjunction (inputs : List α) (output : α) :
    (disjunction inputs output).1.length = inputs.length := by
  unfold disjunction disjunctionFace
  dsimp only
  split
  · simp
  · split <;> simp

end MapInference.Projection
