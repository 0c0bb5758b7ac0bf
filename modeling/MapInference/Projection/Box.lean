import MapInference.Scalar

/-!
# Projection onto the unit box
-/

namespace MapInference.Projection

variable {α : Type} [Scalar α]

def clip (x : α) : α := Scalar.clamp 0 1 x

def box (point : List α) : List α := point.map clip

@[simp] theorem length_box (point : List α) : (box point).length = point.length := by
  simp [box]

end MapInference.Projection
