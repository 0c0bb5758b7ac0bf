import MapInference.Extended
import MapInference.Scalar.Binary64

/-!
# Extended doubles as doubles

Doubles have infinities of their own, which stand for the two ends.
-/

namespace MapInference.Extended

def toDouble : Extended Float → Float
  | bottom => -1.0 / 0.0
  | value x => x
  | top => 1.0 / 0.0

end MapInference.Extended
