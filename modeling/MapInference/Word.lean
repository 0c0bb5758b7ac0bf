import MapInference.Power

/-!
# Machine words

Sizes are natural numbers below `limit`. Where a size is computed from others, these operations say
what happens at the limit.
-/

namespace MapInference.Word

/-- The first number that is no machine word. -/
def limit : Nat := twoTo 64

/-- The number itself, or the largest word. -/
def saturate (n : Nat) : Nat := if n < limit then n else limit - 1

def checked (n : Nat) : Option Nat := if n < limit then some n else none

/-- The product of some numbers, multiplied one after another, if every product on the way is a
word. -/
def product? (ns : List Nat) : Option Nat :=
  ns.foldlM (fun product n => checked (product * n)) 1

theorem saturate_of_lt {n : Nat} (h : n < limit) : saturate n = n := by
  simp [saturate, h]

end MapInference.Word
