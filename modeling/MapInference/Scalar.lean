import MapInference.Power

/-!
# Scalars

All computations of the solver are written once, over any type of scalars: an ordered carrier with
the four operations of arithmetic, a square root, a rounding and a total order for choosing among
candidates. Binary floating point is one such carrier (`MapInference.Scalar.Binary64`), an ordered
field another. The operations that every carrier shares are defined here from those, with care for
values that are no numbers: a comparison with such a value is false, and `larger` and `smaller`
return the other operand.
-/

namespace MapInference

class Scalar (α : Type) extends
    Zero α, One α, Add α, Sub α, Neg α, Mul α, Div α, LE α, LT α where
  decLE : DecidableLE α
  decLT : DecidableLT α
  /-- The scalar nearest to a natural number. -/
  ofNat : Nat → α
  abs : α → α
  sqrt : α → α
  round : α → α
  /-- The integer that a scalar is equal to, if there is one. -/
  toInt? : α → Option Int
  /-- A total order that refines `≤`; it also ranks values that are no numbers. -/
  precedes : α → α → Bool
  /-- The supremum of no scalars: minus infinity where the carrier has it. -/
  lowest : α

namespace Scalar

attribute [reducible, instance] decLE decLT

variable {α : Type} [Scalar α]

/-- Every number is at most itself, and nothing else is. -/
def isNumber (x : α) : Bool := decide (x ≤ x)

/-- The larger operand; one that is no number loses against the other. -/
def larger (x y : α) : α :=
  if x < y then y else if isNumber x then x else y

def smaller (x y : α) : α :=
  if y < x then y else if isNumber x then x else y

def clamp (low high x : α) : α :=
  if x < low then low else if high < x then high else x

/-- Adds from the left, starting at negative zero, which is neutral for every carrier. -/
def total (xs : List α) : α := xs.foldl (· + ·) (-0)

def dot (xs ys : List α) : α := total (List.zipWith (· * ·) xs ys)

def same (x y : α) : Bool := decide (x ≤ y) && decide (y ≤ x)

def isFinite (x : α) : Bool := isNumber (x - x)

def belowTop (x : α) : Bool := isFinite x || decide (x < 0)

def aboveBottom (x : α) : Bool := isFinite x || decide (0 < x)

def tenthPower (k : Nat) : α := 1 / ofNat (tenTo k)

def half : α := 1 / ofNat 2

def ofBool (b : Bool) : α := if b then 1 else 0

def addAt (xs : List α) (i : Nat) (weight : α) : List α := xs.modify i (· + weight)

def zeros (n : Nat) : List α := List.replicate n 0

def resized (n : Nat) (xs : List α) : List α := (xs ++ zeros (n - xs.length)).take n

/-- The coordinate `i`, zero outside of the list. -/
def coordinate (xs : List α) (i : Nat) : α := xs[i]?.getD 0

@[simp] theorem length_addAt (xs : List α) (i : Nat) (weight : α) :
    (addAt xs i weight).length = xs.length := by
  simp [addAt]

@[simp] theorem length_zeros (n : Nat) : (zeros n : List α).length = n := by
  simp [zeros]

@[simp] theorem length_resized (n : Nat) (xs : List α) : (resized n xs).length = n := by
  simp only [resized, List.length_take, List.length_append, length_zeros]
  omega

theorem resized_of_length {xs : List α} {n : Nat} (h : xs.length = n) : resized n xs = xs := by
  subst h
  simp [resized]

end Scalar
end MapInference
