import MapInference.Decimal.Shortest

/-!
# Texts of doubles

Three ways to write a double: plainly, with the shortest digits and never with an exponent; with a
fixed number of places; and in scientific notation with a fixed number of places. Values that are
no finite numbers have names.
-/

namespace MapInference.Decimal

def zeroes (n : Nat) : List Char := List.replicate n '0'

/-- The digits of `coefficient * 10 ^ exponent`, with a point where there is a fraction. -/
def positional (d : Digits) : List Char :=
  let ds := digits d.coefficient
  if 0 ≤ d.exponent then ds ++ zeroes d.exponent.toNat
  else
    let places := (-d.exponent).toNat
    let padded := zeroes (places + 1 - ds.length) ++ ds
    padded.take (padded.length - places) ++ '.' :: padded.drop (padded.length - places)

def Digits.trimmed (d : Digits) : (limit : Nat) → Digits
  | 0 => d
  | limit + 1 =>
    if d.coefficient % 10 = 0 ∧ d.coefficient ≠ 0 then
      trimmed ⟨d.coefficient / 10, d.exponent + 1⟩ limit
    else d

def sign (x : Float) : List Char := if Binary64.isNegative x then ['-'] else []

def orName (x : Float) (layout : List Char) : String :=
  if Binary64.isFinite x then String.ofList (sign x ++ layout)
  else if x ≤ x then String.ofList (sign x ++ ['i', 'n', 'f']) else "NaN"

def plain (x : Float) : String :=
  orName x
    (if Binary64.significand x = 0 then ['0']
    else positional ((shortest x).trimmed (maxDigits + 1)))

def fixed (places : Nat) (x : Float) : String :=
  let d := Dyadic.ofDouble x
  orName x (positional ⟨roundQuotient (d.num * tenTo places) d.den, -(places : Int)⟩)

def scientific (places : Nat) (x : Float) : String :=
  let d := Dyadic.ofDouble x
  let r := if d.significand = 0 then ⟨0, -(places : Int)⟩
    else significant (places + 1) d.num d.den
  orName x
    (positional ⟨r.coefficient, -(places : Int)⟩ ++ 'e' ::
      (toString (r.exponent + places)).toList)

end MapInference.Decimal
