import MapInference.Scalar.Binary64

/-!
# Reading numbers

A number is an optional sign and either digits with an optional point and an optional exponent, at
least one digit among them, or the name of infinity or of the value that is no number, in upper or
lower case. It is read as the nearest double.
-/

namespace MapInference.Decimal

def splitDigits (cs : List Char) : List Char × List Char := cs.span Char.isDigit

def digitsValue (ds : List Char) : Nat := ds.foldl (fun n d => 10 * n + (d.toNat - '0'.toNat)) 0

def splitSign : List Char → Bool × List Char
  | '-' :: rest => (true, rest)
  | '+' :: rest => (false, rest)
  | cs => (false, cs)

def exponent? : List Char → Option Int
  | [] => some 0
  | mark :: rest =>
    let (negative, ds) := splitSign rest
    if (mark == 'e' || mark == 'E') && !ds.isEmpty && ds.all Char.isDigit then
      some (if negative then -(digitsValue ds : Int) else digitsValue ds)
    else none

/-- The double nearest to `n * 10 ^ e`, for a number `n` with at most `count` digits. Far outside of
the range of doubles the result is known without the power. -/
def nearest (n count : Nat) (e : Int) : Float :=
  if n = 0 then 0.0
  else if 400 < e then 1.0 / 0.0
  else if e + count < -400 then 0.0
  else if 0 ≤ e then Float.ofScientific (n * tenTo e.toNat) false 0
  else Float.ofScientific n true (-e).toNat

def unsigned? (cs : List Char) : Option Float :=
  let (whole, rest) := splitDigits cs
  let (fraction, rest) := match rest with
    | '.' :: rest => splitDigits rest
    | rest => ([], rest)
  if whole.isEmpty && fraction.isEmpty then none
  else (exponent? rest).map fun e =>
    let ds := whole ++ fraction
    nearest (digitsValue ds) ds.length (e - fraction.length)

def named? (cs : List Char) : Option Float :=
  let name := String.ofList (cs.map Char.toLower)
  if name == "inf" || name == "infinity" then some (1.0 / 0.0)
  else if name == "nan" then some (0.0 / 0.0)
  else none

def readDouble? (cs : List Char) : Option Float :=
  let (negative, rest) := splitSign cs
  ((named? rest).or (unsigned? rest)).map fun x => if negative then -x else x

def readNatural? (limit : Nat) (cs : List Char) : Option Nat :=
  let ds := match cs with
    | '+' :: rest => rest
    | cs => cs
  if !ds.isEmpty && ds.all Char.isDigit && decide (digitsValue ds < limit) then
    some (digitsValue ds)
  else none

end MapInference.Decimal
