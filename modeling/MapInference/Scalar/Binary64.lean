import MapInference.Scalar

/-!
# Binary floating point as scalars

The carrier of the running solver. A finite double is `significand x * 2 ^ exponent x` up to its
sign, which gives the integer it is equal to, and the order of the bit patterns, taken with their
signs, is the total order: negative zero precedes zero and no value follows the one that is no
number.
-/

namespace MapInference.Binary64

def signBit : Nat := twoTo 63
def fractionModulus : Nat := twoTo 52

def word (x : Float) : Nat := x.toBits.toNat
def isNegative (x : Float) : Bool := decide (signBit ≤ word x)
def magnitudeBits (x : Float) : Nat := word x % signBit
def exponentBits (x : Float) : Nat := magnitudeBits x / fractionModulus
def fractionBits (x : Float) : Nat := magnitudeBits x % fractionModulus

/-- The exponent field of infinities and of the value that is no number has all bits set. -/
def isFinite (x : Float) : Bool := exponentBits x != 2047

def significand (x : Float) : Nat :=
  if exponentBits x = 0 then fractionBits x else fractionModulus + fractionBits x

def exponent (x : Float) : Int :=
  (if exponentBits x = 0 then 1 else (exponentBits x : Int)) - 1075

def toInt? (x : Float) : Option Int :=
  if isFinite x then
    let m := significand x
    let e := exponent x
    let sign : Int := if isNegative x then -1 else 1
    if 0 ≤ e then some (sign * (m * twoTo e.toNat : Nat))
    else if m % twoTo (-e).toNat = 0 then some (sign * (m / twoTo (-e).toNat : Nat))
    else none
  else none

def rank (x : Float) : Int :=
  if isNegative x then -1 - (magnitudeBits x : Int) else magnitudeBits x

end MapInference.Binary64

namespace MapInference

instance : Scalar Float where
  zero := 0.0
  one := 1.0
  decLE := fun _ _ => inferInstance
  decLT := fun _ _ => inferInstance
  ofNat := Float.ofNat
  abs := Float.abs
  sqrt := Float.sqrt
  round := Float.round
  toInt? := Binary64.toInt?
  precedes x y := decide (Binary64.rank x ≤ Binary64.rank y)
  lowest := -1.0 / 0.0

end MapInference
