import MapInference.Decimal.Rounding

/-!
# Shortest digits

The shortest digits of a double are the fewest that are read back as that double, and the nearest
to it of those. Each number of digits gives a grid of decimals. The first grid with a point that
reads back is found by trying the two neighbours of the double on it.
-/

namespace MapInference.Decimal

/-- The numbers that are read as a given double lie between two bounds, which are in quarters of
its last place. -/
structure Neighbourhood where
  low : Nat
  middle : Nat
  high : Nat
  /-- Whether the bounds belong to it. -/
  closed : Bool
  /-- The exponent of two of a quarter of the last place. -/
  exponent : Int
  deriving Repr, DecidableEq

def Neighbourhood.ofDouble (x : Float) : Neighbourhood :=
  let d := Dyadic.ofDouble x
  let m := d.significand
  let narrow := m == Binary64.fractionModulus && decide (-1074 < d.exponent)
  ⟨4 * m - (if narrow then 1 else 2), 4 * m, 4 * m + 2, m % 2 == 0, d.exponent - 2⟩

namespace Neighbourhood

/-- Twice the distance of `c * 10 ^ k` from the middle, when it lies in the neighbourhood. -/
def distance? (n : Neighbourhood) (k : Int) (c : Nat) : Option Nat :=
  let unit := twoTo n.exponent.toNat * tenTo (-k).toNat
  let point := c * tenTo k.toNat * twoTo (-n.exponent).toNat
  let inside :=
    if n.closed then n.low * unit ≤ point && point ≤ n.high * unit
    else n.low * unit < point && point < n.high * unit
  if inside then some (if point < n.middle * unit then n.middle * unit - point
    else point - n.middle * unit) else none

/-- The nearest point of the grid with spacing `10 ^ k` in the neighbourhood, the upper one of
two. -/
def onGrid? (n : Neighbourhood) (k : Int) : Option Nat :=
  let below := n.middle * twoTo n.exponent.toNat * tenTo (-k).toNat
    / (twoTo (-n.exponent).toNat * tenTo k.toNat)
  match n.distance? k below, n.distance? k (below + 1) with
  | some d, some e => some (if d < e then below else below + 1)
  | some _, none => some below
  | none, some _ => some (below + 1)
  | none, none => none

def search (n : Neighbourhood) (top : Int) (count : Nat) : (limit : Nat) → Digits
  | 0 => ⟨0, 0⟩
  | limit + 1 =>
    let k := top - count
    match n.onGrid? k with
    | some c => ⟨c, k⟩
    | none => n.search top (count + 1) limit

end Neighbourhood

/-- Seventeen digits tell all doubles apart. -/
def maxDigits : Nat := 17

def shortest (x : Float) : Digits :=
  let d := Dyadic.ofDouble x
  (Neighbourhood.ofDouble x).search (magnitude d.num d.den) 0 maxDigits

end MapInference.Decimal
