import MapInference.Scalar.Binary64

/-!
# Exact magnitudes and their digits

The magnitude of a finite double is a fraction of natural numbers. This module rounds fractions to
natural numbers, with ties to even, and finds the decimal digits of magnitudes to a number of
places or of significant digits.
-/

namespace MapInference.Decimal

def roundQuotient (num den : Nat) : Nat :=
  let q := num / den
  let r := num % den
  if 2 * r < den then q else if den < 2 * r then q + 1 else q + q % 2

theorem roundQuotient_mul (n : Nat) {den : Nat} (h : 0 < den) :
    roundQuotient (n * den) den = n := by
  simp [roundQuotient, Nat.mul_mod_left, Nat.mul_div_cancel n h, h]

theorem roundQuotient_near (num : Nat) {den : Nat} (h : 0 < den) :
    2 * num ≤ (2 * roundQuotient num den + 1) * den ∧
      (2 * roundQuotient num den) * den ≤ 2 * num + den := by
  have hd : den * (num / den) + num % den = num := Nat.div_add_mod num den
  have hr : num % den < den := Nat.mod_lt _ h
  have hp : num / den % 2 = 0 ∨ num / den % 2 = 1 := by omega
  have e (k : Nat) : (num / den + k) * den = den * (num / den) + k * den := by
    rw [Nat.add_mul, Nat.mul_comm (num / den)]
  have f (k : Nat) : (2 * k + 1) * den = 2 * (k * den) + den := by
    rw [Nat.add_mul, Nat.mul_assoc, Nat.one_mul]
  have g (k : Nat) : 2 * k * den = 2 * (k * den) := Nat.mul_assoc 2 k den
  have e0 := e 0
  have e1 := e 1
  simp only [Nat.add_zero, Nat.zero_mul, Nat.one_mul] at e0 e1
  unfold roundQuotient
  dsimp only
  rw [f, g]
  split
  · omega
  · split
    · omega
    · rcases hp with hp | hp <;> rw [hp]
      · rw [Nat.add_zero]; omega
      · omega

/-- The magnitude `significand * 2 ^ exponent`. -/
structure Dyadic where
  significand : Nat
  exponent : Int
  deriving Repr, DecidableEq

def Dyadic.ofDouble (x : Float) : Dyadic := ⟨Binary64.significand x, Binary64.exponent x⟩

def Dyadic.num (d : Dyadic) : Nat := d.significand * twoTo d.exponent.toNat

def Dyadic.den (d : Dyadic) : Nat := twoTo (-d.exponent).toNat

def digits (n : Nat) : List Char := Nat.toDigits 10 n

/-- More places than the smallest double needs before its first digit. -/
def guardPlaces : Nat := 400

def magnitude (num den : Nat) : Int :=
  (digits (num * tenTo guardPlaces / den)).length - 1 - guardPlaces

def scaled (num den : Nat) (k : Int) : Nat × Nat := (num * tenTo (-k).toNat, den * tenTo k.toNat)

/-- The number `coefficient * 10 ^ exponent`. -/
structure Digits where
  coefficient : Nat
  exponent : Int
  deriving Repr, DecidableEq

def significant (count : Nat) (num den : Nat) : Digits :=
  let k := magnitude num den - (count - 1 : Nat)
  let (n, d) := scaled num den k
  let c := roundQuotient n d
  if c = tenTo count then ⟨c / 10, k + 1⟩ else ⟨c, k⟩

end MapInference.Decimal
