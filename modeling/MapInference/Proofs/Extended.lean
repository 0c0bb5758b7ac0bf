import MapInference.Proofs.Exact

/-!
# Bounds

What the bounds of the solver say about a value. Minus infinity covers no value and plus infinity
covers all of them.
-/

namespace MapInference.Extended

open Scalar

def Covers {α : Type} [LE α] (b : Extended α) (v : α) : Prop :=
  match b with
  | bottom => False
  | value x => v ≤ x
  | top => True

variable {α : Type} [ExactScalar α] {a b : Extended α} {v x : α}

@[simp] theorem not_covers_bottom : ¬ (bottom : Extended α).Covers v := id

@[simp] theorem covers_value : (value x).Covers v ↔ v ≤ x := Iff.rfl

@[simp] theorem covers_top : (top : Extended α).Covers v := trivial

@[simp] theorem covers_min : (min a b).Covers v ↔ a.Covers v ∧ b.Covers v := by
  cases a <;> cases b <;> simp [min]

@[simp] theorem covers_max : (max a b).Covers v ↔ a.Covers v ∨ b.Covers v := by
  cases a <;> cases b <;> simp [max]

theorem Covers.mono {u : α} (h : b.Covers v) (huv : u ≤ v) : b.Covers u := by
  cases b with
  | bottom => exact h
  | value x => exact huv.trans h
  | top => trivial

theorem Covers.le_of_atMost (h : b.Covers v) (hx : b.atMost x) : v ≤ x := by
  cases b with
  | bottom => exact absurd h not_covers_bottom
  | value y => exact le_trans h (by simpa [atMost] using hx)
  | top => simp [atMost] at hx

/-- The smaller of a bound and a scalar is a scalar, unless the bound is minus infinity. -/
theorem exists_min_value_eq (h : b ≠ .bottom) (x : α) : ∃ y, min b (.value x) = .value y := by
  cases b with
  | bottom => exact absurd rfl h
  | value y => exact ⟨_, rfl⟩
  | top => exact ⟨x, by simp [min]⟩

end MapInference.Extended
