import MapInference.Proofs.Factor
import MapInference.Relaxation

/-!
# Lengths of projections

A projection has a coordinate for every literal and for every additional variable, so that every
literal keeps its multiplier through the rounds of a relaxation.
-/

namespace MapInference.Worker

open Scalar
variable {α : Type} [ExactScalar α]

def IsAligned (w : Worker α) : Prop := w.multipliers.length = w.factor.literals.length

variable {w : Worker α}

theorem isAligned_start (f : Factor α) : (start f).IsAligned := by
  simp [IsAligned, start]

theorem length_posteriors_project (h : w.IsAligned) (consensus logPotentials : List α)
    (degrees : List ℕ) (stepSize : α) (limit : ℕ) :
    (w.project consensus logPotentials degrees stepSize limit).posteriors.length =
      w.factor.literals.length := by
  unfold IsAligned at h
  simp [project, target, h]

theorem length_additionalPosteriors_project (w : Worker α) (consensus logPotentials : List α)
    (degrees : List ℕ) (stepSize : α) (limit : ℕ) :
    (w.project consensus logPotentials degrees stepSize limit).additionalPosteriors.length =
      w.factor.numAdditionals := by
  simp [project, Factor.numAdditionals]

theorem isAligned_price_project (h : w.IsAligned)
    (consensus averaged logPotentials : List α) (degrees : List ℕ) (stepSize : α) (limit : ℕ) :
    ((w.project consensus logPotentials degrees stepSize limit).price averaged
      stepSize).IsAligned := by
  have hposteriors := length_posteriors_project h consensus logPotentials degrees stepSize limit
  have hmultipliers :
      (w.project consensus logPotentials degrees stepSize limit).multipliers.length =
        w.factor.literals.length := h
  simp [IsAligned, price, disagreements, hposteriors, hmultipliers]

end MapInference.Worker
