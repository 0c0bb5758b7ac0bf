import MapInference.Proofs.Extremum
import MapInference.Proofs.Oracle.Indicators
import MapInference.Oracle.Pair

/-!
# The laws of pairs

Every assignment of the two variables is a configuration.
-/

namespace MapInference.Pair

open Scalar
variable {α : Type} [ExactScalar α]

theorem ofAssignment?_eq_some_iff {values : List Bool} {c : Bool × Bool} (h : values.length = 2) :
    ofAssignment? values = some c ↔ trueVariables c = Oracle.trueIndices values := by
  obtain ⟨first, second, rfl⟩ := List.length_eq_two.mp h
  obtain ⟨c, d⟩ := c
  cases first <;> cases second <;> cases c <;> cases d <;> decide

theorem score_eq (scores additional : List α) (c : Bool × Bool) :
    score scores additional c =
      Oracle.scoreAt (trueVariables c) scores + score (zeros 2) additional c := by
  obtain ⟨first, second⟩ := c
  cases first <;> cases second <;> simp [score, trueVariables, coordinate, zeros]

theorem exists_maximize (scores additional : List α) :
    ∃ c, (oracle.maximize scores additional : (Bool × Bool) × α) =
        (c, score scores additional c) ∧
      ∀ d, score scores additional d ≤ score scores additional c := by
  have hne : configurations ≠ [] := by simp [configurations]
  obtain ⟨c, _, hc, hmax⟩ := Extremum.exists_firstBest? (score scores additional) hne
  exact ⟨c, by simp [oracle, hc], fun d => hmax d (mem_configurations d)⟩

theorem lawful : (oracle : Oracle α (Bool × Bool)).Lawful fun _ => True where
  pairwise_trueVariables {c} _ := by
    obtain ⟨first, second⟩ := c
    cases first <;> cases second <;> simp [oracle, trueVariables]
  trueVariables_lt {c} _ := by
    obtain ⟨first, second⟩ := c
    cases first <;> cases second <;> simp [oracle, trueVariables]
  ofAssignment?_eq_some_iff h := by
    rw [true_and]
    exact ofAssignment?_eq_some_iff h
  score_eq _ := score_eq _ _ _
  score_zeros _ := by simp [oracle, score]
  isConfiguration_maximize _ _ := trivial
  maximize_value {scores additional} _ _ := by
    obtain ⟨c, hc, _⟩ := exists_maximize scores additional
    rw [hc]
    rfl
  score_le {scores additional d} _ _ _ := by
    obtain ⟨c, hc, hmax⟩ := exists_maximize scores additional
    rw [hc]
    exact hmax d

theorem hasTrueIndices :
    (oracle : Oracle α (Bool × Bool)).HasTrueIndices (fun _ => True) trueAdditionals where
  toLawful := lawful
  accumulate_eq _ _ _ := rfl
  nodup_trueAdditionals {c} _ := by
    unfold trueAdditionals
    split_ifs <;> simp
  trueAdditionals_lt {c} _ i hi := by
    unfold trueAdditionals at hi
    split_ifs at hi
    · rw [List.mem_singleton.mp hi]
      exact Nat.one_pos
    · exact absurd hi List.not_mem_nil
  score_zeros_eq {additional c} _ := by
    obtain ⟨first, second⟩ := c
    cases first <;> cases second <;> simp [oracle, score, trueAdditionals]
  common_eq {c d} _ _ := by
    obtain ⟨first, second⟩ := c
    obtain ⟨first', second'⟩ := d
    cases first <;> cases second <;> cases first' <;> cases second' <;> rfl

end MapInference.Pair
