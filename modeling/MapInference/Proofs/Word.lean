import Mathlib.Algebra.BigOperators.Group.List.Basic
import Mathlib.Algebra.BigOperators.Ring.List
import Mathlib.Algebra.Order.BigOperators.Group.List
import Mathlib.Tactic.Linarith
import MapInference.Graph.Spec

/-!
# Arithmetic of machine words

Sizes are computed with machine words. A product of sizes is the true one as long as the products
before it are words, and the number of intervals of a sequence can be computed when the number of
its positions is below the square root of the limit. Sums of numbers that have been saturated are
exact below the limit.
-/

namespace MapInference

namespace Word

theorem limit_pos : 0 < limit := twoTo_pos 64

theorem saturate_zero : saturate 0 = 0 := saturate_of_lt limit_pos

theorem saturate_cases (n : ℕ) :
    saturate n = n ∧ n < limit ∨ saturate n = limit - 1 ∧ limit ≤ n := by
  unfold saturate
  split_ifs with h
  · exact Or.inl ⟨rfl, h⟩
  · exact Or.inr ⟨rfl, not_lt.mp h⟩

theorem checked_eq_some_iff {n m : ℕ} : checked n = some m ↔ n = m ∧ m < limit := by
  unfold checked
  split_ifs with h
  · rw [Option.some.injEq]
    exact ⟨fun hm => ⟨hm, hm ▸ h⟩, And.left⟩
  · simp only [false_iff, not_and]
    rintro rfl
    exact h

theorem eq_of_foldlM_checked {ns : List ℕ} {a m : ℕ}
    (h : ns.foldlM (fun product n => checked (product * n)) a = some m) : m = a * ns.prod := by
  induction ns generalizing a with
  | nil => simpa using h.symm
  | cons n ns ih =>
    rw [List.foldlM_cons] at h
    obtain ⟨b, hb, h⟩ := Option.bind_eq_some_iff.mp h
    rw [List.prod_cons, ← mul_assoc, (checked_eq_some_iff.mp hb).1]
    exact ih h

theorem eq_prod_of_product? {ns : List ℕ} {m : ℕ} (h : product? ns = some m) : m = ns.prod :=
  (eq_of_foldlM_checked h).trans (one_mul _)

theorem foldlM_checked_eq_some {ns : List ℕ} (hpos : ∀ n ∈ ns, 0 < n) {a : ℕ}
    (h : a * ns.prod < limit) :
    ns.foldlM (fun product n => checked (product * n)) a = some (a * ns.prod) := by
  induction ns generalizing a with
  | nil => simp
  | cons n ns ih =>
    obtain ⟨hn, hns⟩ := List.forall_mem_cons.mp hpos
    rw [List.prod_cons, ← mul_assoc] at h ⊢
    -- no factor is zero, so the products grow
    have hprod : 0 < ns.prod := Nat.pos_of_ne_zero (List.prod_ne_zero fun h => (hns 0 h).ne' rfl)
    have hle : a * n ≤ a * n * ns.prod := Nat.le_mul_of_pos_right _ hprod
    rw [List.foldlM_cons, checked_eq_some_iff.mpr ⟨rfl, hle.trans_lt h⟩]
    exact ih hns h

theorem product?_eq_some {ns : List ℕ} (hpos : ∀ n ∈ ns, 0 < n) (h : ns.prod < limit) :
    product? ns = some ns.prod := by
  have := foldlM_checked_eq_some hpos ((one_mul ns.prod).symm ▸ h)
  rwa [one_mul] at this

/-- A sum of saturated numbers is exact, unless it has as good as reached the limit. -/
theorem sum_map_saturate_cases (ns : List ℕ) :
    (ns.map saturate).sum = ns.sum ∨ limit ≤ ns.sum ∧ limit - 1 ≤ (ns.map saturate).sum := by
  induction ns with
  | nil => exact Or.inl rfl
  | cons n ns ih =>
    simp only [List.map_cons, List.sum_cons]
    rcases saturate_cases n with hn | hn <;> omega

/-- A single number fits whatever its size, since it is saturated; two do not when their sum does
not. -/
theorem limit_le_sum_map_saturate_iff (ns : List ℕ) :
    limit ≤ (ns.map saturate).sum ↔ limit ≤ ns.sum ∧ 2 ≤ ns.countP (0 < ·) := by
  have hlimit : 1 < limit := by decide
  induction ns with
  | nil => simp [limit_pos.ne']
  | cons n ns ih =>
    have hcount : ns.countP (0 < ·) = 0 ↔ ns.sum = 0 := by
      simp [List.countP_eq_zero, List.sum_eq_zero_iff]
    have hcases := sum_map_saturate_cases ns
    simp only [List.map_cons, List.sum_cons, List.countP_cons, decide_eq_true_eq]
    rcases saturate_cases n with hn | hn <;> split_ifs <;> omega

theorem sum_map_saturate_le_iff {ns : List ℕ} (h : (ns.map saturate).sum < limit) (bound : ℕ) :
    (ns.map saturate).sum ≤ saturate bound ↔ ns.sum ≤ bound ∨ limit ≤ bound + 1 := by
  rcases sum_map_saturate_cases ns with hns | hns <;>
    rcases saturate_cases bound with hbound | hbound <;> omega

end Word

namespace FactorSpec

/-- The product overflows if and only if the number of positions does not fit into half a word. -/
theorem wordIntervals?_eq (length : ℕ) :
    wordIntervals? length =
      if length < twoTo 32 then some (Segmentation.numIntervals length) else none := by
  have hlimit : Word.limit = twoTo 32 * twoTo 32 := by decide
  split_ifs with h
  · have hnext : length + 1 < Word.limit := lt_of_le_of_lt h (by decide)
    have hdouble : length * (length + 1) < Word.limit := by rw [hlimit]; nlinarith
    simp [wordIntervals?, Word.checked, hnext, hdouble, Segmentation.numIntervals]
  · have hdouble : ¬ length * (length + 1) < Word.limit := by rw [hlimit]; nlinarith
    unfold wordIntervals? Word.checked
    split_ifs <;> simp [hdouble]

theorem wordTransitions?_eq {length : ℕ} (h : length < twoTo 32) :
    wordTransitions? length = some (Segmentation.numTransitions length) := by
  have hlimit : Word.limit = twoTo 32 * twoTo 32 := by decide
  have hle : length * (length - 1) ≤ length * length :=
    Nat.mul_le_mul_left _ (Nat.sub_le length 1)
  have hdouble : length * (length - 1) < Word.limit := by rw [hlimit]; nlinarith
  simp [wordTransitions?, Word.checked, hdouble, Segmentation.numTransitions]

end FactorSpec
end MapInference
