import MapInference.Proofs.Projection.CappedSimplex
import MapInference.Proofs.Projection.Threshold

/-!
# Closest points

The squared distance of two points is the sum of how fast each of them, moving towards the other,
approaches a target. When neither move approaches the target, the points are equal: there is only
one nearest point, and every other point of the set is farther from the target. So the projections
onto the capped simplex and its two sides find the closest points, and the thresholds of the
probability simplex and the sweep over the breakpoints lead to the same one.
-/

namespace MapInference.Projection

open Scalar
variable {α : Type} [ExactScalar α]

section Distance

variable {n : ℕ} {x y : ℕ → α}

theorem eq_of_distanceSq_nonpos (h : distanceSq n x y ≤ 0) {i : ℕ} (hi : i < n) : x i = y i := by
  have hzero := (Finset.sum_eq_zero_iff_of_nonneg fun i _ => sq_nonneg (x i - y i)).mp
    (le_antisymm h (distanceSq_nonneg n x y)) i (Finset.mem_range.mpr hi)
  exact sub_eq_zero.mp (pow_eq_zero_iff two_ne_zero |>.mp hzero)

theorem distanceSq_target (n : ℕ) (target point x : ℕ → α) :
    distanceSq n target x =
      distanceSq n target point + distanceSq n point x - 2 * approach n target point x := by
  unfold distanceSq approach
  rw [Finset.mul_sum, ← Finset.sum_add_distrib, ← Finset.sum_sub_distrib]
  apply Finset.sum_congr rfl
  intro i _
  ring

end Distance

section Nearest

variable {n : ℕ} {K : Set (ℕ → α)} {target point other : ℕ → α}

theorem IsNearest.eq_of_lt (h : IsNearest n K target point) (h' : IsNearest n K target other)
    (hpoint : point ∈ K) (hother : other ∈ K) {i : ℕ} (hi : i < n) : point i = other i := by
  apply eq_of_distanceSq_nonpos _ hi
  rw [distanceSq_eq_approach_add_approach n target]
  exact add_nonpos (h other hother) (h' point hpoint)

/-- All other points of the set are farther from the target, by their distance to the nearest. -/
theorem IsNearest.add_distanceSq_le (h : IsNearest n K target point) {x : ℕ → α} (hx : x ∈ K) :
    distanceSq n target point + distanceSq n point x ≤ distanceSq n target x := by
  have happroach := h x hx
  rw [distanceSq_target n target point x]
  linarith

end Nearest

/-- The only point of a set that is closest to a target: no direction into the set approaches the
target, and every other point of the set is at a larger distance. -/
structure IsClosest (K : Set (ℕ → α)) (target point : List α) : Prop where
  length_eq : point.length = target.length
  mem : coordinate point ∈ K
  approach_nonpos : ∀ x ∈ K,
    ∑ i ∈ Finset.range target.length,
      (coordinate target i - coordinate point i) * (x i - coordinate point i) ≤ 0
  distanceSq_lt : ∀ x ∈ K, x ≠ coordinate point →
    distanceSq target.length (coordinate target) (coordinate point) <
      distanceSq target.length (coordinate target) x

/-- Within the box, where the coordinates that do not count are zero, a nearest point is the closest
one. -/
theorem IsNearest.isClosest {K : Set (ℕ → α)} {target point : List α}
    (hlen : point.length = target.length) (hK : K ⊆ unitBox target.length)
    (hmem : coordinate point ∈ K)
    (h : IsNearest target.length K (coordinate target) (coordinate point)) :
    IsClosest K target point := by
  refine ⟨hlen, hmem, h, fun x hx hne => ?_⟩
  have hle := h.add_distanceSq_le hx
  have hpos : 0 < distanceSq target.length (coordinate point) x := by
    by_contra! hnonpos
    apply hne
    funext i
    by_cases hi : i < target.length
    · exact (eq_of_distanceSq_nonpos hnonpos hi).symm
    · rw [(hK hx).2 i (not_lt.mp hi), (hK hmem).2 i (not_lt.mp hi)]
  linarith

/-- The points of the unit box whose sum is one of the given ones. -/
def boxWithSum (n : ℕ) (sums : Set α) : Set (ℕ → α) :=
  {x | x ∈ unitBox n ∧ ∑ i ∈ Finset.range n, x i ∈ sums}

/-- Of the bounds on a sum, those that every sum of a point of the box keeps can be left out. -/
theorem sumBox_eq_boxWithSum {n : ℕ} {lower upper : α} {sums : Set α}
    (h : ∀ sum : α, 0 ≤ sum → sum ≤ n → (lower ≤ sum ∧ sum ≤ upper ↔ sum ∈ sums)) :
    sumBox n lower upper = boxWithSum n sums := by
  ext x
  apply and_congr_right
  intro hx
  exact h _ (sum_nonneg_of_mem_unitBox hx) (sum_le_of_mem_unitBox hx)

theorem isClosest_of_isNearest_sumBox {lower upper : α} {sums : Set α} {target point : List α}
    (hlen : point.length = target.length)
    (hsums : ∀ sum : α, 0 ≤ sum → sum ≤ target.length → (lower ≤ sum ∧ sum ≤ upper ↔ sum ∈ sums))
    (h : coordinate point ∈ sumBox target.length lower upper ∧
      IsNearest target.length (sumBox target.length lower upper) (coordinate target)
        (coordinate point)) :
    IsClosest (boxWithSum target.length sums) target point := by
  rw [sumBox_eq_boxWithSum hsums] at h
  exact h.2.isClosest hlen (fun _ hx => hx.1) h.1

/-- The three projections find the closest points: of the box with a given sum, with a sum of at
most a budget, and with a sum of at least one. -/
theorem isClosest_projections {target : List α} (hne : target ≠ []) :
    (∀ goal : α, 0 ≤ goal → goal ≤ target.length →
      IsClosest (boxWithSum target.length {goal}) target (cappedSimplex goal target)) ∧
    (∀ budget : α, 0 ≤ budget → ∃ point, budgetPolytopeChecked budget target = .ok point ∧
      IsClosest (boxWithSum target.length (Set.Iic budget)) target point) ∧
    IsClosest (boxWithSum target.length (Set.Ici 1)) target (coveringPolytope target) := by
  refine ⟨?capped, ?budget, ?covering⟩
  case capped =>
    intro goal h₀ h₁
    apply isClosest_of_isNearest_sumBox (length_cappedSimplex goal target) _
      (isNearest_cappedSimplex h₀ h₁)
    intro sum _ _
    rw [Set.mem_singleton_iff, le_antisymm_iff, and_comm]
  case budget =>
    intro budget h
    refine ⟨budgetPolytope budget target, if_pos h, ?_⟩
    apply isClosest_of_isNearest_sumBox (length_budgetPolytope budget target) _
      (isNearest_budgetPolytope h target)
    intro sum hsum _
    exact and_iff_right hsum
  case covering =>
    apply isClosest_of_isNearest_sumBox (length_coveringPolytope target) _
      (isNearest_coveringPolytope hne)
    intro sum _ hsum
    exact and_iff_left hsum

/-- With a sum of two, the largest of five coordinates is cut at one and the smallest at zero. -/
theorem isClosest_projections_fiveCoordinates :
    let target : List ℚ := [9 / 10, 7 / 10, 2 / 5, -3 / 10, 8 / 5]
    target ≠ [] ∧
      cappedSimplex 2 target = [17 / 30, 11 / 30, 1 / 15, 0, 1] ∧
      IsClosest (boxWithSum 5 {2}) target (cappedSimplex 2 target) ∧
      (∃ point, budgetPolytopeChecked 2 target = .ok point ∧
        IsClosest (boxWithSum 5 (Set.Iic 2)) target point) ∧
      IsClosest (boxWithSum 5 (Set.Ici 1)) target (coveringPolytope target) := by
  intro target
  have hne : target ≠ [] := List.cons_ne_nil _ _
  have hlength : (2 : ℚ) ≤ target.length := by norm_num [target]
  obtain ⟨hcapped, hbudget, hcovering⟩ := isClosest_projections hne
  exact ⟨hne, by decide +kernel, hcapped 2 zero_le_two hlength, hbudget 2 zero_le_two, hcovering⟩

/-- The threshold from the prefix sums and the sweep over the breakpoints lead to the same
projection. -/
theorem simplex_eq_cappedSimplex {target : List α} (hne : target ≠ []) :
    simplex target = cappedSimplex 1 target := by
  have hone : (1 : α) ≤ target.length := by
    exact_mod_cast List.length_pos_iff.mpr hne
  obtain ⟨hmem, hnearest⟩ := isNearest_simplex hne
  obtain ⟨hmem', hnearest'⟩ := isNearest_cappedSimplex zero_le_one hone
  apply eq_of_coordinate
  · rw [length_simplex, length_cappedSimplex]
  · intro i hi
    rw [length_simplex] at hi
    exact hnearest.eq_of_lt hnearest' hmem hmem' hi

theorem simplex_eq_cappedSimplex_fourCoordinates :
    let target : List ℚ := [3 / 10, 9 / 10, -1 / 5, 2 / 5]
    target ≠ [] ∧ simplex target = [1 / 10, 7 / 10, 0, 1 / 5] ∧
      simplex target = cappedSimplex 1 target := by
  intro target
  have hne : target ≠ [] := List.cons_ne_nil _ _
  exact ⟨hne, by decide +kernel, simplex_eq_cappedSimplex hne⟩

end MapInference.Projection
