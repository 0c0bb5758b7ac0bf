import MapInference.Proofs.ActiveSet.WarmStart
import MapInference.Proofs.Factor.Projection
import MapInference.Proofs.Oracle.Vertices

/-!
# Programs with closed forms

Where the assignments that an oracle has configurations for are those with a sum between two
integers, the polytope of the oracle is a slice of the unit box, and a projection in closed form
finds its point that is nearest to a target. A solution that has converged is close to this point,
since the projection is optimal without any tolerance. This holds of a matching of a single row,
which is a choice of one column, and of knapsacks with unit costs.
-/

namespace MapInference

open Scalar Projection
variable {α C : Type} [ExactScalar α] {o : Oracle α C} {IsConfiguration : C → Prop}
  {trueAdditionals : C → List ℕ}

namespace Oracle

def feasible (o : Oracle α C) : Set (ℕ → α) :=
  satisfying o.numVariables fun values => (o.ofAssignment? values).isSome

theorem HasTrueIndices.fst_corner (ho : o.HasTrueIndices IsConfiguration trueAdditionals) {c : C}
    (hc : IsConfiguration c) : (o.corner c).1 = ofValues (o.vertex c) := by
  rw [corner, ho.indicator_eq, indicatorAt_eq_numbers (ho.nodup_trueVariables hc)]
  rfl

theorem HasTrueIndices.image_fst_corner (ho : o.HasTrueIndices IsConfiguration trueAdditionals) :
    Prod.fst '' (o.corner '' {c | IsConfiguration c}) = o.feasible := by
  ext x
  constructor
  · rintro ⟨_, ⟨c, hc, rfl⟩, rfl⟩
    refine ⟨o.vertex c, length_assignmentOf _ _, ?_, ho.fst_corner hc⟩
    exact Option.isSome_iff_exists.mpr ⟨c, ho.ofAssignment?_assignmentOf hc⟩
  · rintro ⟨values, hlen, hsome, rfl⟩
    obtain ⟨c, hof⟩ := Option.isSome_iff_exists.mp hsome
    obtain ⟨hc, htrue⟩ := (ho.ofAssignment?_eq_some_iff hlen).mp hof
    refine ⟨_, ⟨c, hc, rfl⟩, ?_⟩
    rw [ho.fst_corner hc, vertex, htrue, ← hlen, assignmentOf_trueIndices]

theorem HasTrueIndices.image_fst_polytope (ho : o.HasTrueIndices IsConfiguration trueAdditionals) :
    Prod.fst '' o.polytope IsConfiguration = convexHull α o.feasible := by
  rw [polytope, ← ho.image_fst_corner]
  exact (LinearMap.fst α (ℕ → α) (ℕ → α)).image_convexHull _

end Oracle

namespace QuadraticProgram

variable {target point : List α}

theorem growth_nonpos_of_isProjection (ho : o.HasTrueIndices IsConfiguration trueAdditionals)
    (h : IsProjection target.length o.feasible (convexHull α o.feasible) target point)
    {x : Marginals α} (hx : x.1 = coordinate point) :
    ∀ z ∈ o.polytope IsConfiguration, growth target [] x z ≤ 0 := by
  intro z hz
  apply growth_le_of_corners _ hz
  intro c hc
  have hcorner : (o.corner c).1 ∈ o.feasible := by
    rw [← ho.image_fst_corner]
    exact ⟨_, ⟨c, hc, rfl⟩, rfl⟩
  change approach target.length (coordinate target) x.1 (o.corner c).1 + _ ≤ 0
  rw [hx, List.length_nil, Finset.sum_range_zero, add_zero]
  exact h.nearest _ hcorner

variable [DecidableEq C]

/-- Programs without additional variables are solved near a point: whatever calls came before, the
program has a solution, and the squared distance of the posteriors of a solution that has converged
to the point is within a tolerance for the number of active configurations. -/
def SolvesNear (o : Oracle α C) (target point : List α) (tolerance : ℕ → α) : Prop :=
  ∀ s met last, Calls o s met last →
    solveChecked o target [] s = .ok (solve o target [] directLimit s) ∧
    ∀ limit, (solve o target [] limit s).Converged →
      ∑ i ∈ Finset.range target.length,
          (coordinate ((solve o target [] limit s).solution o).marginals i -
            coordinate point i) ^ 2 ≤
        tolerance (solve o target [] limit s).activeSet.configurations.length

theorem solvesNear_of_isProjection (ho : o.HasTrueIndices IsConfiguration trueAdditionals)
    (ht : target.length = o.numVariables) (ha : o.numAdditionals = 0)
    (h : IsProjection target.length o.feasible (convexHull α o.feasible) target point) :
    SolvesNear o target point fun k => 1 / 10 ^ 9 + 4 / 10 ^ 12 * target.length * k := by
  have hnil : ([] : List α).length = o.numAdditionals := ha.symm
  intro s met last hcalls
  refine ⟨solveChecked_eq_solve ht hnil s, ?_⟩
  intro limit hconverged
  obtain ⟨hmem, hgrowth⟩ := hcalls.growth_solve_le ho ht hnil limit hconverged
  have hpoint := h.mem
  rw [← ho.image_fst_polytope] at hpoint
  obtain ⟨x, hx, hfst⟩ := hpoint
  have hdistance := distanceSq_le_of_growth_le hmem hx hgrowth
    (growth_nonpos_of_isProjection ho h hfst)
  rw [add_zero, hfst] at hdistance
  exact hdistance

theorem solvesNear_of_sumBox (ho : o.HasTrueIndices IsConfiguration trueAdditionals)
    (ht : target.length = o.numVariables) (ha : o.numAdditionals = 0) (lower upper : ℕ)
    (hfeasible : ∀ values, values.length = target.length →
      ((o.ofAssignment? values).isSome ↔ lower ≤ values.count true ∧ values.count true ≤ upper))
    (hlen : point.length = target.length)
    (h : coordinate point ∈ sumBox target.length (lower : α) upper ∧
      IsNearest target.length (sumBox target.length (lower : α) upper) (coordinate target)
        (coordinate point)) :
    SolvesNear o target point fun k => 1 / 10 ^ 9 + 4 / 10 ^ 12 * target.length * k := by
  apply solvesNear_of_isProjection ho ht ha
  rw [Oracle.feasible, ← ht]
  exact IsProjection.of_sumBox lower upper hlen hfeasible h

end QuadraticProgram

theorem Matching.isSome_ofAssignment?_singleRow {values : List Bool} (h : values ≠ []) :
    (ofAssignment? 1 values.length values).isSome ↔ values.count true = 1 := by
  have hpos : 1 ≤ values.length := List.length_pos_iff.mpr h
  have hof (columns : List (Option ℕ)) : ofAssignment? 1 values.length values = some columns ↔
      IsMatching 1 values.length columns ∧
        trueVariables values.length columns = Oracle.trueIndices values :=
    ofAssignment?_eq_some_iff (Nat.one_mul values.length).symm
  rw [← Oracle.length_trueIndices, List.length_eq_one_iff, Option.isSome_iff_exists]
  constructor
  · rintro ⟨columns, hcolumns⟩
    obtain ⟨hmatching, htrue⟩ := (hof columns).mp hcolumns
    obtain ⟨column, rfl, _⟩ := (isMatching_iff_of_le hpos).mp hmatching
    exact ⟨column 0, by simpa [trueVariables, pairIndex] using htrue.symm⟩
  · rintro ⟨column, htrue⟩
    have hmem : column ∈ Oracle.trueIndices values := by
      rw [htrue]
      exact List.mem_singleton_self column
    have hlt : column < values.length :=
      (List.getElem?_eq_some_iff.mp (Oracle.mem_trueIndices.mp hmem)).1
    have hmatching : IsMatching 1 values.length [some column] :=
      (isMatching_iff_of_le hpos).mpr ⟨fun _ => column, rfl, fun _ _ => hlt, by simp⟩
    exact ⟨_, (hof _).mpr ⟨hmatching, by simp [trueVariables, pairIndex, htrue]⟩⟩

theorem Knapsack.selectedCost_replicate_one (values : List Bool) :
    selectedCost (List.replicate values.length 1) values = values.count true := by
  induction values with
  | nil => rfl
  | cons value values ih =>
    unfold selectedCost at ih ⊢
    rw [List.length_cons, List.replicate_succ, List.zipWith_cons_cons, List.sum_cons, ih,
      List.count_cons, Nat.add_comm]
    cases value <;> rfl

namespace QuadraticProgram

/-- The active-set method agrees with the closed forms: with the projection onto the probability
simplex for a matching of a single row, and with the projection onto the points within a budget for
a knapsack with unit costs. -/
theorem solvesNear_closedForms {target : List α} (hne : target ≠ []) :
    let tolerance : ℕ → α := fun k => 1 / 10 ^ 9 + 4 / 10 ^ 12 * target.length * k
    SolvesNear (Matching.oracle 1 target.length) target (simplex target) tolerance ∧
      ∀ capacity : ℕ, ∃ point, budgetPolytopeChecked (capacity : α) target = .ok point ∧
        SolvesNear (Knapsack.oracle (List.replicate target.length 1) capacity) target point
          tolerance := by
  intro tolerance
  constructor
  case left =>
    apply solvesNear_of_sumBox (Matching.hasTrueIndices 1 target.length)
      (Nat.one_mul target.length).symm rfl 1 1 _ (length_simplex target)
    · rw [Nat.cast_one]
      exact isNearest_simplex hne
    · intro values hlen
      have hvalues : values ≠ [] := by
        rintro rfl
        exact hne (List.length_eq_zero_iff.mp hlen.symm)
      rw [and_comm, ← le_antisymm_iff, ← hlen]
      exact Matching.isSome_ofAssignment?_singleRow hvalues
  case right =>
    intro capacity
    have hbudget : (0 : α) ≤ capacity := Nat.cast_nonneg capacity
    refine ⟨budgetPolytope capacity target, if_pos hbudget, ?_⟩
    apply solvesNear_of_sumBox (Knapsack.hasTrueIndices _ capacity) List.length_replicate.symm rfl
      0 capacity _ (length_budgetPolytope _ target)
    · rw [Nat.cast_zero]
      exact isNearest_budgetPolytope hbudget target
    · intro values hlen
      have hvalues : values.length = (List.replicate target.length 1).length := by
        rw [hlen, List.length_replicate]
      rw [and_iff_right (Nat.zero_le _), ← Knapsack.selectedCost_replicate_one, hlen]
      exact Knapsack.isSome_ofAssignment?_iff capacity hvalues

/-- Five columns for one row, and two of five items, each with an active set that is left from
another target. -/
theorem solvesNear_closedForms_fiveCoordinates :
    let target : List ℚ := [9 / 10, 7 / 10, 2 / 5, -3 / 10, 8 / 5]
    let row : Oracle ℚ (List (Option ℕ)) := Matching.oracle 1 5
    let items : Oracle ℚ (List ℕ) := Knapsack.oracle (List.replicate 5 1) 2
    let assigned := solve row target [] 10 (solve row [1 / 2, 0, 1 / 2, 0, 0] [] 10 {}).activeSet
    let selected := solve items target [] 10 (solve items [0, 0, 1 / 2, 1, 0] [] 10 {}).activeSet
    target ≠ [] ∧
      ∑ i ∈ Finset.range 5, (coordinate (assigned.solution row).marginals i -
          coordinate (simplex target) i) ^ 2 ≤
        1 / 10 ^ 9 + 4 / 10 ^ 12 * (5 : ℕ) * assigned.activeSet.configurations.length ∧
      ∃ point, budgetPolytopeChecked ((2 : ℕ) : ℚ) target = .ok point ∧
        ∑ i ∈ Finset.range 5, (coordinate (selected.solution items).marginals i -
            coordinate point i) ^ 2 ≤
          1 / 10 ^ 9 + 4 / 10 ^ 12 * (5 : ℕ) * selected.activeSet.configurations.length := by
  intro target row items assigned selected
  have hne : target ≠ [] := List.cons_ne_nil _ _
  obtain ⟨hsimplex, hbudget⟩ := solvesNear_closedForms hne
  obtain ⟨point, hpoint, hbudget⟩ := hbudget 2
  have hassigned : assigned.stop = .optimal := by decide +kernel
  have hselected : selected.stop = .optimal := by decide +kernel
  refine ⟨hne, ?_, point, hpoint, ?_⟩
  · exact (hsimplex _ _ _ (Calls.start.project 10 rfl rfl)).2 10 (Or.inl hassigned)
  · exact (hbudget _ _ _ (Calls.start.project 10 rfl rfl)).2 10 (Or.inl hselected)

end QuadraticProgram
end MapInference
