import MapInference.Proofs.Assignment.Search

/-!
# Tight matchings

The potentials of a tight matching bound every cost of the rows that it has matched from below, and
meet the costs of the matched pairs. No potential of a column is positive, and only matched columns
have a potential. A tight matching of all rows therefore has the least total cost. A path of tight
pairs from a new row to a free column turns a tight matching into one with the new row.
-/

namespace MapInference.Assignment.Matching

open Scalar
variable {α : Type} [ExactScalar α] {cost : ℕ → ℕ → α} {numRows numColumns r bounded : ℕ}
  {m : Matching α}

/-- A placement of the rows below `r` with potentials that bound the costs of the rows below
`bounded`. -/
structure IsTight (cost : ℕ → ℕ → α) (numRows numColumns r bounded : ℕ) (m : Matching α) : Prop
    extends m.IsPlaced numColumns r where
  length_rowPotentials : m.rowPotentials.length = numRows
  length_columnPotentials : m.columnPotentials.length = numColumns
  reduced_nonneg {i c : ℕ} : i < bounded → c < numColumns → 0 ≤ reduced cost m i c
  reduced_eq_zero {i c : ℕ} : m.row? c = some i → reduced cost m i c = 0
  column_nonpos {c : ℕ} : c < numColumns → coordinate m.columnPotentials c ≤ 0
  column_eq_zero {c : ℕ} : c < numColumns → m.row? c = none → coordinate m.columnPotentials c = 0

theorem isTight_empty (numRows numColumns : ℕ) :
    IsTight cost numRows numColumns 0 0 (empty numRows numColumns) where
  toIsPlaced := isPlaced_empty numRows numColumns
  length_rowPotentials := by simp [empty]
  length_columnPotentials := by simp [empty]
  reduced_nonneg := by simp
  reduced_eq_zero := by simp [row?_empty]
  column_nonpos {c} _ := (coordinate_zeros numColumns c).le
  column_eq_zero {c} _ _ := coordinate_zeros numColumns c

theorem IsTight.sum_matched_eq (h : IsTight cost numRows numColumns numRows numRows m)
    {column : ℕ → ℕ} (hcolumn : ∀ i < numRows, m.row? (column i) = some i) :
    ∑ i ∈ Finset.range numRows, coordinate m.columnPotentials (column i) =
      ∑ c ∈ Finset.range numColumns, coordinate m.columnPotentials c := by
  rw [← Finset.sum_image (injOn_of_row? hcolumn)]
  apply Finset.sum_subset
  · intro c hc
    obtain ⟨i, hi, rfl⟩ := Finset.mem_image.mp hc
    rw [Finset.mem_range, ← h.length_rowOf]
    exact lt_of_row? (hcolumn i (Finset.mem_range.mp hi))
  · intro c hc hn
    apply h.column_eq_zero (Finset.mem_range.mp hc)
    by_contra hne
    obtain ⟨i, hi⟩ := Option.ne_none_iff_exists'.mp hne
    have hir := h.row_lt hi
    refine hn (Finset.mem_image.mpr ⟨i, Finset.mem_range.mpr hir, ?_⟩)
    exact h.row_inj (hcolumn i hir) hi

theorem IsTight.sum_le_sum_others (h : IsTight cost numRows numColumns r bounded m)
    {other : ℕ → ℕ} (hother : ∀ i < numRows, other i < numColumns)
    (hinj : Set.InjOn other (Finset.range numRows)) :
    ∑ c ∈ Finset.range numColumns, coordinate m.columnPotentials c ≤
      ∑ i ∈ Finset.range numRows, coordinate m.columnPotentials (other i) := by
  have hsub : (Finset.range numRows).image other ⊆ Finset.range numColumns := by
    intro c hc
    obtain ⟨i, hi, rfl⟩ := Finset.mem_image.mp hc
    exact Finset.mem_range.mpr (hother i (Finset.mem_range.mp hi))
  have hrest : ∑ c ∈ Finset.range numColumns \ (Finset.range numRows).image other,
      coordinate m.columnPotentials c ≤ 0 := by
    apply Finset.sum_nonpos
    intro c hc
    exact h.column_nonpos (Finset.mem_range.mp (Finset.mem_sdiff.mp hc).1)
  rw [← Finset.sum_image hinj, ← Finset.sum_sdiff hsub]
  linarith

/-- In a tight matching of all rows, the columns of the rows have the least total cost. -/
theorem IsTight.sum_cost_le (h : IsTight cost numRows numColumns numRows numRows m)
    {column other : ℕ → ℕ} (hcolumn : ∀ i < numRows, m.row? (column i) = some i)
    (hother : ∀ i < numRows, other i < numColumns)
    (hinj : Set.InjOn other (Finset.range numRows)) :
    ∑ i ∈ Finset.range numRows, cost i (column i) ≤
      ∑ i ∈ Finset.range numRows, cost i (other i) := by
  let u := coordinate m.rowPotentials
  let v := coordinate m.columnPotentials
  have htight (i : ℕ) (hi : i ∈ Finset.range numRows) : cost i (column i) = u i + v (column i) := by
    have hz := h.reduced_eq_zero (hcolumn i (Finset.mem_range.mp hi))
    unfold reduced at hz
    linarith
  have hbound (i : ℕ) (hi : i ∈ Finset.range numRows) : u i + v (other i) ≤ cost i (other i) := by
    have hi := Finset.mem_range.mp hi
    have hz := h.reduced_nonneg hi (hother i hi)
    unfold reduced at hz
    linarith
  have hpotentials : ∑ i ∈ Finset.range numRows, v (column i) ≤
      ∑ i ∈ Finset.range numRows, v (other i) :=
    (h.sum_matched_eq hcolumn).trans_le (h.sum_le_sum_others hother hinj)
  calc ∑ i ∈ Finset.range numRows, cost i (column i)
      = ∑ i ∈ Finset.range numRows, u i + ∑ i ∈ Finset.range numRows, v (column i) := by
        rw [Finset.sum_congr rfl htight, Finset.sum_add_distrib]
    _ ≤ ∑ i ∈ Finset.range numRows, u i + ∑ i ∈ Finset.range numRows, v (other i) :=
        add_le_add_right hpotentials _
    _ ≤ ∑ i ∈ Finset.range numRows, cost i (other i) := by
        rw [← Finset.sum_add_distrib]
        exact Finset.sum_le_sum hbound

theorem IsTight.augment {reachedFrom : List (Option ℕ)} {c limit : ℕ} {path : List ℕ}
    (h : m.IsTight cost numRows numColumns r bounded)
    (hpath : IsPath reachedFrom (some c) (c :: path)) (hlimit : (c :: path).length ≤ limit)
    (hlt : ∀ d ∈ c :: path, d < numColumns)
    (htight : ∀ d ∈ c :: path, reduced cost m (m.rowAt r reachedFrom[d]?.join) d = 0)
    (hplaced : (m.augment r reachedFrom limit (some c)).IsPlaced numColumns (r + 1)) :
    (m.augment r reachedFrom limit (some c)).IsTight cost numRows numColumns (r + 1) bounded := by
  have haugment := row?_augment r reachedFrom hpath hlimit (h.length_rowOf ▸ hlt)
  have hrows := rowPotentials_augment r reachedFrom m limit (some c)
  have hcolumns := columnPotentials_augment r reachedFrom m limit (some c)
  have hreduced (i d : ℕ) : reduced cost (m.augment r reachedFrom limit (some c)) i d =
      reduced cost m i d := by
    rw [reduced, reduced, hrows, hcolumns]
  constructor
  case toIsPlaced => exact hplaced
  case length_rowPotentials => rw [hrows, h.length_rowPotentials]
  case length_columnPotentials => rw [hcolumns, h.length_columnPotentials]
  case reduced_nonneg =>
    intro i d hi hd
    rw [hreduced]
    exact h.reduced_nonneg hi hd
  case reduced_eq_zero =>
    intro i d hi
    rw [haugment] at hi
    rw [hreduced]
    split_ifs at hi with hd
    · rw [← Option.some.inj hi]
      exact htight d hd
    · exact h.reduced_eq_zero hi
  case column_nonpos => exact hcolumns ▸ h.column_nonpos
  case column_eq_zero =>
    intro d hd hnone
    rw [haugment] at hnone
    split_ifs at hnone
    rw [hcolumns]
    exact h.column_eq_zero hd hnone

end MapInference.Assignment.Matching
