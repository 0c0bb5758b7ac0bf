import MapInference.Proofs.ActiveSet.Elimination

/-!
# Inversion

An elimination that comes to its end has found an inverse on both sides, so that a singular matrix
has no result. The other way round, every step can be undone: a column with which all rows have the
product zero after a step has it before. So in a regular matrix no column is without a pivot, and
the inverse is found unless a pivot is taken for zero that is not.
-/

namespace MapInference.Matrix

open Scalar
variable {α : Type} [ExactScalar α] {n k : ℕ} {b : ℕ → ℕ → α} {rows rows' : List (List α)}

def toMatrix (n : ℕ) (rows : List (List α)) : Matrix (Fin n) (Fin n) α :=
  .of fun i j => entry rows i j

theorem invert_eq_none_of_det_eq_zero (h : IsSquare n rows) (hsingular : (toMatrix n rows).det = 0) :
    invert rows = none := by
  rw [Option.eq_none_iff_forall_ne_some]
  intro inverse hinvert
  have hdet := congrArg (·.det) (isInverse_invert h hinvert).2.symm.mul_eq_one
  change (toMatrix n rows * toMatrix n inverse).det = (1 : Matrix (Fin n) (Fin n) α).det at hdet
  rw [Matrix.det_mul, hsingular, zero_mul, Matrix.det_one] at hdet
  exact zero_ne_one hdet

/-- What the inversion of a matrix of any dimension returns is an inverse on both sides, and it
returns nothing for a singular matrix. -/
theorem invert_mul_cancel (h : IsSquare n rows) :
    (∀ inverse, invert rows = some inverse → IsSquare n inverse ∧
      toMatrix n rows * toMatrix n inverse = 1 ∧ toMatrix n inverse * toMatrix n rows = 1) ∧
      ((toMatrix n rows).det = 0 → invert rows = none) := by
  refine ⟨fun inverse hinvert => ?_, invert_eq_none_of_det_eq_zero h⟩
  obtain ⟨hsquare, hinverse⟩ := isInverse_invert h hinvert
  exact ⟨hsquare, hinverse.symm.mul_eq_one, hinverse.mul_eq_one⟩

/-- A matrix that needs a swap of rows, and one whose second row is twice the first. -/
theorem invert_mul_cancel_twoRows :
    let swapped : List (List ℚ) := [[0, 2], [1, 1]]
    let inverse : List (List ℚ) := [[-1 / 2, 1], [1 / 2, 0]]
    let singular : List (List ℚ) := [[1, 2], [2, 4]]
    IsSquare 2 swapped ∧ invert swapped = some inverse ∧
      toMatrix 2 swapped * toMatrix 2 inverse = 1 ∧ toMatrix 2 inverse * toMatrix 2 swapped = 1 ∧
      IsSquare 2 singular ∧ (toMatrix 2 singular).det = 0 ∧ invert singular = none := by
  intro swapped inverse singular
  have hswapped : IsSquare 2 swapped := ⟨rfl, by simp [swapped]⟩
  have hsingular : IsSquare 2 singular := ⟨rfl, by simp [singular]⟩
  have hinvert : invert swapped = some inverse := by decide +kernel
  have hdet : (toMatrix 2 singular).det = 0 := by
    rw [Matrix.det_fin_two]
    decide +kernel
  exact ⟨hswapped, hinvert, ((invert_mul_cancel hswapped).1 inverse hinvert).2.1,
    ((invert_mul_cancel hswapped).1 inverse hinvert).2.2, hsingular, hdet,
    (invert_mul_cancel hsingular).2 hdet⟩

def rowProduct (n : ℕ) (row : List α) (v : ℕ → α) : α :=
  ∑ j ∈ Finset.range n, coordinate row j * v j

def Annihilates (n : ℕ) (rows : List (List α)) (v : ℕ → α) : Prop :=
  ∀ row ∈ rows, rowProduct n row v = 0

theorem rowProduct_map_div {row : List α} (h : n ≤ row.length) (pivot : α) (v : ℕ → α) :
    rowProduct n (row.map (· / pivot)) v = rowProduct n row v / pivot := by
  rw [rowProduct, rowProduct, Finset.sum_div]
  refine Finset.sum_congr rfl fun j hj => ?_
  rw [coordinate_map (getElem?_eq_some_coordinate ((Finset.mem_range.mp hj).trans_le h)),
    div_mul_eq_mul_div]

theorem rowProduct_sub_mul {row pivotRow : List α} {m : ℕ} (hrow : row.length = m)
    (hpivot : pivotRow.length = m) (h : n ≤ m) (x : α) (v : ℕ → α) :
    rowProduct n (List.zipWith (fun a b => a - x * b) row pivotRow) v =
      rowProduct n row v - x * rowProduct n pivotRow v := by
  rw [rowProduct, rowProduct, rowProduct, Finset.mul_sum, ← Finset.sum_sub_distrib]
  refine Finset.sum_congr rfl fun j hj => ?_
  rw [coordinate_sub_mul hrow hpivot x ((Finset.mem_range.mp hj).trans_le h)]
  ring

theorem Annihilates.of_swapRows {i j : ℕ} (hi : i < rows.length) (hj : j < rows.length)
    {v : ℕ → α} (h : Annihilates n (swapRows rows i j) v) : Annihilates n rows v := by
  intro row hrow
  obtain ⟨l, hl⟩ := List.mem_iff_getElem?.mp hrow
  have hget := getElem?_swapRows hi hj
  apply h row
  -- the row stands where the swap has put it
  by_cases hli : l = i
  · exact List.mem_of_getElem? (i := j) (by rw [hget, if_pos rfl, ← hli, hl])
  by_cases hlj : l = j
  · refine List.mem_of_getElem? (i := i) ?_
    rw [hget, if_neg (hlj ▸ Ne.symm hli), if_pos rfl, ← hlj, hl]
  · exact List.mem_of_getElem? (i := l) (by rw [hget, if_neg hlj, if_neg hli, hl])

theorem Annihilates.of_cleared (h : IsReduced n b k rows) (hk : k < n) {pivot : α}
    (hne : pivot ≠ 0) {v : ℕ → α} (hv : Annihilates n (cleared rows k pivot) v) :
    Annihilates n rows v := by
  have hkl : k < rows.length := h.length_eq ▸ hk
  have hlength (i : ℕ) (hi : i < rows.length) : rows[i].length = n + n :=
    (h.isCombination _ (List.getElem_mem hi)).length_eq
  have hget (i : ℕ) (hi : i < rows.length) := getElem?_cleared hi k pivot
  rw [List.getElem?_eq_getElem hkl, Option.getD_some] at hget
  have hscaled : (rows[k].map (· / pivot)).length = n + n := by
    rw [List.length_map, hlength k hkl]
  have hpivot : rowProduct n (rows[k].map (· / pivot)) v = 0 :=
    hv _ (List.mem_of_getElem? ((hget k hkl).trans (by rw [if_pos rfl])))
  intro row hrow
  obtain ⟨i, hi, rfl⟩ := List.mem_iff_getElem.mp hrow
  by_cases hik : i = k
  · subst hik
    rw [rowProduct_map_div (by rw [hlength i hi]; omega), div_eq_zero_iff] at hpivot
    exact hpivot.resolve_right hne
  · have hcleared := hv _ (List.mem_of_getElem? (hget i hi))
    rw [if_neg hik, clearEntry_eq (hlength i hi) hscaled,
      rowProduct_sub_mul (hlength i hi) hscaled (by omega), hpivot, mul_zero, sub_zero] at hcleared
    exact hcleared

theorem Annihilates.of_eliminate (h : IsReduced n b k rows) (hk : k < n)
    (he : eliminate rows k = some rows') {v : ℕ → α} (hv : Annihilates n rows' v) :
    Annihilates n rows v := by
  obtain ⟨p, hp, hlarge, rfl⟩ := eliminate_eq_some_iff.mp he
  obtain ⟨hkp, hpl⟩ := mem_of_pivotRow? hp
  have hne : entry rows p k ≠ 0 := ne_zero_of_le_abs hlarge
  split_ifs at hv with hpk
  · exact hv.of_cleared h hk hne
  · exact (hv.of_cleared (h.swapRows hkp (h.length_eq ▸ hpl)) hk hne).of_swapRows hpl
      (h.length_eq ▸ hk)

def IsRegular (n : ℕ) (rows : List (List α)) : Prop :=
  ∀ v, Annihilates n rows v → ∀ j < n, v j = 0

/-- The coefficients with which the column `k` cancels against the unit columns before it, when it
has no entry from the row `k` on. -/
def cancellation (rows : List (List α)) (k j : ℕ) : α :=
  if j < k then -entry rows j k else if j = k then 1 else 0

theorem IsReduced.annihilates_cancellation (h : IsReduced n b k rows) (hk : k < n)
    (hbelow : ∀ i < n, k ≤ i → entry rows i k = 0) : Annihilates n rows (cancellation rows k) := by
  have hself : cancellation rows k k = 1 := by simp [cancellation]
  have hlater (j : ℕ) (hj : k < j) : cancellation rows k j = 0 := by
    simp [cancellation, hj.not_gt, hj.ne']
  intro row hrow
  obtain ⟨i, hi, rfl⟩ := List.mem_iff_getElem.mp hrow
  have hin : i < n := h.length_eq ▸ hi
  have hentry (j : ℕ) : coordinate rows[i] j = entry rows i j :=
    (entry_of_getElem? (List.getElem?_eq_getElem hi) j).symm
  simp only [rowProduct, hentry]
  rcases lt_or_ge i k with hik | hki
  · -- the row has its one before the column, and its entry in the column
    rw [Finset.sum_eq_add i k hik.ne (fun j _ hj => ?_)
      (fun hmem => absurd (Finset.mem_range.mpr hin) hmem)
      (fun hmem => absurd (Finset.mem_range.mpr hk) hmem), h.unit i hin i hik, if_pos rfl, hself,
      cancellation, if_pos hik]
    · ring
    · rcases lt_or_gt_of_ne hj.2 with hlt | hgt
      · rw [h.unit i hin j hlt, if_neg hj.1.symm, zero_mul]
      · rw [hlater j hgt, mul_zero]
  · refine Finset.sum_eq_zero fun j _ => ?_
    rcases lt_trichotomy j k with hlt | rfl | hgt
    · rw [h.unit i hin j hlt, if_neg (by omega), zero_mul]
    · rw [hbelow i hin hki, zero_mul]
    · rw [hlater j hgt, mul_zero]

theorem IsRegular.exists_pivotRow? (hregular : IsRegular n rows) (h : IsReduced n b k rows)
    (hk : k < n) : ∃ p, pivotRow? rows k = some p ∧ entry rows p k ≠ 0 := by
  have hne : (List.range rows.length).filter (fun i => decide (k ≤ i)) ≠ [] := by
    refine List.ne_nil_of_mem (a := k) (List.mem_filter.mpr ⟨?_, by simp⟩)
    rwa [List.mem_range, h.length_eq]
  obtain ⟨p, -, hp⟩ := Extremum.exists_lastGreatest? (fun i => Scalar.abs (entry rows i k)) hne
  refine ⟨p, hp, fun hzero => ?_⟩
  have hbelow (i : ℕ) (hi : i < n) (hki : k ≤ i) : entry rows i k = 0 := by
    have hle := Extremum.le_of_lastGreatest? hp i
      (List.mem_filter.mpr ⟨List.mem_range.mpr (h.length_eq.symm ▸ hi), by simpa using hki⟩)
    rw [Scalar.abs_eq, Scalar.abs_eq, hzero, abs_zero] at hle
    exact abs_nonpos_iff.mp hle
  have hone := hregular _ (h.annihilates_cancellation hk hbelow) k hk
  simp [cancellation] at hone

/-- The pivots that an elimination of some columns meets, up to one that is too small. -/
def pivotsOf : (columns : List ℕ) → (rows : List (List α)) → List α
  | [], _ => []
  | k :: columns, rows =>
    match pivotRow? rows k with
    | none => []
    | some p => entry rows p k ::
      match eliminate rows k with
      | none => []
      | some rows' => pivotsOf columns rows'

def pivots (rows : List (List α)) : List α := pivotsOf (List.range rows.length) (augmented rows)

theorem IsRegular.exists_eliminate (hregular : IsRegular n rows) (h : IsReduced n b k rows)
    (hk : k < n) {columns : List ℕ}
    (hpivots : ∀ x ∈ pivotsOf (k :: columns) rows, x = 0 ∨ pivotTolerance ≤ |x|) :
    ∃ rows', eliminate rows k = some rows' ∧ IsRegular n rows' ∧ IsReduced n b (k + 1) rows' ∧
      ∀ x ∈ pivotsOf columns rows', x = 0 ∨ pivotTolerance ≤ |x| := by
  obtain ⟨p, hp, hne⟩ := hregular.exists_pivotRow? h hk
  rw [pivotsOf, hp] at hpivots
  have hlarge := (hpivots _ List.mem_cons_self).resolve_left hne
  have he := eliminate_eq_some_iff.mpr ⟨p, hp, hlarge, rfl⟩
  rw [he] at hpivots
  exact ⟨_, he, fun v hv => hregular v (hv.of_eliminate h hk he), h.eliminate hk he,
    fun x hx => hpivots x (List.mem_cons_of_mem _ hx)⟩

theorem IsRegular.exists_foldlM (hregular : IsRegular n rows) {m : ℕ} (h : IsReduced n b k rows)
    (hm : k + m = n)
    (hpivots : ∀ x ∈ pivotsOf (List.range' k m) rows, x = 0 ∨ pivotTolerance ≤ |x|) :
    ∃ reduced, (List.range' k m).foldlM eliminate rows = some reduced := by
  induction m generalizing k rows with
  | zero => exact ⟨rows, rfl⟩
  | succ m ih =>
    obtain ⟨rows', he, hregular', h', hpivots'⟩ :=
      hregular.exists_eliminate h (by omega) hpivots
    obtain ⟨reduced, hreduced⟩ := ih hregular' h' (by omega) hpivots'
    refine ⟨reduced, ?_⟩
    rw [List.range'_succ, List.foldlM_cons, he]
    exact hreduced

theorem Annihilates.of_augmented (h : IsSquare n rows) {v : ℕ → α}
    (hv : Annihilates n (augmented rows) v) : Annihilates n rows v := by
  intro row hrow
  obtain ⟨i, hi, rfl⟩ := List.mem_iff_getElem.mp hrow
  have hlen := h.length_row _ hrow
  rw [← hv (rows[i] ++ unitRow rows.length i)
    (List.mem_of_getElem? (i := i) (by simp [augmented, hi]))]
  refine Finset.sum_congr rfl fun j hj => ?_
  rw [coordinate_append_left _ (hlen.symm ▸ Finset.mem_range.mp hj)]

/-- A regular matrix is inverted as long as no pivot is taken for zero that is not. -/
theorem IsRegular.exists_invert (hregular : IsRegular n rows) (h : IsSquare n rows)
    (hpivots : ∀ x ∈ pivots rows, x = 0 ∨ pivotTolerance ≤ |x|) :
    ∃ inverse, invert rows = some inverse := by
  have hregular' : IsRegular n (augmented rows) := fun v hv => hregular v (hv.of_augmented h)
  rw [pivots, h.length_eq, List.range_eq_range'] at hpivots
  obtain ⟨reduced, hreduced⟩ :=
    hregular'.exists_foldlM (isReduced_augmented h) (zero_add n) hpivots
  rw [invert, h.length_eq, List.range_eq_range', hreduced]
  exact ⟨_, rfl⟩

theorem rowProduct_getElem {i : ℕ} (hi : i < rows.length) (v : ℕ → α) :
    rowProduct n rows[i] v = ∑ j ∈ Finset.range n, entry rows i j * v j := by
  simp only [rowProduct, entry_of_getElem? (List.getElem?_eq_getElem hi)]

theorem IsInverse.isRegular {x : ℕ → ℕ → α} (h : IsSquare n rows)
    (hx : IsInverse n x (entry rows)) : IsRegular n rows := by
  intro v hv j hj
  refine hx.eq_zero_of_sum_eq_zero (v := v) (fun i hi => ?_) hj
  have hil : i < rows.length := h.length_eq.symm ▸ hi
  rw [← rowProduct_getElem hil]
  exact hv _ (List.getElem_mem hil)

theorem isRegular_of_det_ne_zero (h : IsSquare n rows) (hdet : (toMatrix n rows).det ≠ 0) :
    IsRegular n rows := by
  intro v hv j hj
  have hzero : (fun j : Fin n => v j) = 0 := by
    refine Matrix.eq_zero_of_mulVec_eq_zero hdet (funext fun i => ?_)
    have hil : (i : ℕ) < rows.length := h.length_eq.symm ▸ i.isLt
    have hrow := hv _ (List.getElem_mem hil)
    rw [rowProduct_getElem hil, ← Fin.sum_univ_eq_sum_range fun l => entry rows i l * v l] at hrow
    exact hrow
  exact congrFun hzero ⟨j, hj⟩

/-- Where no pivot is taken for zero that is not, singular matrices are the only ones without a
result. -/
theorem invert_eq_none_iff (h : IsSquare n rows)
    (hpivots : ∀ x ∈ pivots rows, x = 0 ∨ pivotTolerance ≤ |x|) :
    invert rows = none ↔ (toMatrix n rows).det = 0 := by
  refine ⟨fun hnone => ?_, invert_eq_none_of_det_eq_zero h⟩
  by_contra hdet
  obtain ⟨inverse, hsome⟩ := (isRegular_of_det_ne_zero h hdet).exists_invert h hpivots
  rw [hnone] at hsome
  cases hsome

end MapInference.Matrix
