import MapInference.Proofs.ActiveSet.Matrix
import MapInference.Proofs.Extremum

/-!
# Elimination

The rows of the augmented matrix are combinations of the rows of the matrix, each followed by its
coefficients. A step of the elimination keeps this and makes one more column a unit column, so that
in the end the coefficients are those of the inverse.
-/

namespace MapInference.Matrix

open Scalar
variable {α : Type} [ExactScalar α]

structure IsCombination (n : ℕ) (b : ℕ → ℕ → α) (row : List α) : Prop where
  length_eq : row.length = n + n
  coordinate_eq : ∀ j < n,
    coordinate row j = ∑ l ∈ Finset.range n, coordinate row (n + l) * b l j

structure IsReduced (n : ℕ) (b : ℕ → ℕ → α) (k : ℕ) (rows : List (List α)) : Prop where
  length_eq : rows.length = n
  isCombination : ∀ row ∈ rows, IsCombination n b row
  unit : ∀ i < n, ∀ j < k, entry rows i j = if i = j then 1 else 0

variable {n k : ℕ} {b : ℕ → ℕ → α}

theorem IsCombination.map_div {row : List α} (h : IsCombination n b row) (pivot : α) :
    IsCombination n b (row.map (· / pivot)) := by
  have hcoordinate (j : ℕ) (hj : j < n + n) :
      coordinate (row.map (· / pivot)) j = coordinate row j / pivot :=
    coordinate_map (getElem?_eq_some_coordinate (h.length_eq ▸ hj))
  refine ⟨by rw [List.length_map, h.length_eq], fun j hj => ?_⟩
  rw [hcoordinate j (by omega), h.coordinate_eq j hj, Finset.sum_div]
  refine Finset.sum_congr rfl fun l hl => ?_
  rw [hcoordinate (n + l) (by have := Finset.mem_range.mp hl; omega), div_mul_eq_mul_div]

theorem coordinate_sub_mul {row pivotRow : List α} {m j : ℕ} (hrow : row.length = m)
    (hpivot : pivotRow.length = m) (x : α) (hj : j < m) :
    coordinate (List.zipWith (fun a b => a - x * b) row pivotRow) j =
      coordinate row j - x * coordinate pivotRow j :=
  coordinate_zipWith (hrow ▸ hj) (hpivot ▸ hj)

theorem IsCombination.sub_mul {row pivotRow : List α} (h : IsCombination n b row)
    (hp : IsCombination n b pivotRow) (x : α) :
    IsCombination n b (List.zipWith (fun a b => a - x * b) row pivotRow) := by
  have hcoordinate (j : ℕ) (hj : j < n + n) :=
    coordinate_sub_mul h.length_eq hp.length_eq x hj
  refine ⟨by simp [h.length_eq, hp.length_eq], fun j hj => ?_⟩
  rw [hcoordinate j (by omega), h.coordinate_eq j hj, hp.coordinate_eq j hj, Finset.mul_sum,
    ← Finset.sum_sub_distrib]
  refine Finset.sum_congr rfl fun l hl => ?_
  rw [hcoordinate (n + l) (by have := Finset.mem_range.mp hl; omega)]
  ring

theorem clearEntry_eq {row pivotRow : List α} {m : ℕ} (hrow : row.length = m)
    (hpivot : pivotRow.length = m) (k : ℕ) :
    clearEntry pivotRow row k =
      List.zipWith (fun a b => a - coordinate row k * b) row pivotRow := by
  by_cases hzero : same (coordinate row k) 0
  · have hx : coordinate row k = 0 := by
      obtain ⟨hle, hge⟩ := Bool.and_eq_true_iff.mp hzero
      exact le_antisymm (of_decide_eq_true hle) (of_decide_eq_true hge)
    refine (if_pos hzero).trans (eq_of_coordinate (by simp [hrow, hpivot]) fun j hj => ?_)
    rw [coordinate_sub_mul hrow hpivot _ (hrow ▸ hj), hx, zero_mul, sub_zero]
  · exact if_neg hzero

theorem mem_of_pivotRow? {rows : List (List α)} {p : ℕ} (h : pivotRow? rows k = some p) :
    k ≤ p ∧ p < rows.length := by
  have hmem := Extremum.mem_of_lastGreatest? h
  rw [List.mem_filter, List.mem_range] at hmem
  exact ⟨of_decide_eq_true hmem.2, hmem.1⟩

omit [ExactScalar α] in
theorem length_swapRows (rows : List (List α)) (i j : ℕ) :
    (swapRows rows i j).length = rows.length := by
  simp [swapRows]

omit [ExactScalar α] in
theorem getElem?_swapRows {rows : List (List α)} {i j : ℕ} (hi : i < rows.length)
    (hj : j < rows.length) (l : ℕ) :
    (swapRows rows i j)[l]? =
      if l = j then rows[i]? else if l = i then rows[j]? else rows[l]? := by
  rw [swapRows, List.getElem?_set, List.getElem?_set, List.length_set]
  grind

theorem IsReduced.swapRows {rows : List (List α)} {p : ℕ} (h : IsReduced n b k rows)
    (hkp : k ≤ p) (hp : p < n) : IsReduced n b k (swapRows rows p k) := by
  have hp' : p < rows.length := by rwa [h.length_eq]
  have hk' : k < rows.length := by rw [h.length_eq]; omega
  have hget := getElem?_swapRows hp' hk'
  have hentry (i j : ℕ) : entry (Matrix.swapRows rows p k) i j =
      if i = k then entry rows p j else if i = p then entry rows k j else entry rows i j := by
    simp only [entry, hget i]
    split_ifs <;> rfl
  refine ⟨(length_swapRows _ _ _).trans h.length_eq, ?_, ?_⟩
  · intro row hrow
    obtain ⟨l, hl⟩ := List.mem_iff_getElem?.mp hrow
    rw [hget l] at hl
    split_ifs at hl <;> exact h.isCombination row (List.mem_of_getElem? hl)
  · intro i hi j hj
    rw [hentry]
    by_cases hik : i = k
    · rw [if_pos hik, h.unit p hp j hj, if_neg (by omega), if_neg (by omega)]
    by_cases hip : i = p
    · rw [if_neg hik, if_pos hip, h.unit k (by omega) j hj, if_neg (by omega), if_neg (by omega)]
    · rw [if_neg hik, if_neg hip]
      exact h.unit i hi j hj

def cleared (rows : List (List α)) (k : ℕ) (pivot : α) : List (List α) :=
  let scaled := (rows[k]?.getD []).map (· / pivot)
  rows.zipIdx.map fun (row, i) => if i = k then scaled else clearEntry scaled row k

theorem getElem?_cleared {rows : List (List α)} {i : ℕ} (hi : i < rows.length) (k : ℕ) (pivot : α) :
    (cleared rows k pivot)[i]? = some (if i = k then (rows[k]?.getD []).map (· / pivot)
      else clearEntry ((rows[k]?.getD []).map (· / pivot)) rows[i] k) := by
  simp [cleared, List.getElem?_eq_getElem hi]

theorem IsReduced.cleared {rows : List (List α)} (h : IsReduced n b k rows) (hk : k < n)
    {pivot : α} (hpivot : entry rows k k = pivot) (hne : pivot ≠ 0) :
    IsReduced n b (k + 1) (cleared rows k pivot) := by
  have hkl : k < rows.length := h.length_eq ▸ hk
  have hrow : rows[k]?.getD [] = rows[k] := by rw [List.getElem?_eq_getElem hkl, Option.getD_some]
  have hold : IsCombination n b rows[k] := h.isCombination _ (List.getElem_mem hkl)
  have hget (i : ℕ) (hi : i < rows.length) := getElem?_cleared hi k pivot
  rw [hrow] at hget
  set scaled := rows[k].map (· / pivot) with hscaled_eq
  have hscaled : IsCombination n b scaled := hold.map_div pivot
  have hscaledEntry (j : ℕ) (hj : j < n) : coordinate scaled j = entry rows k j / pivot := by
    rw [entry_of_getElem? (List.getElem?_eq_getElem hkl), hscaled_eq,
      coordinate_map (getElem?_eq_some_coordinate (by rw [hold.length_eq]; omega))]
  have hlen : (Matrix.cleared rows k pivot).length = rows.length := by simp [Matrix.cleared]
  refine ⟨hlen.trans h.length_eq, ?_, ?_⟩
  · intro row hrow
    obtain ⟨i, hi, rfl⟩ := List.mem_iff_getElem.mp hrow
    have hil : i < rows.length := hlen ▸ hi
    have hrow := h.isCombination _ (List.getElem_mem hil)
    rw [(List.getElem?_eq_some_iff.mp (hget i hil)).2]
    split_ifs
    · exact hscaled
    · rw [clearEntry_eq hrow.length_eq hscaled.length_eq]
      exact hrow.sub_mul hscaled _
  · intro i hi j hj
    have hil : i < rows.length := h.length_eq ▸ hi
    have hrow := h.isCombination _ (List.getElem_mem hil)
    rw [entry_of_getElem? (hget i hil)]
    by_cases hik : i = k
    · rw [if_pos hik, hscaledEntry j (by omega), hik]
      rcases Nat.lt_succ_iff_lt_or_eq.mp hj with hj | rfl
      · rw [h.unit k hk j hj, if_neg (by omega), zero_div]
      · rw [hpivot, if_pos rfl, div_self hne]
    · rw [if_neg hik, clearEntry_eq hrow.length_eq hscaled.length_eq,
        coordinate_sub_mul hrow.length_eq hscaled.length_eq _ (by omega),
        hscaledEntry j (by omega), ← entry_of_getElem? (List.getElem?_eq_getElem hil),
        ← entry_of_getElem? (List.getElem?_eq_getElem hil)]
      rcases Nat.lt_succ_iff_lt_or_eq.mp hj with hj | rfl
      · rw [h.unit k hk j hj, if_neg (by omega : k ≠ j), zero_div, mul_zero, sub_zero]
        exact h.unit i hi j hj
      · rw [hpivot, div_self hne, mul_one, sub_self, if_neg hik]

/-- What a step does: it finds a pivot that is not too small, swaps it into its place and clears the
column. -/
theorem eliminate_eq_some_iff {rows rows' : List (List α)} :
    eliminate rows k = some rows' ↔ ∃ p, pivotRow? rows k = some p ∧
      pivotTolerance ≤ |entry rows p k| ∧
      cleared (if p = k then rows else swapRows rows p k) k (entry rows p k) = rows' := by
  rw [eliminate, Option.bind_eq_some_iff]
  refine exists_congr fun p => and_congr_right fun _ => ?_
  dsimp only
  by_cases hsmall : |entry rows p k| < pivotTolerance
  · simp [hsmall, not_le.mpr hsmall]
  · simp [hsmall, not_lt.mp hsmall, cleared]

theorem ne_zero_of_le_abs {x : α} (h : pivotTolerance ≤ |x|) : x ≠ 0 := by
  rintro rfl
  rw [abs_zero] at h
  exact absurd h (not_le.mpr pivotTolerance_pos)

theorem IsReduced.eliminate {rows rows' : List (List α)} (h : IsReduced n b k rows) (hk : k < n)
    (he : eliminate rows k = some rows') : IsReduced n b (k + 1) rows' := by
  obtain ⟨p, hp, hlarge, rfl⟩ := eliminate_eq_some_iff.mp he
  obtain ⟨hkp, hpl⟩ := mem_of_pivotRow? hp
  rw [h.length_eq] at hpl
  have hne : entry rows p k ≠ 0 := ne_zero_of_le_abs hlarge
  split_ifs with hpk
  · subst hpk
    exact h.cleared hk rfl hne
  · refine (h.swapRows hkp hpl).cleared hk ?_ hne
    rw [entry, getElem?_swapRows (h.length_eq ▸ hpl) (h.length_eq ▸ hk), if_pos rfl, ← entry]

theorem isReduced_augmented {rows : List (List α)} (h : IsSquare n rows) :
    IsReduced n (entry rows) 0 (augmented rows) := by
  refine ⟨(length_augmented rows).trans h.length_eq, ?_,
    fun _ _ j hj => absurd hj (Nat.not_lt_zero j)⟩
  intro row hrow
  obtain ⟨i, hi, rfl⟩ := List.mem_iff_getElem.mp hrow
  rw [length_augmented] at hi
  have hin : i < n := h.length_eq ▸ hi
  have hlen := h.length_row _ (List.getElem_mem hi)
  have hunit (l : ℕ) (hl : l < n) :
      coordinate (unitRow n i : List α) l = if l = i then 1 else 0 := by
    rw [unitRow, coordinate_map (List.getElem?_range hl)]
  have haugmented : (augmented rows)[i] = rows[i] ++ unitRow n i := by
    simp [augmented, h.length_eq]
  rw [haugmented]
  refine ⟨by simp [hlen, unitRow], fun j hj => ?_⟩
  have hright (l : ℕ) :
      coordinate (rows[i] ++ unitRow n i) (n + l) = coordinate (unitRow n i) l := by
    have happend := coordinate_append_right rows[i] (unitRow n i) l
    rwa [hlen] at happend
  rw [coordinate_append_left _ (hlen ▸ hj), ← entry_of_getElem? (List.getElem?_eq_getElem hi)]
  rw [Finset.sum_eq_single i]
  · rw [hright, hunit i hin, if_pos rfl, one_mul]
  · intro l hl hli
    rw [hright, hunit l (Finset.mem_range.mp hl), if_neg hli, zero_mul]
  · intro hi
    exact absurd (Finset.mem_range.mpr hin) hi

theorem IsReduced.foldlM {rows rows' : List (List α)} (h : IsReduced n b 0 rows) {m : ℕ} (hm : m ≤ n)
    (hfold : (List.range m).foldlM Matrix.eliminate rows = some rows') : IsReduced n b m rows' := by
  induction m generalizing rows' with
  | zero =>
    rw [List.range_zero, List.foldlM_nil] at hfold
    exact Option.some.inj hfold ▸ h
  | succ m ih =>
    rw [List.range_succ, List.foldlM_append, Option.bind_eq_bind, Option.bind_eq_some_iff] at hfold
    obtain ⟨rows₁, hrows₁, hstep⟩ := hfold
    have hstep : Matrix.eliminate rows₁ m = some rows' := by simpa using hstep
    exact (ih (by omega) hrows₁).eliminate (by omega) hstep

theorem isInverse_invert {rows inverse : List (List α)} (h : IsSquare n rows)
    (hinvert : invert rows = some inverse) :
    IsSquare n inverse ∧ IsInverse n (entry inverse) (entry rows) := by
  obtain ⟨reduced, hreduced, rfl⟩ := Option.map_eq_some_iff.mp hinvert
  rw [h.length_eq] at hreduced ⊢
  have hend := (isReduced_augmented h).foldlM le_rfl hreduced
  have hentry (i j : ℕ) (hi : i < n) : entry (reduced.map fun row => row.drop n) i j =
      entry reduced i (n + j) := by
    have hil : i < reduced.length := hend.length_eq ▸ hi
    simp [entry, coordinate, hil]
  refine ⟨⟨by rw [List.length_map, hend.length_eq], ?_⟩, ?_⟩
  · intro row hrow
    obtain ⟨old, hold, rfl⟩ := List.mem_map.mp hrow
    rw [List.length_drop, (hend.isCombination old hold).length_eq, Nat.add_sub_cancel]
  · intro i hi j hj
    have hil : i < reduced.length := hend.length_eq ▸ hi
    have hrow := (hend.isCombination _ (List.getElem_mem hil)).coordinate_eq j hj
    rw [← hend.unit i hi j hj, entry_of_getElem? (List.getElem?_eq_getElem hil), hrow]
    refine Finset.sum_congr rfl fun l _ => ?_
    rw [hentry i l hi, entry_of_getElem? (List.getElem?_eq_getElem hil)]

end MapInference.Matrix
