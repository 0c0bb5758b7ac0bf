import MapInference.Proofs.Coordinates
import MapInference.ActiveSet.Matrix

/-!
# Inverses of small matrices

The entries of a matrix are taken as a function of their indices. A bordered inverse is an inverse
of the bordered matrix, a downdated inverse one of the matrix without the row and the column, and
elimination finds an inverse whenever it comes to its end: every row of the augmented matrix stays a
combination of the rows of the matrix with the coefficients in its right half.
-/

namespace MapInference.Matrix

open Scalar
variable {α : Type} [ExactScalar α]

structure IsSquare (n : ℕ) (rows : List (List α)) : Prop where
  length_eq : rows.length = n
  length_row : ∀ row ∈ rows, row.length = n

omit [ExactScalar α] in
theorem IsSquare.length_flatten {n : ℕ} {rows : List (List α)} (h : IsSquare n rows) :
    rows.flatten.length = n ^ 2 := by
  have hlengths : rows.map List.length = List.replicate n n := by
    rw [List.eq_replicate_iff, List.length_map]
    refine ⟨h.length_eq, fun l hl => ?_⟩
    obtain ⟨row, hrow, rfl⟩ := List.mem_map.mp hl
    exact h.length_row row hrow
  rw [List.length_flatten, hlengths, List.sum_replicate, smul_eq_mul, sq]

def IsInverse (n : ℕ) (x b : ℕ → ℕ → α) : Prop :=
  ∀ i < n, ∀ j < n, ∑ l ∈ Finset.range n, x i l * b l j = if i = j then 1 else 0

theorem pivotTolerance_eq : (pivotTolerance : α) = 1 / 10 ^ 12 := tenthPower_eq 12

theorem pivotTolerance_pos : 0 < (pivotTolerance : α) := by
  rw [pivotTolerance_eq]
  positivity

theorem entry_of_getElem? {rows : List (List α)} {i : ℕ} {row : List α} (h : rows[i]? = some row)
    (j : ℕ) : entry rows i j = coordinate row j := by
  simp [entry, h]

theorem coordinate_mulColumn {rows : List (List α)} {column : List α} {n i : ℕ}
    (h : IsSquare n rows) (hi : i < n) :
    coordinate (mulColumn rows column) i =
      ∑ l ∈ Finset.range n, entry rows i l * coordinate column l := by
  have hil : i < rows.length := h.length_eq ▸ hi
  have hrow : rows[i]? = some rows[i] := List.getElem?_eq_getElem hil
  rw [mulColumn, coordinate_map hrow, dot_eq_sum (h.length_row _ (List.getElem_mem _)).le]
  simp only [entry_of_getElem? hrow]

namespace IsInverse

variable {n : ℕ} {x b : ℕ → ℕ → α}

theorem mul_eq_one (h : IsInverse n x b) :
    (.of fun i j : Fin n => x i j : Matrix (Fin n) (Fin n) α) * .of (fun i j : Fin n => b i j) =
      1 := by
  ext i j
  rw [Matrix.mul_apply, Matrix.one_apply]
  simp only [Matrix.of_apply]
  rw [Fin.sum_univ_eq_sum_range fun l => x i l * b l j, h i i.isLt j j.isLt]
  simp only [Fin.ext_iff]

theorem symm (h : IsInverse n x b) : IsInverse n b x := by
  intro i hi j hj
  have hcomm := mul_eq_one_comm.mp h.mul_eq_one
  have hone := congrFun (congrFun hcomm ⟨i, hi⟩) ⟨j, hj⟩
  rw [Matrix.mul_apply, Matrix.one_apply] at hone
  simp only [Matrix.of_apply, Fin.mk.injEq] at hone
  rwa [Fin.sum_univ_eq_sum_range fun l => b i l * x l j] at hone

theorem sum_mul_sum (h : IsInverse n x b) (v : ℕ → α) {i : ℕ} (hi : i < n) :
    ∑ l ∈ Finset.range n, b i l * ∑ j ∈ Finset.range n, x l j * v j = v i := by
  calc ∑ l ∈ Finset.range n, b i l * ∑ j ∈ Finset.range n, x l j * v j
      = ∑ j ∈ Finset.range n, (∑ l ∈ Finset.range n, b i l * x l j) * v j := by
        simp only [Finset.mul_sum, Finset.sum_mul, mul_assoc]
        exact Finset.sum_comm
    _ = ∑ j ∈ Finset.range n, (if i = j then 1 else 0) * v j :=
        Finset.sum_congr rfl fun j hj => by rw [h.symm i hi j (Finset.mem_range.mp hj)]
    _ = v i := by simp [hi]

theorem eq_zero_of_sum_eq_zero (h : IsInverse n x b) {v : ℕ → α}
    (hv : ∀ i < n, ∑ l ∈ Finset.range n, b i l * v l = 0) {i : ℕ} (hi : i < n) : v i = 0 := by
  rw [← h.symm.sum_mul_sum v hi]
  refine Finset.sum_eq_zero fun l hl => ?_
  rw [hv l (Finset.mem_range.mp hl), mul_zero]

end IsInverse

theorem isSquare_bordered {inverse : List (List α)} {product : List α} {n : ℕ}
    (h : IsSquare n inverse) (hp : product.length = n) (schur : α) :
    IsSquare (n + 1) (bordered inverse product schur) := by
  constructor
  · rw [length_bordered (by rw [hp, h.length_eq]), h.length_eq]
  · intro row hrow
    rcases List.mem_append.mp hrow with hrow | hrow
    · obtain ⟨i, hi, rfl⟩ := List.mem_iff_getElem.mp hrow
      have hil : i < inverse.length := by
        rw [List.length_zipWith] at hi
        omega
      simp [hp, h.length_row _ (List.getElem_mem hil)]
    · simp [List.mem_singleton.mp hrow, hp]

theorem entry_bordered {inverse : List (List α)} {product : List α} {n : ℕ}
    (h : IsSquare n inverse) (hp : product.length = n) (schur : α) {i j : ℕ} (hi : i < n)
    (hj : j < n) :
    entry (bordered inverse product schur) i j =
      entry inverse i j + coordinate product i * coordinate product j / schur := by
  have hil : i < inverse.length := h.length_eq ▸ hi
  have hrow := h.length_row _ (List.getElem_mem hil)
  have hget : (bordered inverse product schur)[i]? =
      some (List.zipWith (fun x q => x + coordinate product i * q / schur) inverse[i] product ++
        [-coordinate product i / schur]) := by
    rw [bordered, List.getElem?_append_left (by simp [hp, h.length_eq, hi]),
      List.getElem?_zipWith, List.getElem?_eq_getElem hil,
      getElem?_eq_some_coordinate (hp ▸ hi)]
  rw [entry_of_getElem? hget, coordinate_append_left _ (by simp [hp, hrow, hj]),
    coordinate_zipWith (by rwa [hrow]) (by rwa [hp]),
    entry_of_getElem? (List.getElem?_eq_getElem hil)]

theorem entry_bordered_last_column {inverse : List (List α)} {product : List α} {n : ℕ}
    (h : IsSquare n inverse) (hp : product.length = n) (schur : α) {i : ℕ} (hi : i < n) :
    entry (bordered inverse product schur) i n = -coordinate product i / schur := by
  have hil : i < inverse.length := h.length_eq ▸ hi
  have hrow := h.length_row _ (List.getElem_mem hil)
  let front := List.zipWith (fun x q => x + coordinate product i * q / schur) inverse[i] product
  have hfront : front.length = n := by simp [front, hp, hrow]
  have hget : (bordered inverse product schur)[i]? =
      some (front ++ [-coordinate product i / schur]) := by
    rw [bordered, List.getElem?_append_left (by simp [hp, h.length_eq, hi]),
      List.getElem?_zipWith, List.getElem?_eq_getElem hil,
      getElem?_eq_some_coordinate (hp ▸ hi)]
  have hlast := coordinate_append_right front [-coordinate product i / schur] 0
  rw [hfront] at hlast
  rw [entry_of_getElem? hget]
  exact hlast

theorem getElem?_bordered_last {inverse : List (List α)} {product : List α} {n : ℕ}
    (h : IsSquare n inverse) (hp : product.length = n) (schur : α) :
    (bordered inverse product schur)[n]? =
      some (product.map (fun p => -p / schur) ++ [1 / schur]) := by
  have hlen : (List.zipWith
      (fun row p => List.zipWith (fun x q => x + p * q / schur) row product ++ [-p / schur])
      inverse product).length = n := by simp [hp, h.length_eq]
  rw [bordered, List.getElem?_append_right hlen.le, hlen, Nat.sub_self]
  rfl

theorem entry_bordered_last_row {inverse : List (List α)} {product : List α} {n : ℕ}
    (h : IsSquare n inverse) (hp : product.length = n) (schur : α) {j : ℕ} (hj : j < n) :
    entry (bordered inverse product schur) n j = -coordinate product j / schur := by
  rw [entry_of_getElem? (getElem?_bordered_last h hp schur),
    coordinate_append_left _ (by simpa [hp] using hj),
    coordinate_map (getElem?_eq_some_coordinate (hp ▸ hj))]

theorem entry_bordered_corner {inverse : List (List α)} {product : List α} {n : ℕ}
    (h : IsSquare n inverse) (hp : product.length = n) (schur : α) :
    entry (bordered inverse product schur) n n = 1 / schur := by
  have hlast := coordinate_append_right (product.map fun p => -p / schur) [1 / schur] 0
  rw [List.length_map, hp] at hlast
  rw [entry_of_getElem? (getElem?_bordered_last h hp schur)]
  exact hlast

/-- A symmetric matrix with one more row and column, and the Schur complement of its corner. -/
theorem IsInverse.bordered {inverse : List (List α)} {product : List α} {n : ℕ}
    (h : IsSquare n inverse) (hp : product.length = n) {b : ℕ → ℕ → α} {schur : α}
    (hb : IsInverse n (entry inverse) b)
    (hsymm : ∀ i ≤ n, ∀ j ≤ n, b i j = b j i)
    (hproduct : ∀ i < n, ∑ l ∈ Finset.range n, b i l * coordinate product l = b i n)
    (hschur : schur = b n n - ∑ l ∈ Finset.range n, b l n * coordinate product l)
    (hne : schur ≠ 0) : IsInverse (n + 1) (entry (bordered inverse product schur)) b := by
  -- The product of the inverse with the new column, and of the new row with the matrix.
  have hcolumn : ∀ i < n,
      ∑ l ∈ Finset.range n, entry inverse i l * b l n = coordinate product i := by
    intro i hi
    have hsolve := hb.symm.sum_mul_sum (coordinate product) hi
    rw [← hsolve]
    refine Finset.sum_congr rfl fun l hl => ?_
    rw [hproduct l (Finset.mem_range.mp hl)]
  have hrow : ∀ j < n, ∑ l ∈ Finset.range n, coordinate product l * b l j = b n j := by
    intro j hj
    rw [hsymm n le_rfl j hj.le, ← hproduct j hj]
    refine Finset.sum_congr rfl fun l hl => ?_
    rw [hsymm l (Finset.mem_range.mp hl).le j hj.le, mul_comm]
  have hcorner : ∑ l ∈ Finset.range n, coordinate product l * b l n = b n n - schur := by
    rw [hschur, sub_sub_cancel]
    exact Finset.sum_congr rfl fun l _ => mul_comm _ _
  have hold (i : ℕ) (hi : i < n) (j : ℕ) :
      ∑ l ∈ Finset.range n, entry (Matrix.bordered inverse product schur) i l * b l j =
        ∑ l ∈ Finset.range n, entry inverse i l * b l j +
          coordinate product i / schur * ∑ l ∈ Finset.range n, coordinate product l * b l j := by
    rw [Finset.mul_sum, ← Finset.sum_add_distrib]
    refine Finset.sum_congr rfl fun l hl => ?_
    rw [entry_bordered h hp schur hi (Finset.mem_range.mp hl)]
    ring
  have hnew (j : ℕ) :
      ∑ l ∈ Finset.range n, entry (Matrix.bordered inverse product schur) n l * b l j =
        -(∑ l ∈ Finset.range n, coordinate product l * b l j) / schur := by
    rw [neg_div, Finset.sum_div, ← Finset.sum_neg_distrib]
    refine Finset.sum_congr rfl fun l hl => ?_
    rw [entry_bordered_last_row h hp schur (Finset.mem_range.mp hl)]
    ring
  intro i hi j hj
  rw [Finset.sum_range_succ]
  rcases Nat.lt_succ_iff_lt_or_eq.mp hi with hi | rfl
  · rw [hold i hi, entry_bordered_last_column h hp schur hi]
    rcases Nat.lt_succ_iff_lt_or_eq.mp hj with hj | rfl
    · rw [hb i hi j hj, hrow j hj]
      ring
    · rw [hcolumn i hi, hcorner, if_neg hi.ne]
      field_simp
      ring
  · rw [hnew, entry_bordered_corner h hp schur]
    rcases Nat.lt_succ_iff_lt_or_eq.mp hj with hj | rfl
    · rw [hrow j hj, if_neg hj.ne']
      ring
    · rw [hcorner, if_pos rfl]
      field_simp
      ring

/-- The index in a list of the entry that is at `i` once the entry `k` has been taken out. -/
def skip (k i : ℕ) : ℕ := if i < k then i else i + 1

theorem skip_ne (k i : ℕ) : skip k i ≠ k := by
  unfold skip
  split_ifs <;> omega

theorem skip_lt {k i n : ℕ} (h : i < n) : skip k i < n + 1 := by
  unfold skip
  split_ifs <;> omega

theorem skip_inj {k i j : ℕ} : skip k i = skip k j ↔ i = j := by
  unfold skip
  split_ifs <;> omega

theorem getElem?_eraseIdx_skip {β : Type} (xs : List β) (k i : ℕ) :
    (xs.eraseIdx k)[i]? = xs[skip k i]? := by
  rw [List.getElem?_eraseIdx, skip]
  split_ifs <;> rfl

theorem coordinate_eraseIdx (xs : List α) (k i : ℕ) :
    coordinate (xs.eraseIdx k) i = coordinate xs (skip k i) := by
  rw [coordinate, getElem?_eraseIdx_skip, coordinate]

theorem sum_skip {n k : ℕ} (h : k ≤ n) (f : ℕ → α) :
    ∑ l ∈ Finset.range n, f (skip k l) = ∑ l ∈ Finset.range (n + 1), f l - f k := by
  have hperm : ∑ l ∈ Finset.range n, f (skip k l) = ∑ l ∈ (Finset.range (n + 1)).erase k, f l := by
    refine Finset.sum_nbij (skip k) ?_ ?_ ?_ fun _ _ => rfl
    · intro l hl
      exact Finset.mem_erase.mpr
        ⟨skip_ne k l, Finset.mem_range.mpr (skip_lt (Finset.mem_range.mp hl))⟩
    · intro l _ l' _ hll
      exact skip_inj.mp hll
    · intro l hl
      obtain ⟨hlk, hl⟩ := Finset.mem_erase.mp hl
      have hl := Finset.mem_range.mp hl
      rcases Nat.lt_or_gt_of_ne hlk with hlt | hgt
      · exact ⟨l, Finset.mem_coe.mpr (Finset.mem_range.mpr (by omega)), if_pos hlt⟩
      · refine ⟨l - 1, Finset.mem_coe.mpr (Finset.mem_range.mpr (by omega)), ?_⟩
        rw [skip, if_neg (by omega)]
        omega
  rw [hperm, Finset.sum_erase_eq_sub (Finset.mem_range.mpr (by omega))]

theorem isSquare_downdated {inverse : List (List α)} {n k : ℕ} (h : IsSquare (n + 1) inverse)
    (hk : k < n + 1) : IsSquare n (downdated inverse k) := by
  have hpivot : (inverse[k]?.getD []).length = n + 1 := by
    rw [List.getElem?_eq_getElem (h.length_eq ▸ hk), Option.getD_some]
    exact h.length_row _ (List.getElem_mem _)
  constructor
  · simp [downdated, List.length_eraseIdx, h.length_eq, hk]
  · intro row hrow
    obtain ⟨old, hold, rfl⟩ := List.mem_map.mp hrow
    have hlen := h.length_row old (List.mem_of_mem_eraseIdx hold)
    simp [List.length_eraseIdx, hlen, hpivot, hk]

theorem entry_downdated {inverse : List (List α)} {n k i j : ℕ} (h : IsSquare (n + 1) inverse)
    (hk : k < n + 1) (hi : i < n) (hj : j < n) :
    entry (downdated inverse k) i j =
      entry inverse (skip k i) (skip k j) -
        entry inverse (skip k i) k * entry inverse k (skip k j) / entry inverse k k := by
  have hil : skip k i < inverse.length := h.length_eq ▸ skip_lt hi
  have hkl : k < inverse.length := h.length_eq ▸ hk
  have hrow := h.length_row _ (List.getElem_mem hil)
  have hpivot := h.length_row _ (List.getElem_mem hkl)
  have hget : (downdated inverse k)[i]? = some (List.zipWith
      (fun x p => x - coordinate inverse[skip k i] k * p / entry inverse k k)
      (inverse[skip k i].eraseIdx k) (inverse[k].eraseIdx k)) := by
    simp only [downdated, List.getElem?_map, getElem?_eraseIdx_skip,
      List.getElem?_eq_getElem hil, List.getElem?_eq_getElem hkl, Option.map_some, Option.getD_some]
  rw [entry_of_getElem? hget, coordinate_zipWith (by rw [List.length_eraseIdx]; split_ifs <;> omega)
    (by rw [List.length_eraseIdx]; split_ifs <;> omega), coordinate_eraseIdx, coordinate_eraseIdx]
  simp only [entry_of_getElem? (List.getElem?_eq_getElem hil),
    entry_of_getElem? (List.getElem?_eq_getElem hkl)]

theorem IsInverse.downdated {inverse : List (List α)} {n k : ℕ} {b : ℕ → ℕ → α}
    (h : IsSquare (n + 1) inverse) (hb : IsInverse (n + 1) (entry inverse) b) (hk : k < n + 1)
    (hne : entry inverse k k ≠ 0) :
    IsInverse n (entry (downdated inverse k)) fun i j => b (skip k i) (skip k j) := by
  intro i hi j hj
  have hrow (i' : ℕ) (hi' : i' < n + 1) :
      ∑ l ∈ Finset.range n, entry inverse i' (skip k l) * b (skip k l) (skip k j) =
        (if i' = skip k j then 1 else 0) - entry inverse i' k * b k (skip k j) := by
    rw [sum_skip (Nat.lt_succ_iff.mp hk) fun l => entry inverse i' l * b l (skip k j),
      hb i' hi' _ (skip_lt hj)]
  calc ∑ l ∈ Finset.range n, entry (Matrix.downdated inverse k) i l * b (skip k l) (skip k j)
      = ∑ l ∈ Finset.range n, entry inverse (skip k i) (skip k l) * b (skip k l) (skip k j) -
          entry inverse (skip k i) k / entry inverse k k *
            ∑ l ∈ Finset.range n, entry inverse k (skip k l) * b (skip k l) (skip k j) := by
        rw [Finset.mul_sum, ← Finset.sum_sub_distrib]
        refine Finset.sum_congr rfl fun l hl => ?_
        rw [entry_downdated h hk hi (Finset.mem_range.mp hl)]
        ring
    _ = if i = j then 1 else 0 := by
        rw [hrow _ (skip_lt hi), hrow k hk, if_neg (skip_ne k j).symm]
        simp only [skip_inj]
        field_simp
        ring

end MapInference.Matrix
