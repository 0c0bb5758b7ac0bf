import MapInference.Proofs.ActiveSet.Inverse

/-!
# Insertions into active sets

A configuration is inserted when its Schur complement is not too small, and then the bordered
inverse is an inverse again. A complement of zero means that the indicator of the configuration is
an affine combination of the active ones; it is not one any more when a configuration that takes
part in the combination is no longer active.
-/

namespace MapInference

open Scalar

namespace ActiveSet

open MapInference.Matrix (entry skip IsSquare IsInverse)

variable {α C : Type} [ExactScalar α]

/-- The numbers of variables that some configurations have in common with a further one. -/
def commons (o : Oracle α C) (cs : List C) (c : C) : List α :=
  cs.map fun d => ofNat (o.common c d)

def product (o : Oracle α C) (s : ActiveSet α C) (c : C) : List α :=
  Matrix.mulColumn s.inverse (1 :: commons o s.configurations c)

/-- The coefficients of the combination of the active indicators nearest to that of a
configuration. -/
def coefficients (o : Oracle α C) (s : ActiveSet α C) (c : C) : List α := (product o s c).tail

def schur (o : Oracle α C) (s : ActiveSet α C) (c : C) : α :=
  ofNat (o.common c c) - dot (1 :: commons o s.configurations c) (product o s c)

theorem insert_of_lt {o : Oracle α C} {s : ActiveSet α C} {c : C} (h : s.inverse ≠ [])
    (hlt : |schur o s c| < Matrix.pivotTolerance) :
    insert o s c = .dependent (coefficients o s c) := by
  rw [insert, if_neg (by simpa using h)]
  exact if_pos hlt

theorem insert_of_not_lt {o : Oracle α C} {s : ActiveSet α C} {c : C} (h : s.inverse ≠ [])
    (hlt : ¬ |schur o s c| < Matrix.pivotTolerance) :
    insert o s c = .inserted ⟨s.configurations ++ [c], s.weights ++ [0],
      Matrix.bordered s.inverse (product o s c) (schur o s c)⟩ := by
  rw [insert, if_neg (by simpa using h)]
  exact if_neg hlt

namespace HasInverse

variable {o : Oracle α C} {IsConfiguration : C → Prop} {s : ActiveSet α C} {c : C}

/-- The coefficients are stationary for the products of the indicators with that of the
configuration. -/
theorem exists_product_eq (ho : o.HasInnerProducts IsConfiguration)
    (h : s.HasInverse o IsConfiguration) (c : C) :
    ∃ multiplier, product o s c = multiplier :: coefficients o s c ∧
      IsStationary o s.configurations (commons o s.configurations c) multiplier
        (coefficients o s c) := by
  obtain ⟨multiplier, weights, hproduct, hstationary⟩ :=
    h.isStationary_mulColumn ho (commons o s.configurations c)
  have hweights : coefficients o s c = weights := congrArg List.tail hproduct
  exact ⟨multiplier, hweights ▸ hproduct, hweights ▸ hstationary⟩

theorem length_coefficients (ho : o.HasInnerProducts IsConfiguration)
    (h : s.HasInverse o IsConfiguration) (c : C) :
    (coefficients o s c).length = s.configurations.length :=
  (h.exists_product_eq ho c).choose_spec.2.length_eq

theorem sum_coefficients (ho : o.HasInnerProducts IsConfiguration)
    (h : s.HasInverse o IsConfiguration) (c : C) : (coefficients o s c).sum = 1 :=
  (h.exists_product_eq ho c).choose_spec.2.sum_eq

/-- The Schur complement is the squared distance from the affine hull of the active indicators. -/
theorem schur_eq_sum_sq (ho : o.HasInnerProducts IsConfiguration)
    (h : s.HasInverse o IsConfiguration) (hc : IsConfiguration c) :
    schur o s c = ∑ t ∈ Finset.range o.numVariables, (coordinate (o.indicator c).1 t -
      dot (coefficients o s c) (o.column s.configurations t)) ^ 2 := by
  obtain ⟨multiplier, hproduct, hstationary⟩ := h.exists_product_eq ho c
  have hcommons : dot (coefficients o s c) (commons o s.configurations c) =
      ∑ t ∈ Finset.range o.numVariables, dot (coefficients o s c) (o.column s.configurations t) *
        coordinate (o.indicator c).1 t := by
    rw [← sum_mul_dot_column hstationary.length_eq, dot_eq_sum hstationary.length_eq.le]
    refine Finset.sum_congr rfl fun i hi => ?_
    have hget := List.getElem?_eq_getElem (Finset.mem_range.mp hi)
    have hd := h.isConfiguration _ (List.getElem_mem (Finset.mem_range.mp hi))
    rw [commons, coordinate_map hget, ofNat_eq_cast, ho.common_comm hc hd, ho.common_eq_sum hd hc]
    simp only [Oracle.coordinate_column hget]
  have hschur : schur o s c = o.common c c -
      (multiplier + dot (coefficients o s c) (commons o s.configurations c)) := by
    rw [schur, hproduct, dot_comm (coefficients o s c)]
    simp [dot]
  have hdot := hstationary.dot_scores hstationary.length_eq
  have hsquares : ∑ t ∈ Finset.range o.numVariables, (coordinate (o.indicator c).1 t -
      dot (coefficients o s c) (o.column s.configurations t)) ^ 2 =
      ∑ t ∈ Finset.range o.numVariables, coordinate (o.indicator c).1 t *
          coordinate (o.indicator c).1 t -
        2 * ∑ t ∈ Finset.range o.numVariables, dot (coefficients o s c)
          (o.column s.configurations t) * coordinate (o.indicator c).1 t +
        ∑ t ∈ Finset.range o.numVariables, dot (coefficients o s c)
          (o.column s.configurations t) *
            dot (coefficients o s c) (o.column s.configurations t) := by
    rw [Finset.mul_sum, ← Finset.sum_sub_distrib, ← Finset.sum_add_distrib]
    exact Finset.sum_congr rfl fun t _ => by ring
  rw [hsquares, hschur, ho.common_eq_sum hc hc, hcommons]
  rw [hcommons, hstationary.sum_eq, mul_one] at hdot
  linarith

theorem dot_coefficients_of_schur_eq_zero (ho : o.HasInnerProducts IsConfiguration)
    (h : s.HasInverse o IsConfiguration) (hc : IsConfiguration c) (hzero : schur o s c = 0) {t : ℕ}
    (ht : t < o.numVariables) :
    dot (coefficients o s c) (o.column s.configurations t) = coordinate (o.indicator c).1 t := by
  rw [h.schur_eq_sum_sq ho hc, Finset.sum_eq_zero_iff_of_nonneg fun _ _ => sq_nonneg _] at hzero
  have hsq := hzero t (Finset.mem_range.mpr ht)
  exact (sub_eq_zero.mp (pow_eq_zero_iff two_ne_zero |>.mp hsq)).symm

theorem coordinate_border_of_mem (ho : o.HasInnerProducts IsConfiguration) {cs : List C}
    (hcs : ∀ d ∈ cs, IsConfiguration d) {j : ℕ} (hj : j < cs.length) {i : ℕ}
    (hi : i < cs.length + 1) :
    coordinate (1 :: commons o cs cs[j]) i = entry (borderedMatrix o cs) i (j + 1) := by
  have hgj := List.getElem?_eq_getElem hj
  cases i with
  | zero =>
    rw [entry_borderedMatrix_zero_succ, hgj]
    rfl
  | succ i =>
    have hi : i < cs.length := Nat.succ_lt_succ_iff.mp hi
    have hgi := List.getElem?_eq_getElem hi
    rw [entry_borderedMatrix_succ_succ, hgi, hgj, coordinate_cons_succ, commons, coordinate_map hgi]
    exact ho.common_comm (hcs _ (List.getElem_mem hj)) (hcs _ (List.getElem_mem hi))

theorem schur_eq_zero_of_mem (ho : o.HasInnerProducts IsConfiguration)
    (h : s.HasInverse o IsConfiguration) (hmem : c ∈ s.configurations) : schur o s c = 0 := by
  obtain ⟨j, hj, rfl⟩ := List.mem_iff_getElem.mp hmem
  let k := s.configurations.length
  have hborder (i : ℕ) (hi : i ∈ Finset.range (k + 1)) :=
    coordinate_border_of_mem ho h.isConfiguration hj (Finset.mem_range.mp hi)
  have hproduct (i : ℕ) (hi : i ∈ Finset.range (k + 1)) :
      coordinate (product o s s.configurations[j]) i = if i = j + 1 then 1 else 0 := by
    have hi := Finset.mem_range.mp hi
    rw [product, Matrix.coordinate_mulColumn h.isSquare hi,
      ← h.isInverse i hi (j + 1) (Nat.succ_lt_succ hj)]
    exact Finset.sum_congr rfl fun l hl => by rw [hborder l hl]
  have hself : j + 1 ∈ Finset.range (k + 1) := Finset.mem_range.mpr (Nat.succ_lt_succ hj)
  have hgj := List.getElem?_eq_getElem hj
  rw [schur, dot_eq_sum (n := k + 1) (by simp [commons, k]),
    Finset.sum_congr rfl fun i hi => by rw [hproduct i hi, mul_ite, mul_one, mul_zero],
    Finset.sum_ite_eq', if_pos hself, coordinate_cons_succ, commons, coordinate_map hgj, sub_self]

theorem bordered (ho : o.HasInnerProducts IsConfiguration) (h : s.HasInverse o IsConfiguration)
    (hc : IsConfiguration c) (hne : schur o s c ≠ 0) (weights : List α) :
    HasInverse o IsConfiguration ⟨s.configurations ++ [c], weights,
      Matrix.bordered s.inverse (product o s c) (schur o s c)⟩ := by
  have hmem : c ∉ s.configurations := fun hmem => hne (h.schur_eq_zero_of_mem ho hmem)
  let k := s.configurations.length
  have hconf : ∀ d ∈ s.configurations ++ [c], IsConfiguration d := by
    intro d hd
    rcases List.mem_append.mp hd with hd | hd
    · exact h.isConfiguration d hd
    · exact List.mem_singleton.mp hd ▸ hc
  have hlen : (s.configurations ++ [c]).length = k + 1 := List.length_append
  have hproduct : (product o s c).length = k + 1 := by
    rw [product, Matrix.length_mulColumn, h.isSquare.length_eq]
  have hold (i : ℕ) (hi : i < k + 1) (j : ℕ) (hj : j < k + 1) :=
    entry_borderedMatrix_append o c (Nat.lt_succ_iff.mp hi) (Nat.lt_succ_iff.mp hj)
  have hlast : (s.configurations ++ [c])[k]? = some c := List.getElem?_concat_length
  have hnew (i : ℕ) (hi : i < k + 1) :
      entry (borderedMatrix o (s.configurations ++ [c])) i (k + 1) =
        coordinate (1 :: commons o s.configurations c) i := by
    have hborder := coordinate_border_of_mem ho hconf (j := k) (by omega) (i := i) (by omega)
    rw [← hborder, List.getElem_concat_length rfl, commons, List.map_append, ← List.cons_append]
    exact coordinate_append_left _ (by simpa [commons] using hi)
  refine ⟨by simp, hconf, ?_, ?_, ?_⟩
  · exact h.nodup.append (List.nodup_singleton c) (List.disjoint_singleton.mpr hmem)
  · change IsSquare ((s.configurations ++ [c]).length + 1) _
    rw [hlen]
    exact Matrix.isSquare_bordered h.isSquare hproduct _
  · change IsInverse ((s.configurations ++ [c]).length + 1) _ _
    rw [hlen]
    refine IsInverse.bordered h.isSquare hproduct ?_ ?_ ?_ ?_ hne
    · intro i hi j hj
      rw [← h.isInverse i hi j hj]
      refine Finset.sum_congr rfl fun l hl => ?_
      rw [hold l (Finset.mem_range.mp hl) j hj]
    · exact fun i _ j _ => entry_borderedMatrix_symm o ho hconf
    · intro i hi
      rw [hnew i hi, ← h.sum_mul_mulColumn _ hi]
      refine Finset.sum_congr rfl fun l hl => ?_
      rw [hold i hi l (Finset.mem_range.mp hl), product]
    · have hcorner : entry (borderedMatrix o (s.configurations ++ [c])) (k + 1) (k + 1) =
          o.common c c := by
        rw [entry_borderedMatrix_succ_succ, hlast]
        rfl
      rw [schur, hcorner, ofNat_eq_cast, dot_eq_sum (n := k + 1) (by simp [commons, k])]
      congr 1
      refine Finset.sum_congr rfl fun l hl => ?_
      rw [hnew l (Finset.mem_range.mp hl)]

theorem coefficients_of_length_eq_one (ho : o.HasInnerProducts IsConfiguration)
    (h : s.HasInverse o IsConfiguration) (hone : s.configurations.length = 1) (c : C) :
    coefficients o s c = [1] := by
  obtain ⟨x, hx⟩ := List.length_eq_one_iff.mp ((h.length_coefficients ho c).trans hone)
  have hsum := h.sum_coefficients ho c
  rw [hx, List.sum_singleton] at hsum
  rw [hx, hsum]

/-- Beside a single configuration, the Schur complement is the squared distance from it. -/
theorem schur_singleton (ho : o.HasInnerProducts IsConfiguration)
    (h : s.HasInverse o IsConfiguration) (hc : IsConfiguration c) {d : C}
    (hd : s.configurations = [d]) :
    schur o s c = ∑ t ∈ Finset.range o.numVariables,
      (coordinate (o.indicator c).1 t - coordinate (o.indicator d).1 t) ^ 2 := by
  have hone : s.configurations.length = 1 := congrArg List.length hd
  rw [h.schur_eq_sum_sq ho hc, h.coefficients_of_length_eq_one ho hone, hd]
  simp [dot, Oracle.column]

theorem schur_singleton_eq_zero_iff (ho : o.HasInnerProducts IsConfiguration)
    (h : s.HasInverse o IsConfiguration) (hc : IsConfiguration c) {d : C}
    (hd : s.configurations = [d]) :
    schur o s c = 0 ↔ (o.indicator c).1 = (o.indicator d).1 := by
  have hdconf : IsConfiguration d := h.isConfiguration d (hd ▸ List.mem_singleton_self d)
  rw [h.schur_singleton ho hc hd]
  constructor
  · intro hzero
    rw [Finset.sum_eq_zero_iff_of_nonneg fun _ _ => sq_nonneg _] at hzero
    refine eq_of_coordinate ?_ fun t ht => ?_
    · rw [(ho.length_indicator hc).1, (ho.length_indicator hdconf).1]
    · rw [(ho.length_indicator hc).1] at ht
      exact sub_eq_zero.mp (pow_eq_zero_iff two_ne_zero |>.mp (hzero t (Finset.mem_range.mpr ht)))
  · intro heq
    refine Finset.sum_eq_zero fun t _ => ?_
    rw [heq, sub_self, zero_pow two_ne_zero]

/-- Beside a single configuration, the Schur complement is an integer that is not negative. -/
theorem one_le_schur_singleton (ho : o.HasInnerProducts IsConfiguration)
    (h : s.HasInverse o IsConfiguration) (hc : IsConfiguration c) {d : C}
    (hd : s.configurations = [d]) (hne : schur o s c ≠ 0) : 1 ≤ schur o s c := by
  have hdconf : IsConfiguration d := h.isConfiguration d (hd ▸ List.mem_singleton_self d)
  have hschur := h.schur_singleton ho hc hd
  have hint : schur o s c = ((o.common c c + o.common d d - 2 * o.common c d : ℤ) : α) := by
    push_cast
    rw [hschur, ho.common_eq_sum hc hc, ho.common_eq_sum hdconf hdconf, ho.common_eq_sum hc hdconf,
      Finset.mul_sum, ← Finset.sum_add_distrib, ← Finset.sum_sub_distrib]
    exact Finset.sum_congr rfl fun t _ => by ring
  have hpos : 0 < schur o s c := by
    refine lt_of_le_of_ne ?_ hne.symm
    rw [hschur]
    exact Finset.sum_nonneg fun t _ => sq_nonneg _
  rw [hint] at hpos ⊢
  exact_mod_cast Int.add_one_le_iff.mpr (Int.cast_pos.mp hpos)

theorem schur_singleton_eq_zero_of_lt (ho : o.HasInnerProducts IsConfiguration)
    (h : s.HasInverse o IsConfiguration) (hc : IsConfiguration c) {d : C}
    (hd : s.configurations = [d]) (hlt : |schur o s c| < Matrix.pivotTolerance) :
    schur o s c = 0 := by
  by_contra hne
  have hle := h.one_le_schur_singleton ho hc hd hne
  have hlarge : (1 : α) < Matrix.pivotTolerance := (hle.trans (le_abs_self _)).trans_lt hlt
  rw [Matrix.pivotTolerance_eq] at hlarge
  norm_num at hlarge

/-- When indicators determine their configurations, what depends on the active ones depends on
several of them. -/
theorem two_le_length_of_lt (ho : o.HasIndicators IsConfiguration)
    (h : s.HasInverse o IsConfiguration) (hc : IsConfiguration c) (hmem : c ∉ s.configurations)
    (hlt : |schur o s c| < Matrix.pivotTolerance) : 2 ≤ s.configurations.length := by
  by_contra hone
  have hpos := h.length_pos
  obtain ⟨d, hd⟩ := List.length_eq_one_iff.mp (by omega : s.configurations.length = 1)
  have hdconf : IsConfiguration d := h.isConfiguration d (hd ▸ List.mem_singleton_self d)
  have hzero := h.schur_singleton_eq_zero_of_lt ho.hasInnerProducts hc hd hlt
  rw [h.schur_singleton_eq_zero_iff ho.hasInnerProducts hc hd] at hzero
  apply hmem
  rw [hd, List.mem_singleton]
  exact ho.eq_of_indicator_eq hc hdconf hzero

/-- An affine combination of the active indicators that needs one of them is none of the others. -/
theorem schur_ne_zero_of_eraseIdx (ho : o.HasInnerProducts IsConfiguration)
    (h : s.HasInverse o IsConfiguration) (hc : IsConfiguration c) {rest : ActiveSet α C}
    (hrest : rest.HasInverse o IsConfiguration) {i : ℕ} (hi : i < s.configurations.length)
    (hcs : rest.configurations = s.configurations.eraseIdx i)
    (hne : coordinate (coefficients o s c) i ≠ 0) (hzero : schur o s c = 0) :
    schur o rest c ≠ 0 := by
  intro hzero'
  apply hne
  let k := s.configurations.length
  have hk : k - 1 + 1 = k := Nat.sub_add_cancel (Nat.one_le_of_lt hi)
  have hlen : rest.configurations.length = k - 1 := by rw [hcs, List.length_eraseIdx_of_lt hi]
  have hlen' := hrest.length_coefficients ho c
  -- The second combination as one of all active indicators.
  let others := (coefficients o rest c).insertIdx i 0
  have hinsert : i ≤ (coefficients o rest c).length := by
    rw [hlen', hlen]
    exact Nat.le_sub_one_of_lt hi
  have hothers (l : ℕ) : coordinate (coefficients o rest c) l = coordinate others (skip i l) := by
    rw [← Matrix.coordinate_eraseIdx, List.eraseIdx_insertIdx_self]
  have hself : coordinate others i = 0 := by
    simp [coordinate, others, List.getElem?_insertIdx_self, hinsert]
  have hsum (f : ℕ → α) : ∑ l ∈ Finset.range (k - 1),
      coordinate (coefficients o rest c) l * f (skip i l) =
        ∑ l ∈ Finset.range k, coordinate others l * f l := by
    simp only [hothers]
    rw [Matrix.sum_skip (by omega : i ≤ k - 1) fun l => coordinate others l * f l, hself, zero_mul,
      sub_zero, hk]
  have hbalanced := h.eq_zero_of_balanced ho
    (u := fun l => coordinate (coefficients o s c) l - coordinate others l) ?_ ?_ hi
  · rw [hself, sub_zero] at hbalanced
    exact hbalanced
  · have hone := hrest.sum_coefficients ho c
    rw [sum_eq_sum_coordinate (hlen'.trans hlen).le] at hone
    have hothersOne := hsum fun _ => 1
    simp only [mul_one] at hothersOne
    rw [Finset.sum_sub_distrib, ← sum_eq_sum_coordinate (h.length_coefficients ho c).le,
      h.sum_coefficients ho c, ← hothersOne, hone, sub_self]
  · intro t ht
    have hfirst := h.dot_coefficients_of_schur_eq_zero ho hc hzero ht
    have hsecond := hrest.dot_coefficients_of_schur_eq_zero ho hc hzero' ht
    rw [dot_eq_sum (h.length_coefficients ho c).le] at hfirst
    rw [dot_eq_sum (hlen'.trans hlen).le, hcs] at hsecond
    simp only [Oracle.coordinate_column_eraseIdx] at hsecond
    rw [hsum fun l => coordinate (o.column s.configurations t) l] at hsecond
    simp only [sub_mul]
    rw [Finset.sum_sub_distrib, hfirst, hsecond, sub_self]

end HasInverse
end ActiveSet
end MapInference
