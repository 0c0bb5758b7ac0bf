import MapInference.Proofs.ActiveSet.Elimination
import MapInference.Proofs.Oracle.Indicators
import MapInference.ActiveSet

/-!
# Active sets with their inverses

The bordered matrix of the active configurations is the system of equations for the weights that
are optimal without regard to their signs. An active set with an inverse of it solves these
equations, also for the indicator of a further configuration: then the Schur complement is the
squared distance of that indicator from the affine hull of the active ones.
-/

namespace MapInference

open Scalar
variable {α C : Type} [ExactScalar α] {o : Oracle α C} {IsConfiguration : C → Prop}

namespace Oracle

/-- The coordinate `t` of the indicators of some configurations. -/
def column (o : Oracle α C) (cs : List C) (t : ℕ) : List α :=
  cs.map fun c => coordinate (o.indicator c).1 t

theorem coordinate_column {cs : List C} {i : ℕ} {c : C} (h : cs[i]? = some c) (t : ℕ) :
    coordinate (o.column cs t) i = coordinate (o.indicator c).1 t :=
  coordinate_map h

theorem coordinate_column_eraseIdx (cs : List C) (k t i : ℕ) :
    coordinate (o.column (cs.eraseIdx k) t) i = coordinate (o.column cs t) (Matrix.skip k i) := by
  simp only [column, coordinate, List.getElem?_map, Matrix.getElem?_eraseIdx_skip]

namespace HasInnerProducts

theorem common_eq_sum (h : o.HasInnerProducts IsConfiguration) {c d : C} (hc : IsConfiguration c)
    (hd : IsConfiguration d) :
    (o.common c d : α) = ∑ t ∈ Finset.range o.numVariables,
      coordinate (o.indicator c).1 t * coordinate (o.indicator d).1 t := by
  rw [h.common_eq hc hd, dot_eq_sum (h.length_indicator hc).1.le]

theorem common_comm (h : o.HasInnerProducts IsConfiguration) {c d : C} (hc : IsConfiguration c)
    (hd : IsConfiguration d) : (o.common c d : α) = o.common d c := by
  rw [h.common_eq hc hd, h.common_eq hd hc, dot_comm]

end HasInnerProducts
end Oracle

namespace ActiveSet

open MapInference.Matrix (entry skip IsSquare IsInverse)

section BorderedMatrix

variable (o : Oracle α C) (cs : List C) (i j : ℕ)

theorem isSquare_borderedMatrix : IsSquare (cs.length + 1) (borderedMatrix o cs) := by
  refine ⟨by simp [borderedMatrix], fun row hrow => ?_⟩
  rcases List.mem_cons.mp hrow with rfl | hrow
  · simp
  · obtain ⟨c, _, rfl⟩ := List.mem_map.mp hrow
    simp

theorem entry_borderedMatrix_zero_zero : entry (borderedMatrix o cs) 0 0 = 0 := rfl

theorem entry_borderedMatrix_zero_succ :
    entry (borderedMatrix o cs) 0 (j + 1) = (cs[j]?.map fun _ => 1).getD 0 := by
  simp only [borderedMatrix, entry, coordinate, List.getElem?_cons_zero, Option.getD_some,
    List.getElem?_cons_succ, List.getElem?_map]

theorem entry_borderedMatrix_succ_zero :
    entry (borderedMatrix o cs) (i + 1) 0 = (cs[i]?.map fun _ => 1).getD 0 := by
  cases h : cs[i]? <;> simp [borderedMatrix, entry, coordinate, h]

theorem entry_borderedMatrix_succ_succ :
    entry (borderedMatrix o cs) (i + 1) (j + 1) =
      (cs[i]?.bind fun c => cs[j]?.map fun d => (o.common c d : α)).getD 0 := by
  cases h : cs[i]? <;> simp [borderedMatrix, entry, coordinate, h]

theorem entry_borderedMatrix_eraseIdx (k : ℕ) :
    entry (borderedMatrix o (cs.eraseIdx k)) i j =
      entry (borderedMatrix o cs) (skip (k + 1) i) (skip (k + 1) j) := by
  have hzero : skip (k + 1) 0 = 0 := rfl
  have hsucc (l : ℕ) : skip (k + 1) (l + 1) = skip k l + 1 := by
    unfold skip
    split_ifs <;> omega
  cases i <;> cases j <;>
    simp only [hzero, hsucc, entry_borderedMatrix_zero_zero, entry_borderedMatrix_zero_succ,
      entry_borderedMatrix_succ_zero, entry_borderedMatrix_succ_succ, Matrix.getElem?_eraseIdx_skip]

variable {cs i j}

theorem entry_borderedMatrix_append (c : C) (hi : i ≤ cs.length) (hj : j ≤ cs.length) :
    entry (borderedMatrix o (cs ++ [c])) i j = entry (borderedMatrix o cs) i j := by
  have hget (l : ℕ) (hl : l + 1 ≤ cs.length) : (cs ++ [c])[l]? = cs[l]? :=
    List.getElem?_append_left hl
  cases i with
  | zero =>
    cases j with
    | zero => rfl
    | succ j => rw [entry_borderedMatrix_zero_succ, hget j hj, entry_borderedMatrix_zero_succ]
  | succ i =>
    cases j with
    | zero => rw [entry_borderedMatrix_succ_zero, hget i hi, entry_borderedMatrix_succ_zero]
    | succ j =>
      rw [entry_borderedMatrix_succ_succ, hget i hi, hget j hj, entry_borderedMatrix_succ_succ]

theorem entry_borderedMatrix_symm (h : o.HasInnerProducts IsConfiguration)
    (hcs : ∀ c ∈ cs, IsConfiguration c) :
    entry (borderedMatrix o cs) i j = entry (borderedMatrix o cs) j i := by
  cases i with
  | zero =>
    cases j with
    | zero => rfl
    | succ j => rw [entry_borderedMatrix_zero_succ, entry_borderedMatrix_succ_zero]
  | succ i =>
    cases j with
    | zero => rw [entry_borderedMatrix_zero_succ, entry_borderedMatrix_succ_zero]
    | succ j =>
      rw [entry_borderedMatrix_succ_succ, entry_borderedMatrix_succ_succ]
      cases hi : cs[i]? with
      | none => cases cs[j]? <;> rfl
      | some c =>
        cases hj : cs[j]? with
        | none => rfl
        | some d =>
          exact h.common_comm (hcs c (List.mem_of_getElem? hi)) (hcs d (List.mem_of_getElem? hj))

theorem sum_entry_borderedMatrix_zero (x : ℕ → α) :
    ∑ l ∈ Finset.range (cs.length + 1), entry (borderedMatrix o cs) 0 l * x l =
      ∑ l ∈ Finset.range cs.length, x (l + 1) := by
  rw [Finset.sum_range_succ', entry_borderedMatrix_zero_zero, zero_mul, add_zero]
  refine Finset.sum_congr rfl fun l hl => ?_
  rw [entry_borderedMatrix_zero_succ, List.getElem?_eq_getElem (Finset.mem_range.mp hl),
    Option.map_some, Option.getD_some, one_mul]

/-- The other rows add the multiplier to the product of an indicator with the weighted sum of all
indicators. -/
theorem sum_entry_borderedMatrix_succ (h : o.HasInnerProducts IsConfiguration)
    (hcs : ∀ c ∈ cs, IsConfiguration c) (x : ℕ → α) (hi : i < cs.length) :
    ∑ l ∈ Finset.range (cs.length + 1), entry (borderedMatrix o cs) (i + 1) l * x l =
      x 0 + ∑ t ∈ Finset.range o.numVariables, coordinate (o.column cs t) i *
        ∑ l ∈ Finset.range cs.length, x (l + 1) * coordinate (o.column cs t) l := by
  have hgi := List.getElem?_eq_getElem hi
  have hcommon (l : ℕ) (hl : l < cs.length) :
      entry (borderedMatrix o cs) (i + 1) (l + 1) = ∑ t ∈ Finset.range o.numVariables,
        coordinate (o.column cs t) i * coordinate (o.column cs t) l := by
    have hgl := List.getElem?_eq_getElem hl
    rw [entry_borderedMatrix_succ_succ, hgi, hgl]
    simp only [Oracle.coordinate_column hgi, Oracle.coordinate_column hgl]
    exact h.common_eq_sum (hcs _ (List.getElem_mem hi)) (hcs _ (List.getElem_mem hl))
  rw [Finset.sum_range_succ', entry_borderedMatrix_succ_zero, hgi, Option.map_some,
    Option.getD_some, one_mul, add_comm]
  congr 1
  calc ∑ l ∈ Finset.range cs.length, entry (borderedMatrix o cs) (i + 1) (l + 1) * x (l + 1)
      = ∑ l ∈ Finset.range cs.length, ∑ t ∈ Finset.range o.numVariables,
          coordinate (o.column cs t) i * (x (l + 1) * coordinate (o.column cs t) l) := by
        refine Finset.sum_congr rfl fun l hl => ?_
        rw [hcommon l (Finset.mem_range.mp hl), Finset.sum_mul]
        exact Finset.sum_congr rfl fun t _ => by ring
    _ = _ := by
        rw [Finset.sum_comm]
        exact Finset.sum_congr rfl fun t _ => (Finset.mul_sum _ _ _).symm

end BorderedMatrix

/-- Weights of some configurations that are optimal for their scores without regard to the signs,
and the multiplier of the condition that the weights sum to one. -/
structure IsStationary (o : Oracle α C) (cs : List C) (scores : List α) (multiplier : α)
    (weights : List α) : Prop where
  length_eq : weights.length = cs.length
  sum_eq : weights.sum = 1
  score_eq {i : ℕ} : i < cs.length →
    multiplier + ∑ t ∈ Finset.range o.numVariables,
      coordinate (o.column cs t) i * dot weights (o.column cs t) = coordinate scores i

theorem isStationary_of_sum_eq (h : o.HasInnerProducts IsConfiguration) {cs : List C}
    (hcs : ∀ c ∈ cs, IsConfiguration c) {scores : List α} {multiplier : α} {weights : List α}
    (hlen : weights.length = cs.length)
    (hsum : ∀ i < cs.length + 1, ∑ l ∈ Finset.range (cs.length + 1),
      entry (borderedMatrix o cs) i l * coordinate (multiplier :: weights) l =
        coordinate (1 :: scores) i) : IsStationary o cs scores multiplier weights := by
  refine ⟨hlen, ?_, fun {i} hi => ?_⟩
  · have hzero := hsum 0 (Nat.succ_pos _)
    rw [sum_entry_borderedMatrix_zero] at hzero
    rw [sum_eq_sum_coordinate hlen.le]
    exact hzero
  · have hsucc := hsum (i + 1) (Nat.succ_lt_succ hi)
    rw [sum_entry_borderedMatrix_succ o h hcs _ hi] at hsucc
    simpa only [coordinate_cons_zero, coordinate_cons_succ, dot_eq_sum hlen.le] using hsucc

theorem sum_mul_dot_column {weights : List α} {cs : List C} (hlen : weights.length = cs.length)
    (n : ℕ) (y : ℕ → α) :
    ∑ i ∈ Finset.range cs.length, coordinate weights i *
        ∑ t ∈ Finset.range n, coordinate (o.column cs t) i * y t =
      ∑ t ∈ Finset.range n, dot weights (o.column cs t) * y t := by
  simp only [dot_eq_sum hlen.le, Finset.mul_sum, Finset.sum_mul]
  rw [Finset.sum_comm]
  exact Finset.sum_congr rfl fun t _ => Finset.sum_congr rfl fun i _ => by ring

theorem IsStationary.dot_scores {cs : List C} {scores : List α} {multiplier : α} {weights : List α}
    (h : IsStationary o cs scores multiplier weights) {ws : List α} (hlen : ws.length = cs.length) :
    dot ws scores = multiplier * ws.sum + ∑ t ∈ Finset.range o.numVariables,
      dot ws (o.column cs t) * dot weights (o.column cs t) := by
  calc dot ws scores
      = ∑ i ∈ Finset.range cs.length, (multiplier * coordinate ws i +
          coordinate ws i * ∑ t ∈ Finset.range o.numVariables,
            coordinate (o.column cs t) i * dot weights (o.column cs t)) := by
        rw [dot_eq_sum hlen.le]
        refine Finset.sum_congr rfl fun i hi => ?_
        rw [← h.score_eq (Finset.mem_range.mp hi), mul_add, mul_comm multiplier]
    _ = _ := by
        rw [Finset.sum_add_distrib, ← Finset.mul_sum, ← sum_eq_sum_coordinate hlen.le,
          sum_mul_dot_column hlen]

structure HasInverse (o : Oracle α C) (IsConfiguration : C → Prop) (s : ActiveSet α C) : Prop where
  ne_nil : s.configurations ≠ []
  isConfiguration : ∀ c ∈ s.configurations, IsConfiguration c
  nodup : s.configurations.Nodup
  isSquare : IsSquare (s.configurations.length + 1) s.inverse
  isInverse : IsInverse (s.configurations.length + 1) (entry s.inverse)
    (entry (borderedMatrix o s.configurations))

theorem hasInverse_singleton {c : C} (hc : IsConfiguration c) :
    (singleton o c).HasInverse o IsConfiguration where
  ne_nil := List.cons_ne_nil _ _
  isConfiguration _ hd := List.mem_singleton.mp hd ▸ hc
  nodup := List.nodup_singleton c
  isSquare := ⟨rfl, by simp [singleton]⟩
  isInverse := by
    intro i hi j hj
    change i < 2 at hi
    change j < 2 at hj
    change ∑ l ∈ Finset.range 2, _ = _
    interval_cases i <;> interval_cases j <;>
      simp [Finset.sum_range_succ, entry, singleton, borderedMatrix]

namespace HasInverse

variable {s : ActiveSet α C}

theorem length_pos (h : s.HasInverse o IsConfiguration) : 0 < s.configurations.length :=
  List.length_pos_iff.mpr h.ne_nil

theorem inverse_ne_nil (h : s.HasInverse o IsConfiguration) : s.inverse ≠ [] := by
  intro hnil
  have hlen := h.isSquare.length_eq
  rw [hnil] at hlen
  cases hlen

theorem sum_mul_mulColumn (h : s.HasInverse o IsConfiguration) (column : List α) {i : ℕ}
    (hi : i < s.configurations.length + 1) :
    ∑ l ∈ Finset.range (s.configurations.length + 1),
        entry (borderedMatrix o s.configurations) i l *
      coordinate (Matrix.mulColumn s.inverse column) l = coordinate column i := by
  rw [← h.isInverse.sum_mul_sum (coordinate column) hi]
  refine Finset.sum_congr rfl fun l hl => ?_
  rw [Matrix.coordinate_mulColumn h.isSquare (Finset.mem_range.mp hl)]

/-- The product of the inverse with a column is the solution of the bordered system. -/
theorem isStationary_mulColumn (ho : o.HasInnerProducts IsConfiguration)
    (h : s.HasInverse o IsConfiguration) (scores : List α) :
    ∃ multiplier weights, Matrix.mulColumn s.inverse (1 :: scores) = multiplier :: weights ∧
      IsStationary o s.configurations scores multiplier weights := by
  obtain ⟨multiplier, weights, hsolution⟩ :
      ∃ multiplier weights, Matrix.mulColumn s.inverse (1 :: scores) = multiplier :: weights := by
    apply List.exists_cons_of_ne_nil
    simpa [Matrix.mulColumn] using h.inverse_ne_nil
  have hlen : weights.length = s.configurations.length := by
    have hlen := congrArg List.length hsolution
    rw [Matrix.length_mulColumn, h.isSquare.length_eq] at hlen
    exact (Nat.succ.inj hlen).symm
  refine ⟨multiplier, weights, hsolution, isStationary_of_sum_eq ho h.isConfiguration hlen ?_⟩
  intro i hi
  rw [← hsolution]
  exact h.sum_mul_mulColumn (1 :: scores) hi

theorem exists_unsignedOptimum? (ho : o.HasInnerProducts IsConfiguration)
    (h : s.HasInverse o IsConfiguration) (scores : List α) :
    ∃ multiplier goal, s.unsignedOptimum? scores = some (multiplier, goal) ∧
      IsStationary o s.configurations scores multiplier goal := by
  have hrows : (s.inverse.map fun row => row.headD 0 + dot row.tail scores) =
      Matrix.mulColumn s.inverse (1 :: scores) := by
    refine List.map_congr_left fun row hrow => ?_
    cases row with
    | nil => exact absurd (h.isSquare.length_row _ hrow) (by simp)
    | cons x row => simp [dot]
  obtain ⟨multiplier, goal, hsolution, hstationary⟩ := h.isStationary_mulColumn ho scores
  exact ⟨multiplier, goal, by rw [unsignedOptimum?, hrows, hsolution], hstationary⟩

theorem eq_zero_of_balanced (ho : o.HasInnerProducts IsConfiguration)
    (h : s.HasInverse o IsConfiguration) {u : ℕ → α}
    (hsum : ∑ l ∈ Finset.range s.configurations.length, u l = 0)
    (hcolumn : ∀ t < o.numVariables, ∑ l ∈ Finset.range s.configurations.length,
      u l * coordinate (o.column s.configurations t) l = 0)
    {i : ℕ} (hi : i < s.configurations.length) : u i = 0 := by
  let v : ℕ → α := fun l => Nat.casesOn l 0 u
  refine h.isInverse.eq_zero_of_sum_eq_zero (v := v) (fun i hi => ?_) (Nat.succ_lt_succ hi)
  cases i with
  | zero =>
    rw [sum_entry_borderedMatrix_zero]
    exact hsum
  | succ i =>
    rw [sum_entry_borderedMatrix_succ o ho h.isConfiguration v (Nat.succ_lt_succ_iff.mp hi)]
    refine (zero_add _).trans (Finset.sum_eq_zero fun t ht => ?_)
    rw [hcolumn t (Finset.mem_range.mp ht), mul_zero]

end HasInverse
end ActiveSet
end MapInference
