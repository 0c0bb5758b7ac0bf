import MapInference.Proofs.ActiveSet.Calls
import MapInference.Proofs.Factor

/-!
# Optimality of the active-set method

A run that ends because no configuration improves the objective, or because the best one is active
already, has moved its weights to the stationary ones. These differ from its weights only by the
negative parts that are cut off, at most the tolerance for each configuration, so that towards no
configuration the objective grows by more than the tolerances allow.
-/

namespace MapInference

open Scalar
variable {α C : Type} [ExactScalar α]

namespace Oracle.HasTrueIndices

variable {o : Oracle α C} {IsConfiguration : C → Prop} {trueAdditionals : C → List ℕ} {c : C}

theorem coordinate_indicator_mem (h : o.HasTrueIndices IsConfiguration trueAdditionals)
    (hc : IsConfiguration c) {t : ℕ} (ht : t < o.numVariables) :
    0 ≤ coordinate (o.indicator c).1 t ∧ coordinate (o.indicator c).1 t ≤ 1 := by
  rw [h.indicator_eq, coordinate_indicatorAt (h.nodup_trueVariables hc) ht]
  split_ifs <;> simp

theorem score_eq_sum (h : o.HasTrueIndices IsConfiguration trueAdditionals)
    (hc : IsConfiguration c) (scores additional : List α) :
    o.score scores additional c =
      ∑ t ∈ Finset.range o.numVariables, coordinate (o.indicator c).1 t * coordinate scores t +
        ∑ u ∈ Finset.range o.numAdditionals,
          coordinate (o.indicator c).2 u * coordinate additional u := by
  obtain ⟨h₁, h₂⟩ := h.hasIndicators.length_indicator hc
  rw [h.score_eq_dot hc, dot_eq_sum h₁.le, dot_eq_sum h₂.le]

end Oracle.HasTrueIndices

namespace QuadraticProgram

open ActiveSet (IsSound IsStationary)

def ascent (o : Oracle α C) (target additional : List α) (s : ActiveSet α C) (c : C) : α :=
  let (q, r) := s.marginals o
  dot (List.zipWith (· - ·) target q) (List.zipWith (· - ·) (o.indicator c).1 q) +
    dot additional (List.zipWith (· - ·) (o.indicator c).2 r)

section CutOff

variable {goal : List α} {k : ℕ}

theorem sum_map_larger_le (hlen : goal.length = k) (hsum : goal.sum = 1)
    (hge : ∀ i < k, -Matrix.pivotTolerance ≤ coordinate goal i) :
    (goal.map fun w => larger w 0).sum ≤ 1 + k * Matrix.pivotTolerance := by
  have hcut : ∀ i ∈ Finset.range k, coordinate (goal.map fun w => larger w 0) i ≤
      coordinate goal i + Matrix.pivotTolerance := by
    intro i hi
    have hi := Finset.mem_range.mp hi
    rw [coordinate_map (getElem?_eq_some_coordinate (hlen ▸ hi)), larger_eq_max]
    refine max_le (le_add_of_nonneg_right Matrix.pivotTolerance_pos.le) ?_
    linarith [hge i hi]
  calc (goal.map fun w => larger w 0).sum
      = ∑ i ∈ Finset.range k, coordinate (goal.map fun w => larger w 0) i :=
        sum_eq_sum_coordinate (by simp [hlen])
    _ ≤ ∑ i ∈ Finset.range k, (coordinate goal i + Matrix.pivotTolerance) :=
        Finset.sum_le_sum hcut
    _ = 1 + k * Matrix.pivotTolerance := by
        rw [Finset.sum_add_distrib, ← sum_eq_sum_coordinate hlen.le, hsum, Finset.sum_const,
          Finset.card_range, nsmul_eq_mul]

/-- An average with the weights that are left is close to the one with the stationary weights. -/
theorem abs_dot_sub_dot_le (hlen : goal.length = k) (hsum : goal.sum = 1)
    (hge : ∀ i < k, -Matrix.pivotTolerance ≤ coordinate goal i) {column : List α}
    (hcolumn : ∀ i < k, 0 ≤ coordinate column i ∧ coordinate column i ≤ 1) {total : α}
    (htotal : total = (goal.map fun w => larger w 0).sum) :
    let average := dot ((goal.map fun w => larger w 0).map (· / total)) column
    (0 ≤ average ∧ average ≤ 1) ∧ |average - dot goal column| ≤ k * Matrix.pivotTolerance := by
  have hpositive (i : ℕ) (hi : i < k) :
      coordinate (goal.map fun w => larger w 0) i = max (coordinate goal i) 0 := by
    rw [coordinate_map (getElem?_eq_some_coordinate (hlen ▸ hi)), larger_eq_max]
  have htotal_eq : total = ∑ i ∈ Finset.range k, max (coordinate goal i) 0 := by
    rw [htotal, sum_eq_sum_coordinate (n := k) (by simp [hlen])]
    exact Finset.sum_congr rfl fun i hi => hpositive i (Finset.mem_range.mp hi)
  have hone : 1 ≤ total := by
    rw [htotal, ← hsum]
    exact sum_le_sum_map_larger goal
  have hexcess : total - 1 ≤ k * Matrix.pivotTolerance := by
    rw [htotal]
    linarith [sum_map_larger_le hlen hsum hge]
  have hpos : 0 < total := one_pos.trans_le hone
  let p := ∑ i ∈ Finset.range k, max (coordinate goal i) 0 * coordinate column i
  have haverage : dot ((goal.map fun w => larger w 0).map (· / total)) column = p / total := by
    rw [dot_eq_sum (n := k) (by simp [hlen]), Finset.sum_div]
    refine Finset.sum_congr rfl fun i hi => ?_
    have hi := Finset.mem_range.mp hi
    rw [coordinate_map (getElem?_eq_some_coordinate (by simpa [hlen] using hi)), hpositive i hi,
      div_mul_eq_mul_div]
  have hgoal : dot goal column = ∑ i ∈ Finset.range k, coordinate goal i * coordinate column i :=
    dot_eq_sum hlen.le
  have hp_nonneg : 0 ≤ p := Finset.sum_nonneg fun i hi =>
    mul_nonneg (le_max_right _ _) (hcolumn i (Finset.mem_range.mp hi)).1
  have hp_le : p ≤ total := by
    rw [htotal_eq]
    refine Finset.sum_le_sum fun i hi => ?_
    exact mul_le_of_le_one_right (le_max_right _ _) (hcolumn i (Finset.mem_range.mp hi)).2
  -- What is cut off adds to the average, what is scaled takes away from it.
  have hadded : 0 ≤ p - dot goal column ∧ p - dot goal column ≤ total - 1 := by
    have hdiff : p - dot goal column = ∑ i ∈ Finset.range k,
        (max (coordinate goal i) 0 - coordinate goal i) * coordinate column i := by
      rw [hgoal, ← Finset.sum_sub_distrib]
      exact Finset.sum_congr rfl fun i _ => by ring
    have hcut : total - 1 = ∑ i ∈ Finset.range k,
        (max (coordinate goal i) 0 - coordinate goal i) := by
      rw [htotal_eq, ← hsum, sum_eq_sum_coordinate hlen.le, Finset.sum_sub_distrib]
    rw [hdiff, hcut]
    refine ⟨Finset.sum_nonneg fun i hi => ?_, Finset.sum_le_sum fun i hi => ?_⟩
    · exact mul_nonneg (sub_nonneg.mpr (le_max_left _ _)) (hcolumn i (Finset.mem_range.mp hi)).1
    · exact mul_le_of_le_one_right (sub_nonneg.mpr (le_max_left _ _))
        (hcolumn i (Finset.mem_range.mp hi)).2
  have hscaled : 0 ≤ p - p / total ∧ p - p / total ≤ total - 1 := by
    have hquotient : p - p / total = p / total * (total - 1) := by
      field_simp
    have hle : p / total ≤ 1 := (div_le_one hpos).mpr hp_le
    have hnonneg : 0 ≤ p / total := div_nonneg hp_nonneg hpos.le
    rw [hquotient]
    exact ⟨mul_nonneg hnonneg (sub_nonneg.mpr hone),
      mul_le_of_le_one_left (sub_nonneg.mpr hone) hle⟩
  dsimp only
  rw [haverage]
  refine ⟨⟨div_nonneg hp_nonneg hpos.le, (div_le_one hpos).mpr hp_le⟩, ?_⟩
  rw [abs_le]
  constructor
  · linarith [hadded.1, hscaled.2]
  · linarith [hadded.2, hscaled.1]

end CutOff

section Stop

variable {o : Oracle α C} {IsConfiguration : C → Prop} {trueAdditionals : C → List ℕ}
  {target additional : List α} {s : ActiveSet α C}

/-- The weights of `s` are stationary weights with their negative parts cut off, and the largest
score of a configuration for the gradient is at most the multiplier, or is that of an active
configuration. -/
structure IsOptimal (o : Oracle α C) (target additional : List α) (s : ActiveSet α C)
    (multiplier : α) (goal : List α) : Prop where
  isStationary : IsStationary o s.configurations
    (s.configurations.map (o.score target additional)) multiplier goal
  neg_le {i : ℕ} : i < s.configurations.length → -Matrix.pivotTolerance ≤ coordinate goal i
  weights_eq : s.weights =
    (goal.map fun w => larger w 0).map (· / (goal.map fun w => larger w 0).sum)
  sum_eq : s.weights.sum = 1
  value_le : (candidate o target additional s).2 ≤ multiplier + optimalityTolerance ∨
    (candidate o target additional s).1 ∈ s.configurations

/-- A run can only end with the best configuration found too small or active at such weights. -/
theorem isOptimal_of_iterate_eq_stop [DecidableEq C] (ho : o.HasIndicators IsConfiguration)
    (h : s.IsSound o IsConfiguration) {reason : Stop} {t : ActiveSet α C}
    (hstep : iterate o target additional s = .stop reason t)
    (hreason : reason = .optimal ∨ reason = .alreadyActive) :
    t.IsSound o IsConfiguration ∧
      ∃ multiplier goal, IsOptimal o target additional t multiplier goal := by
  obtain ⟨multiplier, goal, hgoal, hstationary⟩ := h.toHasInverse.exists_unsignedOptimum?
    ho.hasInnerProducts (s.configurations.map (o.score target additional))
  unfold iterate at hstep
  simp only [hgoal] at hstep
  cases hblocking : blocking? s goal with
  | some block =>
    rw [hblocking] at hstep
    cases hstep
  | none =>
    rw [hblocking] at hstep
    obtain ⟨hsound, hsum⟩ := fullStep_spec h hstationary.length_eq hstationary.sum_eq
    have hpos :
        0 < ({ s with weights := goal.map fun w => larger w 0 } : ActiveSet α C).weights.sum :=
      (hstationary.sum_eq ▸ one_pos : 0 < goal.sum).trans_le (sum_le_sum_map_larger goal)
    have hconf : (fullStep s goal).configurations = s.configurations :=
      ActiveSet.configurations_normalised _
    have hoptimal (hvalue : (candidate o target additional (fullStep s goal)).2 ≤
          multiplier + optimalityTolerance ∨
        (candidate o target additional (fullStep s goal)).1 ∈ (fullStep s goal).configurations) :
        IsOptimal o target additional (fullStep s goal) multiplier goal := by
      refine ⟨hconf ▸ hstationary, fun {i} hi => ?_,
        ActiveSet.weights_normalised hpos, hsum, hvalue⟩
      rw [hconf] at hi
      exact le_of_blocking?_eq_none hblocking (hstationary.length_eq.trans h.length_weights.symm)
        (hstationary.length_eq ▸ hi)
    dsimp only at hstep
    split_ifs at hstep with hvalue hactive
    · obtain ⟨rfl, rfl⟩ := Step.stop.inj hstep
      exact ⟨hsound, multiplier, goal, hoptimal (Or.inl hvalue)⟩
    · obtain ⟨rfl, rfl⟩ := Step.stop.inj hstep
      exact ⟨hsound, multiplier, goal, hoptimal (Or.inr hactive)⟩
    · -- An entering configuration ends the run for other reasons.
      unfold enter at hstep
      split at hstep
      · cases hstep
      · cases hstep
        rcases hreason with hreason | hreason <;> cases hreason
      · split at hstep
        · cases hstep
        · cases hstep
          rcases hreason with hreason | hreason <;> cases hreason
        · cases hstep
          rcases hreason with hreason | hreason <;> cases hreason

theorem dot_map_add (ws : List α) (cs : List C) (f g : C → α) :
    dot ws (cs.map fun c => f c + g c) = dot ws (cs.map f) + dot ws (cs.map g) := by
  rw [dot_eq_sum le_rfl, dot_eq_sum le_rfl, dot_eq_sum le_rfl, ← Finset.sum_add_distrib]
  refine Finset.sum_congr rfl fun i _ => ?_
  cases hi : cs[i]? with
  | none => simp [coordinate, hi]
  | some c => rw [coordinate_map hi, coordinate_map hi, coordinate_map hi, mul_add]

theorem dot_map_sum (ws : List α) (cs : List C) (n : ℕ) (x : C → ℕ → α) (y : ℕ → α) :
    dot ws (cs.map fun c => ∑ t ∈ Finset.range n, x c t * y t) =
      ∑ t ∈ Finset.range n, dot ws (cs.map fun c => x c t) * y t := by
  induction n with
  | zero => simp [dot_eq_sum le_rfl, coordinate]
  | succ n ih =>
    have hlast : dot ws (cs.map fun c => x c n * y n) = dot ws (cs.map fun c => x c n) * y n := by
      rw [dot_eq_sum le_rfl, dot_eq_sum le_rfl, Finset.sum_mul]
      refine Finset.sum_congr rfl fun i _ => ?_
      cases hi : cs[i]? with
      | none => simp [coordinate, hi]
      | some c => rw [coordinate_map hi, coordinate_map hi, mul_assoc]
    simp only [Finset.sum_range_succ]
    rw [dot_map_add, ih, hlast]

theorem mul_le_of_abs_le {x y bound : α} (hx : |x| ≤ 1) (hy : |y| ≤ bound) : x * y ≤ bound :=
  calc x * y ≤ |x| * |y| := (le_abs_self _).trans (abs_mul x y).le
    _ ≤ |y| := mul_le_of_le_one_left (abs_nonneg y) hx
    _ ≤ bound := hy

theorem sum_range_le_mul {n : ℕ} {f : ℕ → α} {bound : α} (h : ∀ t < n, f t ≤ bound) :
    ∑ t ∈ Finset.range n, f t ≤ n * bound := by
  have hle := Finset.sum_le_card_nsmul (Finset.range n) f bound fun t ht =>
    h t (Finset.mem_range.mp ht)
  rwa [Finset.card_range, nsmul_eq_mul] at hle

theorem score_gradient (ho : o.HasTrueIndices IsConfiguration trueAdditionals) {c : C}
    (hc : IsConfiguration c) (ht : target.length = o.numVariables) {q : List α}
    (hq : q.length = o.numVariables) :
    o.score (List.zipWith (· - ·) target q) additional c = o.score target additional c -
      ∑ t ∈ Finset.range o.numVariables, coordinate (o.indicator c).1 t * coordinate q t := by
  rw [ho.score_eq_sum hc, ho.score_eq_sum hc, add_sub_right_comm, ← Finset.sum_sub_distrib]
  congr 1
  refine Finset.sum_congr rfl fun t htn => ?_
  have htn := Finset.mem_range.mp htn
  rw [coordinate_zipWith (ht ▸ htn) (hq ▸ htn), mul_sub]

/-- The first-order growth as the score for the gradient less the value along the marginals. -/
theorem ascent_eq (ho : o.HasTrueIndices IsConfiguration trueAdditionals)
    (hs : s.IsSound o IsConfiguration) (ht : target.length = o.numVariables)
    (ha : additional.length = o.numAdditionals) {c : C} (hc : IsConfiguration c) :
    ascent o target additional s c =
      o.score (List.zipWith (· - ·) target (s.marginals o).1) additional c -
        (∑ t ∈ Finset.range o.numVariables,
            coordinate (s.marginals o).1 t * coordinate target t +
          ∑ u ∈ Finset.range o.numAdditionals,
            coordinate (s.marginals o).2 u * coordinate additional u -
          ∑ t ∈ Finset.range o.numVariables,
            coordinate (s.marginals o).1 t * coordinate (s.marginals o).1 t) := by
  obtain ⟨hq, hr, _⟩ := ActiveSet.marginals_spec ho.hasIndicators hs.isConfiguration
  obtain ⟨hv, hw⟩ := ho.hasIndicators.length_indicator hc
  have hfirst : dot (List.zipWith (· - ·) target (s.marginals o).1)
      (List.zipWith (· - ·) (o.indicator c).1 (s.marginals o).1) =
      ∑ t ∈ Finset.range o.numVariables, (coordinate (o.indicator c).1 t * coordinate target t -
        coordinate (o.indicator c).1 t * coordinate (s.marginals o).1 t -
        (coordinate (s.marginals o).1 t * coordinate target t -
          coordinate (s.marginals o).1 t * coordinate (s.marginals o).1 t)) := by
    rw [dot_eq_sum (n := o.numVariables) (by rw [List.length_zipWith, ht, hq, min_self])]
    refine Finset.sum_congr rfl fun t htn => ?_
    have htn := Finset.mem_range.mp htn
    rw [coordinate_zipWith (ht ▸ htn) (hq.symm ▸ htn),
      coordinate_zipWith (hv.symm ▸ htn) (hq.symm ▸ htn)]
    ring
  have hsecond : dot additional (List.zipWith (· - ·) (o.indicator c).2 (s.marginals o).2) =
      ∑ u ∈ Finset.range o.numAdditionals,
        (coordinate (o.indicator c).2 u * coordinate additional u -
          coordinate (s.marginals o).2 u * coordinate additional u) := by
    rw [dot_eq_sum ha.le]
    refine Finset.sum_congr rfl fun u hu => ?_
    have hu := Finset.mem_range.mp hu
    rw [coordinate_zipWith (hw.symm ▸ hu) (hr.symm ▸ hu)]
    ring
  change dot (List.zipWith (· - ·) target (s.marginals o).1)
      (List.zipWith (· - ·) (o.indicator c).1 (s.marginals o).1) +
    dot additional (List.zipWith (· - ·) (o.indicator c).2 (s.marginals o).2) = _
  rw [hfirst, hsecond, score_gradient ho hc ht hq, ho.score_eq_sum hc]
  simp only [Finset.sum_sub_distrib]
  ring

namespace IsOptimal

variable {multiplier : α} {goal : List α}

theorem abs_marginals_sub_le (ho : o.HasTrueIndices IsConfiguration trueAdditionals)
    (hs : s.IsSound o IsConfiguration) (h : IsOptimal o target additional s multiplier goal) {t : ℕ}
    (ht : t < o.numVariables) :
    (0 ≤ coordinate (s.marginals o).1 t ∧ coordinate (s.marginals o).1 t ≤ 1) ∧
      |coordinate (s.marginals o).1 t - dot goal (o.column s.configurations t)| ≤
        s.configurations.length * Matrix.pivotTolerance := by
  obtain ⟨_, _, hq, _⟩ := ActiveSet.marginals_spec ho.hasIndicators hs.isConfiguration
  rw [hq t ht, h.weights_eq]
  refine abs_dot_sub_dot_le h.isStationary.length_eq h.isStationary.sum_eq
    (fun i hi => h.neg_le hi) (fun i hi => ?_) rfl
  rw [Oracle.coordinate_column (List.getElem?_eq_getElem hi)]
  exact ho.coordinate_indicator_mem (hs.isConfiguration _ (List.getElem_mem hi)) ht

theorem sum_marginals_eq (ho : o.HasTrueIndices IsConfiguration trueAdditionals)
    (hs : s.IsSound o IsConfiguration) (h : IsOptimal o target additional s multiplier goal) :
    ∑ t ∈ Finset.range o.numVariables, coordinate (s.marginals o).1 t * coordinate target t +
        ∑ u ∈ Finset.range o.numAdditionals,
          coordinate (s.marginals o).2 u * coordinate additional u =
      multiplier + ∑ t ∈ Finset.range o.numVariables,
        coordinate (s.marginals o).1 t * dot goal (o.column s.configurations t) := by
  obtain ⟨_, _, hq, hr⟩ := ActiveSet.marginals_spec ho.hasIndicators hs.isConfiguration
  have hscores : s.configurations.map (o.score target additional) =
      s.configurations.map fun c =>
        ∑ t ∈ Finset.range o.numVariables, coordinate (o.indicator c).1 t * coordinate target t +
          ∑ u ∈ Finset.range o.numAdditionals,
            coordinate (o.indicator c).2 u * coordinate additional u :=
    List.map_congr_left fun d hd => ho.score_eq_sum (hs.isConfiguration d hd) _ _
  have hdot := h.isStationary.dot_scores hs.length_weights
  rw [h.sum_eq, mul_one, hscores, dot_map_add, dot_map_sum, dot_map_sum] at hdot
  have hvariables (y : ℕ → α) :
      ∑ t ∈ Finset.range o.numVariables, coordinate (s.marginals o).1 t * y t =
        ∑ t ∈ Finset.range o.numVariables, dot s.weights (o.column s.configurations t) * y t :=
    Finset.sum_congr rfl fun t ht => by rw [hq t (Finset.mem_range.mp ht)]
  have hadditionals : ∑ u ∈ Finset.range o.numAdditionals,
      coordinate (s.marginals o).2 u * coordinate additional u =
        ∑ u ∈ Finset.range o.numAdditionals,
          dot s.weights (s.configurations.map fun c => coordinate (o.indicator c).2 u) *
            coordinate additional u :=
    Finset.sum_congr rfl fun u hu => by rw [hr u (Finset.mem_range.mp hu)]
  rw [hvariables, hvariables, hadditionals]
  exact hdot

/-- The largest score for the gradient is close to the multiplier, or is that of an active
configuration, for which it can be computed from the stationary weights. -/
theorem score_gradient_le (ho : o.HasTrueIndices IsConfiguration trueAdditionals)
    (hs : s.IsSound o IsConfiguration) (h : IsOptimal o target additional s multiplier goal)
    (ht : target.length = o.numVariables) (ha : additional.length = o.numAdditionals) {c : C}
    (hc : IsConfiguration c) :
    o.score (List.zipWith (· - ·) target (s.marginals o).1) additional c ≤
        multiplier + optimalityTolerance ∨
      ∃ d, IsConfiguration d ∧
        o.score (List.zipWith (· - ·) target (s.marginals o).1) additional c ≤ multiplier +
          ∑ t ∈ Finset.range o.numVariables, coordinate (o.indicator d).1 t *
            (dot goal (o.column s.configurations t) - coordinate (s.marginals o).1 t) := by
  obtain ⟨hq, _⟩ := ActiveSet.marginals_spec ho.hasIndicators hs.isConfiguration
  have hshifted : (List.zipWith (· - ·) target (s.marginals o).1).length = o.numVariables := by
    rw [List.length_zipWith, ht, hq, min_self]
  have hlargest := ho.score_le hshifted ha hc
  rcases h.value_le with hvalue | hactive
  · exact Or.inl (hlargest.trans hvalue)
  · right
    rw [ho.maximize_value hshifted ha] at hlargest
    change (o.maximize (List.zipWith (· - ·) target (s.marginals o).1) additional).1 ∈ _ at hactive
    generalize (o.maximize (List.zipWith (· - ·) target (s.marginals o).1) additional).1 = d
      at hlargest hactive
    have hd : IsConfiguration d := hs.isConfiguration d hactive
    obtain ⟨i, hi, rfl⟩ := List.mem_iff_getElem.mp hactive
    refine ⟨_, hd, hlargest.trans (le_of_eq ?_)⟩
    have hget := List.getElem?_eq_getElem hi
    have hstationary := h.isStationary.score_eq hi
    rw [coordinate_map hget] at hstationary
    simp only [Oracle.coordinate_column hget] at hstationary
    rw [score_gradient ho hd ht hq, ← hstationary]
    simp only [mul_sub, Finset.sum_sub_distrib]
    exact add_sub_assoc _ _ _

theorem ascent_le (ho : o.HasTrueIndices IsConfiguration trueAdditionals)
    (hs : s.IsSound o IsConfiguration) (h : IsOptimal o target additional s multiplier goal)
    (ht : target.length = o.numVariables) (ha : additional.length = o.numAdditionals) {c : C}
    (hc : IsConfiguration c) :
    ascent o target additional s c ≤ optimalityTolerance +
      o.numVariables * (s.configurations.length * Matrix.pivotTolerance) := by
  let q (t : ℕ) : α := coordinate (s.marginals o).1 t
  let p (t : ℕ) : α := dot goal (o.column s.configurations t)
  have hclose (t : ℕ) (ht : t < o.numVariables) := h.abs_marginals_sub_le ho hs ht
  have hascent : ascent o target additional s c =
      o.score (List.zipWith (· - ·) target (s.marginals o).1) additional c -
        (multiplier + ∑ t ∈ Finset.range o.numVariables, q t * (p t - q t)) := by
    rw [ascent_eq ho hs ht ha hc, h.sum_marginals_eq ho hs]
    simp only [mul_sub, Finset.sum_sub_distrib]
    ring
  rw [hascent]
  rcases h.score_gradient_le ho hs ht ha hc with hle | ⟨d, hd, hle⟩
  · have hbound := sum_range_le_mul fun t ht => mul_le_of_abs_le (x := q t) (y := q t - p t)
      (abs_le.mpr ⟨by linarith [(hclose t ht).1.1], (hclose t ht).1.2⟩) (hclose t ht).2
    have hneg : ∑ t ∈ Finset.range o.numVariables, q t * (q t - p t) =
        -∑ t ∈ Finset.range o.numVariables, q t * (p t - q t) := by
      rw [← Finset.sum_neg_distrib]
      exact Finset.sum_congr rfl fun t _ => by ring
    linarith
  · have hbound := sum_range_le_mul fun t ht => mul_le_of_abs_le
      (x := coordinate (o.indicator d).1 t - q t) (y := p t - q t)
      (abs_le.mpr ⟨by linarith [(hclose t ht).1.2, (ho.coordinate_indicator_mem hd ht).1],
        by linarith [(hclose t ht).1.1, (ho.coordinate_indicator_mem hd ht).2]⟩)
      (abs_sub_comm (q t) (p t) ▸ (hclose t ht).2)
    have hsplit : ∑ t ∈ Finset.range o.numVariables,
        (coordinate (o.indicator d).1 t - q t) * (p t - q t) =
        ∑ t ∈ Finset.range o.numVariables, coordinate (o.indicator d).1 t * (p t - q t) -
          ∑ t ∈ Finset.range o.numVariables, q t * (p t - q t) := by
      simp only [sub_mul, Finset.sum_sub_distrib]
    have htolerance : 0 < (optimalityTolerance : α) := optimalityTolerance_pos
    linarith

end IsOptimal

theorem isOptimal_run [DecidableEq C] (ho : o.HasIndicators IsConfiguration)
    (h : s.IsSound o IsConfiguration) (ht : target.length = o.numVariables)
    (ha : additional.length = o.numAdditionals) (iterations limit : ℕ)
    (hstop : (run o target additional s iterations limit).stop = .optimal ∨
      (run o target additional s iterations limit).stop = .alreadyActive) :
    (run o target additional s iterations limit).activeSet.IsSound o IsConfiguration ∧
      ∃ multiplier goal, IsOptimal o target additional
        (run o target additional s iterations limit).activeSet multiplier goal := by
  induction limit generalizing s iterations with
  | zero => rcases hstop with hstop | hstop <;> cases hstop
  | succ limit ih =>
    unfold run at hstop ⊢
    cases hstep : iterate o target additional s with
    | next t =>
      rw [hstep] at hstop
      have hsound := iterate_spec ho h ht ha
      rw [hstep] at hsound
      exact ih hsound.1 (iterations + 1) hstop
    | stop reason t =>
      rw [hstep] at hstop
      exact isOptimal_of_iterate_eq_stop ho h hstep hstop

theorem run_optimal [DecidableEq C] (ho : o.HasTrueIndices IsConfiguration trueAdditionals)
    (h : s.IsSound o IsConfiguration) (ht : target.length = o.numVariables)
    (ha : additional.length = o.numAdditionals) (iterations limit : ℕ)
    (hstop : (run o target additional s iterations limit).stop = .optimal ∨
      (run o target additional s iterations limit).stop = .alreadyActive) {c : C}
    (hc : IsConfiguration c) :
    ascent o target additional (run o target additional s iterations limit).activeSet c ≤
      optimalityTolerance + o.numVariables *
        ((run o target additional s iterations limit).activeSet.configurations.length *
          Matrix.pivotTolerance) := by
  obtain ⟨hsound, multiplier, goal, hoptimal⟩ :=
    isOptimal_run ho.hasIndicators h ht ha iterations limit hstop
  exact hoptimal.ascent_le ho hsound ht ha hc

end Stop

/-- Optimality. Whatever earlier calls have left, a solution that ends because the best
configuration does not improve the objective or is active already satisfies the conditions of
optimality up to the tolerances, for all kinds of factors that have an oracle. -/
theorem Calls.projection_optimality {kind : FactorKind} {n m : ℕ} (hfits : kind.Fits n m)
    {o : Oracle α kind.Configuration} (ho : kind.localProblem α = .oracle o)
    {s : ActiveSet α kind.Configuration} {met : List α} {last : Option (List α × List α)}
    (hcalls : Calls o s met last) {target additional : List α} (ht : target.length = n)
    (ha : additional.length = m) (limit : ℕ)
    (hstop : (solve o target additional limit s).stop = .optimal ∨
      (solve o target additional limit s).stop = .alreadyActive)
    {c : kind.Configuration} (hc : kind.IsConfiguration c) :
    let outcome := solve o target additional limit s
    let q := (outcome.activeSet.marginals o).1
    let r := (outcome.activeSet.marginals o).2
    dot (List.zipWith (· - ·) target q) (List.zipWith (· - ·) (o.indicator c).1 q) +
        dot additional (List.zipWith (· - ·) (o.indicator c).2 r) ≤
      1 / 10 ^ 9 + 4 / 10 ^ 12 * n * outcome.activeSet.configurations.length := by
  obtain ⟨hlaws, rfl, rfl⟩ := kind.hasTrueIndices hfits ho
  have hsound := start_isSound hlaws.hasIndicators
    ((hcalls.isSound hlaws.hasIndicators).imp (fun h => h.1) fun h => h.1) ht ha
  have hle := run_optimal hlaws hsound ht ha 0 limit hstop hc
  refine hle.trans ?_
  rw [optimalityTolerance, tenthPower_eq, Matrix.pivotTolerance_eq]
  have hnonneg : (0 : α) ≤ o.numVariables *
      (solve o target additional limit s).activeSet.configurations.length := by positivity
  change _ + _ * (((solve o target additional limit s).activeSet.configurations.length : α) * _) ≤ _
  linarith

theorem Calls.projection_optimality_pair :
    let o : Oracle ℚ FactorKind.pair.Configuration := Pair.oracle
    let outcome := solve o [1, 1 / 2] [1] 10 (solve o [1 / 2, 0] [0] 10 {}).activeSet
    let q := (outcome.activeSet.marginals o).1
    let r := (outcome.activeSet.marginals o).2
    outcome.stop = .optimal ∧
      dot (List.zipWith (· - ·) [1, 1 / 2] q)
          (List.zipWith (· - ·) (o.indicator (true, false)).1 q) +
        dot [1] (List.zipWith (· - ·) (o.indicator (true, false)).2 r) ≤
      1 / 10 ^ 9 + 4 / 10 ^ 12 * (2 : ℕ) * outcome.activeSet.configurations.length := by
  intro o outcome
  have hstop : outcome.stop = .optimal := by decide +kernel
  have hcalls : Calls o (solve o [1 / 2, 0] [0] 10 {}).activeSet _ _ :=
    Calls.start.project 10 rfl rfl
  have hfits : FactorKind.pair.Fits 2 1 := ⟨rfl, rfl⟩
  exact ⟨hstop,
    Calls.projection_optimality hfits rfl hcalls rfl rfl 10 (Or.inl hstop) trivial⟩

end QuadraticProgram
end MapInference
