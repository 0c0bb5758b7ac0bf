import MapInference.Proofs.ActiveSet.Optimality
import MapInference.Proofs.ActiveSet.Replacement

/-!
# Progress of the active-set method

No step loses ground: the objective at the weights never decreases. On the way to stationary weights
only the squared distance from their average shrinks, a configuration without weight may leave or
enter, and an exchange keeps the average while it moves weight onto a configuration with a better
score. This needs that nothing is cut off: no stationary weight is negative without being noticed,
and no coefficient, Schur complement or pivot that is not zero is taken for zero.
-/

namespace MapInference

open Scalar
variable {α C : Type} [ExactScalar α] {o : Oracle α C} {IsConfiguration : C → Prop}

namespace ActiveSet

variable {s : ActiveSet α C} {target additional : List α} {cs : List C} {ws : List α}

/-- The objective of the quadratic program at some weights of configurations: their scores less half
of the squared length of the average of their indicators. -/
def objective (o : Oracle α C) (target additional : List α) (cs : List C) (ws : List α) : α :=
  dot ws (cs.map (o.score target additional)) -
    half * dot ws (cs.map fun c => dot ws (commons o cs c))

theorem objective_congr {cs' : List C} {ws' : List α}
    (h : ∀ f : C → α, dot ws' (cs'.map f) = dot ws (cs.map f)) :
    objective o target additional cs' ws' = objective o target additional cs ws := by
  unfold objective commons
  rw [h, h]
  simp only [h]

theorem objective_eq_sub_sum_sq (ho : o.HasInnerProducts IsConfiguration)
    (hcs : ∀ c ∈ cs, IsConfiguration c) (hlen : ws.length = cs.length) :
    objective o target additional cs ws = dot ws (cs.map (o.score target additional)) -
      1 / 2 * ∑ t ∈ Finset.range o.numVariables, dot ws (o.column cs t) ^ 2 := by
  have hcommons (c : C) (hc : c ∈ cs) : dot ws (commons o cs c) =
      ∑ t ∈ Finset.range o.numVariables,
        coordinate (o.indicator c).1 t * dot ws (o.column cs t) := by
    simp only [mul_comm (coordinate (o.indicator c).1 _)]
    rw [← sum_mul_dot_column hlen, dot_eq_sum hlen.le]
    refine Finset.sum_congr rfl fun i hi => ?_
    have hget := List.getElem?_eq_getElem (Finset.mem_range.mp hi)
    have hd := hcs _ (List.getElem_mem (Finset.mem_range.mp hi))
    rw [commons, coordinate_map hget, ofNat_eq_cast, ho.common_comm (hcs c hc) hd,
      ho.common_eq_sum hd (hcs c hc)]
    simp only [Oracle.coordinate_column hget]
  rw [objective, half_eq, List.map_congr_left hcommons,
    QuadraticProgram.dot_map_sum ws cs _ (fun c t => coordinate (o.indicator c).1 t)
      fun t => dot ws (o.column cs t)]
  congr 2
  exact Finset.sum_congr rfl fun t _ => (sq _).symm

def gap (o : Oracle α C) (cs : List C) (ws goal : List α) : α :=
  ∑ t ∈ Finset.range o.numVariables, (dot ws (o.column cs t) - dot goal (o.column cs t)) ^ 2

theorem gap_nonneg (cs : List C) (ws goal : List α) : 0 ≤ gap o cs ws goal :=
  Finset.sum_nonneg fun _ _ => sq_nonneg _

namespace IsStationary

variable {multiplier : α} {goal : List α}

/-- Among weights that sum to one, the objective only depends on how far their average is from that
of the stationary weights. -/
theorem objective_eq
    (h : IsStationary o cs (cs.map (o.score target additional)) multiplier goal)
    (ho : o.HasInnerProducts IsConfiguration) (hcs : ∀ c ∈ cs, IsConfiguration c)
    (hlen : ws.length = cs.length) (hsum : ws.sum = 1) :
    objective o target additional cs ws = multiplier +
      1 / 2 * ∑ t ∈ Finset.range o.numVariables, dot goal (o.column cs t) ^ 2 -
      1 / 2 * gap o cs ws goal := by
  rw [objective_eq_sub_sum_sq ho hcs hlen, h.dot_scores hlen, hsum, mul_one, gap]
  have hsquares : ∑ t ∈ Finset.range o.numVariables,
      (dot ws (o.column cs t) - dot goal (o.column cs t)) ^ 2 =
        ∑ t ∈ Finset.range o.numVariables, dot ws (o.column cs t) ^ 2 -
          2 * ∑ t ∈ Finset.range o.numVariables,
            dot ws (o.column cs t) * dot goal (o.column cs t) +
          ∑ t ∈ Finset.range o.numVariables, dot goal (o.column cs t) ^ 2 := by
    rw [Finset.mul_sum, ← Finset.sum_sub_distrib, ← Finset.sum_add_distrib]
    exact Finset.sum_congr rfl fun t _ => by ring
  rw [hsquares]
  ring

theorem objective_le
    (h : IsStationary o cs (cs.map (o.score target additional)) multiplier goal)
    (ho : o.HasInnerProducts IsConfiguration) (hcs : ∀ c ∈ cs, IsConfiguration c)
    (hlen : ws.length = cs.length) (hsum : ws.sum = 1) :
    objective o target additional cs ws ≤ objective o target additional cs goal := by
  have hzero : gap o cs goal goal = 0 := Finset.sum_eq_zero fun t _ => by ring
  rw [h.objective_eq ho hcs hlen hsum, h.objective_eq ho hcs h.length_eq h.sum_eq, hzero]
  linarith [gap_nonneg (o := o) cs ws goal]

theorem objective_le_part
    (h : IsStationary o cs (cs.map (o.score target additional)) multiplier goal)
    (ho : o.HasInnerProducts IsConfiguration) (hcs : ∀ c ∈ cs, IsConfiguration c)
    (hlen : ws.length = cs.length) (hsum : ws.sum = 1) {part : α} (hnonneg : 0 ≤ part)
    (hle : part ≤ 1) {us : List α} (hus : us.length = cs.length)
    (hcoordinate : ∀ j < cs.length, coordinate us j =
      (1 - part) * coordinate ws j + part * coordinate goal j) :
    us.sum = 1 ∧
      objective o target additional cs ws ≤ objective o target additional cs us := by
  have hone : us.sum = 1 := by
    have hwsum := hsum
    have hgsum := h.sum_eq
    rw [sum_eq_sum_coordinate hlen.le] at hwsum
    rw [sum_eq_sum_coordinate h.length_eq.le] at hgsum
    calc us.sum = ∑ j ∈ Finset.range cs.length,
          ((1 - part) * coordinate ws j + part * coordinate goal j) := by
          rw [sum_eq_sum_coordinate hus.le]
          exact Finset.sum_congr rfl fun j hj => hcoordinate j (Finset.mem_range.mp hj)
      _ = 1 := by
          rw [Finset.sum_add_distrib, ← Finset.mul_sum, ← Finset.mul_sum, hwsum, hgsum]
          ring
  have hgap : gap o cs us goal = (1 - part) ^ 2 * gap o cs ws goal := by
    rw [gap, gap, Finset.mul_sum]
    refine Finset.sum_congr rfl fun t _ => ?_
    rw [dot_combination hus.le hlen.le h.length_eq.le hcoordinate]
    ring
  refine ⟨hone, ?_⟩
  rw [h.objective_eq ho hcs hlen hsum, h.objective_eq ho hcs hus hone, hgap]
  have hsq : (1 - part) ^ 2 ≤ 1 := pow_le_one₀ (by linarith) (by linarith)
  have hshrinks := mul_le_mul_of_nonneg_right hsq (gap_nonneg (o := o) cs ws goal)
  linarith

end IsStationary

/-- Moving weight from a combination of configurations onto one with the same indicator changes the
objective by the difference of their scores. -/
theorem objective_exchange (ho : o.HasInnerProducts IsConfiguration) {cs' : List C} {ws' : List α}
    (hcs : ∀ d ∈ cs, IsConfiguration d) (hcs' : ∀ d ∈ cs', IsConfiguration d)
    (hlen : ws.length = cs.length) (hlen' : ws'.length = cs'.length) {c : C}
    {coefficients : List α} {amount : α}
    (hdot : ∀ f : C → α, dot ws' (cs'.map f) =
      dot ws (cs.map f) + amount * (f c - dot coefficients (cs.map f)))
    (hsame : ∀ t < o.numVariables,
      dot coefficients (o.column cs t) = coordinate (o.indicator c).1 t) :
    objective o target additional cs' ws' = objective o target additional cs ws + amount *
      (o.score target additional c - dot coefficients (cs.map (o.score target additional))) := by
  rw [objective_eq_sub_sum_sq ho hcs hlen, objective_eq_sub_sum_sq ho hcs' hlen', hdot]
  have hcolumn (t : ℕ) (ht : t < o.numVariables) :
      dot ws' (o.column cs' t) = dot ws (o.column cs t) := by
    have ht := hsame t ht
    unfold Oracle.column at ht ⊢
    rw [hdot, ht, sub_self, mul_zero, add_zero]
  have hsquares : ∑ t ∈ Finset.range o.numVariables, dot ws' (o.column cs' t) ^ 2 =
      ∑ t ∈ Finset.range o.numVariables, dot ws (o.column cs t) ^ 2 :=
    Finset.sum_congr rfl fun t ht => by rw [hcolumn t (Finset.mem_range.mp ht)]
  rw [hsquares]
  ring

end ActiveSet

namespace QuadraticProgram

open ActiveSet (IsSound IsStationary IsZeroOrLarge objective remove schur coefficients enterSchurs)

variable {s : ActiveSet α C} {target additional goal : List α}

/-- The part of the way that is moved is the least at which a weight reaches zero. -/
theorem le_of_blocking? {i : ℕ} {part : α} (h : blocking? s goal = some (i, part))
    (hlen : goal.length = s.weights.length) {j : ℕ} (hj : j < s.weights.length)
    (hneg : coordinate goal j < -Matrix.pivotTolerance) :
    part ≤ coordinate s.weights j / (coordinate s.weights j - coordinate goal j) := by
  rw [blocking?_eq] at h
  exact Extremum.le_of_firstLeast? h _
    (ActiveSet.mem_ratios_iff.mpr ⟨⟨hlen ▸ hj, hj⟩, hneg, rfl⟩)

/-- A ratio step cuts nothing off, and the weight of the configuration that leaves is zero. -/
theorem movedPart_spec (h : s.IsSound o IsConfiguration)
    (hlen : goal.length = s.configurations.length)
    (hregular : ∀ w ∈ goal, w < -Matrix.pivotTolerance ∨ 0 ≤ w) {i : ℕ} {part : α}
    (hblocking : blocking? s goal = some (i, part)) :
    0 ≤ part ∧ part ≤ 1 ∧
      (∀ j < s.configurations.length, coordinate (movedPart s goal part).weights j =
        (1 - part) * coordinate s.weights j + part * coordinate goal j) ∧
      coordinate (movedPart s goal part).weights i = 0 := by
  obtain ⟨hi, hneg, hpart⟩ := of_blocking? hblocking
  have htolerance := Matrix.pivotTolerance_pos (α := α)
  have hweight := h.coordinate_weights_nonneg
  rw [h.length_weights] at hi
  have hdenominator : 0 < coordinate s.weights i - coordinate goal i := by
    linarith [hweight i]
  have hnonneg : 0 ≤ part := by
    rw [hpart]
    exact div_nonneg (hweight i) hdenominator.le
  have hle : part ≤ 1 := by
    rw [hpart, div_le_one hdenominator]
    linarith
  have hmoved (j : ℕ) (hj : j < s.configurations.length) :
      coordinate (movedPart s goal part).weights j =
        (1 - part) * coordinate s.weights j + part * coordinate goal j := by
    have hsplit : coordinate s.weights j + part * (coordinate goal j - coordinate s.weights j) =
        (1 - part) * coordinate s.weights j + part * coordinate goal j := by ring
    rw [movedPart, coordinate_zipWith (h.length_weights ▸ hj) (hlen ▸ hj), larger_eq_max, hsplit,
      max_eq_left]
    have hw := hweight j
    rcases hregular (coordinate goal j)
        (List.mem_of_getElem? (getElem?_eq_some_coordinate (hlen ▸ hj))) with hnegative | hpositive
    · have hdenominator : 0 < coordinate s.weights j - coordinate goal j := by linarith
      have hratio := le_of_blocking? hblocking (hlen.trans h.length_weights.symm)
        (h.length_weights ▸ hj) hnegative
      rw [le_div_iff₀ hdenominator] at hratio
      linarith
    · exact add_nonneg (mul_nonneg (by linarith) hw) (mul_nonneg hnonneg hpositive)
  refine ⟨hnonneg, hle, hmoved, ?_⟩
  rw [hmoved i hi, hpart]
  field_simp
  ring

theorem objective_le_partialStep (ho : o.HasInnerProducts IsConfiguration)
    (h : s.IsSound o IsConfiguration) (hone : s.weights.sum = 1) {multiplier : α}
    (hstationary : IsStationary o s.configurations
      (s.configurations.map (o.score target additional)) multiplier goal)
    (hregular : ∀ w ∈ goal, w < -Matrix.pivotTolerance ∨ 0 ≤ w) {i : ℕ} {part : α}
    (hblocking : blocking? s goal = some (i, part)) (hpivot : IsZeroOrLarge (s.pivot i)) :
    objective o target additional s.configurations s.weights ≤
      objective o target additional (partialStep o s goal i part).configurations
        (partialStep o s goal i part).weights := by
  have hlen := hstationary.length_eq
  have htwo := two_le_length_of_blocking? h hlen hstationary.sum_eq hblocking
  obtain ⟨hnonneg, hle, hcoordinate, hzero⟩ := movedPart_spec h hlen hregular hblocking
  have hmoved := isSound_movedPart h hlen part
  have hi : i < s.configurations.length := h.length_weights ▸ (of_blocking? hblocking).1
  have hi' : i < (movedPart s goal part).weights.length := hmoved.length_weights ▸ hi
  obtain ⟨hsum, hgrows⟩ := hstationary.objective_le_part ho h.isConfiguration h.length_weights hone
    hnonneg hle hmoved.length_weights hcoordinate
  obtain ⟨inverse, hremoved⟩ :=
    hmoved.toHasInverse.exists_remove_eq ho htwo hi (Or.inl hpivot)
  have hdot (f : C → α) : dot ((movedPart s goal part).weights.eraseIdx i)
      ((s.configurations.eraseIdx i).map f) =
        dot (movedPart s goal part).weights (s.configurations.map f) :=
    ActiveSet.dot_eraseIdx_of_eq_zero hi' hzero f
  have hsum' : (remove o (movedPart s goal part) i).weights.sum = 1 := by
    rw [hremoved]
    refine (ActiveSet.sum_eq_of_forall_dot_eq hmoved.length_weights ?_ hdot).trans hsum
    rw [List.length_eraseIdx_of_lt hi', List.length_eraseIdx_of_lt hi, hmoved.length_weights]
    rfl
  have hstep : partialStep o s goal i part = remove o (movedPart s goal part) i :=
    ActiveSet.normalised_of_sum_eq_one hsum'
  rw [hstep, hremoved]
  exact hgrows.trans (ActiveSet.objective_congr hdot).ge

theorem fullStep_eq (hsum : goal.sum = 1) (hnonneg : ∀ w ∈ goal, 0 ≤ w) :
    fullStep s goal = { s with weights := goal } := by
  have hkept : (goal.map fun w => larger w 0) = goal := by
    refine (List.map_congr_left fun w hw => ?_).trans (List.map_id goal)
    rw [larger_eq_max, max_eq_left (hnonneg w hw), id]
  rw [fullStep, hkept]
  exact ActiveSet.normalised_of_sum_eq_one hsum

theorem value_candidate {trueAdditionals : C → List ℕ}
    (ho : o.HasTrueIndices IsConfiguration trueAdditionals) (h : s.IsSound o IsConfiguration)
    (ht : target.length = o.numVariables) (ha : additional.length = o.numAdditionals) {c : C}
    {value : α} (hbest : candidate o target additional s = (c, value)) :
    value = o.score (List.zipWith (· - ·) target (s.marginals o).1) additional c := by
  have hq := (ActiveSet.marginals_eq_dot ho.hasIndicators.hasInnerProducts h.isConfiguration).1
  have hshifted : (List.zipWith (· - ·) target (s.marginals o).1).length = o.numVariables := by
    rw [List.length_zipWith, ht, hq, min_self]
  have hmaximize := ho.maximize_value hshifted ha
  rw [candidate] at hbest
  rwa [hbest] at hmaximize

/-- The coefficients by which a configuration that is to enter depends on the active ones. -/
def enterCoefficients (o : Oracle α C) (s : ActiveSet α C) (c : C) : List α :=
  if |schur o s c| < Matrix.pivotTolerance then coefficients o s c else []

def enterPivots (o : Oracle α C) (s : ActiveSet α C) (c : C) : List α :=
  if |schur o s c| < Matrix.pivotTolerance then
    match s.blocking? (coefficients o s c) with
    | none => []
    | some (i, _) => [s.pivot i]
  else []

section Enter

variable {trueAdditionals : C → List ℕ} {c : C}

/-- A configuration with a better score for the gradient than the active ones has a better score
than a combination of these with the same indicator. -/
theorem dot_coefficients_le_score (ho : o.HasTrueIndices IsConfiguration trueAdditionals)
    (h : s.IsSound o IsConfiguration) {multiplier : α}
    (hstationary : IsStationary o s.configurations
      (s.configurations.map (o.score target additional)) multiplier s.weights)
    (ht : target.length = o.numVariables) (hc : IsConfiguration c)
    (hvalue : multiplier ≤
      o.score (List.zipWith (· - ·) target (s.marginals o).1) additional c)
    (hzero : schur o s c = 0) :
    dot (coefficients o s c) (s.configurations.map (o.score target additional)) ≤
      o.score target additional c := by
  have hinner := ho.hasIndicators.hasInnerProducts
  obtain ⟨hq, -, hcoordinate, -⟩ := ActiveSet.marginals_eq_dot hinner h.isConfiguration
  rw [score_gradient ho hc ht hq] at hvalue
  have hlen := h.length_coefficients hinner c
  have hsum : ∑ t ∈ Finset.range o.numVariables,
      dot (coefficients o s c) (o.column s.configurations t) *
        dot s.weights (o.column s.configurations t) =
      ∑ t ∈ Finset.range o.numVariables,
        coordinate (o.indicator c).1 t * coordinate (s.marginals o).1 t := by
    refine Finset.sum_congr rfl fun t ht => ?_
    have ht := Finset.mem_range.mp ht
    rw [h.dot_coefficients_of_schur_eq_zero hinner hc hzero ht, hcoordinate t ht]
  rw [hstationary.dot_scores hlen, h.sum_coefficients hinner c, mul_one, hsum]
  linarith

theorem objective_le_enter (ho : o.HasTrueIndices IsConfiguration trueAdditionals)
    (h : s.IsSound o IsConfiguration) (hone : s.weights.sum = 1) {multiplier : α}
    (hstationary : IsStationary o s.configurations
      (s.configurations.map (o.score target additional)) multiplier s.weights)
    (ht : target.length = o.numVariables) (hc : IsConfiguration c) (hmem : c ∉ s.configurations)
    (hvalue : multiplier ≤
      o.score (List.zipWith (· - ·) target (s.marginals o).1) additional c)
    (hcoefficients : ∀ a ∈ enterCoefficients o s c, a ≤ 0 ∨ Matrix.pivotTolerance < a)
    (hschurs : ∀ x ∈ enterSchurs o s c, IsZeroOrLarge x)
    (hpivots : ∀ x ∈ enterPivots o s c, IsZeroOrLarge x) :
    (enter o s c).Satisfies fun t => objective o target additional s.configurations s.weights ≤
      objective o target additional t.configurations t.weights := by
  have hinner := ho.hasIndicators.hasInnerProducts
  by_cases hlt : |schur o s c| < Matrix.pivotTolerance
  case neg =>
    rw [enter, ActiveSet.insert_of_not_lt h.inverse_ne_nil hlt]
    refine (ActiveSet.objective_congr fun f => ?_).ge
    rw [List.map_append, List.map_singleton, dot_concat (by simp [h.length_weights]), zero_mul,
      add_zero]
  case pos =>
    have htwo := h.toHasInverse.two_le_length_of_lt ho.hasIndicators hc hmem hlt
    have hzero : schur o s c = 0 := (hschurs _ List.mem_cons_self).eq_zero hlt
    have hlen := h.length_coefficients hinner c
    rw [enterCoefficients, if_pos hlt] at hcoefficients
    rw [enterPivots, if_pos hlt] at hpivots
    rw [enter, ActiveSet.insert_of_lt h.inverse_ne_nil hlt]
    cases hblocking : s.blocking? (coefficients o s c) with
    | none =>
      dsimp only
      rw [ActiveSet.exchange, hblocking]
      exact ⟨by decide, le_rfl⟩
    | some block =>
      obtain ⟨i, amount⟩ := block
      rw [hblocking] at hpivots
      obtain ⟨t, hexchange, hsound, -, -, hdot⟩ := ActiveSet.exists_exchange_eq hinner h hone htwo
        hc hzero hcoefficients hblocking (Or.inl (hpivots _ (List.mem_singleton_self _)))
        (hschurs _ (ActiveSet.schur_withdrawn_mem_enterSchurs hlt hblocking))
      have hgain := dot_coefficients_le_score ho h hstationary ht hc hvalue hzero
      dsimp only
      rw [hexchange]
      change _ ≤ objective o target additional t.configurations t.weights
      rw [ActiveSet.objective_exchange hinner h.isConfiguration hsound.isConfiguration
        h.length_weights hsound.length_weights hdot
        fun t ht => h.dot_coefficients_of_schur_eq_zero hinner hc hzero ht]
      exact le_add_of_nonneg_right
        (mul_nonneg (h.amount_nonneg hblocking) (sub_nonneg.mpr hgain))

end Enter

variable [DecidableEq C]

def iterateWeights (o : Oracle α C) (target additional : List α) (s : ActiveSet α C) : List α :=
  match s.unsignedOptimum? (s.configurations.map (o.score target additional)) with
  | none => []
  | some (_, goal) => goal

def iterateCoefficients (o : Oracle α C) (target additional : List α) (s : ActiveSet α C) :
    List α :=
  match entering? o target additional s with
  | none => []
  | some (t, c) => enterCoefficients o t c

def iteratePivots (o : Oracle α C) (target additional : List α) (s : ActiveSet α C) : List α :=
  (match leaving? o target additional s with
    | none => []
    | some (t, i) => [t.pivot i]) ++
  match entering? o target additional s with
    | none => []
    | some (t, c) => enterPivots o t c

/-- A step in which the tolerance hides nothing: no stationary weight is negative within it, no
coefficient of an exchange is positive within it, and no Schur complement or pivot that is not zero
is below it. -/
structure IsRegular (o : Oracle α C) (target additional : List α) (s : ActiveSet α C) : Prop where
  weights : ∀ w ∈ iterateWeights o target additional s, w < -Matrix.pivotTolerance ∨ 0 ≤ w
  coefficients :
    ∀ a ∈ iterateCoefficients o target additional s, a ≤ 0 ∨ Matrix.pivotTolerance < a
  schurs : ∀ x ∈ iterateSchurs o target additional s, IsZeroOrLarge x
  pivots : ∀ x ∈ iteratePivots o target additional s, IsZeroOrLarge x

section Run

variable {trueAdditionals : C → List ℕ}

theorem objective_le_iterate (ho : o.HasTrueIndices IsConfiguration trueAdditionals)
    (h : s.IsSound o IsConfiguration) (hone : s.weights.sum = 1)
    (ht : target.length = o.numVariables) (ha : additional.length = o.numAdditionals)
    (hregular : IsRegular o target additional s) :
    (iterate o target additional s).Satisfies fun t =>
      objective o target additional s.configurations s.weights ≤
        objective o target additional t.configurations t.weights := by
  have hinner := ho.hasIndicators.hasInnerProducts
  obtain ⟨multiplier, goal, hgoal, hstationary, hcases⟩ := iterate_cases hinner h target additional
  obtain ⟨hweights, hcoefficients, hschurs, hpivots⟩ := hregular
  rw [iterateWeights, hgoal] at hweights
  rw [iterateCoefficients] at hcoefficients
  rw [iteratePivots] at hpivots
  rcases hcases with ⟨i, part, hblocking, hleaving, -, -, hstep⟩ | ⟨hblocking, hleaving, hcases⟩
  case inl =>
    rw [hleaving] at hpivots
    rw [hstep]
    exact objective_le_partialStep hinner h hone hstationary hweights hblocking
      (hpivots _ List.mem_cons_self)
  case inr =>
    -- Nothing is cut off at the goal.
    have hnonneg : ∀ w ∈ goal, 0 ≤ w := by
      intro w hw
      obtain ⟨j, hj, rfl⟩ := List.mem_iff_getElem.mp hw
      have hle := le_of_blocking?_eq_none hblocking
        (hstationary.length_eq.trans h.length_weights.symm) hj
      rw [coordinate_of_getElem? (List.getElem?_eq_getElem hj)] at hle
      exact (hweights _ hw).resolve_left (not_lt.mpr hle)
    have hfull : fullStep s goal = { s with weights := goal } :=
      fullStep_eq hstationary.sum_eq hnonneg
    have hsound : (fullStep s goal).IsSound o IsConfiguration :=
      (fullStep_spec h hstationary.length_eq hstationary.sum_eq).1
    have hgrows := hstationary.objective_le hinner h.isConfiguration h.length_weights hone
    rcases hcases with ⟨⟨reason, hreason, hstep⟩, -⟩ |
        ⟨c, value, hbest, hvalue, hmem, hentering, hschurs_eq, hstep⟩
    · rw [hstep, hfull]
      exact ⟨hreason, hgrows⟩
    · have hc : IsConfiguration c := by
        have hcandidate := isConfiguration_candidate hinner hsound ht ha
        rwa [hbest] at hcandidate
      have hscore := value_candidate ho hsound ht ha hbest
      rw [hentering] at hcoefficients
      rw [hleaving, hentering] at hpivots
      rw [hschurs_eq] at hschurs
      rw [hstep]
      rw [hfull] at hsound hmem hcoefficients hschurs hpivots hscore ⊢
      refine (objective_le_enter ho hsound hstationary.sum_eq hstationary ht hc hmem ?_
        hcoefficients hschurs hpivots).imp fun t hle => hgrows.trans hle
      rw [← hscore]
      linarith [optimalityTolerance_pos (α := α)]

theorem pairwise_objective_run (ho : o.HasTrueIndices IsConfiguration trueAdditionals)
    (h : s.IsSound o IsConfiguration) (hone : s.weights.sum = 1)
    (ht : target.length = o.numVariables) (ha : additional.length = o.numAdditionals)
    (iterations limit : ℕ)
    (hregular : ∀ t ∈ runVisits o target additional s limit, IsRegular o target additional t) :
    let visits := runVisits o target additional s limit ++
      [(run o target additional s iterations limit).activeSet]
    (∀ u ∈ visits, objective o target additional s.configurations s.weights ≤
        objective o target additional u.configurations u.weights) ∧
      visits.Pairwise fun t u => objective o target additional t.configurations t.weights ≤
        objective o target additional u.configurations u.weights := by
  induction limit generalizing s iterations with
  | zero =>
    refine ⟨fun u hu => ?_, List.pairwise_singleton _ _⟩
    rw [List.mem_singleton.mp hu]
    exact le_rfl
  | succ limit ih =>
    have hstep := objective_le_iterate ho h hone ht ha
      (hregular s List.mem_cons_self)
    have hspec := iterate_spec ho.hasIndicators h ht ha
    have hschurs := (hregular s List.mem_cons_self).schurs
    unfold runVisits at hregular
    unfold run runVisits
    revert hstep hspec hregular
    cases iterate o target additional s with
    | next t =>
      intro hstep hspec hregular
      obtain ⟨hall, hpairwise⟩ := ih hspec.1 (hspec.2 hschurs hone) (iterations + 1)
        fun u hu => hregular u (List.mem_cons_of_mem _ hu)
      have hlater := fun u hu => hstep.trans (hall u hu)
      refine ⟨fun u hu => ?_, List.pairwise_cons.mpr ⟨hlater, hpairwise⟩⟩
      rcases List.mem_cons.mp hu with rfl | hu
      · exact le_rfl
      · exact hlater u hu
    | stop reason t =>
      intro hstep hspec hregular
      refine ⟨fun u hu => ?_, ?_⟩
      · rcases List.mem_cons.mp hu with rfl | hu
        · exact le_rfl
        · rw [List.mem_singleton.mp hu]
          exact hstep.2
      · exact List.pairwise_pair.mpr hstep.2

end Run

/-- The active-set method never loses ground. For all kinds of factors with an oracle, from every
active set that is empty or sound with weights that sum to one, and wherever the run stops, the
objective does not decrease from one step to the next, as long as the tolerance hides nothing. -/
theorem pairwise_objective_solve {kind : FactorKind} {n m : ℕ} (hfits : kind.Fits n m)
    {o : Oracle α kind.Configuration} (ho : kind.localProblem α = .oracle o)
    {s : ActiveSet α kind.Configuration}
    (hs : s = {} ∨ s.IsSound o kind.IsConfiguration ∧ s.weights.sum = 1)
    {target additional : List α} (ht : target.length = n) (ha : additional.length = m) (limit : ℕ)
    (hregular : ∀ t ∈ solveVisits o target additional limit s, IsRegular o target additional t) :
    (solveVisits o target additional limit s ++
      [(solve o target additional limit s).activeSet]).Pairwise fun t u =>
        objective o target additional t.configurations t.weights ≤
          objective o target additional u.configurations u.weights := by
  obtain ⟨hlaws, rfl, rfl⟩ := kind.hasTrueIndices hfits ho
  have hstart := start_isSound hlaws.hasIndicators (hs.imp id fun h => h.1) ht ha
  have hone : (start o target additional s).weights.sum = 1 :=
    sum_weights_start (hs.imp id fun h => h.2)
  exact (pairwise_objective_run hlaws hstart hone ht ha 0 limit hregular).2

/-- A pair of variables with the target `(1, 1)` and a penalty for equal values, from the active set
that a reward for equal values has left: after an entry and an exchange, a configuration leaves on
the way to the weights at which the run ends. -/
theorem pairwise_objective_solve_pair :
    let o : Oracle ℚ FactorKind.pair.Configuration := Pair.oracle
    let left := (solve o [0, 0] [1] 10 {}).activeSet
    let visits := solveVisits o [1, 1] [-1] 10 left
    left.weights.sum = 1 ∧ (∀ t ∈ visits, IsRegular o [1, 1] [-1] t) ∧
      visits.map (fun t => t.configurations.length) = [2, 3, 3, 2] ∧
      (visits ++ [(solve o [1, 1] [-1] 10 left).activeSet]).Pairwise fun t u =>
        objective o [1, 1] [-1] t.configurations t.weights ≤
          objective o [1, 1] [-1] u.configurations u.weights := by
  intro o left visits
  have hfits : FactorKind.pair.Fits 2 1 := ⟨rfl, rfl⟩
  have hsound : left.IsSound o _ :=
    (solve_spec Pair.hasTrueIndices.hasIndicators (Or.inl rfl)
      (show ([0, 0] : List ℚ).length = 2 from rfl) (show ([1] : List ℚ).length = 1 from rfl) 10).2.1
  have hone : left.weights.sum = 1 := by decide +kernel
  have hregular : ∀ t ∈ visits, IsRegular o [1, 1] [-1] t := by
    have hall : ∀ t ∈ visits,
        (∀ w ∈ iterateWeights o [1, 1] [-1] t, w < -Matrix.pivotTolerance ∨ 0 ≤ w) ∧
        (∀ a ∈ iterateCoefficients o [1, 1] [-1] t, a ≤ 0 ∨ Matrix.pivotTolerance < a) ∧
        (∀ x ∈ iterateSchurs o [1, 1] [-1] t, IsZeroOrLarge x) ∧
        ∀ x ∈ iteratePivots o [1, 1] [-1] t, IsZeroOrLarge x := by decide +kernel
    exact fun t ht => ⟨(hall t ht).1, (hall t ht).2.1, (hall t ht).2.2.1, (hall t ht).2.2.2⟩
  exact ⟨hone, hregular, by decide +kernel,
    pairwise_objective_solve hfits rfl (Or.inr ⟨hsound, hone⟩) rfl rfl 10 hregular⟩

end QuadraticProgram
end MapInference
