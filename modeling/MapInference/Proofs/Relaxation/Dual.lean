import MapInference.Proofs.Relaxation.Polytope
import MapInference.Consensus.Round

/-!
# Weak duality

For any multipliers, the dual function bounds the value of all marginals in the relaxation, among
them the values of all assignments that agree with the fixed variables. The log-potential of a
variable is split evenly among its occurrences; summed over the occurrences, the local scores of
marginals therefore count every log-potential once, and every multiplier as often as the best free
value of its variable takes it off again.
-/

namespace MapInference

open Scalar
variable {α : Type}

namespace Worker

theorem map_fst_occurrences {workers : List (Worker α)}
    (h : ∀ w ∈ workers, w.multipliers.length = w.factor.literals.length) :
    (occurrences workers multipliers).map (·.1) =
      (workers.map (·.factor)).flatMap Factor.indices := by
  induction workers with
  | nil => rfl
  | cons w workers ih =>
    have hrest := ih fun w hw => h w (List.mem_cons_of_mem _ hw)
    have hlen : w.factor.indices.length = w.multipliers.length := by
      rw [Factor.length_indices, h w List.mem_cons_self]
    have hfst : (List.zipWith Prod.mk w.factor.indices w.multipliers).map (·.1) =
        w.factor.indices := List.map_fst_zip hlen.le
    simp only [occurrences, List.flatMap_cons, List.map_append, List.map_cons] at hrest ⊢
    rw [hrest, hfst]

end Worker

namespace Problem

theorem degree_eq_count (p : Problem α) (i : ℕ) :
    p.degree i = (p.factors.flatMap Factor.indices).count i := by
  unfold degree
  induction p.factors with
  | nil => rfl
  | cons f factors ih => rw [List.foldr_cons, ih, List.flatMap_cons, List.count_append]

end Problem

namespace Restriction

theorem degree_eq {r : Restriction α} (hdegrees : r.degrees = r.problem.degrees) {i : ℕ}
    (hi : i < r.problem.numVariables) : r.degree i = r.problem.degree i := by
  simp [degree, hdegrees, Problem.degrees, hi]

theorem count_eq_degree {r : Restriction α} (hdegrees : r.degrees = r.problem.degrees) {i : ℕ}
    (hi : i < r.problem.numVariables) :
    (r.problem.factors.flatMap Factor.indices).count i = r.degree i := by
  rw [degree_eq hdegrees hi, Problem.degree_eq_count]

structure HasWorkers (r : Restriction α) (workers : List (Worker α)) : Prop where
  degrees_eq : r.degrees = r.problem.degrees
  wellFormed : ∀ f ∈ r.problem.factors, f.WellFormed r.problem.numVariables
  factors_eq : workers.map (·.factor) = r.problem.factors
  length_multipliers : ∀ w ∈ workers, w.multipliers.length = w.factor.literals.length

namespace HasWorkers

variable {r : Restriction α} {workers : List (Worker α)}

theorem mem_factors (h : r.HasWorkers workers) {w : Worker α} (hw : w ∈ workers) :
    w.factor ∈ r.problem.factors :=
  h.factors_eq ▸ List.mem_map_of_mem hw

theorem fits (h : r.HasWorkers workers) {w : Worker α} (hw : w ∈ workers) :
    w.factor.kind.Fits w.factor.literals.length w.factor.numAdditionals :=
  (h.wellFormed _ (h.mem_factors hw)).fits

theorem index_lt (h : r.HasWorkers workers) :
    ∀ i ∈ r.problem.factors.flatMap Factor.indices, i < r.problem.numVariables := by
  intro i hi
  obtain ⟨f, hf, hi⟩ := List.mem_flatMap.mp hi
  exact (h.wellFormed f hf).index_lt i hi

end HasWorkers

end Restriction

variable [ExactScalar α]

namespace Worker

@[simp] theorem sumAt_nil (i : ℕ) : sumAt ([] : List (ℕ × α)) i = 0 := rfl

theorem sumAt_cons (o : ℕ × α) (os : List (ℕ × α)) (i : ℕ) :
    sumAt (o :: os) i = (if o.1 = i then o.2 else 0) + sumAt os i := by
  have hsum (os : List (ℕ × α)) (s : α) :
      os.foldl (fun sum o => sum + o.2) s = s + (os.map (·.2)).sum := by
    induction os generalizing s with
    | nil => simp
    | cons o os ih => rw [List.foldl_cons, ih, List.map_cons, List.sum_cons, add_assoc]
  by_cases h : o.1 = i <;> simp [sumAt, h, hsum]

theorem sumAt_eq_zero {os : List (ℕ × α)} {i : ℕ} (h : i ∉ os.map (·.1)) : sumAt os i = 0 := by
  have hnone : os.filter (fun o => o.1 == i) = [] := by
    rw [List.filter_eq_nil_iff]
    intro o ho hoi
    exact h (List.mem_map.mpr ⟨o, ho, by simpa using hoi⟩)
  simp [sumAt, hnone]

theorem sum_occurrences {n : ℕ} (os : List (ℕ × α)) (hos : ∀ o ∈ os, o.1 < n) (part x : ℕ → α) :
    (os.map fun o => (part o.1 + o.2) * x o.1).sum =
      ∑ i ∈ Finset.range n, (((os.map (·.1)).count i : α) * part i + sumAt os i) * x i := by
  induction os with
  | nil => simp
  | cons o os ih =>
    have hrest := ih fun o ho => hos o (List.mem_cons_of_mem _ ho)
    have hlt : o.1 ∈ Finset.range n := Finset.mem_range.mpr (hos o List.mem_cons_self)
    have hhead : (part o.1 + o.2) * x o.1 =
        ∑ i ∈ Finset.range n, if o.1 = i then (part i + o.2) * x i else 0 := by
      rw [Finset.sum_ite_eq, if_pos hlt]
    rw [List.map_cons, List.sum_cons, hrest, hhead, ← Finset.sum_add_distrib]
    refine Finset.sum_congr rfl fun i _ => ?_
    rw [sumAt_cons, List.map_cons, List.count_cons]
    by_cases hi : o.1 = i
    · simp only [hi, ↓reduceIte, beq_self_eq_true, Nat.cast_add, Nat.cast_one]
      ring
    · simp [hi]

/-- The local scores of a worker at the values of the variables, occurrence by occurrence. -/
theorem dot_localScores (part x : ℕ → α) (indices : List ℕ) (multipliers : List α) :
    dot (List.zipWith (fun i m => part i + m) indices multipliers) (indices.map x) =
      ((List.zipWith Prod.mk indices multipliers).map fun o => (part o.1 + o.2) * x o.1).sum := by
  rw [dot, total_eq_sum]
  induction indices generalizing multipliers with
  | nil => simp
  | cons i indices ih =>
    cases multipliers with
    | nil => simp
    | cons m multipliers => simp [ih multipliers]

/-- What every literal of a worker scores: its share of the log-potential and its multiplier. -/
def localScores (w : Worker α) (logPotentials : List α) (degrees : List ℕ) : List α :=
  List.zipWith (fun i m => share logPotentials degrees i + m) w.factor.indices w.multipliers

theorem length_localScores {w : Worker α} (h : w.multipliers.length = w.factor.literals.length)
    (logPotentials : List α) (degrees : List ℕ) :
    (w.localScores logPotentials degrees).length = w.factor.literals.length := by
  simp [localScores, h]

end Worker

namespace Restriction

variable {r : Restriction α} {workers : List (Worker α)} {marginals : List α}
  {additionals : List (List α)} {values : List Bool}

theorem degree_mul_share {i : ℕ} (h : r.degree i ≠ 0) :
    (r.degree i : α) * Worker.share r.problem.logPotentials r.degrees i =
      coordinate r.problem.logPotentials i := by
  rw [Worker.share, ofNat_eq_cast, ← degree]
  exact mul_div_cancel₀ _ (Nat.cast_ne_zero.mpr h)

def counted (r : Restriction α) (workers : List (Worker α)) (i : ℕ) : α :=
  (r.degree i : α) * Worker.share r.problem.logPotentials r.degrees i +
    Worker.sumAt (Worker.occurrences workers Worker.multipliers) i

theorem sumAt_multipliers_eq_zero (hdegrees : r.degrees = r.problem.degrees)
    (hfactors : workers.map (·.factor) = r.problem.factors)
    (hmultipliers : ∀ w ∈ workers, w.multipliers.length = w.factor.literals.length) {i : ℕ}
    (hi : i < r.problem.numVariables) (hdegree : r.degree i = 0) :
    Worker.sumAt (Worker.occurrences workers Worker.multipliers) i = 0 := by
  rw [← count_eq_degree hdegrees hi, List.count_eq_zero, ← hfactors,
    ← Worker.map_fst_occurrences hmultipliers] at hdegree
  exact Worker.sumAt_eq_zero hdegree

namespace HasWorkers

theorem sumAt_multipliers_eq_zero (h : r.HasWorkers workers) {i : ℕ}
    (hi : i < r.problem.numVariables) (hdegree : r.degree i = 0) :
    Worker.sumAt (Worker.occurrences workers Worker.multipliers) i = 0 :=
  Restriction.sumAt_multipliers_eq_zero h.degrees_eq h.factors_eq h.length_multipliers hi hdegree

theorem sum_dot_localScores (h : r.HasWorkers workers) (x : ℕ → α) :
    (workers.map fun w =>
        dot (w.localScores r.problem.logPotentials r.degrees) (w.factor.indices.map x)).sum =
      ∑ i ∈ Finset.range r.problem.numVariables, r.counted workers i * x i := by
  have hfst := Worker.map_fst_occurrences h.length_multipliers
  rw [h.factors_eq] at hfst
  have hos : ∀ o ∈ Worker.occurrences workers Worker.multipliers,
      o.1 < r.problem.numVariables := by
    intro o ho
    exact h.index_lt o.1 (hfst ▸ List.mem_map_of_mem ho)
  have hvariables := Worker.sum_occurrences _ hos
    (Worker.share r.problem.logPotentials r.degrees) x
  calc (workers.map fun w =>
        dot (w.localScores r.problem.logPotentials r.degrees) (w.factor.indices.map x)).sum
      = ((Worker.occurrences workers Worker.multipliers).map fun o =>
          (Worker.share r.problem.logPotentials r.degrees o.1 + o.2) * x o.1).sum := by
        rw [Worker.occurrences, List.map_flatMap, List.flatMap_def, List.sum_flatten, List.map_map]
        congr 1
        exact List.map_congr_left fun w _ => Worker.dot_localScores _ _ _ _
    _ = ∑ i ∈ Finset.range r.problem.numVariables, r.counted workers i * x i := by
        rw [hvariables, hfst]
        refine Finset.sum_congr rfl fun i hi => ?_
        rw [count_eq_degree h.degrees_eq (Finset.mem_range.mp hi), counted]

end HasWorkers

structure KeepsFixed (r : Restriction α) (consensus : List α) : Prop where
  length_eq : consensus.length = r.problem.numVariables
  eq_fixed {i : ℕ} {b : Bool} : i < r.problem.numVariables → r.fixed[i]? = some (some b) →
    consensus[i]? = some (ofBool b)

/-- Marginals of all variables, and for every factor marginals of its additional variables. They
have the fixed values, and those of each factor lie in its polytope. -/
structure IsRelaxed (r : Restriction α) (marginals : List α) (additionals : List (List α)) :
    Prop where
  keepsFixed : r.KeepsFixed marginals
  mem_unit : ∀ x ∈ marginals, 0 ≤ x ∧ x ≤ 1
  mem_polytope : List.Forall₂
    (fun f y => Marginals.ofLists (f.literalMarginals marginals) y ∈ f.polytope)
    r.problem.factors additionals

/-- The sum of the log-potentials, each as often as its variable counts in the marginals. -/
def relaxedValue (r : Restriction α) (marginals : List α) (additionals : List (List α)) : α :=
  dot r.problem.logPotentials marginals +
    (List.zipWith (fun f y => dot f.additional y) r.problem.factors additionals).sum

theorem dualObjective_eq (r : Restriction α) (workers : List (Worker α)) :
    r.dualObjective workers =
      (workers.map fun w => w.localBest r.problem.logPotentials r.degrees).sum +
        ∑ i ∈ Finset.range r.problem.numVariables,
          r.freeBest i (Worker.sumAt (Worker.occurrences workers Worker.multipliers) i) := by
  have hsum (n : ℕ) (f : ℕ → α) (s : α) :
      (List.range n).foldl (fun sum i => sum + f i) s = s + ∑ i ∈ Finset.range n, f i := by
    induction n with
    | zero => simp
    | succ n ih => rw [List.range_succ, List.foldl_concat, ih, Finset.sum_range_succ, add_assoc]
  rw [dualObjective, hsum, total_eq_sum]

theorem mul_le_freeBest {i : ℕ} {x : α} (hx : 0 ≤ x ∧ x ≤ 1)
    (hfixed : ∀ b, r.fixedValue? i = some b → x = ofBool b) {multiplierSum : α}
    (hzero : r.degree i = 0 → multiplierSum = 0) :
    (coordinate r.problem.logPotentials i -
        ((r.degree i : α) * Worker.share r.problem.logPotentials r.degrees i + multiplierSum)) * x ≤
      r.freeBest i multiplierSum := by
  have hmax (a : α) : a * x ≤ max a 0 := by
    rcases le_total 0 a with ha | ha
    · exact (mul_le_of_le_one_right ha hx.2).trans (le_max_left a 0)
    · exact (mul_nonpos_of_nonpos_of_nonneg ha hx.1).trans (le_max_right a 0)
  unfold freeBest
  dsimp only
  cases hd : r.degree i with
  | zero =>
    rw [hzero hd, Nat.cast_zero, zero_mul, add_zero, sub_zero]
    cases hf : r.fixedValue? i with
    | none => simpa using hmax _
    | some b => cases b <;> simp [hfixed _ hf, ofBool]
  | succ d =>
    have hs := degree_mul_share (r := r) (i := i) (by omega)
    rw [hd] at hs
    rw [hs, sub_add_cancel_left]
    cases hf : r.fixedValue? i with
    | none => exact (hmax _).trans_eq (larger_eq_max _ _).symm
    | some b => cases b <;> simp [hfixed _ hf, ofBool]

namespace IsRelaxed

theorem coordinate_mem_unit (h : r.IsRelaxed marginals additionals) (i : ℕ) :
    0 ≤ coordinate marginals i ∧ coordinate marginals i ≤ 1 := by
  by_cases hi : i < marginals.length
  · exact h.mem_unit _ (List.mem_of_getElem? (getElem?_eq_some_coordinate hi))
  · rw [coordinate_of_length_le (by omega)]
    exact ⟨le_rfl, zero_le_one⟩

theorem coordinate_eq_fixed (h : r.IsRelaxed marginals additionals) {i : ℕ}
    (hi : i < r.problem.numVariables) {b : Bool} (hb : r.fixedValue? i = some b) :
    coordinate marginals i = ofBool b :=
  coordinate_of_getElem? (h.keepsFixed.eq_fixed hi (Option.join_eq_some_iff.mp hb))

/-- The local scores of marginals and their additional values are at most the best local scores. -/
theorem sum_le_sum_localBest (h : r.IsRelaxed marginals additionals) (hw : r.HasWorkers workers) :
    (workers.map fun w => dot (w.localScores r.problem.logPotentials r.degrees)
        (w.factor.indices.map (coordinate marginals))).sum +
        (List.zipWith (fun f y => dot f.additional y) r.problem.factors additionals).sum ≤
      (workers.map fun w => w.localBest r.problem.logPotentials r.degrees).sum := by
  have hlocal {us : List (Worker α)} {ys : List (List α)} (hus : ∀ w ∈ us, w ∈ workers)
      (hmem : List.Forall₂ (fun w y => Marginals.ofLists (w.factor.literalMarginals marginals) y ∈
        w.factor.polytope) us ys) :
      (us.map fun w => dot (w.localScores r.problem.logPotentials r.degrees)
          (w.factor.indices.map (coordinate marginals))).sum +
          (List.zipWith (fun w y => dot w.factor.additional y) us ys).sum ≤
        (us.map fun w => w.localBest r.problem.logPotentials r.degrees).sum := by
    induction hmem with
    | nil => simp
    | @cons w _ _ _ hhead _ ih =>
      have hworker : w ∈ workers := hus w List.mem_cons_self
      have hlen := Worker.length_localScores (hw.length_multipliers w hworker)
        r.problem.logPotentials r.degrees
      have hbest := Factor.dot_add_dot_le_best (hw.fits hworker) hlen hhead
      have hrest := ih fun u hu => hus u (List.mem_cons_of_mem _ hu)
      change _ ≤ w.localBest r.problem.logPotentials r.degrees at hbest
      simp only [List.map_cons, List.zipWith_cons_cons, List.sum_cons]
      linarith
  have hmem := h.mem_polytope
  rw [← hw.factors_eq, List.forall₂_map_left_iff] at hmem
  rw [← hw.factors_eq, List.zipWith_map_left]
  exact hlocal (fun _ hu => hu) hmem

theorem relaxedValue_le_dualObjective (h : r.IsRelaxed marginals additionals)
    (hw : r.HasWorkers workers) :
    r.relaxedValue marginals additionals ≤ r.dualObjective workers := by
  have hlocal := h.sum_le_sum_localBest hw
  rw [hw.sum_dot_localScores] at hlocal
  have hfree : ∑ i ∈ Finset.range r.problem.numVariables,
        (coordinate r.problem.logPotentials i - r.counted workers i) * coordinate marginals i ≤
      ∑ i ∈ Finset.range r.problem.numVariables,
        r.freeBest i (Worker.sumAt (Worker.occurrences workers Worker.multipliers) i) := by
    refine Finset.sum_le_sum fun i hi => ?_
    have hi := Finset.mem_range.mp hi
    exact mul_le_freeBest (h.coordinate_mem_unit i) (fun b => h.coordinate_eq_fixed hi)
      (hw.sumAt_multipliers_eq_zero hi)
  have hunary : dot r.problem.logPotentials marginals =
      ∑ i ∈ Finset.range r.problem.numVariables, r.counted workers i * coordinate marginals i +
      ∑ i ∈ Finset.range r.problem.numVariables,
        (coordinate r.problem.logPotentials i - r.counted workers i) * coordinate marginals i := by
    rw [dot_eq_sum le_rfl, ← Finset.sum_add_distrib]
    exact Finset.sum_congr rfl fun i _ => by ring
  rw [dualObjective_eq, relaxedValue, hunary]
  linarith

end IsRelaxed

/-- An assignment that agrees with the fixed variables solves the relaxation with its value. -/
theorem exists_isRelaxed (hwf : ∀ f ∈ r.problem.factors, f.WellFormed r.problem.numVariables)
    (hagree : Agrees r.fixed values) {v : α} (hv : r.problem.value? values = some v) :
    ∃ marginals additionals, r.IsRelaxed marginals additionals ∧
      r.relaxedValue marginals additionals = v := by
  let marginals : List α :=
    (List.range r.problem.numVariables).map fun i => ofBool (values[i]?.getD false)
  let indicator (f : Factor α) : List α := ((f.evaluate (f.restrict values)).map (·.2)).getD []
  have hmarginal {i : ℕ} (hi : i < r.problem.numVariables) :
      marginals[i]? = some (ofBool (values[i]?.getD false)) := by
    simp [marginals, hi]
  have hliterals {f : Factor α} (hf : f ∈ r.problem.factors) :
      f.literalMarginals marginals = (f.literalValues values).map ofBool := by
    have hrestrict : f.indices.map (coordinate marginals) = (f.restrict values).map ofBool := by
      rw [Factor.restrict, List.map_map]
      refine List.map_congr_left fun i hi => ?_
      exact coordinate_of_getElem? (hmarginal ((hwf f hf).index_lt i hi))
    rw [Factor.literalMarginals, hrestrict, Complement.point_map_ofBool]
    rfl
  have hevaluate {f : Factor α} (hf : f ∈ r.problem.factors) :
      ∃ u, f.evaluate (f.restrict values) = some u ∧ indicator f = u.2 := by
    obtain ⟨u, hu⟩ := Problem.exists_evaluate_of_value? hv f hf
    exact ⟨u, hu, by simp [indicator, hu]⟩
  have hlen (f : Factor α) : (f.literalValues values).length = f.literals.length := by
    simp [Factor.literalValues_eq_map]
  refine ⟨marginals, r.problem.factors.map indicator, ⟨⟨by simp [marginals], ?_⟩, ?_, ?_⟩, ?_⟩
  · intro i b hi hb
    rw [hmarginal hi, hagree i b hb, Option.getD_some]
  · intro x hx
    obtain ⟨i, _, rfl⟩ := List.mem_map.mp hx
    cases values[i]?.getD false <;> simp [ofBool]
  · rw [List.forall₂_map_right_iff, List.forall₂_same]
    intro f hf
    obtain ⟨u, hu, hindicator⟩ := hevaluate hf
    rw [hliterals hf, hindicator]
    exact subset_convexHull α _ ⟨_, u, hlen f, hu, rfl⟩
  · have hunary : dot r.problem.logPotentials marginals = gain r.problem.logPotentials values := by
      rw [dot_eq_sum le_rfl, gain_eq_sum]
      refine Finset.sum_congr rfl fun i hi => ?_
      rw [coordinate_of_getElem? (hmarginal (Finset.mem_range.mp hi)), ofBool, mul_ite, mul_one,
        mul_zero]
    have hscore : ∀ f ∈ r.problem.factors, ∀ u, f.evaluate (f.restrict values) = some u →
        u.1 = dot f.additional (indicator f) := by
      intro f hf u hu
      obtain ⟨u', hu', hindicator⟩ := hevaluate hf
      obtain rfl : u = u' := Option.some.inj (hu.symm.trans hu')
      rw [hindicator]
      exact (Factor.dot_evaluate (hwf f hf).fits (hlen f) hu).symm
    rw [Problem.value?_eq_add_sum hscore hv, relaxedValue, hunary, List.zipWith_map_right,
      List.zipWith_self]

/-- The dual function bounds the value of every assignment that agrees with the fixed variables. -/
theorem value_le_dualObjective (hw : r.HasWorkers workers) (hagree : Agrees r.fixed values) {v : α}
    (hv : r.problem.value? values = some v) : v ≤ r.dualObjective workers := by
  obtain ⟨marginals, additionals, hrelaxed, rfl⟩ := exists_isRelaxed hw.wellFormed hagree hv
  exact hrelaxed.relaxedValue_le_dualObjective hw

end Restriction
end MapInference
