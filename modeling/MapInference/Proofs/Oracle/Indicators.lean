import MapInference.Proofs.Coordinates
import MapInference.Proofs.Oracle.Lawful

/-!
# Indicators

The indicator of a configuration is one at its true variables and at its true additional variables.
The active-set method only uses that weights are added to indicators, that the common variables of
two configurations are counted by the inner product of their indicators, and that an indicator
determines its configuration; the last is only needed where a single configuration is active.
Oracles that describe their configurations by lists of true indices have these properties.
-/

namespace MapInference

open Scalar

namespace Oracle

variable {α C : Type} [ExactScalar α]

def addMultiple (xs : List α) (weight : α) (vs : List α) : List α :=
  List.zipWith (fun x v => x + weight * v) xs vs

theorem length_addMultiple {xs vs : List α} {n : ℕ} (hx : xs.length = n) (hv : vs.length = n)
    (weight : α) : (addMultiple xs weight vs).length = n := by
  simp [addMultiple, hx, hv]

theorem coordinate_addMultiple {xs vs : List α} {n i : ℕ} (hx : xs.length = n) (hv : vs.length = n)
    (weight : α) (hi : i < n) :
    coordinate (addMultiple xs weight vs) i = coordinate xs i + weight * coordinate vs i :=
  coordinate_zipWith (hx ▸ hi) (hv ▸ hi)

/-- What the active-set method needs of the configurations of an oracle. -/
structure HasIndicators (o : Oracle α C) (IsConfiguration : C → Prop) : Prop where
  isConfiguration_maximize {scores additional : List α} : scores.length = o.numVariables →
    additional.length = o.numAdditionals → IsConfiguration (o.maximize scores additional).1
  length_indicator {c : C} : IsConfiguration c → (o.indicator c).1.length = o.numVariables ∧
    (o.indicator c).2.length = o.numAdditionals
  accumulate_eq {c : C} {weight : α} {sums : List α × List α} : IsConfiguration c →
    sums.1.length = o.numVariables → sums.2.length = o.numAdditionals →
    o.accumulate c weight sums =
      (addMultiple sums.1 weight (o.indicator c).1, addMultiple sums.2 weight (o.indicator c).2)
  common_eq {c d : C} : IsConfiguration c → IsConfiguration d →
    (o.common c d : α) = dot (o.indicator c).1 (o.indicator d).1
  eq_of_indicator_eq {c d : C} : IsConfiguration c → IsConfiguration d →
    (o.indicator c).1 = (o.indicator d).1 → c = d

/-- What is left of this when different configurations may have the same variables. -/
structure HasInnerProducts (o : Oracle α C) (IsConfiguration : C → Prop) : Prop where
  isConfiguration_maximize {scores additional : List α} : scores.length = o.numVariables →
    additional.length = o.numAdditionals → IsConfiguration (o.maximize scores additional).1
  length_indicator {c : C} : IsConfiguration c → (o.indicator c).1.length = o.numVariables ∧
    (o.indicator c).2.length = o.numAdditionals
  accumulate_eq {c : C} {weight : α} {sums : List α × List α} : IsConfiguration c →
    sums.1.length = o.numVariables → sums.2.length = o.numAdditionals →
    o.accumulate c weight sums =
      (addMultiple sums.1 weight (o.indicator c).1, addMultiple sums.2 weight (o.indicator c).2)
  common_eq {c d : C} : IsConfiguration c → IsConfiguration d →
    (o.common c d : α) = dot (o.indicator c).1 (o.indicator d).1

theorem HasIndicators.hasInnerProducts {o : Oracle α C} {IsConfiguration : C → Prop}
    (h : o.HasIndicators IsConfiguration) : o.HasInnerProducts IsConfiguration :=
  ⟨h.isConfiguration_maximize, h.length_indicator, h.accumulate_eq, h.common_eq⟩

theorem coordinate_accumulateAt {indices : List ℕ} (hn : indices.Nodup) {xs : List α} {i : ℕ}
    (h : i < xs.length) (weight : α) :
    coordinate (accumulateAt indices weight xs) i =
      coordinate xs i + if i ∈ indices then weight else 0 :=
  coordinate_foldl_addAt hn h weight

def indicatorAt (n : ℕ) (indices : List ℕ) : List α := accumulateAt indices 1 (zeros n)

@[simp] theorem length_indicatorAt (n : ℕ) (indices : List ℕ) :
    (indicatorAt n indices : List α).length = n := by
  simp [indicatorAt]

theorem coordinate_indicatorAt {indices : List ℕ} (hn : indices.Nodup) {n i : ℕ} (hi : i < n) :
    coordinate (indicatorAt n indices : List α) i = if i ∈ indices then 1 else 0 := by
  rw [indicatorAt, coordinate_accumulateAt hn (by simpa using hi), coordinate_zeros, zero_add]

theorem accumulateAt_eq {indices : List ℕ} (hn : indices.Nodup) {xs : List α} {n : ℕ}
    (hx : xs.length = n) (weight : α) :
    accumulateAt indices weight xs = addMultiple xs weight (indicatorAt n indices) := by
  refine eq_of_coordinate (by simp [addMultiple, hx]) fun i hi => ?_
  rw [length_accumulateAt, hx] at hi
  rw [coordinate_accumulateAt hn (hx ▸ hi),
    coordinate_addMultiple hx (length_indicatorAt n indices) weight hi, coordinate_indicatorAt hn hi,
    mul_ite, mul_one, mul_zero]

theorem scoreAt_eq_dot {indices : List ℕ} (hn : indices.Nodup) {n : ℕ} (hlt : ∀ i ∈ indices, i < n)
    (scores : List α) : scoreAt indices scores = dot (indicatorAt n indices) scores := by
  have hindicator : dot (indicatorAt n indices) scores =
      ∑ i ∈ Finset.range n, if i ∈ indices then coordinate scores i else 0 := by
    rw [dot_eq_sum (length_indicatorAt n indices).le]
    refine Finset.sum_congr rfl fun i hi => ?_
    rw [coordinate_indicatorAt hn (Finset.mem_range.mp hi), ite_mul, one_mul, zero_mul]
  have hfilter : (Finset.range n).filter (· ∈ indices) = indices.toFinset := by
    ext i
    simpa using hlt i
  rw [hindicator, ← Finset.sum_filter, hfilter, List.sum_toFinset _ hn, scoreAt, total_eq_sum]

theorem countP_mem_eq_dot {is js : List ℕ} (hi : is.Nodup) (hj : js.Nodup) {n : ℕ}
    (hlt : ∀ i ∈ is, i < n) :
    ((is.countP (· ∈ js) : ℕ) : α) = dot (indicatorAt n is) (indicatorAt n js) := by
  rw [← scoreAt_eq_dot hi hlt]
  clear hi
  induction is with
  | nil => simp
  | cons i is ih =>
    rw [scoreAt_cons, ← ih fun i hi => hlt i (List.mem_cons_of_mem _ hi), List.countP_cons,
      coordinate_indicatorAt hj (hlt i List.mem_cons_self)]
    by_cases hmem : i ∈ js <;> simp [hmem, add_comm]

theorem countCommon_eq_countP {is js : List ℕ} (hi : is.Pairwise (· < ·))
    (hj : js.Pairwise (· < ·)) :
    countCommon is js = is.countP (· ∈ js) := by
  fun_induction countCommon is js with
  | case1 js => rfl
  | case2 is _ => simp
  | case3 i is j js hlt ih =>
    have hnotin : i ∉ j :: js := by
      intro hmem
      rcases List.mem_cons.mp hmem with rfl | hmem
      · exact lt_irrefl _ hlt
      · exact absurd (List.rel_of_pairwise_cons hj hmem) hlt.asymm
    rw [ih hi.of_cons hj, List.countP_cons, if_neg (by simpa using hnotin), Nat.add_zero]
  | case4 i is j js hle hlt ih =>
    rw [ih hi hj.of_cons]
    refine List.countP_congr fun k hk => ?_
    have hjk : j < k := by
      rcases List.mem_cons.mp hk with rfl | hk
      · exact hlt
      · exact hlt.trans (List.rel_of_pairwise_cons hi hk)
    simp [hjk.ne']
  | case5 i is j js hle hge ih =>
    obtain rfl : i = j := by omega
    rw [ih hi.of_cons hj.of_cons, List.countP_cons, if_pos (by simp)]
    congr 1
    refine List.countP_congr fun k hk => ?_
    simp [(List.rel_of_pairwise_cons hi hk).ne']

/-- What two lists of small numbers, each followed by shifted numbers, have in common. -/
theorem countP_mem_append_map_add {n : ℕ} {is is' js js' : List ℕ} (hi : ∀ i ∈ is, i < n)
    (hj : ∀ j ∈ js, j < n) :
    (is ++ is'.map (· + n)).countP (· ∈ js ++ js'.map (· + n)) =
      is.countP (· ∈ js) + is'.countP (· ∈ js') := by
  rw [List.countP_append, List.countP_map]
  congr 1
  · refine List.countP_congr fun i hmem => ?_
    have hlow : i ∉ js'.map (· + n) := by
      have := hi i hmem
      simp only [List.mem_map, not_exists, not_and]
      omega
    simp [List.mem_append, hlow]
  · refine List.countP_congr fun i _ => ?_
    have hhigh : i + n ∉ js := fun hmem => absurd (hj _ hmem) (by omega)
    simp [List.mem_append, hhigh]

structure HasTrueIndices (o : Oracle α C) (IsConfiguration : C → Prop)
    (trueAdditionals : C → List ℕ) : Prop extends o.Lawful IsConfiguration where
  accumulate_eq (c : C) (weight : α) (sums : List α × List α) :
    o.accumulate c weight sums =
      (accumulateAt (o.trueVariables c) weight sums.1,
        accumulateAt (trueAdditionals c) weight sums.2)
  nodup_trueAdditionals {c : C} : IsConfiguration c → (trueAdditionals c).Nodup
  trueAdditionals_lt {c : C} : IsConfiguration c → ∀ i ∈ trueAdditionals c, i < o.numAdditionals
  score_zeros_eq {additional : List α} {c : C} : IsConfiguration c →
    o.score (zeros o.numVariables) additional c = scoreAt (trueAdditionals c) additional
  common_eq {c d : C} : IsConfiguration c → IsConfiguration d →
    o.common c d = (o.trueVariables c).countP (· ∈ o.trueVariables d)

namespace HasTrueIndices

variable {o : Oracle α C} {IsConfiguration : C → Prop} {trueAdditionals : C → List ℕ} {c d : C}

theorem nodup_trueVariables (h : o.HasTrueIndices IsConfiguration trueAdditionals)
    (hc : IsConfiguration c) : (o.trueVariables c).Nodup :=
  (h.pairwise_trueVariables hc).imp ne_of_lt

theorem indicator_eq (h : o.HasTrueIndices IsConfiguration trueAdditionals) (c : C) :
    o.indicator c =
      (indicatorAt o.numVariables (o.trueVariables c),
        indicatorAt o.numAdditionals (trueAdditionals c)) :=
  h.accumulate_eq c 1 _

theorem score_eq_dot (h : o.HasTrueIndices IsConfiguration trueAdditionals)
    (hc : IsConfiguration c) (scores additional : List α) :
    o.score scores additional c =
      dot (o.indicator c).1 scores + dot (o.indicator c).2 additional := by
  rw [h.indicator_eq, h.score_eq hc, h.score_zeros_eq hc,
    scoreAt_eq_dot (h.nodup_trueVariables hc) (h.trueVariables_lt hc),
    scoreAt_eq_dot (h.nodup_trueAdditionals hc) (h.trueAdditionals_lt hc)]

theorem eq_of_trueVariables_eq (h : o.HasTrueIndices IsConfiguration trueAdditionals)
    (hc : IsConfiguration c) (hd : IsConfiguration d)
    (heq : o.trueVariables c = o.trueVariables d) : c = d := by
  have hof := h.ofAssignment?_assignmentOf hc
  rw [heq, h.ofAssignment?_assignmentOf hd] at hof
  exact (Option.some.inj hof).symm

theorem hasIndicators (h : o.HasTrueIndices IsConfiguration trueAdditionals) :
    o.HasIndicators IsConfiguration where
  isConfiguration_maximize := h.isConfiguration_maximize
  length_indicator _ := by simp [h.indicator_eq]
  accumulate_eq hc h₁ h₂ := by
    rw [h.accumulate_eq, h.indicator_eq, accumulateAt_eq (h.nodup_trueVariables hc) h₁,
      accumulateAt_eq (h.nodup_trueAdditionals hc) h₂]
  common_eq hc hd := by
    rw [h.common_eq hc hd, h.indicator_eq, h.indicator_eq]
    exact countP_mem_eq_dot (h.nodup_trueVariables hc) (h.nodup_trueVariables hd)
      (h.trueVariables_lt hc)
  eq_of_indicator_eq {c d} hc hd heq := by
    rw [h.indicator_eq, h.indicator_eq] at heq
    refine h.eq_of_trueVariables_eq hc hd
      ((h.pairwise_trueVariables hc).eq_of_mem_iff (h.pairwise_trueVariables hd) fun i => ?_)
    have hiff (hi : i < o.numVariables) : i ∈ o.trueVariables c ↔ i ∈ o.trueVariables d := by
      have hcoordinate := congrArg (coordinate · i) heq
      simp only [coordinate_indicatorAt (h.nodup_trueVariables hc) hi,
        coordinate_indicatorAt (h.nodup_trueVariables hd) hi] at hcoordinate
      by_cases hic : i ∈ o.trueVariables c <;> by_cases hid : i ∈ o.trueVariables d <;>
        simp_all
    exact ⟨fun hi => (hiff (h.trueVariables_lt hc i hi)).mp hi,
      fun hi => (hiff (h.trueVariables_lt hd i hi)).mpr hi⟩

end HasTrueIndices
end Oracle
end MapInference
