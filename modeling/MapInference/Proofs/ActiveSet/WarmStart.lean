import MapInference.Proofs.ActiveSet.Optimality
import MapInference.Proofs.Projection.Closest
import MapInference.Proofs.Relaxation.Polytope

/-!
# Warm starts

The posteriors of a solution are averages of indicators, so they lie in the polytope of the oracle,
and a bound on how much the objective grows towards every configuration holds towards all of the
polytope. The growth from one solution to another one and the growth back add up to their squared
distance, since the objective is strongly concave in the variables. Whatever active sets two
solutions of a program start from, their posteriors are therefore close when both have converged.
-/

namespace MapInference

open Scalar
variable {α C : Type} [ExactScalar α] {o : Oracle α C} {IsConfiguration : C → Prop}

namespace Oracle

def corner (o : Oracle α C) (c : C) : Marginals α :=
  Marginals.ofLists (o.indicator c).1 (o.indicator c).2

def polytope (o : Oracle α C) (IsConfiguration : C → Prop) : Set (Marginals α) :=
  convexHull α (o.corner '' {c | IsConfiguration c})

end Oracle

namespace ActiveSet

variable {s : ActiveSet α C}

def average (o : Oracle α C) (s : ActiveSet α C) : Marginals α :=
  Marginals.ofLists (s.marginals o).1 (s.marginals o).2

theorem coordinate_eq_sum_of_eq_dot (hs : s.weights.length = s.configurations.length) {n : ℕ}
    {q : List α} {v : C → List α} (hq : q.length = n) (hv : ∀ c ∈ s.configurations, (v c).length = n)
    (hdot : ∀ t < n, coordinate q t =
      dot s.weights (s.configurations.map fun c => coordinate (v c) t)) (t : ℕ) :
    coordinate q t =
      ∑ i : Fin s.configurations.length,
        coordinate s.weights i * coordinate (v s.configurations[i]) t := by
  by_cases ht : t < n
  · rw [hdot t ht, dot_eq_sum hs.le, Finset.sum_range]
    apply Finset.sum_congr rfl
    intro i _
    rw [coordinate_map (List.getElem?_eq_getElem i.isLt)]
    rfl
  · rw [coordinate_of_length_le (by omega)]
    refine (Finset.sum_eq_zero fun i _ => ?_).symm
    have hlen := hv _ (List.getElem_mem i.isLt)
    have hzero : coordinate (v s.configurations[i.1]) t = 0 := coordinate_of_length_le (by omega)
    rw [Fin.getElem_fin, hzero, mul_zero]

theorem IsSound.average_eq_sum (ho : o.HasIndicators IsConfiguration)
    (hs : s.IsSound o IsConfiguration) :
    s.average o = ∑ i : Fin s.configurations.length,
      coordinate s.weights i • o.corner s.configurations[i] := by
  obtain ⟨hq, hr, hv, ha⟩ := marginals_spec ho hs.isConfiguration
  have hlen (c : C) (hc : c ∈ s.configurations) := ho.length_indicator (hs.isConfiguration c hc)
  apply Prod.ext
  · funext t
    rw [Prod.fst_sum, Finset.sum_apply]
    exact coordinate_eq_sum_of_eq_dot hs.length_weights hq (fun c hc => (hlen c hc).1) hv t
  · funext t
    rw [Prod.snd_sum, Finset.sum_apply]
    exact coordinate_eq_sum_of_eq_dot hs.length_weights hr (fun c hc => (hlen c hc).2) ha t

theorem IsSound.average_mem_polytope (ho : o.HasIndicators IsConfiguration)
    (hs : s.IsSound o IsConfiguration) (hsum : s.weights.sum = 1) :
    s.average o ∈ o.polytope IsConfiguration := by
  rw [hs.average_eq_sum ho]
  apply (convex_convexHull α _).sum_mem
  · exact fun i _ => hs.coordinate_weights_nonneg i
  · rw [← hsum, sum_eq_sum_coordinate hs.length_weights.le, Finset.sum_range]
  · intro i _
    apply subset_convexHull
    exact ⟨_, hs.isConfiguration _ (List.getElem_mem i.isLt), rfl⟩

end ActiveSet

namespace QuadraticProgram

open Projection (approach distanceSq)

section Growth

variable {target additional : List α} {x y : Marginals α}

def growth (target additional : List α) (x y : Marginals α) : α :=
  approach target.length (coordinate target) x.1 y.1 +
    ∑ u ∈ Finset.range additional.length, coordinate additional u * (y.2 u - x.2 u)

/-- The objective is strongly concave in the variables, and linear in the additional ones. -/
theorem growth_add_growth (target additional : List α) (x y : Marginals α) :
    growth target additional x y + growth target additional y x =
      distanceSq target.length x.1 y.1 := by
  have hadditional : ∑ u ∈ Finset.range additional.length,
        coordinate additional u * (y.2 u - x.2 u) +
      ∑ u ∈ Finset.range additional.length, coordinate additional u * (x.2 u - y.2 u) = 0 := by
    rw [← Finset.sum_add_distrib]
    apply Finset.sum_eq_zero
    intro u _
    ring
  rw [Projection.distanceSq_eq_approach_add_approach _ (coordinate target)]
  unfold growth
  linear_combination hadditional

theorem growth_segment (target additional : List α) (x y z : Marginals α) {r t : α}
    (h : r + t = 1) :
    growth target additional x (r • y + t • z) =
      r * growth target additional x y + t * growth target additional x z := by
  obtain rfl : r = 1 - t := eq_sub_of_add_eq h
  have hvariables : ((1 - t) • y + t • z).1 = fun i => y.1 i + t * (z.1 i - y.1 i) := by
    funext i
    simp only [Prod.fst_add, Prod.smul_fst, Pi.add_apply, Pi.smul_apply, smul_eq_mul]
    ring
  have hadditionals : ∑ u ∈ Finset.range additional.length,
        coordinate additional u * (((1 - t) • y + t • z).2 u - x.2 u) =
      (1 - t) * ∑ u ∈ Finset.range additional.length, coordinate additional u * (y.2 u - x.2 u) +
        t * ∑ u ∈ Finset.range additional.length, coordinate additional u * (z.2 u - x.2 u) := by
    rw [Finset.mul_sum, Finset.mul_sum, ← Finset.sum_add_distrib]
    apply Finset.sum_congr rfl
    intro u _
    simp only [Prod.snd_add, Prod.smul_snd, Pi.add_apply, Pi.smul_apply, smul_eq_mul]
    ring
  unfold growth
  rw [hvariables, Projection.approach_segment, hadditionals]
  ring

theorem convex_growth_le (target additional : List α) (x : Marginals α) (bound : α) :
    Convex α {y | growth target additional x y ≤ bound} := by
  intro y hy z hz r t hr ht hrt
  change growth target additional x (r • y + t • z) ≤ bound
  calc growth target additional x (r • y + t • z)
      = r * growth target additional x y + t * growth target additional x z :=
        growth_segment target additional x y z hrt
    _ ≤ r * bound + t * bound :=
        add_le_add (mul_le_mul_of_nonneg_left hy hr) (mul_le_mul_of_nonneg_left hz ht)
    _ = bound := by rw [← add_mul, hrt, one_mul]

theorem growth_le_of_corners {bound : α}
    (h : ∀ c, IsConfiguration c → growth target additional x (o.corner c) ≤ bound)
    {z : Marginals α} (hz : z ∈ o.polytope IsConfiguration) :
    growth target additional x z ≤ bound := by
  refine convexHull_min ?_ (convex_growth_le target additional x bound) hz
  rintro _ ⟨c, hc, rfl⟩
  exact h c hc

/-- Two marginals from which the objective grows little towards each other are close. -/
theorem distanceSq_le_of_growth_le {K : Set (Marginals α)} {bound bound' : α} (hx : x ∈ K)
    (hy : y ∈ K) (h : ∀ z ∈ K, growth target additional x z ≤ bound)
    (h' : ∀ z ∈ K, growth target additional y z ≤ bound') :
    distanceSq target.length x.1 y.1 ≤ bound + bound' := by
  rw [← growth_add_growth target additional]
  exact add_le_add (h y hy) (h' x hx)

end Growth

/-- The run has ended because no configuration improves the objective, or because the best one is
active already. -/
def Outcome.Converged (outcome : Outcome α C) : Prop :=
  outcome.stop = .optimal ∨ outcome.stop = .alreadyActive

section Converged

variable {s : ActiveSet α C} {target additional : List α} {trueAdditionals : C → List ℕ}

theorem ascent_eq_growth (ho : o.HasIndicators IsConfiguration)
    (hs : s.IsSound o IsConfiguration) (ht : target.length = o.numVariables)
    (ha : additional.length = o.numAdditionals) {c : C} (hc : IsConfiguration c) :
    ascent o target additional s c = growth target additional (s.average o) (o.corner c) := by
  obtain ⟨hq, hr, _⟩ := ActiveSet.marginals_spec ho hs.isConfiguration
  obtain ⟨hv, hw⟩ := ho.length_indicator hc
  change dot (List.zipWith (· - ·) target (s.marginals o).1)
      (List.zipWith (· - ·) (o.indicator c).1 (s.marginals o).1) +
    dot additional (List.zipWith (· - ·) (o.indicator c).2 (s.marginals o).2) = _
  rw [dot_eq_sum (n := target.length) (by simp), dot_eq_sum le_rfl]
  congr 1
  · apply Finset.sum_congr rfl
    intro i hi
    have hi : i < o.numVariables := ht ▸ Finset.mem_range.mp hi
    rw [coordinate_zipWith (ht ▸ hi) (hq ▸ hi), coordinate_zipWith (hv ▸ hi) (hq ▸ hi)]
    rfl
  · apply Finset.sum_congr rfl
    intro u hu
    have hu : u < o.numAdditionals := ha ▸ Finset.mem_range.mp hu
    rw [coordinate_zipWith (hw ▸ hu) (hr ▸ hu)]
    rfl

variable [DecidableEq C]

/-- The averages of a solution that has converged lie in the polytope, and towards no point of it
the objective grows by more than the tolerances. -/
theorem Calls.growth_solve_le (ho : o.HasTrueIndices IsConfiguration trueAdditionals) {met : List α}
    {last : Option (List α × List α)} (hcalls : Calls o s met last)
    (ht : target.length = o.numVariables) (ha : additional.length = o.numAdditionals) (limit : ℕ)
    (hconverged : (solve o target additional limit s).Converged) :
    let t := (solve o target additional limit s).activeSet
    t.average o ∈ o.polytope IsConfiguration ∧
      ∀ y ∈ o.polytope IsConfiguration, growth target additional (t.average o) y ≤
        1 / 10 ^ 9 + 4 / 10 ^ 12 * target.length * t.configurations.length := by
  intro t
  have hstart := start_isSound ho.hasIndicators
    ((hcalls.isSound ho.hasIndicators).imp (fun h => h.1) fun h => h.1) ht ha
  obtain ⟨hsound, multiplier, goal, hoptimal⟩ :=
    isOptimal_run ho.hasIndicators hstart ht ha 0 limit hconverged
  change t.IsSound o IsConfiguration at hsound
  change IsOptimal o target additional t multiplier goal at hoptimal
  refine ⟨hsound.average_mem_polytope ho.hasIndicators hoptimal.sum_eq, ?_⟩
  intro y hy
  apply growth_le_of_corners _ hy
  intro c hc
  have hnonneg : (0 : α) ≤ target.length * t.configurations.length := by positivity
  calc growth target additional (t.average o) (o.corner c)
      = ascent o target additional t c :=
        (ascent_eq_growth ho.hasIndicators hsound ht ha hc).symm
    _ ≤ 1 / 10 ^ 9 + target.length * (t.configurations.length * (1 / 10 ^ 12)) := by
        rw [← tenthPower_eq 9, ← Matrix.pivotTolerance_eq, ht]
        exact hoptimal.ascent_le ho hsound ht ha hc
    _ ≤ 1 / 10 ^ 9 + 4 / 10 ^ 12 * target.length * t.configurations.length := by linarith

end Converged

/-- The warm start does not change the answer. From any two active sets that calls of a factor
leave, solutions of the same program that converge have close posteriors. -/
theorem Calls.distanceSq_posteriors_le {kind : FactorKind} {n m : ℕ} (hfits : kind.Fits n m)
    {o : Oracle α kind.Configuration} (ho : kind.localProblem α = .oracle o)
    {s s' : ActiveSet α kind.Configuration} {met met' : List α}
    {last last' : Option (List α × List α)} (hcalls : Calls o s met last)
    (hcalls' : Calls o s' met' last') {scores additional : List α} (hs : scores.length = n)
    (ha : additional.length = m) :
    ∃ outcome outcome', solveChecked o scores additional s = .ok outcome ∧
      solveChecked o scores additional s' = .ok outcome' ∧
      (outcome.Converged → outcome'.Converged →
        let q := (outcome.solution o).marginals
        let q' := (outcome'.solution o).marginals
        let k := outcome.activeSet.configurations.length
        let k' := outcome'.activeSet.configurations.length
        ∑ i ∈ Finset.range n, (coordinate q i - coordinate q' i) ^ 2 ≤
          2 / 10 ^ 9 + 8 / 10 ^ 12 * n * max k k') := by
  obtain ⟨hlaws, rfl, rfl⟩ := kind.hasTrueIndices hfits ho
  refine ⟨_, _, solveChecked_eq_solve hs ha s, solveChecked_eq_solve hs ha s', ?_⟩
  intro hconverged hconverged' q q' k k'
  obtain ⟨hmem, hgrowth⟩ := hcalls.growth_solve_le hlaws hs ha directLimit hconverged
  obtain ⟨hmem', hgrowth'⟩ := hcalls'.growth_solve_le hlaws hs ha directLimit hconverged'
  have hdistance := distanceSq_le_of_growth_le hmem hmem' hgrowth hgrowth'
  rw [hs] at hdistance
  have hk : (k : α) ≤ (max k k' : ℕ) := Nat.cast_le.mpr (le_max_left k k')
  have hk' : (k' : α) ≤ (max k k' : ℕ) := Nat.cast_le.mpr (le_max_right k k')
  have hn : (0 : α) ≤ 4 / 10 ^ 12 * o.numVariables := by positivity
  have hbound := mul_le_mul_of_nonneg_left hk hn
  have hbound' := mul_le_mul_of_nonneg_left hk' hn
  refine hdistance.trans ?_
  change _ + _ * (k : α) + (_ + _ * (k' : α)) ≤ _
  linarith

/-- Without a score for the pair, one answer mixes the equal values and another the different ones,
so the posteriors of the additional variable differ. -/
theorem Calls.distanceSq_posteriors_le_pair :
    let o : Oracle ℚ FactorKind.pair.Configuration := Pair.oracle
    let left := (solve o [1 / 2, 0] [0] 10 {}).activeSet
    ∃ outcome outcome', solveChecked o [1 / 2, 1 / 2] [0] {} = .ok outcome ∧
      solveChecked o [1 / 2, 1 / 2] [0] left = .ok outcome' ∧
      (outcome.solution o).additionals = [1 / 2] ∧ (outcome'.solution o).additionals = [0] ∧
      ∑ i ∈ Finset.range 2, (coordinate (outcome.solution o).marginals i -
          coordinate (outcome'.solution o).marginals i) ^ 2 ≤
        2 / 10 ^ 9 + 8 / 10 ^ 12 * (2 : ℕ) * max 2 3 := by
  intro o left
  have hfits : FactorKind.pair.Fits 2 1 := ⟨rfl, rfl⟩
  have hleft : Calls o left _ _ := Calls.start.project 10 rfl rfl
  obtain ⟨outcome, outcome', hok, hok', hclose⟩ :=
    Calls.distanceSq_posteriors_le hfits rfl Calls.start hleft
      (show [1 / 2, 1 / 2].length = 2 from rfl) (show [0].length = 1 from rfl)
  refine ⟨outcome, outcome', hok, hok', ?_⟩
  obtain rfl := (solveChecked_eq_ok hok).2.2
  obtain rfl := (solveChecked_eq_ok hok').2.2
  have hclose := hclose (Or.inl (by decide +kernel)) (Or.inl (by decide +kernel))
  have hk : (solve o [1 / 2, 1 / 2] [0] directLimit {}).activeSet.configurations.length = 2 := by
    decide +kernel
  have hk' : (solve o [1 / 2, 1 / 2] [0] directLimit left).activeSet.configurations.length = 3 := by
    decide +kernel
  rw [hk, hk'] at hclose
  exact ⟨by decide +kernel, by decide +kernel, by exact_mod_cast hclose⟩

end QuadraticProgram
end MapInference
