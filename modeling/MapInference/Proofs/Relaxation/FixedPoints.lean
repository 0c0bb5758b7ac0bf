import MapInference.Proofs.Graph.Factors
import MapInference.Proofs.Relaxation.Multipliers

/-!
# Fixed points of the consensus iteration

A round whose projections are exact, whose posteriors agree with the consensus and which does not
move the consensus has found an optimal solution of the relaxation: each projection then maximizes
the local score of its factor, so that the dual function takes the value of the consensus.
-/

namespace MapInference

open Scalar
variable {α : Type} [ExactScalar α]

namespace Marginals

theorem coordinate_map_div (xs : List α) (t : α) (i : ℕ) :
    coordinate (xs.map (· / t)) i = coordinate xs i / t := by
  cases hi : xs[i]? <;> simp [coordinate, hi]

theorem score_map_div (scores additional : List α) (t : α) (x : Marginals α) :
    score (scores.map (· / t)) (additional.map (· / t)) x = score scores additional x / t := by
  simp only [score, List.length_map, coordinate_map_div, div_mul_eq_mul_div, ← Finset.sum_div,
    ← add_div]

end Marginals

theorem Complement.scores_map_div (marks : List Bool) (xs : List α) (t : α) :
    scores marks (xs.map (· / t)) = (scores marks xs).map (· / t) := by
  simp only [scores, List.zipWith_map_right, List.map_zipWith]
  congr 1
  funext mark x
  cases mark <;> simp [neg_div]

namespace Worker

def IsProjectedExactly (w : Worker α) (consensus logPotentials : List α) (degrees : List ℕ)
    (stepSize : α) (limit : ℕ) : Prop :=
  let target := Complement.point w.factor.marks (w.target consensus logPotentials degrees stepSize)
  let additional := w.factor.additional.map (· / stepSize)
  let solution := w.factor.localProblem.project target additional limit w.activeSet
  let x := Marginals.ofLists solution.point solution.additionals
  x ∈ w.factor.polytope ∧ IsMaxOn (Marginals.proximalValue target additional) w.factor.polytope x

/-- Whether the posteriors of a worker are the values of its variables. -/
def Agrees (w : Worker α) (consensus : List α) : Prop :=
  w.posteriors = w.factor.indices.map (coordinate consensus)

variable {w : Worker α} {consensus logPotentials : List α} {degrees : List ℕ} {stepSize : α}
  {limit : ℕ}

theorem price_of_agrees (hw : w.IsAligned) (h : w.Agrees consensus) :
    w.price consensus stepSize = w := by
  have hdisagreements : w.disagreements consensus = List.replicate w.factor.literals.length 0 := by
    rw [disagreements, h, List.zipWith_map_right, List.zipWith_self]
    simp [List.map_const']
  have hmultipliers : List.zipWith (fun m d => m - stepSize * d) w.multipliers
      (w.disagreements consensus) = w.multipliers := by
    rw [hdisagreements]
    apply List.ext_getElem
    · simpa using (hw : w.multipliers.length = _).le
    · intro i h₁ h₂
      simp
  rw [price, hmultipliers]

theorem length_target (hw : w.IsAligned) (consensus logPotentials : List α) (degrees : List ℕ)
    (stepSize : α) :
    (w.target consensus logPotentials degrees stepSize).length = w.factor.literals.length := by
  unfold IsAligned at hw
  simp [target, hw]

/-- The way from the consensus to the target is the local score, in units of the step size. -/
theorem coordinate_target_sub (hw : w.IsAligned) {i : ℕ} (hi : i < w.factor.literals.length) :
    coordinate ((w.localScores logPotentials degrees).map (· / stepSize)) i =
      coordinate (w.target consensus logPotentials degrees stepSize) i -
        coordinate (w.factor.indices.map (coordinate consensus)) i := by
  have hindex : i < w.factor.indices.length := by rwa [Factor.length_indices]
  have hmultiplier : i < w.multipliers.length := by rwa [hw]
  simp [coordinate, localScores, target, List.getElem?_zipWith, List.getElem?_eq_getElem hindex,
    List.getElem?_eq_getElem hmultiplier]

theorem localBest_of_agrees (hw : w.IsAligned)
    (hfits : w.factor.kind.Fits w.factor.literals.length w.factor.numAdditionals)
    (hpos : 0 < stepSize)
    (hexact : w.IsProjectedExactly consensus logPotentials degrees stepSize limit)
    (hagrees : (w.project consensus logPotentials degrees stepSize limit).Agrees consensus) :
    let y := (w.project consensus logPotentials degrees stepSize limit).additionalPosteriors
    Marginals.ofLists (w.factor.literalMarginals consensus) y ∈ w.factor.polytope ∧
      w.localBest logPotentials degrees =
        dot (w.localScores logPotentials degrees) (w.factor.indices.map (coordinate consensus)) +
          dot w.factor.additional y := by
  obtain ⟨hmem, hmax⟩ := hexact
  let point := Complement.point w.factor.marks (w.target consensus logPotentials degrees stepSize)
  let solution := w.factor.localProblem.project point (w.factor.additional.map (· / stepSize)) limit
    w.activeSet
  have hscores := length_localScores hw logPotentials degrees
  have htarget := length_target hw consensus logPotentials degrees stepSize
  have hpoint : point.length = w.factor.literals.length := by simp [point, htarget]
  -- The literals project to the marginals that the consensus gives them.
  have hliterals : solution.point = w.factor.literalMarginals consensus := by
    have hlen : w.factor.marks.length = solution.point.length :=
      (Factor.length_marks _).trans
        ((LocalProblem.length_point_project _ _ _ _ _).trans hpoint).symm
    have hposteriors : Complement.point w.factor.marks solution.point =
        w.factor.indices.map (coordinate consensus) := hagrees
    rw [Factor.literalMarginals, ← hposteriors, Complement.point_point hlen]
  change Marginals.ofLists solution.point solution.additionals ∈ _ at hmem
  change IsMaxOn _ _ (Marginals.ofLists solution.point solution.additionals) at hmax
  rw [hliterals] at hmem hmax
  let scores := Complement.scores w.factor.marks (w.localScores logPotentials degrees)
  have hgradient : ∀ i < point.length, coordinate (scores.map (· / stepSize)) i =
      coordinate point i - coordinate (w.factor.literalMarginals consensus) i := by
    intro i hi
    rw [hpoint] at hi
    have hmarks : i < w.factor.marks.length := by rwa [Factor.length_marks]
    have hindices : i < (w.factor.indices.map (coordinate consensus)).length := by simpa using hi
    rw [← Complement.scores_map_div]
    exact Complement.coordinate_scores_sub hmarks (by rwa [List.length_map, hscores])
      (by rwa [htarget]) hindices (coordinate_target_sub hw hi)
  have hlen : (scores.map (· / stepSize)).length = point.length := by simp [scores, hscores, hpoint]
  have hscore := Marginals.isMaxOn_score (convex_convexHull α _) hmem hmax hlen hgradient
  have hbest : IsMaxOn (Marginals.score scores w.factor.additional) w.factor.polytope
      (Marginals.ofLists (w.factor.literalMarginals consensus) solution.additionals) := by
    intro z hz
    have hle : Marginals.score (scores.map (· / stepSize)) _ z ≤ _ := hscore hz
    rw [Marginals.score_map_div, Marginals.score_map_div] at hle
    exact (div_le_div_iff_of_pos_right hpos).mp hle
  exact ⟨hmem, Factor.best_eq_dot_add_dot hfits hscores hmem hbest⟩

end Worker

namespace Restriction

variable {r : Restriction α} {workers : List (Worker α)} {consensus : List α}

theorem freeBest_eq_mul {i : ℕ} {x multiplierSum : α}
    (hfixed : ∀ b, r.fixedValue? i = some b → x = ofBool b)
    (hfree : r.fixedValue? i = none → r.degree i = 0 →
      x = ofBool (decide (0 < coordinate r.problem.logPotentials i)))
    (hbalanced : r.fixedValue? i = none → multiplierSum = 0)
    (hzero : r.degree i = 0 → multiplierSum = 0) :
    r.freeBest i multiplierSum =
      (coordinate r.problem.logPotentials i -
        ((r.degree i : α) * Worker.share r.problem.logPotentials r.degrees i + multiplierSum)) *
        x := by
  unfold freeBest
  dsimp only
  cases hd : r.degree i with
  | zero =>
    rw [hzero hd, Nat.cast_zero, zero_mul, add_zero, sub_zero]
    cases hf : r.fixedValue? i with
    | none =>
      rw [hfree hf hd]
      by_cases hlt : 0 < coordinate r.problem.logPotentials i
      · simp [hlt, hlt.le, ofBool]
      · simp [hlt, not_lt.mp hlt, ofBool]
    | some b => cases b <;> simp [hfixed _ hf, ofBool]
  | succ d =>
    have hs := degree_mul_share (r := r) (i := i) (by omega)
    rw [hd] at hs
    rw [hs, sub_add_cancel_left]
    cases hf : r.fixedValue? i with
    | none => simp [hbalanced hf]
    | some b => cases b <;> simp [hfixed _ hf, ofBool]

/-- When all factors and all free values are best at a consensus, the two objectives agree. -/
theorem dualObjective_eq_primalObjective (hw : r.HasWorkers workers)
    (hlocal : ∀ w ∈ workers, w.localBest r.problem.logPotentials r.degrees =
      dot (w.localScores r.problem.logPotentials r.degrees)
        (w.factor.indices.map (coordinate consensus)) + w.additionalValue)
    (hfree : ∀ i < r.problem.numVariables,
      r.freeBest i (Worker.sumAt (Worker.occurrences workers Worker.multipliers) i) =
        (coordinate r.problem.logPotentials i - r.counted workers i) * coordinate consensus i) :
    r.dualObjective workers = r.primalObjective workers consensus := by
  have hbest : (workers.map fun w => w.localBest r.problem.logPotentials r.degrees).sum =
      ∑ i ∈ Finset.range r.problem.numVariables, r.counted workers i * coordinate consensus i +
        (workers.map Worker.additionalValue).sum := by
    rw [List.map_congr_left hlocal, List.sum_map_add, hw.sum_dot_localScores]
  rw [dualObjective_eq, hbest, Finset.sum_congr rfl fun i hi => hfree i (Finset.mem_range.mp hi),
    primalObjective, total_eq_sum, dot_eq_sum le_rfl, add_right_comm, ← Finset.sum_add_distrib]
  congr 1
  exact Finset.sum_congr rfl fun i _ => by ring

/-- Marginals and additional marginals with the greatest value of the relaxation. -/
def IsOptimal (r : Restriction α) (marginals : List α) (additionals : List (List α)) : Prop :=
  r.IsRelaxed marginals additionals ∧ ∀ marginals' additionals',
    r.IsRelaxed marginals' additionals' →
      r.relaxedValue marginals' additionals' ≤ r.relaxedValue marginals additionals

end Restriction

namespace Relaxation.State

variable {r : Restriction α} {options : Options α} {s : State α}

/-- The next round projects exactly, all posteriors are the consensus, and it does not move. -/
structure IsFixedPoint (r : Restriction α) (options : Options α) (s : State α) : Prop where
  isExact : ∀ w ∈ s.workers, w.IsProjectedExactly s.consensus r.problem.logPotentials r.degrees
    s.stepSize options.projectionLimit
  agrees : ∀ w ∈ (s.round r options).workers, w.Agrees (s.round r options).consensus
  consensus_eq : (s.round r options).consensus = s.consensus

theorem IsFixedPoint.agrees_projected (h : s.IsFixedPoint r options) {w : Worker α}
    (hw : w ∈ s.workers) : (s.projected r options w).Agrees (s.round r options).consensus :=
  h.agrees ((s.projected r options w).price (s.round r options).consensus s.stepSize)
    (List.mem_map_of_mem (List.mem_map_of_mem hw))

theorem IsFixedPoint.workers_eq (h : s.IsFixedPoint r options) (hs : s.IsSound r) :
    (s.round r options).workers = s.workers.map (s.projected r options) := by
  rw [workers_round, List.map_map]
  refine List.map_congr_left fun w hw => ?_
  exact Worker.price_of_agrees (hs.isAligned w hw) (h.agrees_projected hw)

theorem IsFixedPoint.localBest_eq (h : s.IsFixedPoint r options) (hs : s.IsSound r)
    (hpos : 0 < s.stepSize) (hdegrees : r.degrees = r.problem.degrees)
    (hwf : ∀ f ∈ r.problem.factors, f.WellFormed r.problem.numVariables) :
    ∀ w ∈ (s.round r options).workers,
      Marginals.ofLists (w.factor.literalMarginals (s.round r options).consensus)
        w.additionalPosteriors ∈ w.factor.polytope ∧
      w.localBest r.problem.logPotentials r.degrees =
        dot (w.localScores r.problem.logPotentials r.degrees)
          (w.factor.indices.map (coordinate (s.round r options).consensus)) + w.additionalValue := by
  intro w hw
  rw [h.workers_eq hs] at hw
  obtain ⟨u, hu, rfl⟩ := List.mem_map.mp hw
  have hagrees := h.agrees_projected hu
  rw [h.consensus_eq] at hagrees ⊢
  exact Worker.localBest_of_agrees (hs.isAligned u hu) ((hs.hasWorkers hdegrees hwf).fits hu) hpos
    (h.isExact u hu) hagrees

/-- The consensus of a fixed point and its additional posteriors solve the relaxation. -/
theorem isRelaxed_of_mem_polytope (hs : s.IsSound r) (hbalanced : s.IsBalanced r)
    (hworkers : r.HasWorkers s.workers)
    (hmem : ∀ w ∈ s.workers, Marginals.ofLists (w.factor.literalMarginals s.consensus)
      w.additionalPosteriors ∈ w.factor.polytope) :
    r.IsRelaxed s.consensus (s.workers.map (·.additionalPosteriors)) where
  keepsFixed := hs.keepsFixed
  mem_unit x hx := by
    obtain ⟨i, hi⟩ := List.mem_iff_getElem?.mp hx
    have hlt : i < r.problem.numVariables := by
      rw [← hs.keepsFixed.length_eq]
      exact (List.getElem?_eq_some_iff.mp hi).1
    have hbool (b : Bool) : (0 : α) ≤ ofBool b ∧ (ofBool b : α) ≤ 1 := by cases b <;> simp [ofBool]
    rw [← coordinate_of_getElem? hi]
    by_cases hdegree : r.degree i = 0
    · cases hfixed : r.fixedValue? i with
      | none => exact hbalanced.eq_free hlt hfixed hdegree ▸ hbool _
      | some b =>
        rw [coordinate_of_getElem? (hs.keepsFixed.eq_fixed hlt (Option.join_eq_some_iff.mp hfixed))]
        exact hbool b
    · rw [← Restriction.count_eq_degree hworkers.degrees_eq hlt] at hdegree
      obtain ⟨f, hf, hindex⟩ :=
        List.mem_flatMap.mp (List.count_pos_iff.mp (Nat.pos_of_ne_zero hdegree))
      rw [← hworkers.factors_eq] at hf
      obtain ⟨w, hw, rfl⟩ := List.mem_map.mp hf
      exact Factor.coordinate_mem_unit (hmem w hw) hindex
  mem_polytope := by
    rw [← hworkers.factors_eq, List.forall₂_map_left_iff, List.forall₂_map_right_iff,
      List.forall₂_same]
    exact hmem

theorem IsFixedPoint.isOptimal (h : s.IsFixedPoint r options) (hs : s.IsSound r)
    (hbalanced : s.IsBalanced r) (hdegrees : r.degrees = r.problem.degrees)
    (hwf : ∀ f ∈ r.problem.factors, f.WellFormed r.problem.numVariables) :
    let round := s.round r options
    round.dualValue = round.value ∧
      r.relaxedValue round.consensus (round.workers.map (·.additionalPosteriors)) = round.value ∧
      r.IsOptimal round.consensus (round.workers.map (·.additionalPosteriors)) := by
  intro round
  have hround : (s.record round).IsSound r := hs.round hdegrees hwf _ _
  have hbalancedRound : (s.record round).IsBalanced r := hbalanced.record hs.isShaped hdegrees options
  have hworkers : r.HasWorkers round.workers := hround.hasWorkers hdegrees hwf
  have hlocal := h.localBest_eq hs hbalanced.stepSize_pos hdegrees hwf
  have hrelaxed : r.IsRelaxed round.consensus (round.workers.map (·.additionalPosteriors)) :=
    isRelaxed_of_mem_polytope hround hbalancedRound hworkers fun w hw => (hlocal w hw).1
  have hgap : round.dualValue = round.value := by
    refine Restriction.dualObjective_eq_primalObjective hworkers (fun w hw => (hlocal w hw).2) ?_
    intro i hi
    exact Restriction.freeBest_eq_mul (fun b hb => hrelaxed.coordinate_eq_fixed hi hb)
      (hbalancedRound.eq_free hi) (hbalancedRound.sum_eq_zero hi)
      (hworkers.sumAt_multipliers_eq_zero hi)
  have hvalue : r.relaxedValue round.consensus (round.workers.map (·.additionalPosteriors)) =
      round.value := by
    rw [Restriction.relaxedValue, ← hworkers.factors_eq, List.zipWith_map_left,
      List.zipWith_map_right, List.zipWith_self]
    change _ = _ + total _
    rw [total_eq_sum]
    rfl
  refine ⟨hgap, hvalue, hrelaxed, fun marginals additionals hother => ?_⟩
  rw [hvalue, ← hgap]
  exact hother.relaxedValue_le_dualObjective hworkers

/-- In every round of the iteration that projects exactly, whose posteriors agree with the consensus
and which does not move it, the dual objective is the value of the consensus with the additional
posteriors. They are an optimal solution of the relaxation with the fixed variables. -/
theorem Reached.no_duality_gap {p : Problem α}
    (hfactors : ∀ f ∈ p.factors, f.Declarable p.numVariables) {fixed : List (Option Bool)}
    (hs : Reached { problem := p, fixed } options s)
    (h : s.IsFixedPoint { problem := p, fixed } options) :
    let r : Restriction α := { problem := p, fixed }
    let round := s.round r options
    let additionals := round.workers.map (·.additionalPosteriors)
    round.dualValue = round.value ∧ r.relaxedValue round.consensus additionals = round.value ∧
      r.IsOptimal round.consensus additionals := by
  have hwf : ∀ f ∈ p.factors, f.WellFormed p.numVariables := fun f hf => (hfactors f hf).wellFormed
  obtain ⟨hsound, hbalanced⟩ := hs.isSound_isBalanced rfl hwf
  exact h.isOptimal hsound hbalanced rfl hwf

/-- Two variables with opposite log-potentials, of which both or none are true, and two variables
without factors. -/
def balancedProblem : Problem ℚ := ⟨[exampleFactor], [1, -1, 2, 3]⟩

def balancedRestriction : Restriction ℚ :=
  { problem := balancedProblem, fixed := [none, none, none, some false] }

theorem add_eq_one_of_mem_polytope {x : Marginals ℚ} (hx : x ∈ exampleFactor.polytope) :
    x.1 0 + x.1 1 = 1 := by
  have hlinear : IsLinearMap ℚ fun x : Marginals ℚ => x.1 0 + x.1 1 :=
    ⟨fun x y => add_add_add_comm (x.1 0) (y.1 0) (x.1 1) (y.1 1), fun t x => (mul_add t _ _).symm⟩
  refine convexHull_min (fun z hz => ?_) (convex_hyperplane hlinear 1) hx
  obtain ⟨values, v, hlen, hv, rfl⟩ := hz
  obtain ⟨first, second, rfl⟩ := List.length_eq_two.mp hlen
  cases first <;> cases second
  · cases hv
  · exact zero_add 1
  · exact add_zero 1
  · cases hv

theorem halves_mem_polytope : Marginals.ofLists [1 / 2, 1 / 2] [] ∈ exampleFactor.polytope := by
  let first : Marginals ℚ := Marginals.ofLists [1, 0] []
  let second : Marginals ℚ := Marginals.ofLists [0, 1] []
  have hfirst : first ∈ exampleFactor.polytope :=
    subset_convexHull ℚ _ ⟨[true, false], (0, []), rfl, rfl, rfl⟩
  have hsecond : second ∈ exampleFactor.polytope :=
    subset_convexHull ℚ _ ⟨[false, true], (0, []), rfl, rfl, rfl⟩
  have hmiddle : (1 / 2 : ℚ) • first + (1 / 2 : ℚ) • second =
      Marginals.ofLists [1 / 2, 1 / 2] [] := by
    refine Prod.ext (funext fun i => ?_) (funext fun j => ?_)
    · match i with
      | 0 => simp [first, second, Marginals.ofLists]
      | 1 => simp [first, second, Marginals.ofLists]
      | i + 2 => simp [first, second, Marginals.ofLists]
    · simp [first, second, Marginals.ofLists]
  rw [← hmiddle]
  exact convex_convexHull ℚ _ hfirst hsecond (by norm_num) (by norm_num) (by norm_num)

theorem isFixedPoint_balancedProblem :
    (start balancedRestriction .standard).IsFixedPoint balancedRestriction .standard where
  isExact w hw := by
    obtain rfl := List.mem_singleton.mp hw
    let start : State ℚ := start balancedRestriction .standard
    let target := Complement.point exampleFactor.marks
      ((Worker.start exampleFactor).target start.consensus balancedProblem.logPotentials
        balancedProblem.degrees start.stepSize)
    have htarget : target = [21 / 2, 21 / 2] := by decide +kernel
    have hpoint : (exampleFactor.localProblem.project target [] 10 {}).point = [1 / 2, 1 / 2] := by
      decide +kernel
    change Marginals.ofLists (exampleFactor.localProblem.project target [] 10 {}).point [] ∈ _ ∧
      IsMaxOn (Marginals.proximalValue target []) _
        (Marginals.ofLists (exampleFactor.localProblem.project target [] 10 {}).point [])
    rw [hpoint, htarget]
    refine ⟨halves_mem_polytope, fun z hz => ?_⟩
    have hsum := add_eq_one_of_mem_polytope hz
    change Marginals.proximalValue [21 / 2, 21 / 2] [] z ≤
      Marginals.proximalValue [21 / 2, 21 / 2] [] (Marginals.ofLists [1 / 2, 1 / 2] [])
    simp only [Marginals.proximalValue, Marginals.ofLists, List.length_cons, List.length_nil,
      Finset.sum_range_succ, Finset.sum_range_zero, coordinate_cons_zero, coordinate_cons_succ,
      half_eq]
    nlinarith [sq_nonneg (z.1 0 - z.1 1)]
  agrees := by
    change ∀ w ∈ _, Worker.posteriors w = _
    decide +kernel
  consensus_eq := by decide +kernel

/-- A consensus of halves is as good as the two assignments between which it lies. -/
theorem no_duality_gap_balancedProblem :
    let round := (start balancedRestriction .standard).round balancedRestriction .standard
    round.consensus = [1 / 2, 1 / 2, 1, 0] ∧ round.dualValue = round.value ∧
      balancedRestriction.IsOptimal round.consensus [[]] := by
  intro round
  have hfactors : ∀ f ∈ balancedProblem.factors, f.Declarable balancedProblem.numVariables := by
    intro f hf
    rw [List.mem_singleton.mp hf]
    exact declarable_exampleFactor.mono (by decide)
  have hconsensus : round.consensus = [1 / 2, 1 / 2, 1, 0] := by decide +kernel
  obtain ⟨hgap, _, hoptimal⟩ := Reached.no_duality_gap hfactors .start isFixedPoint_balancedProblem
  exact ⟨hconsensus, hgap, hoptimal⟩

end Relaxation.State
end MapInference
