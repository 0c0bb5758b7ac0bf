import MapInference.Proofs.ActiveSet.WarmStart
import MapInference.Proofs.Factor.Projection
import MapInference.Proofs.Oracle.Vertices
import MapInference.Proofs.Relaxation.Conservation

/-!
# Ranges of relaxations

The proximal step of a factor with an oracle leaves an average of configurations in the polytope of
the factor, wherever the active-set method starts and stops; that of a closed form leaves a point of
the unit box. The consensus averages the posteriors, so that all of these stay between zero and one
through the rounds of a relaxation, and the step size stays between its bounds.
-/

namespace MapInference

open Scalar
variable {α : Type} [ExactScalar α]

theorem mem_unit_of_coordinate {xs : List α}
    (h : ∀ i, 0 ≤ coordinate xs i ∧ coordinate xs i ≤ 1) : ∀ x ∈ xs, 0 ≤ x ∧ x ≤ 1 := by
  intro x hx
  obtain ⟨i, hi⟩ := List.mem_iff_getElem?.mp hx
  have hcoordinate := h i
  rwa [coordinate_of_getElem? hi] at hcoordinate

theorem mem_unit_zeros (n : ℕ) : ∀ x ∈ (zeros n : List α), 0 ≤ x ∧ x ≤ 1 := by
  intro x hx
  rw [List.eq_of_mem_replicate hx]
  exact ⟨le_rfl, zero_le_one⟩

theorem mem_unit_ofBool (b : Bool) : 0 ≤ (ofBool b : α) ∧ (ofBool b : α) ≤ 1 := by
  cases b <;> simp [ofBool]

theorem Complement.mem_unit_of_map {marks : List Bool} {x : ℕ → α}
    (h : ∀ i, 0 ≤ map marks x i ∧ map marks x i ≤ 1) (i : ℕ) : 0 ≤ x i ∧ x i ≤ 1 := by
  have hi := h i
  unfold map at hi
  split_ifs at hi
  · exact ⟨by linarith, by linarith⟩
  · exact hi

theorem sum_div_length_mem_unit {xs : List α} (h : ∀ x ∈ xs, 0 ≤ x ∧ x ≤ 1) :
    0 ≤ xs.sum / xs.length ∧ xs.sum / xs.length ≤ 1 := by
  have hnonneg : 0 ≤ xs.sum := List.sum_nonneg fun x hx => (h x hx).1
  have hle : xs.sum ≤ xs.length := by
    simpa using List.sum_le_card_nsmul xs 1 fun x hx => (h x hx).2
  exact ⟨div_nonneg hnonneg (Nat.cast_nonneg _), div_le_one_of_le₀ hle (Nat.cast_nonneg _)⟩

namespace Factor

variable {f : Factor α}

theorem additional_mem_unit_of_mem_polytope
    (h : f.kind.Fits f.literals.length f.numAdditionals) {x : Marginals α} (hx : x ∈ f.polytope)
    (j : ℕ) : 0 ≤ x.2 j ∧ x.2 j ≤ 1 := by
  have hconvex : Convex α {x : Marginals α | 0 ≤ x.2 j ∧ x.2 j ≤ 1} := by
    have hlinear : IsLinearMap α fun x : Marginals α => x.2 j := ⟨fun _ _ => rfl, fun _ _ => rfl⟩
    exact (convex_halfSpace_ge hlinear 0).inter (convex_halfSpace_le hlinear 1)
  refine convexHull_min (fun z hz => ?_) hconvex hx
  obtain ⟨values, v, hlen, hval, rfl⟩ := hz
  change 0 ≤ coordinate v.2 j ∧ coordinate v.2 j ≤ 1
  obtain ⟨-, hindicator⟩ := FactorKind.evaluate_spec h hlen rfl hval
  rw [hindicator]
  by_cases hj : j < f.numAdditionals
  · rw [coordinate_map (List.getElem?_range hj)]
    split_ifs <;> simp
  · rw [coordinate_of_length_le (by simpa using hj)]
    exact ⟨le_rfl, zero_le_one⟩

theorem polytope_oracle_subset (h : f.kind.Fits f.literals.length f.numAdditionals)
    {o : Oracle α f.kind.Configuration} (ho : f.localProblem = .oracle o) :
    o.polytope f.kind.IsConfiguration ⊆ f.polytope := by
  obtain ⟨hlaws, hn, -⟩ := f.kind.hasTrueIndices h ho
  refine convexHull_mono ?_
  rintro _ ⟨c, hc, rfl⟩
  have hof : o.ofAssignment? (o.vertex c) = some c := hlaws.ofAssignment?_assignmentOf hc
  refine ⟨o.vertex c, (o.score (zeros o.numVariables) f.additional c, (o.indicator c).2),
    (Oracle.length_assignmentOf _ _).trans hn, ?_, ?_⟩
  · rw [ho, LocalProblem.evaluate, Oracle.evaluate, hof, Option.map_some]
  · rw [Oracle.corner, hlaws.indicator_eq,
      Oracle.indicatorAt_eq_numbers (hlaws.nodup_trueVariables hc)]
    rfl

theorem isLogic_or_isBudget (h : f.kind.Fits f.literals.length f.numAdditionals)
    {form : ClosedForm α} (hlocal : f.localProblem = .closedForm form) :
    (∃ op, f.IsLogic op) ∨ ∃ b, f.kind = .budget b := by
  obtain ⟨literals, additional, kind⟩ := f
  cases kind with
  | logic c =>
    obtain ⟨op, hop, harity, -⟩ := h
    exact Or.inl ⟨op, congrArg FactorKind.logic hop, harity⟩
  | budget b => exact Or.inr ⟨b, rfl⟩
  | _ => cases hlocal

end Factor

namespace Worker

open ActiveSet (IsZeroOrLarge)

variable {w : Worker α}

def projectSchurs (w : Worker α) (consensus logPotentials : List α) (degrees : List ℕ)
    (stepSize : α) (limit : ℕ) : List α :=
  match w.factor.localProblem with
  | .closedForm _ => []
  | .oracle o =>
    QuadraticProgram.solveSchurs o
      (Complement.point w.factor.marks (w.target consensus logPotentials degrees stepSize))
      (w.factor.additional.map (· / stepSize)) limit w.activeSet

/-- The active set of a factor with an oracle is empty, or a distribution over configurations. -/
def HasDistribution (w : Worker α) : Prop :=
  ∀ o, w.factor.localProblem = .oracle o → w.activeSet = {} ∨
    w.activeSet.IsSound o w.factor.kind.IsConfiguration ∧ w.activeSet.weights.sum = 1

theorem hasDistribution_start (f : Factor α) : (start f).HasDistribution :=
  fun _ _ => Or.inl rfl

theorem HasDistribution.price (h : w.HasDistribution) (consensus : List α) (stepSize : α) :
    (w.price consensus stepSize).HasDistribution := h

section Project

variable (consensus logPotentials : List α) (degrees : List ℕ) (stepSize : α) (limit : ℕ)

/-- The proximal step of a factor with an oracle solves the program of the oracle. -/
theorem project_eq_of_oracle {o : Oracle α w.factor.kind.Configuration}
    (ho : w.factor.localProblem = .oracle o) :
    let point := Complement.point w.factor.marks
      (w.target consensus logPotentials degrees stepSize)
    let additional := w.factor.additional.map (· / stepSize)
    let outcome := QuadraticProgram.solve o point additional limit w.activeSet
    let s := outcome.activeSet
    let v := w.project consensus logPotentials degrees stepSize limit
    v.activeSet = s ∧
      v.posteriors = Complement.point w.factor.marks (resized point.length (s.marginals o).1) ∧
      v.additionalPosteriors = resized additional.length (s.marginals o).2 ∧
      v.emptied = (w.emptied || outcome.stop == .emptied) := by
  simp only [project, ho, LocalProblem.project, and_self]

/-- Wherever the active-set method starts, a proximal step leaves a distribution, and its average in
the polytope of the factor. -/
theorem HasDistribution.project_of_oracle (h : w.HasDistribution)
    (hfits : w.factor.kind.Fits w.factor.literals.length w.factor.numAdditionals)
    (haligned : w.IsAligned) {o : Oracle α w.factor.kind.Configuration}
    (ho : w.factor.localProblem = .oracle o)
    (hschurs : ∀ x ∈ w.projectSchurs consensus logPotentials degrees stepSize limit,
      IsZeroOrLarge x) :
    let v := w.project consensus logPotentials degrees stepSize limit
    (v.activeSet.IsSound o w.factor.kind.IsConfiguration ∧ v.activeSet.weights.sum = 1) ∧
      Marginals.ofLists (Complement.point w.factor.marks v.posteriors) v.additionalPosteriors ∈
        w.factor.polytope := by
  intro v
  obtain ⟨hlaws, hn, hm⟩ := w.factor.kind.hasTrueIndices hfits ho
  obtain ⟨hactive, hposteriors, hadditionals, -⟩ :=
    project_eq_of_oracle consensus logPotentials degrees stepSize limit ho
  let point := Complement.point w.factor.marks
    (w.target consensus logPotentials degrees stepSize)
  let additional := w.factor.additional.map (· / stepSize)
  let s := (QuadraticProgram.solve o point additional limit w.activeSet).activeSet
  have hpoint : point.length = o.numVariables := by
    have haligned : w.multipliers.length = w.factor.literals.length := haligned
    simp [point, target, haligned, hn]
  have hadditional : additional.length = o.numAdditionals :=
    (List.length_map _).trans hm.symm
  rw [projectSchurs, ho] at hschurs
  obtain ⟨-, hsound, hsum⟩ := QuadraticProgram.solve_spec hlaws.hasIndicators
    ((h o ho).imp_right And.left) hpoint hadditional limit
  replace hsum : s.weights.sum = 1 := hsum hschurs ((h o ho).imp_right And.right)
  obtain ⟨hlen, hlen', -⟩ :=
    ActiveSet.marginals_spec hlaws.hasIndicators hsound.isConfiguration
  have haverage : Marginals.ofLists (Complement.point w.factor.marks v.posteriors)
      v.additionalPosteriors = s.average o := by
    rw [hposteriors, hadditionals, resized_of_length (hlen.trans hpoint.symm),
      resized_of_length (hlen'.trans hadditional.symm), Complement.point_point]
    · rfl
    · rw [hlen, hn, Factor.length_marks]
  rw [hactive, haverage]
  exact ⟨⟨hsound, hsum⟩, Factor.polytope_oracle_subset hfits ho <|
    hsound.average_mem_polytope hlaws.hasIndicators hsum⟩

theorem HasDistribution.project (h : w.HasDistribution)
    (hfits : w.factor.kind.Fits w.factor.literals.length w.factor.numAdditionals)
    (haligned : w.IsAligned)
    (hschurs : ∀ x ∈ w.projectSchurs consensus logPotentials degrees stepSize limit,
      IsZeroOrLarge x) :
    (w.project consensus logPotentials degrees stepSize limit).HasDistribution := fun _ ho =>
  Or.inr (h.project_of_oracle consensus logPotentials degrees stepSize limit hfits haligned ho
    hschurs).1

theorem additionalPosteriors_project_of_closedForm {form : ClosedForm α}
    (hlocal : w.factor.localProblem = .closedForm form) :
    (w.project consensus logPotentials degrees stepSize limit).additionalPosteriors =
      zeros (w.factor.additional.map (· / stepSize)).length := by
  simp only [project, hlocal, LocalProblem.project]

theorem posteriors_mem_unit_of_closedForm
    (hfits : w.factor.kind.Fits w.factor.literals.length w.factor.numAdditionals)
    (haligned : w.IsAligned) {form : ClosedForm α}
    (hlocal : w.factor.localProblem = .closedForm form) :
    ∀ x ∈ (w.project consensus logPotentials degrees stepSize limit).posteriors,
      0 ≤ x ∧ x ≤ 1 := by
  apply mem_unit_of_coordinate
  intro i
  rcases Factor.isLogic_or_isBudget hfits hlocal with ⟨op, hop⟩ | ⟨b, hb⟩
  · have hlogic := isProjection_logic consensus logPotentials degrees stepSize limit hop haligned
    have hbox := op.condition.slackHull_subset_unitBox (op.leastArity_condition_le.trans hop.2) _
      hlogic.mem
    -- Both complements are undone.
    exact Complement.mem_unit_of_map (Complement.mem_unit_of_map hbox.1) i
  · have hbudget := isProjection_budget consensus logPotentials degrees stepSize limit hb haligned
    exact (Projection.convexHull_satisfying_subset_unitBox _ _ hbudget.mem).1 i

/-- The posteriors of a proximal step, and its additional posteriors, lie between zero and one. -/
theorem HasDistribution.project_mem_unit (h : w.HasDistribution)
    (hfits : w.factor.kind.Fits w.factor.literals.length w.factor.numAdditionals)
    (haligned : w.IsAligned)
    (hschurs : ∀ x ∈ w.projectSchurs consensus logPotentials degrees stepSize limit,
      IsZeroOrLarge x) :
    let v := w.project consensus logPotentials degrees stepSize limit
    (∀ x ∈ v.posteriors, 0 ≤ x ∧ x ≤ 1) ∧ ∀ x ∈ v.additionalPosteriors, 0 ≤ x ∧ x ≤ 1 := by
  intro v
  cases hlocal : w.factor.localProblem with
  | closedForm form =>
    refine ⟨posteriors_mem_unit_of_closedForm _ _ _ _ _ hfits haligned hlocal, ?_⟩
    rw [additionalPosteriors_project_of_closedForm _ _ _ _ _ hlocal]
    exact mem_unit_zeros _
  | oracle o =>
    have hmem := (h.project_of_oracle consensus logPotentials degrees stepSize limit hfits haligned
      hlocal hschurs).2
    have hmarks : w.factor.marks.length = v.posteriors.length := by
      rw [length_posteriors_project haligned, Factor.length_marks]
    have hpoint := Factor.mem_unit_of_mem_polytope hmem
    rw [Marginals.ofLists, Complement.coordinate_point hmarks] at hpoint
    exact ⟨mem_unit_of_coordinate (Complement.mem_unit_of_map hpoint),
      mem_unit_of_coordinate (Factor.additional_mem_unit_of_mem_polytope hfits hmem)⟩

end Project

end Worker

namespace Relaxation

theorem minStepSize_le_maxStepSize : (minStepSize : α) ≤ maxStepSize := by
  rw [minStepSize, maxStepSize, tenthPower_eq, ofNat_eq_cast]
  norm_num

theorem clamp_mem {low high : α} (h : low ≤ high) (x : α) :
    low ≤ clamp low high x ∧ clamp low high x ≤ high := by
  unfold clamp
  split_ifs with hlow hhigh
  · exact ⟨le_rfl, h⟩
  · exact ⟨h, le_rfl⟩
  · exact ⟨not_lt.mp hlow, not_lt.mp hhigh⟩

theorem balanced_mem {stepSize : α} (h : minStepSize ≤ stepSize ∧ stepSize ≤ maxStepSize)
    (primalResidual dualResidual : α) :
    minStepSize ≤ balanced primalResidual dualResidual stepSize ∧
      balanced primalResidual dualResidual stepSize ≤ maxStepSize := by
  have hpos : 0 < stepSize := State.minStepSize_pos.trans_le h.1
  unfold balanced
  rw [smaller_eq_min, larger_eq_max, ofNat_eq_cast, ofNat_eq_cast]
  split_ifs
  · refine ⟨le_min (h.1.trans ?_) minStepSize_le_maxStepSize, min_le_right _ _⟩
    push_cast
    linarith
  · refine ⟨le_max_right _ _, max_le (le_trans ?_ h.2) minStepSize_le_maxStepSize⟩
    push_cast
    linarith
  · exact h

namespace State

open ActiveSet (IsZeroOrLarge)

variable {r : Restriction α} {options : Options α} {s : State α}

def rounds (r : Restriction α) (options : Options α) (s : State α) : ℕ → List (State α)
  | 0 => []
  | limit + 1 => s ::
    match s.advance r options with
    | (t, .proceed) => rounds r options t limit
    | (_, _) => []

/-- The state before the first round and the states after all rounds. -/
def visits (r : Restriction α) (options : Options α) (s : State α) (limit : ℕ) :
    List (State α) :=
  s :: (s.rounds r options limit).map fun t => (t.advance r options).1

def roundSchurs (r : Restriction α) (options : Options α) (s : State α) : List α :=
  s.workers.flatMap fun w => w.projectSchurs s.consensus r.problem.logPotentials r.degrees
    s.stepSize options.projectionLimit

/-- The Schur complements that are met in at most `limit` rounds. -/
def runSchurs (r : Restriction α) (options : Options α) (s : State α) (limit : ℕ) : List α :=
  (s.rounds r options limit).flatMap (roundSchurs r options)

theorem exists_mem_rounds (r : Restriction α) (options : Options α) (s : State α) {limit : ℕ}
    (h : 0 < limit) :
    ∃ t ∈ s.rounds r options limit, (s.run r options limit).1 = (t.advance r options).1 := by
  induction limit generalizing s with
  | zero => exact absurd h (Nat.lt_irrefl 0)
  | succ limit ih =>
    unfold rounds run
    cases hadvance : s.advance r options with
    | mk t verdict =>
      cases verdict with
      | converged | certified =>
        exact ⟨s, List.mem_cons_self, congrArg Prod.fst hadvance.symm⟩
      | proceed =>
        rcases Nat.eq_zero_or_pos limit with rfl | hpos
        · exact ⟨s, List.mem_cons_self, congrArg Prod.fst hadvance.symm⟩
        · obtain ⟨u, hu, hrun⟩ := ih t hpos
          exact ⟨u, List.mem_cons_of_mem _ hu, hrun⟩

theorem run_mem_visits (r : Restriction α) (options : Options α) (s : State α) (limit : ℕ) :
    (s.run r options limit).1 ∈ s.visits r options limit := by
  rcases Nat.eq_zero_or_pos limit with rfl | hpos
  · exact List.mem_cons_self
  · obtain ⟨t, ht, hrun⟩ := exists_mem_rounds r options s hpos
    exact List.mem_cons_of_mem _ (List.mem_map.mpr ⟨t, ht, hrun.symm⟩)

theorem stepSize_advance_mem (r : Restriction α) (options : Options α)
    (h : minStepSize ≤ s.stepSize ∧ s.stepSize ≤ maxStepSize) :
    minStepSize ≤ (s.advance r options).1.stepSize ∧
      (s.advance r options).1.stepSize ≤ maxStepSize := by
  unfold advance
  dsimp only
  split
  · exact h
  · split_ifs
    · exact h
    · unfold State.adapt
      split_ifs
      · exact balanced_mem h _ _
      · exact h

theorem Reached.stepSize_mem (h : Reached r options s) :
    minStepSize ≤ s.stepSize ∧ s.stepSize ≤ maxStepSize := by
  induction h with
  | start => exact clamp_mem minStepSize_le_maxStepSize _
  | advance _ proceeds ih =>
    have hadvance := stepSize_advance_mem r options ih
    rwa [proceeds] at hadvance

/-- The consensus averages posteriors, unless a variable is fixed or occurs in no factor. -/
theorem consensus_round_mem_unit (hs : s.IsShaped r) (hbalanced : s.IsBalanced r)
    (hkeeps : r.KeepsFixed s.consensus) (hdegrees : r.degrees = r.problem.degrees)
    (hposteriors : ∀ w ∈ (s.round r options).workers, ∀ x ∈ w.posteriors, 0 ≤ x ∧ x ≤ 1) :
    ∀ x ∈ (s.round r options).consensus, 0 ≤ x ∧ x ≤ 1 := by
  have hround : IsConserved r.problem r.fixed (s.round r options).workers
      (s.round r options).consensus := isConserved_round hs hbalanced hdegrees
  intro x hx
  obtain ⟨i, hget⟩ := List.mem_iff_getElem?.mp hx
  have hi : i < r.problem.numVariables := by
    rw [← (hs.record options).length_consensus]
    exact (List.getElem?_eq_some_iff.mp hget).1
  cases hfixed : r.fixed[i]?.join with
  | some b =>
    have hvalue : (s.round r options).consensus[i]? = some (ofBool b) :=
      (hkeeps.average _).eq_fixed hi (Option.join_eq_some_iff.mp hfixed)
    rw [Option.some.inj (hget.symm.trans hvalue)]
    exact mem_unit_ofBool b
  | none =>
    by_cases hdegree : r.degree i = 0
    · have hfree := (hbalanced.record hs hdegrees options).eq_free hi hfixed hdegree
      rw [← coordinate_of_getElem? hget]
      exact hfree ▸ mem_unit_ofBool _
    · have hoccurs : ∃ f ∈ r.problem.factors, i ∈ f.indices := by
        rw [← Restriction.count_eq_degree hdegrees hi] at hdegree
        exact List.mem_flatMap.mp (List.count_pos_iff.mp (Nat.pos_of_ne_zero hdegree))
      rw [Option.some.inj (hget.symm.trans (hround.consensus_eq hi hfixed hoccurs))]
      apply sum_div_length_mem_unit
      intro y hy
      obtain ⟨w, hw, hy⟩ := List.mem_flatMap.mp hy
      obtain ⟨⟨j, y⟩, hpair, rfl⟩ := List.mem_map.mp hy
      exact hposteriors w hw y (List.of_mem_zip (List.mem_of_mem_filter hpair)).2

theorem initialConsensus_mem_unit (r : Restriction α) :
    ∀ x ∈ r.initialConsensus, 0 ≤ x ∧ x ≤ 1 := by
  intro x hx
  obtain ⟨⟨y, i⟩, _, rfl⟩ := List.mem_map.mp hx
  dsimp only
  split
  · exact mem_unit_ofBool _
  · split_ifs
    · exact mem_unit_ofBool _
    · rw [half_eq]
      exact ⟨by positivity, by linarith [one_half_lt_one (α := α)]⟩

/-- The posteriors, the additional posteriors and the consensus lie between zero and one, fixed
variables have their values, the step size lies between its bounds, and no variable of a factor has
degree zero. -/
structure IsInRange (r : Restriction α) (s : State α) : Prop where
  factors_eq : s.workers.map (·.factor) = r.problem.factors
  posteriors_mem : ∀ w ∈ s.workers, w.posteriors.length = w.factor.literals.length ∧
    ∀ x ∈ w.posteriors, 0 ≤ x ∧ x ≤ 1
  additionalPosteriors_mem : ∀ w ∈ s.workers,
    w.additionalPosteriors.length = w.factor.numAdditionals ∧
      ∀ x ∈ w.additionalPosteriors, 0 ≤ x ∧ x ≤ 1
  consensus_mem : ∀ x ∈ s.consensus, 0 ≤ x ∧ x ≤ 1
  keepsFixed : r.KeepsFixed s.consensus
  stepSize_mem : minStepSize ≤ s.stepSize ∧ s.stepSize ≤ maxStepSize
  degree_ne_zero : ∀ w ∈ s.workers, ∀ i ∈ w.factor.indices, r.degree i ≠ 0

omit [ExactScalar α] in
theorem IsShaped.degree_ne_zero (hs : s.IsShaped r) (hdegrees : r.degrees = r.problem.degrees)
    (hwf : ∀ f ∈ r.problem.factors, f.WellFormed r.problem.numVariables) :
    ∀ w ∈ s.workers, ∀ i ∈ w.factor.indices, r.degree i ≠ 0 := by
  intro w hw i hi
  have hfactor : w.factor ∈ r.problem.factors := hs.factors_eq ▸ List.mem_map_of_mem hw
  rw [← Restriction.count_eq_degree hdegrees ((hwf _ hfactor).index_lt i hi)]
  exact (List.count_pos_iff.mpr (List.mem_flatMap.mpr ⟨_, hfactor, hi⟩)).ne'

theorem isInRange_start (hdegrees : r.degrees = r.problem.degrees)
    (hwf : ∀ f ∈ r.problem.factors, f.WellFormed r.problem.numVariables) (options : Options α) :
    (start r options).IsInRange r := by
  have hsound : (start r options).IsSound r := isSound_start r options
  constructor
  case factors_eq => exact hsound.factors_eq
  case posteriors_mem =>
    intro w hw
    obtain ⟨f, _, rfl⟩ := List.mem_map.mp hw
    exact ⟨length_zeros _, mem_unit_zeros _⟩
  case additionalPosteriors_mem =>
    intro w hw
    obtain ⟨f, _, rfl⟩ := List.mem_map.mp hw
    exact ⟨length_zeros _, mem_unit_zeros _⟩
  case consensus_mem => exact initialConsensus_mem_unit r
  case keepsFixed => exact hsound.keepsFixed
  case stepSize_mem => exact Reached.start.stepSize_mem
  case degree_ne_zero => exact hsound.isShaped.degree_ne_zero hdegrees hwf

theorem exists_projected (hs : s.IsShaped r)
    (hwf : ∀ f ∈ r.problem.factors, f.WellFormed r.problem.numVariables)
    (hschurs : ∀ x ∈ s.roundSchurs r options, IsZeroOrLarge x) {w : Worker α}
    (hw : w ∈ (s.round r options).workers) :
    ∃ u ∈ s.workers,
      w = (s.projected r options u).price (s.round r options).consensus s.stepSize ∧
      u.factor.kind.Fits u.factor.literals.length u.factor.numAdditionals ∧ u.IsAligned ∧
      ∀ x ∈ u.projectSchurs s.consensus r.problem.logPotentials r.degrees s.stepSize
        options.projectionLimit, IsZeroOrLarge x := by
  rw [workers_round, List.map_map] at hw
  obtain ⟨u, hu, rfl⟩ := List.mem_map.mp hw
  have hfactor : u.factor ∈ r.problem.factors := hs.factors_eq ▸ List.mem_map_of_mem hu
  exact ⟨u, hu, rfl, (hwf _ hfactor).fits, hs.isAligned u hu,
    fun x hx => hschurs x (List.mem_flatMap.mpr ⟨u, hu, hx⟩)⟩

theorem hasDistribution_advance (hs : s.IsShaped r)
    (hwf : ∀ f ∈ r.problem.factors, f.WellFormed r.problem.numVariables)
    (hdistribution : ∀ w ∈ s.workers, w.HasDistribution)
    (hschurs : ∀ x ∈ s.roundSchurs r options, IsZeroOrLarge x) :
    ∀ w ∈ (s.advance r options).1.workers, w.HasDistribution := by
  rw [(s.advance_spec r options).1]
  intro w hw
  obtain ⟨u, hu, rfl, hfits, haligned, hmet⟩ := exists_projected hs hwf hschurs hw
  exact ((hdistribution u hu).project _ _ _ _ _ hfits haligned hmet).price _ _

theorem isInRange_advance (hdegrees : r.degrees = r.problem.degrees)
    (hwf : ∀ f ∈ r.problem.factors, f.WellFormed r.problem.numVariables)
    (hreached : Reached r options s) (hdistribution : ∀ w ∈ s.workers, w.HasDistribution)
    (hschurs : ∀ x ∈ s.roundSchurs r options, IsZeroOrLarge x) :
    (s.advance r options).1.IsInRange r := by
  obtain ⟨hsound, hbalanced⟩ := hreached.isSound_isBalanced hdegrees hwf
  have hs := hsound.isShaped
  obtain ⟨hworkers, hconsensus, -⟩ := s.advance_spec r options
  have hround : IsConserved r.problem r.fixed (s.round r options).workers
      (s.round r options).consensus := isConserved_round hs hbalanced hdegrees
  have hprojected : ∀ w ∈ (s.round r options).workers, (∀ x ∈ w.posteriors, 0 ≤ x ∧ x ≤ 1) ∧
      w.additionalPosteriors.length = w.factor.numAdditionals ∧
      ∀ x ∈ w.additionalPosteriors, 0 ≤ x ∧ x ≤ 1 := by
    intro w hw
    obtain ⟨u, hu, rfl, hfits, haligned, hmet⟩ := exists_projected hs hwf hschurs hw
    obtain ⟨hposteriors, hadditionals⟩ :=
      (hdistribution u hu).project_mem_unit _ _ _ _ _ hfits haligned hmet
    exact ⟨hposteriors, u.length_additionalPosteriors_project _ _ _ _ _, hadditionals⟩
  constructor
  case factors_eq => exact hworkers ▸ hround.factors_eq
  case posteriors_mem =>
    rw [hworkers]
    exact fun w hw => ⟨hround.length_posteriors hw, (hprojected w hw).1⟩
  case additionalPosteriors_mem =>
    rw [hworkers]
    exact fun w hw => (hprojected w hw).2
  case consensus_mem =>
    rw [hconsensus]
    exact consensus_round_mem_unit hs hbalanced hsound.keepsFixed hdegrees
      fun w hw => (hprojected w hw).1
  case keepsFixed => exact hconsensus ▸ hsound.keepsFixed.average _
  case stepSize_mem => exact stepSize_advance_mem r options hreached.stepSize_mem
  case degree_ne_zero =>
    rw [hworkers]
    exact (hs.record options).degree_ne_zero hdegrees hwf

theorem Reached.hasDistribution_rounds (hreached : Reached r options s)
    (hdegrees : r.degrees = r.problem.degrees)
    (hwf : ∀ f ∈ r.problem.factors, f.WellFormed r.problem.numVariables)
    (hdistribution : ∀ w ∈ s.workers, w.HasDistribution) {limit : ℕ}
    (hschurs : ∀ x ∈ s.runSchurs r options limit, IsZeroOrLarge x) :
    ∀ t ∈ s.rounds r options limit, Reached r options t ∧ (∀ w ∈ t.workers, w.HasDistribution) ∧
      ∀ x ∈ t.roundSchurs r options, IsZeroOrLarge x := by
  induction limit generalizing s with
  | zero => exact fun t ht => absurd ht List.not_mem_nil
  | succ limit ih =>
    unfold runSchurs rounds at hschurs
    have hmet : ∀ x ∈ s.roundSchurs r options, IsZeroOrLarge x :=
      fun x hx => hschurs x (List.mem_append_left _ hx)
    have hnext := hasDistribution_advance (hreached.isShaped_isBalanced hdegrees).1 hwf
      hdistribution hmet
    unfold rounds
    intro t ht
    rcases List.mem_cons.mp ht with rfl | ht
    · exact ⟨hreached, hdistribution, hmet⟩
    cases hadvance : s.advance r options with
    | mk u verdict =>
      rw [hadvance] at hnext hschurs ht
      cases verdict with
      | proceed =>
        exact ih (hreached.advance hadvance) hnext
          (fun x hx => hschurs x (List.mem_append_right _ hx)) t ht
      | converged | certified => exact absurd ht List.not_mem_nil

theorem hasDistribution_rounds (hdegrees : r.degrees = r.problem.degrees)
    (hwf : ∀ f ∈ r.problem.factors, f.WellFormed r.problem.numVariables) {limit : ℕ}
    (hschurs : ∀ x ∈ (start r options).runSchurs r options limit, IsZeroOrLarge x) :
    ∀ t ∈ (start r options).rounds r options limit,
      Reached r options t ∧ (∀ w ∈ t.workers, w.HasDistribution) ∧
        ∀ x ∈ t.roundSchurs r options, IsZeroOrLarge x := by
  refine Reached.start.hasDistribution_rounds hdegrees hwf (fun w hw => ?_) hschurs
  obtain ⟨f, _, rfl⟩ := List.mem_map.mp hw
  exact Worker.hasDistribution_start f

end State

/-- Through any number of rounds, whatever is fixed and whatever the options are, all posteriors and
the consensus stay between zero and one, and the step size between its bounds, unless a Schur
complement is met that is neither zero nor as large as the tolerance. -/
theorem isInRange_solve {p : Problem α} (hwf : ∀ f ∈ p.factors, f.WellFormed p.numVariables)
    (fixed : List (Option Bool)) (options : Options α) :
    let r : Restriction α := { problem := p, fixed }
    let start := State.start r options
    (∀ x ∈ start.runSchurs r options options.maxIterations, x = 0 ∨ 1 / 10 ^ 12 ≤ |x|) →
      (∃ s ∈ start.visits r options options.maxIterations, ∃ certificate,
        solve p fixed options = ofState p s certificate) ∧
      ∀ s ∈ start.visits r options options.maxIterations,
        s.IsInRange r ∧ 1 / 10 ^ 3 ≤ s.stepSize ∧ s.stepSize ≤ 10 ^ 3 ∧ s.stepSize ≠ 0 := by
  rw [← Matrix.pivotTolerance_eq]
  intro r start hschurs
  have hmem := State.run_mem_visits r options start options.maxIterations
  refine ⟨⟨_, hmem, _, rfl⟩, fun s hs => ?_⟩
  have hrange : s.IsInRange r := by
    rcases List.mem_cons.mp hs with rfl | hs
    · exact State.isInRange_start rfl hwf options
    · obtain ⟨t, ht, rfl⟩ := List.mem_map.mp hs
      obtain ⟨hreached, hdistribution, hmet⟩ := State.hasDistribution_rounds rfl hwf hschurs t ht
      exact State.isInRange_advance rfl hwf hreached hdistribution hmet
  obtain ⟨hlow, hhigh⟩ := hrange.stepSize_mem
  refine ⟨hrange, ?_, ?_, (State.minStepSize_pos.trans_le hlow).ne'⟩
  · rwa [minStepSize, tenthPower_eq] at hlow
  · rw [maxStepSize, ofNat_eq_cast] at hhigh
    exact hhigh.trans_eq (by norm_num)

/-- Each of three variables is to be true where the next one is false; a fourth one is costly. -/
def cyclicProblem : Problem ℚ :=
  ⟨[⟨[⟨⟨0⟩, false⟩, ⟨⟨1⟩, true⟩], [2], .pair⟩, ⟨[⟨⟨1⟩, false⟩, ⟨⟨2⟩, true⟩], [2], .pair⟩,
    ⟨[⟨⟨2⟩, false⟩, ⟨⟨0⟩, true⟩], [2], .pair⟩,
    ⟨[⟨⟨0⟩, false⟩, ⟨⟨3⟩, false⟩], [], .logic (.ofOperator .or 2)⟩], [0, 0, 0, -1]⟩

def cyclicOptions : Options ℚ :=
  { (.standard : Options ℚ) with stepSize := 1, maxIterations := 4 }

/-- With the third variable fixed, three rounds are made, and one configuration enters. -/
theorem isInRange_solve_cyclicProblem :
    let r : Restriction ℚ := { problem := cyclicProblem, fixed := [none, none, some true] }
    let start := State.start r cyclicOptions
    (∀ f ∈ cyclicProblem.factors, f.WellFormed cyclicProblem.numVariables) ∧
      start.runSchurs r cyclicOptions 4 = [2] ∧
      (start.visits r cyclicOptions 4).map (·.consensus) =
        [[1 / 2, 1 / 2, 1, 1 / 2], [2 / 3, 1 / 2, 1, 0], [2 / 3, 1 / 4, 1, 0], [2 / 3, 0, 1, 0]] ∧
      ∀ s ∈ start.visits r cyclicOptions 4, s.IsInRange r := by
  intro r start
  have hpair (l l' : Literal) (hne : l.atom.id ≠ l'.atom.id) (hl : l.atom.id < 4)
      (hl' : l'.atom.id < 4) : Factor.WellFormed 4 (⟨[l, l'], [2], .pair⟩ : Factor ℚ) :=
    ⟨⟨rfl, rfl⟩, by simpa [Factor.indices] using hne, by simp [Factor.indices, hl, hl']⟩
  have hwf : ∀ f ∈ cyclicProblem.factors, f.WellFormed cyclicProblem.numVariables := by
    intro f hf
    simp only [cyclicProblem, List.mem_cons, List.not_mem_nil, or_false] at hf
    rcases hf with rfl | rfl | rfl | rfl
    · exact hpair _ _ (by decide) (by decide) (by decide)
    · exact hpair _ _ (by decide) (by decide) (by decide)
    · exact hpair _ _ (by decide) (by decide) (by decide)
    · exact ⟨⟨.or, rfl, by decide, rfl⟩, by decide, by decide⟩
  have hschurs : start.runSchurs r cyclicOptions 4 = [2] := by decide +kernel
  have hrange := (isInRange_solve hwf [none, none, some true] cyclicOptions (by
    change ∀ x ∈ start.runSchurs r cyclicOptions 4, _
    rw [hschurs]
    norm_num)).2
  exact ⟨hwf, hschurs, by decide +kernel, fun s hs => (hrange s hs).1⟩

end Relaxation
end MapInference
