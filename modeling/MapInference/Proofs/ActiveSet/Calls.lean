import MapInference.Proofs.ActiveSet.Steps
import MapInference.LocalProblem
import MapInference.Proofs.Oracle.Pair

/-!
# Calls of the active-set method

The active set of a factor is empty at first and after a reset; every solution starts from the
active set that the last one has left. Whatever the targets and wherever a run stops, the active set
represents a distribution over configurations together with the inverse of their bordered matrix.
-/

namespace MapInference

open Scalar
variable {α C : Type} [ExactScalar α] [DecidableEq C] {o : Oracle α C} {IsConfiguration : C → Prop}

namespace QuadraticProgram

open ActiveSet (IsSound IsZeroOrLarge)

/-- The active sets that sequences of calls leave, with the Schur complements that have been met and
the posteriors of the last solution since the last reset. -/
inductive Calls (o : Oracle α C) : ActiveSet α C → List α → Option (List α × List α) → Prop where
  | start : Calls o {} [] none
  | reset {s met last} : Calls o s met last → Calls o {} [] none
  | solveProgram {s met last scores additional outcome} : Calls o s met last →
    solveChecked o scores additional s = .ok outcome →
    Calls o outcome.activeSet (met ++ solveSchurs o scores additional directLimit s)
      (some ((outcome.solution o).marginals, (outcome.solution o).additionals))
  | project {s met last target additional} (limit : ℕ) : Calls o s met last →
    target.length = o.numVariables → additional.length = o.numAdditionals →
    Calls o ((LocalProblem.oracle o).project target additional limit s).activeSet
      (met ++ solveSchurs o target additional limit s)
      (some (((LocalProblem.oracle o).project target additional limit s).point,
        ((LocalProblem.oracle o).project target additional limit s).additionals))

omit [DecidableEq C] in
/-- A solution starts with a sound active set, whether or not there is one left from before. -/
theorem isSound_start (ho : o.HasInnerProducts IsConfiguration) {s : ActiveSet α C}
    (h : s = {} ∨ s.IsSound o IsConfiguration) {target additional : List α}
    (ht : target.length = o.numVariables) (ha : additional.length = o.numAdditionals) :
    (start o target additional s).IsSound o IsConfiguration := by
  rcases h with rfl | h
  · exact ActiveSet.isSound_singleton (ho.isConfiguration_maximize ht ha)
  · have hnonempty : s.isEmpty = false := by simpa [ActiveSet.isEmpty] using h.ne_nil
    rw [start, if_neg (by simp [hnonempty])]
    exact h

omit [DecidableEq C] in
theorem start_isSound (ho : o.HasIndicators IsConfiguration) {s : ActiveSet α C}
    (h : s = {} ∨ s.IsSound o IsConfiguration) {target additional : List α}
    (ht : target.length = o.numVariables) (ha : additional.length = o.numAdditionals) :
    (start o target additional s).IsSound o IsConfiguration :=
  isSound_start ho.hasInnerProducts h ht ha

omit [DecidableEq C] in
theorem sum_weights_start {s : ActiveSet α C} (h : s = {} ∨ s.weights.sum = 1)
    {target additional : List α} : (start o target additional s).weights.sum = 1 := by
  rcases h with rfl | hone
  · exact ActiveSet.sum_weights_singleton _
  · unfold start
    split_ifs
    · exact ActiveSet.sum_weights_singleton _
    · exact hone

theorem solve_spec (ho : o.HasIndicators IsConfiguration) {s : ActiveSet α C}
    (h : s = {} ∨ s.IsSound o IsConfiguration) {target additional : List α}
    (ht : target.length = o.numVariables) (ha : additional.length = o.numAdditionals) (limit : ℕ) :
    (solve o target additional limit s).stop ≠ .emptied ∧
      (solve o target additional limit s).activeSet.IsSound o IsConfiguration ∧
      ((∀ x ∈ solveSchurs o target additional limit s, IsZeroOrLarge x) →
        s = {} ∨ s.weights.sum = 1 →
        (solve o target additional limit s).activeSet.weights.sum = 1) := by
  obtain ⟨hstop, hrun, hruns⟩ := run_spec ho (start_isSound ho h ht ha) ht ha 0 limit
  exact ⟨hstop, hrun, fun hschurs hor => hruns hschurs (sum_weights_start hor)⟩

theorem solveChecked_eq_ok {scores additional : List α} {s : ActiveSet α C} {outcome : Outcome α C}
    (h : solveChecked o scores additional s = .ok outcome) :
    scores.length = o.numVariables ∧ additional.length = o.numAdditionals ∧
      outcome = solve o scores additional directLimit s := by
  unfold solveChecked at h
  split_ifs at h with hs ha
  exact ⟨not_not.mp hs, not_not.mp ha, (Except.ok.inj h).symm⟩

theorem solveChecked_eq_solve {scores additional : List α} (hs : scores.length = o.numVariables)
    (ha : additional.length = o.numAdditionals) (s : ActiveSet α C) :
    solveChecked o scores additional s = .ok (solve o scores additional directLimit s) := by
  rw [solveChecked, if_neg (not_not.mpr hs), if_neg (not_not.mpr ha)]

theorem Calls.isSound (ho : o.HasIndicators IsConfiguration) {s : ActiveSet α C} {met : List α}
    {last : Option (List α × List α)} (h : Calls o s met last) :
    s = {} ∧ last = none ∨ s.IsSound o IsConfiguration ∧ last = some (s.marginals o) ∧
      ((∀ x ∈ met, IsZeroOrLarge x) → s.weights.sum = 1) := by
  -- One more solution, of either kind.
  have hsolve {s : ActiveSet α C} {met : List α} {last : Option (List α × List α)}
      (ih : s = {} ∧ last = none ∨ s.IsSound o IsConfiguration ∧ last = some (s.marginals o) ∧
        ((∀ x ∈ met, IsZeroOrLarge x) → s.weights.sum = 1))
      {target additional : List α} (ht : target.length = o.numVariables)
      (ha : additional.length = o.numAdditionals) (limit : ℕ) :
      (solve o target additional limit s).activeSet.IsSound o IsConfiguration ∧
        ((∀ x ∈ met ++ solveSchurs o target additional limit s, IsZeroOrLarge x) →
          (solve o target additional limit s).activeSet.weights.sum = 1) := by
    obtain ⟨_, hsound, hsum⟩ :=
      solve_spec ho (ih.imp (fun h => h.1) fun h => h.1) ht ha limit
    refine ⟨hsound, fun hschurs => hsum (fun x hx => hschurs x (List.mem_append_right _ hx)) ?_⟩
    exact ih.imp (fun h => h.1) fun h => h.2.2 fun x hx => hschurs x (List.mem_append_left _ hx)
  induction h with
  | start => exact Or.inl ⟨rfl, rfl⟩
  | reset => exact Or.inl ⟨rfl, rfl⟩
  | solveProgram _ hok ih =>
    obtain ⟨hs, ha, rfl⟩ := solveChecked_eq_ok hok
    obtain ⟨hsound, hsum⟩ := hsolve ih hs ha directLimit
    exact Or.inr ⟨hsound, rfl, hsum⟩
  | project limit _ ht ha ih =>
    obtain ⟨hsound, hsum⟩ := hsolve ih ht ha limit
    obtain ⟨hvariables, hadditionals, _⟩ := ActiveSet.marginals_spec ho hsound.isConfiguration
    refine Or.inr ⟨hsound, ?_, hsum⟩
    rw [LocalProblem.project, resized_of_length (hvariables.trans ht.symm),
      resized_of_length (hadditionals.trans ha.symm)]

/-- The representation invariant. The active set is empty exactly when there has been no solution
since the last reset. Otherwise it holds different configurations, a weight for each, and the
inverse of their bordered matrix; the weights are not negative, and they sum to one unless a Schur
complement was met that is neither zero nor as large as the tolerance; and the posteriors of the
last solution are the weighted sums of the indicators. -/
theorem Calls.representation (ho : o.HasIndicators IsConfiguration) {s : ActiveSet α C}
    {met : List α} {last : Option (List α × List α)} (h : Calls o s met last) :
    (s.isEmpty = true ↔ last = none) ∧
      ∀ posteriors, last = some posteriors →
        let k := s.configurations.length
        1 ≤ k ∧ s.configurations.Nodup ∧ (∀ c ∈ s.configurations, IsConfiguration c) ∧
        s.weights.length = k ∧
        Matrix.IsSquare (k + 1) s.inverse ∧ s.inverse.flatten.length = (k + 1) ^ 2 ∧
        (.of fun i j : Fin (k + 1) => Matrix.entry s.inverse i j :
            Matrix (Fin (k + 1)) (Fin (k + 1)) α) *
          .of (fun i j : Fin (k + 1) =>
            Matrix.entry (ActiveSet.borderedMatrix o s.configurations) i j) = 1 ∧
        (∀ w ∈ s.weights, 0 ≤ w) ∧
        ((∀ x ∈ met, x = 0 ∨ 1 / 10 ^ 12 ≤ |x|) → s.weights.sum = 1) ∧
        posteriors.1.length = o.numVariables ∧ posteriors.2.length = o.numAdditionals ∧
        (∀ t < o.numVariables, coordinate posteriors.1 t =
          dot s.weights (s.configurations.map fun c => coordinate (o.indicator c).1 t)) ∧
        ∀ t < o.numAdditionals, coordinate posteriors.2 t =
          dot s.weights (s.configurations.map fun c => coordinate (o.indicator c).2 t) := by
  rcases h.isSound ho with ⟨rfl, rfl⟩ | ⟨hsound, rfl, hsum⟩
  · exact ⟨⟨fun _ => rfl, fun _ => rfl⟩, fun _ hsome => nomatch hsome⟩
  · have hnonempty : s.isEmpty = false := by simpa [ActiveSet.isEmpty] using hsound.ne_nil
    refine ⟨by simp [hnonempty], fun posteriors hposteriors => ?_⟩
    obtain rfl := Option.some.inj hposteriors
    obtain ⟨hlen₁, hlen₂, hv, ha⟩ := ActiveSet.marginals_spec ho hsound.isConfiguration
    rw [← Matrix.pivotTolerance_eq]
    exact ⟨hsound.length_pos, hsound.nodup, hsound.isConfiguration, hsound.length_weights,
      hsound.isSquare, hsound.isSquare.length_flatten, hsound.isInverse.mul_eq_one,
      hsound.weights_nonneg, hsum, hlen₁, hlen₂, hv, ha⟩

/-- A pair of variables with the target `(1/2, 0)` ends with two active configurations. -/
theorem Calls.representation_pair :
    ∃ outcome, solveChecked (Pair.oracle : Oracle ℚ (Bool × Bool)) [1 / 2, 0] [0] {} = .ok outcome ∧
      outcome.activeSet.configurations = [(true, false), (false, false)] ∧
      outcome.activeSet.weights.sum = 1 := by
  have hok : solveChecked (Pair.oracle : Oracle ℚ (Bool × Bool)) [1 / 2, 0] [0] {} =
      .ok (solve Pair.oracle [1 / 2, 0] [0] directLimit {}) := rfl
  have hspec := (Calls.representation Pair.hasTrueIndices.hasIndicators
    (Calls.start.solveProgram hok)).2 _ rfl
  refine ⟨_, hok, by decide +kernel, hspec.2.2.2.2.2.2.2.2.1 ?_⟩
  decide +kernel

end QuadraticProgram
end MapInference
