import MapInference.Proofs.ActiveSet.Optimality

/-!
# Lookups of the active-set method

The inverse is kept row by row in one list, beside the lists of the configurations and of their
weights, and a step reads all three at positions that it computes from the number of configurations.
The positions lie within the lists, with one exception. When the only active configuration has to
make room for another one with the same variables, it leaves first, and what is left has no inverse
that the other one could be inserted into. That takes configurations that differ in nothing but
their additional variables, and additional scores that have changed since the last solution.
-/

namespace MapInference

open Scalar
variable {α C : Type} [ExactScalar α] {o : Oracle α C} {IsConfiguration : C → Prop}

namespace Oracle

/-- What every factor with an oracle is to satisfy: the oracle finds a best configuration, scores
and averages are linear in the indicators, and the common variables of two configurations are
counted by the inner product of their indicators. Configurations with the same variables may
differ. -/
structure IsLinear (o : Oracle α C) (IsConfiguration : C → Prop) : Prop extends
    o.HasInnerProducts IsConfiguration where
  maximize_value {scores additional : List α} : scores.length = o.numVariables →
    additional.length = o.numAdditionals →
    (o.maximize scores additional).2 = o.score scores additional (o.maximize scores additional).1
  score_le {scores additional : List α} {c : C} : scores.length = o.numVariables →
    additional.length = o.numAdditionals → IsConfiguration c →
    o.score scores additional c ≤ (o.maximize scores additional).2
  score_eq_dot {scores additional : List α} {c : C} : scores.length = o.numVariables →
    additional.length = o.numAdditionals → IsConfiguration c →
    o.score scores additional c = dot (o.indicator c).1 scores + dot (o.indicator c).2 additional

theorem HasTrueIndices.isLinear {trueAdditionals : C → List ℕ}
    (h : o.HasTrueIndices IsConfiguration trueAdditionals) : o.IsLinear IsConfiguration where
  toHasInnerProducts := h.hasIndicators.hasInnerProducts
  maximize_value := h.maximize_value
  score_le := h.score_le
  score_eq_dot _ _ hc := h.score_eq_dot hc _ _

end Oracle

structure Lookup where
  position : ℕ
  length : ℕ
  deriving DecidableEq

def Lookup.InRange (l : Lookup) : Prop := l.position < l.length

instance (l : Lookup) : Decidable l.InRange := inferInstanceAs (Decidable (_ < _))

namespace ActiveSet

open MapInference.Matrix (entry)

variable {s : ActiveSet α C}

def inverseLookups (s : ActiveSet α C) : List Lookup :=
  let n := s.configurations.length + 1
  (List.range n).flatMap fun i =>
    (List.range n).map fun j => ⟨i * n + j, s.inverse.flatten.length⟩

def rebuildLookups (o : Oracle α C) (s : ActiveSet α C) : List Lookup :=
  if s.isEmpty then []
  else
    match Matrix.invert (borderedMatrix o s.configurations) with
    | some _ => []
    | none => [⟨s.heaviest, s.configurations.length⟩]

/-- The pivot, the configuration and its weight, and what is needed for the next inverse. -/
def removeLookups (o : Oracle α C) (s : ActiveSet α C) (i : ℕ) : List Lookup :=
  let n := s.configurations.length + 1
  let rest :=
    { s with configurations := s.configurations.eraseIdx i, weights := s.weights.eraseIdx i }
  ⟨(i + 1) * n + (i + 1), s.inverse.flatten.length⟩ :: ⟨i, s.configurations.length⟩ ::
    ⟨i, s.weights.length⟩ ::
      if |entry s.inverse (i + 1) (i + 1)| < Matrix.pivotTolerance then rebuildLookups o rest
      else inverseLookups s

def moved (s : ActiveSet α C) (coefficients : List α) (i : ℕ) (amount : α) : ActiveSet α C :=
  let weights := List.zipWith (fun w a => larger (w - amount * a) 0) s.weights coefficients
  { s with weights := weights.set i 0 }

/-- The weight that is set to zero, the removal, and the insertion into what is left. -/
def exchangeLookups (o : Oracle α C) (s : ActiveSet α C) (coefficients : List α) : List Lookup :=
  match s.blocking? coefficients with
  | none => []
  | some (i, amount) =>
    ⟨i, s.weights.length⟩ :: (removeLookups o (s.moved coefficients i amount) i ++
      inverseLookups (withdrawn o s coefficients i amount))

/-- The insertion, and the exchange for a configuration that depends on the active ones. -/
def enterLookups (o : Oracle α C) (s : ActiveSet α C) (c : C) : List Lookup :=
  inverseLookups s ++
    if |schur o s c| < Matrix.pivotTolerance then exchangeLookups o s (coefficients o s c) else []

theorem inRange_inverseLookups (h : s.HasInverse o IsConfiguration) :
    ∀ l ∈ inverseLookups s, l.InRange := by
  intro l hl
  obtain ⟨i, hi, hl⟩ := List.mem_flatMap.mp hl
  obtain ⟨j, hj, rfl⟩ := List.mem_map.mp hl
  rw [List.mem_range] at hi hj
  change i * (s.configurations.length + 1) + j < s.inverse.flatten.length
  rw [h.isSquare.length_flatten, sq]
  calc i * (s.configurations.length + 1) + j
      < i * (s.configurations.length + 1) + (s.configurations.length + 1) := by omega
    _ = (i + 1) * (s.configurations.length + 1) := (Nat.succ_mul _ _).symm
    _ ≤ _ := Nat.mul_le_mul_right _ hi

theorem inRange_rebuildLookups (h : s.weights.length = s.configurations.length) :
    ∀ l ∈ rebuildLookups o s, l.InRange := by
  intro l hl
  unfold rebuildLookups at hl
  split_ifs at hl with hempty
  · exact absurd hl List.not_mem_nil
  · split at hl
    · exact absurd hl List.not_mem_nil
    · obtain rfl := List.mem_singleton.mp hl
      exact s.heaviest_lt (by simpa [isEmpty] using hempty) h

theorem inRange_removeLookups (h : s.IsSound o IsConfiguration) {i : ℕ}
    (hi : i < s.configurations.length) : ∀ l ∈ removeLookups o s i, l.InRange := by
  have hinverse := inRange_inverseLookups h.toHasInverse
  have hi' : i < s.weights.length := h.length_weights ▸ hi
  intro l hl
  unfold removeLookups at hl
  rcases List.mem_cons.mp hl with rfl | hl
  · refine hinverse _ (List.mem_flatMap.mpr ⟨i + 1, List.mem_range.mpr (Nat.succ_lt_succ hi), ?_⟩)
    exact List.mem_map.mpr ⟨i + 1, List.mem_range.mpr (Nat.succ_lt_succ hi), rfl⟩
  rcases List.mem_cons.mp hl with rfl | hl
  · exact hi
  rcases List.mem_cons.mp hl with rfl | hl
  · exact hi'
  split_ifs at hl with hsmall
  · refine inRange_rebuildLookups ?_ l hl
    rw [List.length_eraseIdx_of_lt hi, List.length_eraseIdx_of_lt hi', h.length_weights]
  · exact hinverse l hl

/-- The inverse of one configuration has no pivot for it, so that nothing is left without it. -/
theorem remove_singleton (h : s.HasInverse o IsConfiguration) (hone : s.configurations.length = 1) :
    remove o s 0 = {} := by
  have hpivot : entry s.inverse 1 1 = 0 := by
    have hentry := h.isInverse 1 (by omega) 0 (by omega)
    rw [hone, Finset.sum_range_succ, Finset.sum_range_one, entry_borderedMatrix_zero_zero,
      entry_borderedMatrix_succ_zero, List.getElem?_eq_getElem (by omega)] at hentry
    simpa using hentry
  have hnil : s.configurations.eraseIdx 0 = [] := by
    rw [← List.length_eq_zero_iff, List.length_eraseIdx_of_lt (by omega), hone]
  have hsmall : Scalar.abs (entry s.inverse (0 + 1) (0 + 1)) < Matrix.pivotTolerance := by
    rw [zero_add, hpivot, Scalar.abs_eq, abs_zero]
    exact Matrix.pivotTolerance_pos
  rw [remove, if_pos hsmall]
  simp [rebuilt, isEmpty, hnil]

theorem exists_blocking?_singleton (ho : o.HasInnerProducts IsConfiguration)
    (h : s.IsSound o IsConfiguration) (hone : s.configurations.length = 1) (c : C) :
    ∃ amount, s.blocking? (coefficients o s c) = some (0, amount) := by
  obtain ⟨w, hw⟩ := List.length_eq_one_iff.mp (h.length_weights.trans hone)
  have hlarge : (Matrix.pivotTolerance : α) < 1 := by
    rw [Matrix.pivotTolerance_eq]
    norm_num
  refine ⟨w / 1, ?_⟩
  rw [h.coefficients_of_length_eq_one ho hone, blocking?, hw]
  simp [hlarge, Extremum.firstLeast?]

theorem withdrawn_singleton (h : s.IsSound o IsConfiguration) (hone : s.configurations.length = 1)
    (coefficients : List α) (amount : α) : withdrawn o s coefficients 0 amount = {} :=
  remove_singleton (h.toHasInverse.withWeights _) hone

theorem inRange_enterLookups_iff (ho : o.HasInnerProducts IsConfiguration)
    (h : s.IsSound o IsConfiguration) (c : C) :
    (∀ l ∈ enterLookups o s c, l.InRange) ↔
      (|schur o s c| < Matrix.pivotTolerance → 2 ≤ s.configurations.length) := by
  have hinverse := inRange_inverseLookups h.toHasInverse
  have hlen := h.length_coefficients ho c
  unfold enterLookups
  constructor
  · intro hrange hlt
    by_contra hone
    have hone : s.configurations.length = 1 := by
      have hpos := h.length_pos
      omega
    obtain ⟨amount, hblocking⟩ := exists_blocking?_singleton ho h hone c
    have hfirst := hrange ⟨0, 0⟩
    rw [if_pos hlt, exchangeLookups, hblocking] at hfirst
    dsimp only at hfirst
    rw [withdrawn_singleton h hone] at hfirst
    exact absurd (hfirst (by simp [inverseLookups])) (lt_irrefl 0)
  · intro htwo l hl
    rcases List.mem_append.mp hl with hl | hl
    · exact hinverse l hl
    split_ifs at hl with hlt
    · unfold exchangeLookups at hl
      split at hl
      · exact absurd hl List.not_mem_nil
      · rename_i i amount hblocking
        have hi := (of_blocking? hblocking).1
        rcases List.mem_cons.mp hl with rfl | hl
        · exact hi
        rcases List.mem_append.mp hl with hl | hl
        · have hmoved : (s.moved (coefficients o s c) i amount).IsSound o IsConfiguration :=
            (isSound_moved h hlen fun w a => w - amount * a).set_zero i
          exact inRange_removeLookups hmoved (h.length_weights ▸ hi) l hl
        · exact inRange_inverseLookups
            (isSound_withdrawn h (htwo hlt) hlen hblocking).toHasInverse l hl
    · exact absurd hl List.not_mem_nil

end ActiveSet

namespace QuadraticProgram

open ActiveSet (IsSound IsStationary inverseLookups removeLookups enterLookups schur)

variable {s : ActiveSet α C} {target additional : List α}

/-- Whether the only active configuration has to make room for another one with the same variables,
whose additional variables have a larger score. -/
def IsCrowded (o : Oracle α C) (target additional : List α) (s : ActiveSet α C) : Prop :=
  ∃ d, s.configurations = [d] ∧
    let c := (o.maximize (List.zipWith (· - ·) target (o.indicator d).1) additional).1
    (o.indicator c).1 = (o.indicator d).1 ∧
      dot (o.indicator d).2 additional + optimalityTolerance < dot (o.indicator c).2 additional

theorem fullStep_singleton {d : C} (hd : s.configurations = [d]) :
    fullStep s [1] = ⟨[d], [1], s.inverse⟩ := by
  obtain ⟨configurations, weights, inverse⟩ := s
  obtain rfl : configurations = [d] := hd
  simp [fullStep, ActiveSet.normalised]

/-- How much another configuration with the same variables improves the objective. -/
theorem value_sub_multiplier_singleton (ho : o.IsLinear IsConfiguration)
    (ht : target.length = o.numVariables) (ha : additional.length = o.numAdditionals) {c d : C}
    (hc : IsConfiguration c) (hd : IsConfiguration d)
    (hsame : (o.indicator c).1 = (o.indicator d).1) {multiplier : α}
    (hstationary : IsStationary o [d] [o.score target additional d] multiplier [1]) :
    o.score (List.zipWith (· - ·) target (o.indicator d).1) additional c - multiplier =
      dot (o.indicator c).2 additional - dot (o.indicator d).2 additional := by
  have hlen := (ho.length_indicator hd).1
  have hshifted : (List.zipWith (· - ·) target (o.indicator d).1).length = o.numVariables := by
    rw [List.length_zipWith, ht, hlen, min_self]
  have hmultiplier := hstationary.score_eq (i := 0) (by simp)
  rw [coordinate_cons_zero, ho.score_eq_dot ht ha hd] at hmultiplier
  have hsquares : ∑ t ∈ Finset.range o.numVariables,
      coordinate (o.column [d] t) 0 * dot [1] (o.column [d] t) =
        ∑ t ∈ Finset.range o.numVariables,
          coordinate (o.indicator d).1 t * coordinate (o.indicator d).1 t := by
    refine Finset.sum_congr rfl fun t _ => ?_
    simp [Oracle.column, dot]
  have hdot : dot (o.indicator d).1 (List.zipWith (· - ·) target (o.indicator d).1) =
      dot (o.indicator d).1 target - ∑ t ∈ Finset.range o.numVariables,
        coordinate (o.indicator d).1 t * coordinate (o.indicator d).1 t := by
    rw [dot_eq_sum hlen.le, dot_eq_sum hlen.le, ← Finset.sum_sub_distrib]
    refine Finset.sum_congr rfl fun t htn => ?_
    have htn := Finset.mem_range.mp htn
    rw [coordinate_zipWith (ht ▸ htn) (hlen ▸ htn), mul_sub]
  rw [hsquares] at hmultiplier
  rw [ho.score_eq_dot hshifted ha hc, hsame, hdot]
  linarith

theorem goal_singleton {d : C} {multiplier : α} {goal : List α}
    (hstationary : IsStationary o [d] [o.score target additional d] multiplier goal) :
    goal = [1] := by
  obtain ⟨x, rfl⟩ := List.length_eq_one_iff.mp hstationary.length_eq
  have hsum := hstationary.sum_eq
  rw [List.sum_singleton] at hsum
  rw [hsum]

/-- A configuration that depends on a single active one leaves no active set to enter. -/
theorem enter_eq_emptied (ho : o.HasInnerProducts IsConfiguration) (h : s.IsSound o IsConfiguration)
    (hone : s.configurations.length = 1) {c : C} (hlt : |schur o s c| < Matrix.pivotTolerance) :
    enter o s c = .stop .emptied s := by
  obtain ⟨amount, hblocking⟩ := ActiveSet.exists_blocking?_singleton ho h hone c
  unfold enter
  rw [ActiveSet.insert_of_lt h.inverse_ne_nil hlt]
  dsimp only
  rw [ActiveSet.exchange_of_blocking hblocking, ActiveSet.withdrawn_singleton h hone]
  rfl

variable [DecidableEq C]

/-- The inverse for the stationary weights, a removal on the way to them, and an entry. -/
def iterateLookups (o : Oracle α C) (target additional : List α) (s : ActiveSet α C) :
    List Lookup :=
  inverseLookups s ++
    ((match leaving? o target additional s with
      | none => []
      | some (t, i) => removeLookups o t i) ++
    match entering? o target additional s with
      | none => []
      | some (t, c) => enterLookups o t c)

def solveLookups (o : Oracle α C) (target additional : List α) (limit : ℕ) (s : ActiveSet α C) :
    List Lookup :=
  (solveVisits o target additional limit s).flatMap (iterateLookups o target additional)

omit [DecidableEq C] in
/-- With a single configuration, a full step reaches its indicator. Another configuration with the
same variables then improves the objective by the scores of the additional variables. -/
theorem fullStep_spec_singleton (ho : o.IsLinear IsConfiguration) (h : s.IsSound o IsConfiguration)
    (ht : target.length = o.numVariables) (ha : additional.length = o.numAdditionals)
    {multiplier : α} {goal : List α}
    (hstationary : IsStationary o s.configurations
      (s.configurations.map (o.score target additional)) multiplier goal)
    {d : C} (hd : s.configurations = [d]) :
    let best := o.maximize (List.zipWith (· - ·) target (o.indicator d).1) additional
    candidate o target additional (fullStep s goal) = best ∧ IsConfiguration best.1 ∧
      ((o.indicator best.1).1 = (o.indicator d).1 → best.2 - multiplier =
        dot (o.indicator best.1).2 additional - dot (o.indicator d).2 additional) := by
  intro best
  have hdconf : IsConfiguration d := h.isConfiguration d (hd ▸ List.mem_singleton_self d)
  have hshifted : (List.zipWith (· - ·) target (o.indicator d).1).length = o.numVariables := by
    rw [List.length_zipWith, ht, (ho.length_indicator hdconf).1, min_self]
  have hbest : IsConfiguration best.1 := ho.isConfiguration_maximize hshifted ha
  rw [hd] at hstationary
  obtain rfl : goal = [1] := goal_singleton hstationary
  refine ⟨by rw [fullStep_singleton hd]; rfl, hbest, fun hsame => ?_⟩
  rw [ho.maximize_value hshifted ha]
  exact value_sub_multiplier_singleton ho ht ha hbest hdconf hsame hstationary

omit [DecidableEq C] in
/-- An active set is crowded when a step would let a configuration enter that depends on a single
active one. -/
theorem isCrowded_iff (ho : o.IsLinear IsConfiguration) (h : s.IsSound o IsConfiguration)
    (ht : target.length = o.numVariables) (ha : additional.length = o.numAdditionals)
    {multiplier : α} {goal : List α}
    (hstationary : IsStationary o s.configurations
      (s.configurations.map (o.score target additional)) multiplier goal) :
    IsCrowded o target additional s ↔
      s.configurations.length = 1 ∧
      multiplier + optimalityTolerance < (candidate o target additional (fullStep s goal)).2 ∧
      (candidate o target additional (fullStep s goal)).1 ∉ (fullStep s goal).configurations ∧
      |schur o (fullStep s goal) (candidate o target additional (fullStep s goal)).1| <
        Matrix.pivotTolerance := by
  have hinner := ho.toHasInnerProducts
  have hinverse := (fullStep_spec h hstationary.length_eq hstationary.sum_eq).1.toHasInverse
  have hconf : (fullStep s goal).configurations = s.configurations :=
    ActiveSet.configurations_normalised _
  constructor
  · rintro ⟨d, hd, hsame, hbetter⟩
    obtain ⟨hbest, hc, hvalue⟩ := fullStep_spec_singleton ho h ht ha hstationary hd
    have hvalue := hvalue hsame
    rw [hbest, hconf, hd]
    refine ⟨rfl, by linarith, ?_, ?_⟩
    · intro hmem
      rw [List.mem_singleton.mp hmem] at hbetter
      linarith [optimalityTolerance_pos (α := α)]
    · rw [(hinverse.schur_singleton_eq_zero_iff hinner hc (hconf.trans hd)).mpr hsame, abs_zero]
      exact Matrix.pivotTolerance_pos
  · rintro ⟨hone, hvalue, -, hlt⟩
    obtain ⟨d, hd⟩ := List.length_eq_one_iff.mp hone
    obtain ⟨hbest, hc, hdifference⟩ := fullStep_spec_singleton ho h ht ha hstationary hd
    rw [hbest] at hvalue hlt
    have hzero := hinverse.schur_singleton_eq_zero_of_lt hinner hc (hconf.trans hd) hlt
    have hsame := (hinverse.schur_singleton_eq_zero_iff hinner hc (hconf.trans hd)).mp hzero
    exact ⟨d, hd, hsame, by linarith [hdifference hsame]⟩

/-- A step fails exactly from a crowded active set, and then it looks outside of a list. -/
theorem iterate_isCrowded (ho : o.IsLinear IsConfiguration) (h : s.IsSound o IsConfiguration)
    (ht : target.length = o.numVariables) (ha : additional.length = o.numAdditionals) :
    (IsCrowded o target additional s ∧
        (∃ t, iterate o target additional s = .stop .emptied t ∧ t.IsSound o IsConfiguration) ∧
        ∃ l ∈ iterateLookups o target additional s, ¬ l.InRange) ∨
      (¬ IsCrowded o target additional s ∧
        (iterate o target additional s).Satisfies (fun t => t.IsSound o IsConfiguration) ∧
        ∀ l ∈ iterateLookups o target additional s, l.InRange) := by
  have hinner := ho.toHasInnerProducts
  have hinverse := ActiveSet.inRange_inverseLookups h.toHasInverse
  obtain ⟨multiplier, goal, -, hstationary, hcases⟩ := iterate_cases hinner h target additional
  rw [isCrowded_iff ho h ht ha hstationary]
  obtain ⟨hsound, hsum⟩ := fullStep_spec h hstationary.length_eq hstationary.sum_eq
  have hconf : (fullStep s goal).configurations = s.configurations :=
    ActiveSet.configurations_normalised _
  unfold iterateLookups
  rcases hcases with ⟨i, part, hblocking, hleaving, hentering, -, hstep⟩ |
      ⟨-, hleaving, ⟨⟨reason, hreason, hstep⟩, hvalue, hentering, -⟩ |
        ⟨c, value, hbest, hvalue, hmem, hentering, -, hstep⟩⟩
  case inl =>
    have htwo := two_le_length_of_blocking? h hstationary.length_eq hstationary.sum_eq hblocking
    have hi : i < s.configurations.length := h.length_weights ▸ (of_blocking? hblocking).1
    have hpart := partialStep_spec h hstationary.length_eq hstationary.sum_eq hblocking
    refine Or.inr ⟨fun hcrowded => by omega, by rw [hstep]; exact hpart.1, fun l hl => ?_⟩
    rw [hleaving, hentering] at hl
    rcases List.mem_append.mp hl with hl | hl
    · exact hinverse l hl
    · rw [List.append_nil] at hl
      exact ActiveSet.inRange_removeLookups (isSound_movedPart h hstationary.length_eq part) hi l hl
  case inr.inl =>
    refine Or.inr ⟨fun hcrowded => ?_, by rw [hstep]; exact ⟨hreason, hsound⟩, fun l hl => ?_⟩
    · rcases hvalue with hvalue | hactive
      · exact absurd hvalue (not_le.mpr hcrowded.2.1)
      · exact hcrowded.2.2.1 hactive
    · rw [hleaving, hentering] at hl
      exact hinverse l (by simpa using hl)
  case inr.inr =>
    have hc : IsConfiguration c := by
      have hcandidate := isConfiguration_candidate hinner hsound ht ha
      rwa [hbest] at hcandidate
    have hrange :
        (∀ l ∈ inverseLookups s ++ ([] ++ enterLookups o (fullStep s goal) c), l.InRange) ↔
          (|schur o (fullStep s goal) c| < Matrix.pivotTolerance →
            2 ≤ s.configurations.length) := by
      rw [← hconf, ← ActiveSet.inRange_enterLookups_iff hinner hsound c, List.nil_append,
        List.forall_mem_append, and_iff_right hinverse]
    rw [hleaving, hentering, hbest, hstep]
    by_cases htwo : |schur o (fullStep s goal) c| < Matrix.pivotTolerance →
        2 ≤ s.configurations.length
    · refine Or.inr ⟨fun hcrowded => ?_, ?_, hrange.mpr htwo⟩
      · have hle := htwo hcrowded.2.2.2
        omega
      · exact (enter_spec hinner hsound hc (hconf ▸ htwo)).imp fun _ hspec => hspec.1
    · obtain ⟨hlt, hone⟩ := Classical.not_imp.mp htwo
      have hone : s.configurations.length = 1 := by
        have hpos := h.length_pos
        omega
      refine Or.inl ⟨⟨hone, hvalue, hmem, hlt⟩, ⟨_, ?_, hsound⟩, ?_⟩
      · exact enter_eq_emptied hinner hsound (hconf ▸ hone) hlt
      · by_contra hnone
        push Not at hnone
        exact htwo (hrange.mp hnone)

/-- A run keeps sound active sets, also when it fails, and it fails exactly when it comes to a
crowded one. -/
theorem run_isCrowded (ho : o.IsLinear IsConfiguration) (h : s.IsSound o IsConfiguration)
    (ht : target.length = o.numVariables) (ha : additional.length = o.numAdditionals)
    (iterations limit : ℕ) :
    (∀ t ∈ runVisits o target additional s limit, t.IsSound o IsConfiguration) ∧
      (run o target additional s iterations limit).activeSet.IsSound o IsConfiguration ∧
      ((run o target additional s iterations limit).stop = .emptied ↔
        ∃ t ∈ runVisits o target additional s limit, IsCrowded o target additional t) := by
  induction limit generalizing s iterations with
  | zero => exact ⟨by simp [runVisits], h, by simp [run, runVisits]⟩
  | succ limit ih =>
    unfold run runVisits
    rcases iterate_isCrowded ho h ht ha with
        ⟨hcrowded, ⟨t, hstep, hsound⟩, -⟩ | ⟨hcrowded, hsatisfies, -⟩
    · rw [hstep]
      refine ⟨by simpa using h, hsound, ?_⟩
      exact iff_of_true rfl ⟨s, List.mem_cons_self, hcrowded⟩
    · revert hsatisfies
      cases iterate o target additional s with
      | next t =>
        intro hsound
        obtain ⟨hvisits, hrun, hstop⟩ := ih hsound (iterations + 1)
        refine ⟨List.forall_mem_cons.mpr ⟨h, hvisits⟩, hrun, hstop.trans ?_⟩
        rw [List.exists_mem_cons_iff, or_iff_right hcrowded]
      | stop reason t =>
        rintro ⟨hreason, hsound⟩
        exact ⟨by simpa using h, hsound, iff_of_false hreason (by simpa using hcrowded)⟩

theorem Calls.isSound_of_isLinear (ho : o.IsLinear IsConfiguration) {met : List α}
    {last : Option (List α × List α)} (hcalls : Calls o s met last) :
    s = {} ∨ s.IsSound o IsConfiguration := by
  have hsolve {s : ActiveSet α C} (ih : s = {} ∨ s.IsSound o IsConfiguration)
      {target additional : List α} (ht : target.length = o.numVariables)
      (ha : additional.length = o.numAdditionals) (limit : ℕ) :
      (solve o target additional limit s).activeSet.IsSound o IsConfiguration :=
    (run_isCrowded ho (isSound_start ho.toHasInnerProducts ih ht ha) ht ha 0 limit).2.1
  induction hcalls with
  | start => exact Or.inl rfl
  | reset => exact Or.inl rfl
  | solveProgram _ hok ih =>
    obtain ⟨hs, ha, rfl⟩ := solveChecked_eq_ok hok
    exact Or.inr (hsolve ih hs ha directLimit)
  | project limit _ ht ha ih => exact Or.inr (hsolve ih ht ha limit)

/-- When the solver fails. Whatever earlier calls have left, a solution looks outside of the
inverse, the active set or the weights exactly when one of its steps starts from a crowded active
set: one with a single configuration, while the best one has the same variables and improves the
score of the additional variables by more than the tolerance. -/
theorem Calls.inRange_solveLookups_iff (ho : o.IsLinear IsConfiguration) {met : List α}
    {last : Option (List α × List α)} (hcalls : Calls o s met last)
    (ht : target.length = o.numVariables) (ha : additional.length = o.numAdditionals) (limit : ℕ) :
    ((∀ l ∈ solveLookups o target additional limit s, l.InRange) ↔
        ∀ t ∈ solveVisits o target additional limit s, ¬ IsCrowded o target additional t) ∧
      ((solve o target additional limit s).stop = .emptied ↔
        ∃ t ∈ solveVisits o target additional limit s, IsCrowded o target additional t) := by
  have hstart := isSound_start ho.toHasInnerProducts (hcalls.isSound_of_isLinear ho) ht ha
  obtain ⟨hvisits, -, hstop⟩ := run_isCrowded ho hstart ht ha 0 limit
  refine ⟨?_, hstop⟩
  have hstep {t : ActiveSet α C} (hmem : t ∈ solveVisits o target additional limit s) :
      (∀ l ∈ iterateLookups o target additional t, l.InRange) ↔
        ¬ IsCrowded o target additional t := by
    rcases iterate_isCrowded ho (hvisits t hmem) ht ha with
        ⟨hcrowded, -, l, hl, hout⟩ | ⟨hcrowded, -, hrange⟩
    · exact iff_of_false (fun hrange => hout (hrange l hl)) (not_not.mpr hcrowded)
    · exact iff_of_true hrange hcrowded
  constructor
  · intro hrange t hmem
    exact (hstep hmem).mp fun l hl => hrange l (List.mem_flatMap.mpr ⟨t, hmem, hl⟩)
  · intro hnone l hl
    obtain ⟨t, hmem, hl⟩ := List.mem_flatMap.mp hl
    exact (hstep hmem).mpr (hnone t hmem) l hl

/-- Configurations that are determined by their variables do not crowd one another. -/
theorem Calls.inRange_solveLookups {trueAdditionals : C → List ℕ}
    (ho : o.HasTrueIndices IsConfiguration trueAdditionals) {met : List α}
    {last : Option (List α × List α)} (hcalls : Calls o s met last)
    (ht : target.length = o.numVariables) (ha : additional.length = o.numAdditionals) (limit : ℕ) :
    ∀ l ∈ solveLookups o target additional limit s, l.InRange := by
  have hstart := isSound_start ho.isLinear.toHasInnerProducts
    (hcalls.isSound_of_isLinear ho.isLinear) ht ha
  obtain ⟨hvisits, -⟩ := run_isCrowded ho.isLinear hstart ht ha 0 limit
  intro l hl
  obtain ⟨t, hmem, hl⟩ := List.mem_flatMap.mp hl
  rcases iterate_isCrowded ho.isLinear (hvisits t hmem) ht ha with
      ⟨⟨d, hd, hsame, hbetter⟩, -⟩ | ⟨-, -, hrange⟩
  · have hdconf : IsConfiguration d :=
      (hvisits t hmem).isConfiguration d (hd ▸ List.mem_singleton_self d)
    have hshifted : (List.zipWith (· - ·) target (o.indicator d).1).length = o.numVariables := by
      rw [List.length_zipWith, ht, (ho.hasIndicators.length_indicator hdconf).1, min_self]
    have heq := ho.hasIndicators.eq_of_indicator_eq (ho.isConfiguration_maximize hshifted ha) hdconf
      hsame
    rw [heq] at hbetter
    linarith [optimalityTolerance_pos (α := α)]
  · exact hrange l hl

/-- A variable that is always true, and one of two additional variables. -/
def twins : Oracle ℚ Bool where
  numVariables := 1
  numAdditionals := 2
  maximize scores additional :=
    let value (second : Bool) :=
      Oracle.scoreAt [0] scores + Oracle.scoreAt [second.toNat] additional
    if value false < value true then (true, value true) else (false, value false)
  score scores additional second :=
    Oracle.scoreAt [0] scores + Oracle.scoreAt [second.toNat] additional
  accumulate second weight sums :=
    (Oracle.accumulateAt [0] weight sums.1, Oracle.accumulateAt [second.toNat] weight sums.2)
  trueVariables _ := [0]
  common _ _ := Oracle.countCommon [0] [0]
  ofAssignment? values := if values = [true] then some false else none

theorem isLinear_twins : twins.IsLinear fun _ => True where
  isConfiguration_maximize _ _ := trivial
  length_indicator _ := ⟨Oracle.length_indicatorAt 1 [0], Oracle.length_indicatorAt 2 _⟩
  accumulate_eq {second} _ _ _ h₁ h₂ := by
    change (Oracle.accumulateAt [0] _ _, Oracle.accumulateAt [second.toNat] _ _) = _
    rw [Oracle.accumulateAt_eq (List.nodup_singleton _) h₁,
      Oracle.accumulateAt_eq (List.nodup_singleton _) h₂]
    rfl
  common_eq _ _ := by
    change ((Oracle.countCommon [0] [0] : ℕ) : ℚ) = _
    rw [Oracle.countCommon_eq_countP (List.pairwise_singleton _ _) (List.pairwise_singleton _ _)]
    exact Oracle.countP_mem_eq_dot (n := 1) (List.nodup_singleton 0) (List.nodup_singleton 0)
      (by simp)
  maximize_value {scores additional} _ _ := by
    simp only [twins]
    split_ifs <;> rfl
  score_le {scores additional second} _ _ _ := by
    simp only [twins]
    split_ifs with hlt
    · cases second
      · exact hlt.le
      · exact le_rfl
    · cases second
      · exact le_rfl
      · exact not_lt.mp hlt
  score_eq_dot {scores additional second} _ _ _ := by
    change Oracle.scoreAt [0] scores + Oracle.scoreAt [second.toNat] additional = _
    rw [Oracle.scoreAt_eq_dot (List.nodup_singleton 0) (n := 1) (by simp),
      Oracle.scoreAt_eq_dot (List.nodup_singleton _) (n := 2) (by cases second <;> simp)]
    rfl

/-- After the first of the twins was the better one, there is a failure when the second one is
better, and none when the scores are equal. -/
theorem Calls.inRange_solveLookups_iff_twins :
    let left := (solve twins [1] [1, 0] directLimit {}).activeSet
    (∀ l ∈ solveLookups twins [1] [1, 1] directLimit left, l.InRange) ∧
      ∃ t ∈ solveVisits twins [1] [0, 1] directLimit left, IsCrowded twins [1] [0, 1] t := by
  intro left
  have hleft : Calls twins left _ _ := Calls.start.project directLimit rfl rfl
  obtain ⟨hrange, hstop⟩ :=
    Calls.inRange_solveLookups_iff isLinear_twins hleft (show [1].length = 1 from rfl)
      (show [1, 1].length = 2 from rfl) directLimit
  obtain ⟨-, hfails⟩ :=
    Calls.inRange_solveLookups_iff isLinear_twins hleft (show [1].length = 1 from rfl)
      (show [0, 1].length = 2 from rfl) directLimit
  constructor
  · have hnone := (not_congr hstop).mp (by decide +kernel)
    push Not at hnone
    exact hrange.mpr hnone
  · exact hfails.mp (by decide +kernel)

/-- Oracles that satisfy all laws do not keep the solver from looking outside of a list. -/
theorem not_inRange_twins :
    let left := (solve twins [1] [1, 0] directLimit {}).activeSet
    twins.IsLinear (fun _ => True) ∧ (∃ met last, Calls twins left met last) ∧
      ∃ l ∈ solveLookups twins [1] [0, 1] directLimit left, ¬ l.InRange := by
  intro left
  refine ⟨isLinear_twins, ⟨_, _, Calls.start.project directLimit rfl rfl⟩, ?_⟩
  decide +kernel

end QuadraticProgram
end MapInference
