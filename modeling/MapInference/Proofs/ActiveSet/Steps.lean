import MapInference.Proofs.ActiveSet.Exchange
import MapInference.ActiveSet.Program

/-!
# The steps of the active-set method

Each step leaves a sound active set, whether it moves the weights all the way or a part of it, lets
a configuration enter or ends the run, and a run never loses its last configuration. The weights
keep the sum one as long as the Schur complements that are met are zero or not too small.
-/

namespace MapInference

open Scalar
variable {α C : Type} [ExactScalar α] {o : Oracle α C} {IsConfiguration : C → Prop}

namespace ActiveSet

theorem foldl_accumulate (ho : o.HasInnerProducts IsConfiguration) (ps : List (C × α))
    (hps : ∀ p ∈ ps, IsConfiguration p.1) {sums : List α × List α}
    (h₁ : sums.1.length = o.numVariables) (h₂ : sums.2.length = o.numAdditionals) :
    let r := ps.foldl (fun sums (c, w) => o.accumulate c w sums) sums
    r.1.length = o.numVariables ∧ r.2.length = o.numAdditionals ∧
      (∀ t < o.numVariables, coordinate r.1 t = coordinate sums.1 t +
        (ps.map fun p => p.2 * coordinate (o.indicator p.1).1 t).sum) ∧
      ∀ t < o.numAdditionals, coordinate r.2 t = coordinate sums.2 t +
        (ps.map fun p => p.2 * coordinate (o.indicator p.1).2 t).sum := by
  induction ps generalizing sums with
  | nil => simp [h₁, h₂]
  | cons p ps ih =>
    obtain ⟨c, w⟩ := p
    have hc : IsConfiguration c := hps _ List.mem_cons_self
    obtain ⟨hl₁, hl₂⟩ := ho.length_indicator hc
    have haccumulate : o.accumulate c w sums =
        (Oracle.addMultiple sums.1 w (o.indicator c).1,
          Oracle.addMultiple sums.2 w (o.indicator c).2) := ho.accumulate_eq hc h₁ h₂
    have hlen₁ : (o.accumulate c w sums).1.length = o.numVariables := by
      rw [haccumulate]
      exact Oracle.length_addMultiple h₁ hl₁ w
    have hlen₂ : (o.accumulate c w sums).2.length = o.numAdditionals := by
      rw [haccumulate]
      exact Oracle.length_addMultiple h₂ hl₂ w
    obtain ⟨hr₁, hr₂, hv, ha⟩ := ih (fun p hp => hps p (List.mem_cons_of_mem _ hp)) hlen₁ hlen₂
    refine ⟨hr₁, hr₂, fun t ht => ?_, fun t ht => ?_⟩
    · rw [List.foldl_cons, hv t ht, haccumulate, Oracle.coordinate_addMultiple h₁ hl₁ w ht,
        List.map_cons, List.sum_cons, add_assoc]
    · rw [List.foldl_cons, ha t ht, haccumulate, Oracle.coordinate_addMultiple h₂ hl₂ w ht,
        List.map_cons, List.sum_cons, add_assoc]

variable {s : ActiveSet α C}

theorem marginals_eq_dot (ho : o.HasInnerProducts IsConfiguration)
    (hs : ∀ c ∈ s.configurations, IsConfiguration c) :
    (s.marginals o).1.length = o.numVariables ∧ (s.marginals o).2.length = o.numAdditionals ∧
      (∀ t < o.numVariables,
        coordinate (s.marginals o).1 t = dot s.weights (o.column s.configurations t)) ∧
      ∀ t < o.numAdditionals, coordinate (s.marginals o).2 t =
        dot s.weights (s.configurations.map fun c => coordinate (o.indicator c).2 t) := by
  have hps (p : C × α) (hp : p ∈ List.zipWith Prod.mk s.configurations s.weights) :
      IsConfiguration p.1 := by
    rw [← List.zip_eq_zipWith] at hp
    exact hs p.1 (List.of_mem_zip hp).1
  let start : List α × List α := (zeros o.numVariables, zeros o.numAdditionals)
  have hstart₁ : start.1.length = o.numVariables := length_zeros _
  have hstart₂ : start.2.length = o.numAdditionals := length_zeros _
  obtain ⟨h₁, h₂, hv, ha⟩ := foldl_accumulate ho _ hps hstart₁ hstart₂
  have hdot (x : C → α) : ((List.zipWith Prod.mk s.configurations s.weights).map
      fun p => p.2 * x p.1).sum = dot s.weights (s.configurations.map x) := by
    rw [dot, total_eq_sum, List.map_zipWith, List.zipWith_map_right, List.zipWith_comm]
  refine ⟨h₁, h₂, fun t ht => ?_, fun t ht => ?_⟩
  · rw [marginals, hv t ht, coordinate_zeros, zero_add,
      hdot fun c => coordinate (o.indicator c).1 t]
    rfl
  · rw [marginals, ha t ht, coordinate_zeros, zero_add,
      hdot fun c => coordinate (o.indicator c).2 t]

theorem marginals_spec (ho : o.HasIndicators IsConfiguration)
    (hs : ∀ c ∈ s.configurations, IsConfiguration c) :
    (s.marginals o).1.length = o.numVariables ∧ (s.marginals o).2.length = o.numAdditionals ∧
      (∀ t < o.numVariables,
        coordinate (s.marginals o).1 t = dot s.weights (o.column s.configurations t)) ∧
      ∀ t < o.numAdditionals, coordinate (s.marginals o).2 t =
        dot s.weights (s.configurations.map fun c => coordinate (o.indicator c).2 t) :=
  marginals_eq_dot ho.hasInnerProducts hs

end ActiveSet

namespace QuadraticProgram

open ActiveSet (IsSound IsZeroOrLarge enterSchurs)

variable {s : ActiveSet α C}

theorem optimalityTolerance_pos : 0 < (optimalityTolerance : α) := by
  rw [optimalityTolerance, tenthPower_eq]
  positivity

theorem blocking?_eq (s : ActiveSet α C) (goal : List α) :
    blocking? s goal = Extremum.firstLeast? (·.2) (ActiveSet.ratios (· < -Matrix.pivotTolerance)
      (fun new old => old / (old - new)) goal s.weights) := rfl

theorem of_blocking? {goal : List α} {i : ℕ} {part : α} (h : blocking? s goal = some (i, part)) :
    i < s.weights.length ∧ coordinate goal i < -Matrix.pivotTolerance ∧
      part = coordinate s.weights i / (coordinate s.weights i - coordinate goal i) := by
  rw [blocking?_eq] at h
  obtain ⟨⟨-, hi⟩, hratio⟩ := ActiveSet.mem_ratios_iff.mp (Extremum.mem_of_firstLeast? h)
  exact ⟨hi, hratio⟩

theorem le_of_blocking?_eq_none {goal : List α} (h : blocking? s goal = none)
    (hlen : goal.length = s.weights.length) {i : ℕ} (hi : i < goal.length) :
    -Matrix.pivotTolerance ≤ coordinate goal i := by
  rw [blocking?_eq, Extremum.firstLeast?_eq_none_iff] at h
  by_contra hlt
  exact List.eq_nil_iff_forall_not_mem.mp h _
    (ActiveSet.mem_ratios_iff.mpr ⟨⟨hi, hlen ▸ hi⟩, not_le.mp hlt, rfl⟩)

theorem sum_le_sum_map_larger (xs : List α) : xs.sum ≤ (xs.map fun x => larger x 0).sum := by
  induction xs with
  | nil => exact le_rfl
  | cons x xs ih =>
    rw [List.map_cons, List.sum_cons, List.sum_cons, larger_eq_max]
    exact add_le_add (le_max_left x 0) ih

theorem fullStep_spec (h : s.IsSound o IsConfiguration) {goal : List α}
    (hlen : goal.length = s.configurations.length) (hsum : goal.sum = 1) :
    (fullStep s goal).IsSound o IsConfiguration ∧ (fullStep s goal).weights.sum = 1 := by
  have hgoal : IsSound o IsConfiguration { s with weights := goal.map fun w => larger w 0 } := by
    refine ⟨h.withWeights _, (List.length_map _).trans hlen, fun w hw => ?_⟩
    obtain ⟨v, _, rfl⟩ := List.mem_map.mp hw
    simp
  refine ⟨ActiveSet.isSound_normalised hgoal, ActiveSet.sum_normalised ?_⟩
  exact (hsum ▸ one_pos : 0 < goal.sum).trans_le (sum_le_sum_map_larger goal)

/-- A single configuration has the goal one, so that only one of several can leave. -/
theorem two_le_length_of_blocking? (h : s.IsSound o IsConfiguration) {goal : List α}
    (hlen : goal.length = s.configurations.length) (hsum : goal.sum = 1) {i : ℕ} {part : α}
    (hblocking : blocking? s goal = some (i, part)) : 2 ≤ s.configurations.length := by
  obtain ⟨hi, hneg, -⟩ := of_blocking? hblocking
  rw [h.length_weights] at hi
  by_contra hone
  obtain ⟨x, rfl⟩ := List.length_eq_one_iff.mp (hlen.trans (by omega : _ = 1))
  obtain rfl : i = 0 := by omega
  rw [List.sum_singleton] at hsum
  rw [coordinate_cons_zero, hsum] at hneg
  linarith [Matrix.pivotTolerance_pos (α := α)]

theorem partialStep_spec (h : s.IsSound o IsConfiguration) {goal : List α}
    (hlen : goal.length = s.configurations.length) (hsum : goal.sum = 1) {i : ℕ} {part : α}
    (hblocking : blocking? s goal = some (i, part)) :
    (partialStep o s goal i part).IsSound o IsConfiguration ∧
      (s.weights.sum = 1 → (partialStep o s goal i part).weights.sum = 1) := by
  have htwo := two_le_length_of_blocking? h hlen hsum hblocking
  obtain ⟨hi, hneg, hpart⟩ := of_blocking? hblocking
  rw [h.length_weights] at hi
  have hnegative : coordinate goal i < 0 :=
    hneg.trans (neg_lt_zero.mpr Matrix.pivotTolerance_pos)
  have hmoved := ActiveSet.isSound_moved h hlen fun w new => w + part * (new - w)
  refine ⟨ActiveSet.isSound_normalised (hmoved.remove hi htwo), fun hone => ?_⟩
  refine ActiveSet.sum_normalised ?_
  obtain ⟨_, ⟨_, hweights⟩ | ⟨c, _, hsingle⟩⟩ :=
    hmoved.toHasInverse.remove_cases hmoved.length_weights hi htwo
  · rw [hweights]
    have hnonneg : 0 ≤ coordinate s.weights i := h.coordinate_weights_nonneg i
    have hne : coordinate s.weights i - coordinate goal i ≠ 0 := by linarith
    have hzero : coordinate s.weights i +
        part * (coordinate goal i - coordinate s.weights i) = 0 := by
      rw [hpart]
      field_simp
      ring
    refine one_pos.trans_le (le_trans (le_of_eq ?_)
      (ActiveSet.sum_sub_le_sum_eraseIdx (k := s.configurations.length)
        (f := fun j => coordinate s.weights j +
          part * (coordinate goal j - coordinate s.weights j))
        hmoved.length_weights hi fun j hj => ?_))
    · rw [hzero, sub_zero, Finset.sum_add_distrib, ← Finset.mul_sum, Finset.sum_sub_distrib,
        ← sum_eq_sum_coordinate h.length_weights.le, ← sum_eq_sum_coordinate hlen.le, hone, hsum,
        sub_self, mul_zero, add_zero]
    · rw [coordinate_zipWith (h.length_weights ▸ hj) (hlen ▸ hj), larger_eq_max]
      exact le_max_left _ _
  · rw [hsingle, ActiveSet.sum_weights_singleton]
    exact one_pos

/-- Whether the active set that a step leaves, which is never an empty one, has a property. -/
def Step.Satisfies (P : ActiveSet α C → Prop) : Step α C → Prop
  | .next t => P t
  | .stop reason t => reason ≠ .emptied ∧ P t

omit [ExactScalar α] in
theorem Step.Satisfies.imp {P Q : ActiveSet α C → Prop} {step : Step α C} (h : step.Satisfies P)
    (himp : ∀ t, P t → Q t) : step.Satisfies Q := by
  cases step with
  | next t => exact himp t h
  | stop reason t => exact ⟨h.1, himp t h.2⟩

theorem enter_spec (ho : o.HasInnerProducts IsConfiguration) (h : s.IsSound o IsConfiguration)
    {c : C} (hc : IsConfiguration c)
    (htwo : |ActiveSet.schur o s c| < Matrix.pivotTolerance → 2 ≤ s.configurations.length) :
    (enter o s c).Satisfies fun t => t.IsSound o IsConfiguration ∧
      ((∀ x ∈ enterSchurs o s c, IsZeroOrLarge x) → s.weights.sum = 1 → t.weights.sum = 1) := by
  unfold enter
  by_cases hlt : |ActiveSet.schur o s c| < Matrix.pivotTolerance
  · rw [ActiveSet.insert_of_lt h.inverse_ne_nil hlt]
    obtain ⟨t, ht | ht, hsound⟩ := ActiveSet.exchange_cases ho h hc (htwo hlt) hlt
    · simp only [ht]
      exact hsound
    · simp only [ht]
      exact ⟨nofun, hsound⟩
  · rw [ActiveSet.insert_of_not_lt h.inverse_ne_nil hlt]
    have hne := Matrix.ne_zero_of_le_abs (not_lt.mp hlt)
    refine ⟨h.bordered ho hc hne le_rfl, fun _ hone => ?_⟩
    change (s.weights ++ [0]).sum = 1
    rw [List.sum_append, List.sum_singleton, add_zero, hone]

theorem isConfiguration_candidate (ho : o.HasInnerProducts IsConfiguration)
    (h : s.IsSound o IsConfiguration) {target additional : List α}
    (ht : target.length = o.numVariables) (ha : additional.length = o.numAdditionals) :
    IsConfiguration (candidate o target additional s).1 := by
  refine ho.isConfiguration_maximize ?_ ha
  rw [List.length_zipWith, ht, (ActiveSet.marginals_eq_dot ho h.isConfiguration).1, min_self]

def movedPart (s : ActiveSet α C) (goal : List α) (part : α) : ActiveSet α C :=
  { s with weights := List.zipWith (fun w new => larger (w + part * (new - w)) 0) s.weights goal }

theorem isSound_movedPart (h : s.IsSound o IsConfiguration) {goal : List α}
    (hlen : goal.length = s.configurations.length) (part : α) :
    (movedPart s goal part).IsSound o IsConfiguration :=
  ActiveSet.isSound_moved h hlen fun w new => w + part * (new - w)

/-- The active set with its weights a part of the way to the goal, and the configuration that then
leaves it, when one does in a step. -/
def leaving? (o : Oracle α C) (target additional : List α) (s : ActiveSet α C) :
    Option (ActiveSet α C × ℕ) :=
  match s.unsignedOptimum? (s.configurations.map (o.score target additional)) with
  | none => none
  | some (_, goal) => (blocking? s goal).map fun (i, part) => (movedPart s goal part, i)

variable [DecidableEq C]

/-- The active set with its weights at the goal, and the configuration that is to enter it, when one
is in a step. -/
def entering? (o : Oracle α C) (target additional : List α) (s : ActiveSet α C) :
    Option (ActiveSet α C × C) :=
  match s.unsignedOptimum? (s.configurations.map (o.score target additional)) with
  | none => none
  | some (multiplier, goal) =>
    match blocking? s goal with
    | some _ => none
    | none =>
      let t := fullStep s goal
      let (c, value) := candidate o target additional t
      if value ≤ multiplier + optimalityTolerance ∨ c ∈ t.configurations then none else some (t, c)

def iterateSchurs (o : Oracle α C) (target additional : List α) (s : ActiveSet α C) : List α :=
  match s.unsignedOptimum? (s.configurations.map (o.score target additional)) with
  | none => []
  | some (multiplier, goal) =>
    match blocking? s goal with
    | some _ => []
    | none =>
      let t := fullStep s goal
      let (c, value) := candidate o target additional t
      if value ≤ multiplier + optimalityTolerance ∨ c ∈ t.configurations then []
      else enterSchurs o t c

def runVisits (o : Oracle α C) (target additional : List α) (s : ActiveSet α C) :
    ℕ → List (ActiveSet α C)
  | 0 => []
  | limit + 1 => s ::
    match iterate o target additional s with
    | .next t => runVisits o target additional t limit
    | .stop _ _ => []

def runSchurs (o : Oracle α C) (target additional : List α) (s : ActiveSet α C) : ℕ → List α
  | 0 => []
  | limit + 1 => iterateSchurs o target additional s ++
    match iterate o target additional s with
    | .next t => runSchurs o target additional t limit
    | .stop _ _ => []

/-- What a step can do: it lets a configuration leave on the way to stationary weights, or it
reaches these and ends the run or lets a configuration enter. -/
theorem iterate_cases (ho : o.HasInnerProducts IsConfiguration) (h : s.IsSound o IsConfiguration)
    (target additional : List α) :
    ∃ multiplier goal,
      s.unsignedOptimum? (s.configurations.map (o.score target additional)) =
        some (multiplier, goal) ∧
      ActiveSet.IsStationary o s.configurations (s.configurations.map (o.score target additional))
        multiplier goal ∧
      ((∃ i part, blocking? s goal = some (i, part) ∧
          leaving? o target additional s = some (movedPart s goal part, i) ∧
          entering? o target additional s = none ∧ iterateSchurs o target additional s = [] ∧
          iterate o target additional s = .next (partialStep o s goal i part)) ∨
        (blocking? s goal = none ∧ leaving? o target additional s = none ∧
          (((∃ reason, reason ≠ .emptied ∧
              iterate o target additional s = .stop reason (fullStep s goal)) ∧
            ((candidate o target additional (fullStep s goal)).2 ≤
                multiplier + optimalityTolerance ∨
              (candidate o target additional (fullStep s goal)).1 ∈
                (fullStep s goal).configurations) ∧
            entering? o target additional s = none ∧ iterateSchurs o target additional s = []) ∨
          ∃ c value, candidate o target additional (fullStep s goal) = (c, value) ∧
            multiplier + optimalityTolerance < value ∧ c ∉ (fullStep s goal).configurations ∧
            entering? o target additional s = some (fullStep s goal, c) ∧
            iterateSchurs o target additional s = enterSchurs o (fullStep s goal) c ∧
            iterate o target additional s = enter o (fullStep s goal) c))) := by
  obtain ⟨multiplier, goal, hgoal, hstationary⟩ := h.toHasInverse.exists_unsignedOptimum? ho
    (s.configurations.map (o.score target additional))
  refine ⟨multiplier, goal, hgoal, hstationary, ?_⟩
  unfold iterate iterateSchurs leaving? entering?
  simp only [hgoal]
  cases hblocking : blocking? s goal with
  | some block => exact Or.inl ⟨_, _, rfl, rfl, rfl, rfl, rfl⟩
  | none =>
    refine Or.inr ⟨rfl, rfl, ?_⟩
    rcases hbest : candidate o target additional (fullStep s goal) with ⟨c, value⟩
    dsimp only
    by_cases hvalue : value ≤ multiplier + optimalityTolerance
    · rw [if_pos hvalue, if_pos (Or.inl hvalue), if_pos (Or.inl hvalue)]
      exact Or.inl ⟨⟨.optimal, nofun, rfl⟩, Or.inl hvalue, rfl, rfl⟩
    by_cases hactive : c ∈ (fullStep s goal).configurations
    · rw [if_neg hvalue, if_pos hactive, if_pos (Or.inr hactive), if_pos (Or.inr hactive)]
      exact Or.inl ⟨⟨.alreadyActive, nofun, rfl⟩, Or.inr hactive, rfl, rfl⟩
    · have hneither := not_or.mpr ⟨hvalue, hactive⟩
      rw [if_neg hvalue, if_neg hactive, if_neg hneither, if_neg hneither]
      exact Or.inr ⟨c, value, rfl, not_le.mp hvalue, hactive, rfl, rfl, rfl⟩

theorem iterate_spec (ho : o.HasIndicators IsConfiguration) (h : s.IsSound o IsConfiguration)
    {target additional : List α} (ht : target.length = o.numVariables)
    (ha : additional.length = o.numAdditionals) :
    (iterate o target additional s).Satisfies fun t => t.IsSound o IsConfiguration ∧
      ((∀ x ∈ iterateSchurs o target additional s, IsZeroOrLarge x) → s.weights.sum = 1 →
        t.weights.sum = 1) := by
  have hinner := ho.hasInnerProducts
  obtain ⟨multiplier, goal, -, hstationary, hcases⟩ := iterate_cases hinner h target additional
  obtain ⟨hsound, hsum⟩ := fullStep_spec h hstationary.length_eq hstationary.sum_eq
  rcases hcases with ⟨i, part, hblocking, -, -, -, hstep⟩ |
      ⟨-, -, ⟨⟨reason, hreason, hstep⟩, -⟩ | ⟨c, value, hbest, -, hmem, -, hschurs, hstep⟩⟩
  · rw [hstep]
    obtain ⟨hsound, hsum⟩ :=
      partialStep_spec h hstationary.length_eq hstationary.sum_eq hblocking
    exact ⟨hsound, fun _ => hsum⟩
  · rw [hstep]
    exact ⟨hreason, hsound, fun _ _ => hsum⟩
  · have hc : IsConfiguration c := by
      have hcandidate := isConfiguration_candidate hinner hsound ht ha
      rwa [hbest] at hcandidate
    have henter := enter_spec hinner hsound hc
      (hsound.toHasInverse.two_le_length_of_lt ho hc hmem)
    rw [hstep, hschurs]
    exact henter.imp fun t ht => ⟨ht.1, fun hschurs _ => ht.2 hschurs hsum⟩

theorem run_spec (ho : o.HasIndicators IsConfiguration) (h : s.IsSound o IsConfiguration)
    {target additional : List α} (ht : target.length = o.numVariables)
    (ha : additional.length = o.numAdditionals) (iterations limit : ℕ) :
    (run o target additional s iterations limit).stop ≠ .emptied ∧
      (run o target additional s iterations limit).activeSet.IsSound o IsConfiguration ∧
      ((∀ x ∈ runSchurs o target additional s limit, IsZeroOrLarge x) → s.weights.sum = 1 →
        (run o target additional s iterations limit).activeSet.weights.sum = 1) := by
  induction limit generalizing s iterations with
  | zero => exact ⟨nofun, h, fun _ hone => hone⟩
  | succ limit ih =>
    have hstep := iterate_spec ho h ht ha
    unfold run runSchurs
    revert hstep
    cases iterate o target additional s with
    | next t =>
      rintro ⟨hsound, hsum⟩
      obtain ⟨hstop, hrun, hruns⟩ := ih hsound (iterations + 1)
      refine ⟨hstop, hrun, fun hschurs hone => hruns ?_ (hsum ?_ hone)⟩
      · exact fun x hx => hschurs x (List.mem_append_right _ hx)
      · exact fun x hx => hschurs x (List.mem_append_left _ hx)
    | stop reason t =>
      rintro ⟨hreason, hsound, hsum⟩
      exact ⟨hreason, hsound, fun hschurs => hsum fun x hx =>
        hschurs x (List.mem_append_left _ hx)⟩

/-- The active sets that the steps of a solution start from. -/
def solveVisits (o : Oracle α C) (target additional : List α) (limit : ℕ) (s : ActiveSet α C) :
    List (ActiveSet α C) :=
  runVisits o target additional (start o target additional s) limit

def solveSchurs (o : Oracle α C) (target additional : List α) (limit : ℕ) (s : ActiveSet α C) :
    List α :=
  runSchurs o target additional (start o target additional s) limit

end QuadraticProgram
end MapInference
