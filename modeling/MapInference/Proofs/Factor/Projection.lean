import MapInference.Proofs.Factor
import MapInference.Proofs.Projection.CappedSimplex
import MapInference.Proofs.Projection.Hull
import MapInference.Proofs.Relaxation.Polytope
import MapInference.Consensus.Worker

/-!
# Projections of closed forms

The proximal step of a logic factor or a budget is the projection onto the convex hull of the
assignments that the factor has a value for. Both layers of complements, those of the literals and
those of the operator, carry nearest points over to nearest points and hulls to hulls. Only where an
output is a disjunction, the step may leave the hull, by an output that exceeds the sum of the
inputs by the slack.
-/

namespace MapInference

open Scalar
variable {α : Type} [ExactScalar α]

namespace Projection

def satisfying (n : ℕ) (holds : List Bool → Bool) : Set (ℕ → α) :=
  {x | ∃ values, values.length = n ∧ holds values ∧ x = ofValues values}

structure IsProjection (n : ℕ) (S K : Set (ℕ → α)) (target point : List α) : Prop where
  length_eq : point.length = n
  mem : coordinate point ∈ K
  nearest : IsNearest n S (coordinate target) (coordinate point)

theorem satisfying_subset_unitBox (n : ℕ) (holds : List Bool → Bool) :
    (satisfying n holds : Set (ℕ → α)) ⊆ unitBox n := by
  rintro _ ⟨values, rfl, _, rfl⟩
  exact ofValues_mem_unitBox values

theorem convexHull_satisfying_subset_unitBox (n : ℕ) (holds : List Bool → Bool) :
    convexHull α (satisfying n holds : Set (ℕ → α)) ⊆ unitBox n :=
  convexHull_min (satisfying_subset_unitBox n holds) convex_unitBox

variable {n : ℕ} {S : Set (ℕ → α)} {target point : List α}

theorem IsProjection.of_sumBox (lower upper : ℕ) {holds : List Bool → Bool}
    (hlen : point.length = target.length)
    (hholds : ∀ values, values.length = target.length →
      (holds values = true ↔ lower ≤ values.count true ∧ values.count true ≤ upper))
    (h : coordinate point ∈ sumBox target.length (lower : α) upper ∧
      IsNearest target.length (sumBox target.length (lower : α) upper) (coordinate target)
        (coordinate point)) :
    IsProjection target.length (satisfying target.length holds)
      (convexHull α (satisfying target.length holds)) target point := by
  have hcounted : (satisfying target.length holds : Set (ℕ → α)) =
      counted target.length lower upper := by
    ext x
    constructor
    · rintro ⟨values, hvalues, hcount, rfl⟩
      exact ⟨values, hvalues, (hholds values hvalues).mp hcount, rfl⟩
    · rintro ⟨values, hvalues, hcount, rfl⟩
      exact ⟨values, hvalues, (hholds values hvalues).mpr hcount, rfl⟩
  rw [hcounted]
  exact ⟨hlen, sumBox_subset_convexHull h.1, h.2.mono counted_subset_sumBox⟩

theorem satisfying_assignment {marks : List Bool} (hlen : marks.length = n)
    (holds : List Bool → Bool) :
    (satisfying n fun values => holds (Complement.assignment marks values)) =
      {x : ℕ → α | Complement.map marks x ∈ satisfying n holds} := by
  have hmap (values : List Bool) (hvalues : values.length = n) :
      (Complement.map marks (ofValues values) : ℕ → α) =
        ofValues (Complement.assignment marks values) := by
    rw [ofValues, ofValues, ← Complement.coordinate_point (by simp [hlen, hvalues]),
      Complement.point_map_ofBool]
  have hlength (values : List Bool) (hvalues : values.length = n) :
      (Complement.assignment marks values).length = n := by
    simp [Complement.assignment, hlen, hvalues]
  ext x
  constructor
  · rintro ⟨values, hvalues, hholds, rfl⟩
    exact ⟨_, hlength values hvalues, hholds, hmap values hvalues⟩
  · rintro ⟨values, hvalues, hholds, hx⟩
    refine ⟨_, hlength values hvalues, ?_, ?_⟩
    · dsimp only
      rwa [Complement.assignment_assignment (hlen.trans hvalues.symm)]
    · rw [← hmap values hvalues, ← hx, Complement.map_map]

theorem convexHull_complement (marks : List Bool) (S : Set (ℕ → α)) :
    convexHull α {x | Complement.map marks x ∈ S} =
      {x | Complement.map marks x ∈ convexHull α S} := by
  ext x
  constructor
  · exact Complement.map_mem_convexHull marks fun y hy => hy
  · intro hx
    have hback := Complement.map_mem_convexHull marks (S := S)
      (T := {x | Complement.map marks x ∈ S})
      (fun y hy => by
        change Complement.map marks (Complement.map marks y) ∈ S
        rwa [Complement.map_map]) hx
    rwa [Complement.map_map] at hback

theorem IsProjection.complement {K : Set (ℕ → α)} {marks : List Bool} (hlen : marks.length = n)
    (htarget : target.length = n)
    (h : IsProjection n S K (Complement.point marks target) point) :
    IsProjection n {x | Complement.map marks x ∈ S} {x | Complement.map marks x ∈ K} target
      (Complement.point marks point) := by
  have hpoint : coordinate (Complement.point marks point) =
      Complement.map marks (coordinate point) :=
    Complement.coordinate_point (hlen.trans h.length_eq.symm)
  refine ⟨by simp [hlen, h.length_eq], ?_, fun x hx => ?_⟩
  · change Complement.map marks (coordinate _) ∈ K
    rw [hpoint, Complement.map_map]
    exact h.mem
  · have hnearest := h.nearest _ hx
    rw [Complement.coordinate_point (hlen.trans htarget.symm)] at hnearest
    rw [hpoint, ← Complement.approach_map marks, Complement.map_map]
    exact hnearest

end Projection

open Projection

namespace TruthCondition

/-- The convex hull of the assignments that meet the condition; for a disjunction, also the points
where the output exceeds the sum of the inputs by no more than the slack. -/
def slackHull (c : TruthCondition) (n : ℕ) (slack : α) : Set (ℕ → α) :=
  match c with
  | lastIsDisjunction => disjunctionBox (n - 1) slack
  | _ => convexHull α (satisfying n c.holds)

theorem satisfying_lastIsDisjunction (n : ℕ) :
    (satisfying (n + 1) lastIsDisjunction.holds : Set (ℕ → α)) = disjunctions n := by
  ext x
  constructor
  · rintro ⟨values, hlen, hholds, rfl⟩
    have hne : values ≠ [] := by
      rintro rfl
      simp at hlen
    rw [← List.dropLast_append_getLast hne, holds_lastIsDisjunction_append, beq_iff_eq] at hholds
    refine ⟨values.dropLast, by simp [hlen], ?_⟩
    rw [← hholds, List.dropLast_append_getLast]
  · rintro ⟨inputs, rfl, rfl⟩
    refine ⟨inputs ++ [inputs.any id], by simp, ?_, rfl⟩
    rw [holds_lastIsDisjunction_append, beq_self_eq_true]

theorem slackHull_zero (c : TruthCondition) {n : ℕ} (h : c.leastArity ≤ n) :
    (c.slackHull n 0 : Set (ℕ → α)) = convexHull α (satisfying n c.holds) := by
  cases c with
  | lastIsDisjunction =>
    obtain ⟨m, rfl⟩ : ∃ m, n = m + 1 := Nat.exists_eq_add_of_le' (Nat.le_of_succ_le h)
    rw [satisfying_lastIsDisjunction, convexHull_disjunctions]
    rfl
  | _ => rfl

theorem slackHull_eq {c : TruthCondition} (h : c ≠ lastIsDisjunction) (n : ℕ) (s t : α) :
    c.slackHull n s = c.slackHull n t := by
  cases c with
  | lastIsDisjunction => exact absurd rfl h
  | _ => rfl

theorem slackHull_subset_unitBox (c : TruthCondition) {n : ℕ} (h : c.leastArity ≤ n) (slack : α) :
    c.slackHull n slack ⊆ unitBox n := by
  cases c with
  | lastIsDisjunction =>
    obtain ⟨m, rfl⟩ : ∃ m, n = m + 1 := Nat.exists_eq_add_of_le' (Nat.le_of_succ_le h)
    exact fun x hx => hx.1.1
  | _ => exact convexHull_satisfying_subset_unitBox n _

theorem isProjection_project (c : TruthCondition) (target : List α)
    (h : c.leastArity ≤ target.length) :
    IsProjection target.length (satisfying target.length c.holds)
      (c.slackHull target.length (tenthPower 12)) target (c.project target) := by
  have hne : target ≠ [] := by
    rintro rfl
    cases c <;> simp [leastArity] at h
  cases c with
  | exactlyOne =>
    refine IsProjection.of_sumBox 1 1 (length_simplex target) (fun values _ => ?_) ?_
    · rw [holds, beq_iff_eq, le_antisymm_iff, and_comm]
    · simpa [project] using isNearest_simplex hne
  | atMostOne =>
    refine IsProjection.of_sumBox 0 1 (length_budgetPolytope 1 target) (fun values _ => ?_) ?_
    · simp [holds]
    · simpa [project] using isNearest_budgetPolytope zero_le_one target
  | atLeastOne =>
    refine IsProjection.of_sumBox 1 target.length (length_coveringPolytope target)
      (fun values hlen => ?_) ?_
    · rw [holds, decide_eq_true_eq, and_iff_left (hlen ▸ List.count_le_length)]
    · simpa [project] using isNearest_coveringPolytope hne
  | lastIsDisjunction =>
    obtain ⟨inputs, output, rfl⟩ : ∃ inputs output, target = inputs ++ [output] :=
      ⟨_, _, (List.dropLast_append_getLast hne).symm⟩
    obtain ⟨hmem, hnearest⟩ := isNearest_disjunction inputs output
    have hproject : lastIsDisjunction.project (inputs ++ [output]) =
        (disjunction inputs output).1 ++ [(disjunction inputs output).2] := by
      simp [project]
    rw [hproject, List.length_append, List.length_singleton, satisfying_lastIsDisjunction]
    exact ⟨by simp, hmem, hnearest.mono (disjunctions_subset _)⟩

end TruthCondition

theorem LogicConstraint.isProjection_project (c : LogicConstraint) (target : List α)
    (hlen : c.flipped.length = target.length) (h : c.condition.leastArity ≤ target.length) :
    IsProjection target.length (satisfying target.length c.holds)
      {x | Complement.map c.flipped x ∈ c.condition.slackHull target.length (tenthPower 12)} target
      (c.project target) := by
  have hflipped : (Complement.point c.flipped target).length = target.length := by simp [hlen]
  have hproject := c.condition.isProjection_project (Complement.point c.flipped target)
    (hflipped.symm ▸ h)
  rw [hflipped] at hproject
  have hbox := box_eq_self (c.condition.slackHull_subset_unitBox h _ hproject.mem)
  rw [project, hbox, show c.holds = fun values => c.condition.holds
    (Complement.assignment c.flipped values) from rfl, satisfying_assignment hlen]
  exact hproject.complement hlen rfl

theorem BudgetConstraint.isProjection_project (b : BudgetConstraint) (target : List α) :
    IsProjection target.length (satisfying target.length b.holds)
      (convexHull α (satisfying target.length b.holds)) target (b.project target) := by
  refine IsProjection.of_sumBox 0 b.limit (length_budgetPolytope _ target) (fun values _ => ?_) ?_
  · simp [holds]
  · simpa [project] using isNearest_budgetPolytope (Nat.cast_nonneg b.limit) target

namespace Factor

/-- The factor applies a logic operator that can be declared over its literals. -/
def IsLogic (f : Factor α) (op : LogicOperator) : Prop :=
  f.kind = .logic (.ofOperator op f.literals.length) ∧ op.minimumArity ≤ f.literals.length

/-- The assignments of the variables that the factor has a value for. -/
def feasiblePoints (f : Factor α) : Set (ℕ → α) :=
  satisfying f.literals.length fun values => (f.evaluate values).isSome

/-- The points where no input exceeds the output, and where the output exceeds the sum of the inputs
by no more than the slack, when the literals that the operator negates are complemented. -/
def disjunctionPolytope (f : Factor α) (op : LogicOperator) (slack : α) : Set (ℕ → α) :=
  {x | Complement.map (op.flips f.literals.length) (Complement.map f.marks x) ∈
    disjunctionBox (f.literals.length - 1) slack}

variable {f : Factor α}

theorem feasiblePoints_eq {form : ClosedForm α} (h : f.localProblem = .closedForm form) :
    f.feasiblePoints =
      {x | Complement.map f.marks x ∈ satisfying f.literals.length form.holds} := by
  rw [← satisfying_assignment f.length_marks]
  refine congrArg (satisfying f.literals.length) ?_
  funext values
  rw [evaluate, h, LocalProblem.evaluate]
  split_ifs with hholds
  · simp [hholds]
  · simpa using hholds

theorem localProblem_of_logic {c : LogicConstraint} (h : f.kind = .logic c) :
    f.localProblem = .closedForm ⟨c.project, c.best, c.holds⟩ := by
  obtain ⟨literals, additional, kind⟩ := f
  obtain rfl : kind = _ := h
  rfl

theorem localProblem_of_budget {b : BudgetConstraint} (h : f.kind = .budget b) :
    f.localProblem = .closedForm ⟨b.project, b.best, b.holds⟩ := by
  obtain ⟨literals, additional, kind⟩ := f
  obtain rfl : kind = _ := h
  rfl

theorem convexHull_feasiblePoints {op : LogicOperator} (h : f.IsLogic op) :
    convexHull α f.feasiblePoints =
      {x | Complement.map (op.flips f.literals.length) (Complement.map f.marks x) ∈
        op.condition.slackHull f.literals.length 0} := by
  have harity := op.leastArity_condition_le.trans h.2
  have hholds : (satisfying f.literals.length
      (LogicConstraint.ofOperator op f.literals.length).holds : Set (ℕ → α)) =
      {x | Complement.map (op.flips f.literals.length) x ∈
        satisfying f.literals.length op.condition.holds} :=
    satisfying_assignment (op.length_flips _) op.condition.holds
  rw [feasiblePoints_eq (localProblem_of_logic h.1), convexHull_complement, hholds,
    convexHull_complement, op.condition.slackHull_zero harity]
  rfl

end Factor

namespace Worker

variable {w : Worker α} (consensus logPotentials : List α) (degrees : List ℕ) (stepSize : α)
  (limit : ℕ)

theorem isProjection_posteriors {form : ClosedForm α}
    (hform : w.factor.localProblem = .closedForm form)
    (hlen : w.multipliers.length = w.factor.literals.length) {K : Set (ℕ → α)}
    (hproject : ∀ target : List α, target.length = w.factor.literals.length →
      IsProjection w.factor.literals.length (satisfying w.factor.literals.length form.holds) K
        target (form.project target)) :
    IsProjection w.factor.literals.length w.factor.feasiblePoints
      {x | Complement.map w.factor.marks x ∈ K} (w.target consensus logPotentials degrees stepSize)
      (w.project consensus logPotentials degrees stepSize limit).posteriors := by
  have htarget : (w.target consensus logPotentials degrees stepSize).length =
      w.factor.literals.length := by simp [target, hlen]
  let point := Complement.point w.factor.marks
    (w.target consensus logPotentials degrees stepSize)
  have hpoint : point.length = w.factor.literals.length := by simp [point, htarget]
  have hprojection := hproject point hpoint
  have hposteriors : (w.project consensus logPotentials degrees stepSize limit).posteriors =
      Complement.point w.factor.marks (form.project point) := by
    simp only [project, hform, LocalProblem.project]
    rw [resized_of_length (hprojection.length_eq.trans hpoint.symm)]
  rw [hposteriors, Factor.feasiblePoints_eq hform]
  exact hprojection.complement w.factor.length_marks htarget

theorem isProjection_logic {op : LogicOperator} (h : w.factor.IsLogic op)
    (hlen : w.multipliers.length = w.factor.literals.length) :
    IsProjection w.factor.literals.length w.factor.feasiblePoints
      {x | Complement.map (op.flips w.factor.literals.length) (Complement.map w.factor.marks x) ∈
        op.condition.slackHull w.factor.literals.length (tenthPower 12)}
      (w.target consensus logPotentials degrees stepSize)
      (w.project consensus logPotentials degrees stepSize limit).posteriors := by
  refine isProjection_posteriors _ _ _ _ _ (Factor.localProblem_of_logic h.1) hlen
    (K := {x | Complement.map (op.flips w.factor.literals.length) x ∈
      op.condition.slackHull w.factor.literals.length (tenthPower 12)}) ?_
  intro target htarget
  have hproject := (LogicConstraint.ofOperator op w.factor.literals.length).isProjection_project
    target (by simp [LogicConstraint.ofOperator, htarget])
    (htarget.symm ▸ op.leastArity_condition_le.trans h.2)
  rw [htarget] at hproject
  exact hproject

theorem isProjection_budget {b : BudgetConstraint} (h : w.factor.kind = .budget b)
    (hlen : w.multipliers.length = w.factor.literals.length) :
    IsProjection w.factor.literals.length w.factor.feasiblePoints
      (convexHull α w.factor.feasiblePoints)
      (w.target consensus logPotentials degrees stepSize)
      (w.project consensus logPotentials degrees stepSize limit).posteriors := by
  have hform := Factor.localProblem_of_budget h
  rw [Factor.feasiblePoints_eq hform, convexHull_complement, ← Factor.feasiblePoints_eq hform]
  refine isProjection_posteriors _ _ _ _ _ hform hlen ?_
  intro target htarget
  have hproject := b.isProjection_project target
  rw [htarget] at hproject
  exact hproject

theorem condition_eq_lastIsDisjunction_iff {op : LogicOperator} :
    op.condition = .lastIsDisjunction ↔ op = .orOut ∨ op = .andOut := by
  cases op <;> decide

/-- The proximal step of a logic factor or a budget is the projection onto the convex hull of the
assignments that the factor has a value for. Its posteriors are in the hull, except that those of a
disjunction or a conjunction may have an output beyond its inputs by the slack, and no direction
towards an assignment approaches the target. -/
theorem posteriors_project_nearest
    (hkind : (∃ op, w.factor.IsLogic op) ∨ ∃ b, w.factor.kind = .budget b)
    (hlen : w.multipliers.length = w.factor.literals.length) :
    let n := w.factor.literals.length
    let q := (w.project consensus logPotentials degrees stepSize limit).posteriors
    let target : ℕ → α := fun j =>
      let i := w.factor.indices[j]?.getD 0
      coordinate consensus i + (coordinate logPotentials i / (degrees[i]?.getD 0 : ℕ) +
        coordinate w.multipliers j) / stepSize
    q.length = n ∧
      ((∀ op, w.factor.IsLogic op → op ≠ .orOut ∧ op ≠ .andOut) →
        coordinate q ∈ convexHull α w.factor.feasiblePoints) ∧
      (∀ op, w.factor.IsLogic op → op = .orOut ∨ op = .andOut →
        convexHull α w.factor.feasiblePoints = w.factor.disjunctionPolytope op 0 ∧
        coordinate q ∈ w.factor.disjunctionPolytope op (1 / 10 ^ 12)) ∧
      ∀ x ∈ w.factor.feasiblePoints,
        ∑ j ∈ Finset.range n, (target j - coordinate q j) * (x j - coordinate q j) ≤ 0 := by
  intro n q target
  have htarget (j : ℕ) (hj : j < n) :
      target j = coordinate (w.target consensus logPotentials degrees stepSize) j := by
    have hindex : j < w.factor.indices.length := by simpa using hj
    have hmultiplier : j < w.multipliers.length := hlen ▸ hj
    simp only [target, Worker.target, share, coordinate, List.getElem?_zipWith,
      List.getElem?_eq_getElem hindex, List.getElem?_eq_getElem hmultiplier, Option.getD_some,
      ofNat_eq_cast]
  have hnearest (h : IsNearest n w.factor.feasiblePoints
      (coordinate (w.target consensus logPotentials degrees stepSize)) (coordinate q)) :
      ∀ x ∈ w.factor.feasiblePoints,
        ∑ j ∈ Finset.range n, (target j - coordinate q j) * (x j - coordinate q j) ≤ 0 := by
    intro x hx
    refine (Finset.sum_congr rfl fun j hj => ?_).trans_le (h x hx)
    rw [htarget j (Finset.mem_range.mp hj)]
  rcases hkind with ⟨op, hop⟩ | ⟨b, hb⟩
  · have hlogic := isProjection_logic consensus logPotentials degrees stepSize limit hop hlen
    refine ⟨hlogic.length_eq, fun hnot => ?_, fun op' hop' hdisjunction => ?_,
      hnearest hlogic.nearest⟩
    · have hcondition : op.condition ≠ .lastIsDisjunction := by
        rw [ne_eq, condition_eq_lastIsDisjunction_iff, not_or]
        exact hnot op hop
      have hmem := hlogic.mem
      rw [TruthCondition.slackHull_eq hcondition _ _ 0, ← Factor.convexHull_feasiblePoints hop]
        at hmem
      exact hmem
    · have hlogic' := isProjection_logic consensus logPotentials degrees stepSize limit hop' hlen
      have hcondition := condition_eq_lastIsDisjunction_iff.mpr hdisjunction
      have hhull := Factor.convexHull_feasiblePoints hop'
      have hmem := hlogic'.mem
      rw [hcondition] at hhull hmem
      rw [tenthPower_eq] at hmem
      exact ⟨hhull, hmem⟩
  · have hbudget := isProjection_budget consensus logPotentials degrees stepSize limit hb hlen
    refine ⟨hbudget.length_eq, fun _ => hbudget.mem, fun op hop => ?_, hnearest hbudget.nearest⟩
    exact absurd (hop.1.symm.trans hb) (by simp)

def disjunctionWorker : Worker ℚ :=
  start ⟨[⟨⟨0⟩, false⟩, ⟨⟨1⟩, true⟩, ⟨⟨2⟩, false⟩], [], .logic (.ofOperator .orOut 3)⟩

/-- A target whose output exceeds the sum of the inputs: the projection lies on the face. -/
theorem posteriors_project_nearest_disjunctionWorker :
    let q := (disjunctionWorker.project [1 / 2, 1 / 2, 1 / 2] [-2, 3, 4] [1, 1, 1] 10 10).posteriors
    q = [13 / 30, 2 / 3, 23 / 30] ∧
      coordinate q ∈ disjunctionWorker.factor.disjunctionPolytope .orOut (1 / 10 ^ 12) := by
  intro q
  have hlogic : disjunctionWorker.factor.IsLogic .orOut := ⟨rfl, by decide⟩
  obtain ⟨_, _, hdisjunction, _⟩ := posteriors_project_nearest [1 / 2, 1 / 2, 1 / 2] [-2, 3, 4]
    [1, 1, 1] 10 10 (.inl ⟨_, hlogic⟩) rfl
  exact ⟨by decide +kernel, (hdisjunction _ hlogic (.inl rfl)).2⟩

end Worker
end MapInference
