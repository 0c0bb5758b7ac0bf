import MapInference.Proofs.Factor

/-!
# The meaning of logic operators

What each logic operator says about the values of its literals, of which the last one is the output
where there is one. An operator negates some of the values and then applies one of four conditions.
The values that it allows are those whose negations meet the condition, at every arity for which it
can be declared, and its largest score is the greatest gain of these.
-/

namespace MapInference

open Scalar

theorem Complement.assignment_replicate (mark : Bool) (values : List Bool) :
    assignment (List.replicate values.length mark) values = values.map (· != mark) := by
  induction values with
  | nil => rfl
  | cons value values ih => simpa [assignment, List.replicate_succ] using ih

theorem Complement.assignment_append_singleton (mark lastMark : Bool) (inputs : List Bool)
    (output : Bool) :
    assignment (List.replicate inputs.length mark ++ [lastMark]) (inputs ++ [output]) =
      inputs.map (· != mark) ++ [output != lastMark] := by
  rw [assignment, List.zipWith_append List.length_replicate, ← assignment, assignment_replicate]
  rfl

namespace LogicOperator

def negatesInputs : LogicOperator → Bool
  | andOut | imply => true
  | xor | xorOut | atMostOne | or | orOut => false

def negatesOutput : LogicOperator → Bool
  | xorOut | andOut => true
  | xor | atMostOne | or | orOut | imply => false

theorem flips_succ (op : LogicOperator) (n : ℕ) :
    op.flips (n + 1) = List.replicate n op.negatesInputs ++ [op.negatesOutput] := by
  have hlast : ((List.range n).map fun i => i == n) = List.replicate n false :=
    List.eq_replicate_iff.mpr ⟨by simp, by simp; omega⟩
  have hinputs : ((List.range n).map fun i => i != n) = List.replicate n true :=
    List.eq_replicate_iff.mpr ⟨by simp, by simp; omega⟩
  cases op <;> simp [flips, negatesInputs, negatesOutput, List.replicate_succ', List.range_succ,
    hlast, hinputs]

def HasOutput (relates : List Bool → Bool → Prop) (values : List Bool) : Prop :=
  ∃ inputs output, values = inputs ++ [output] ∧ relates inputs output

theorem hasOutput_append_singleton {relates : List Bool → Bool → Prop} {inputs : List Bool}
    {output : Bool} : HasOutput relates (inputs ++ [output]) ↔ relates inputs output := by
  constructor
  · rintro ⟨inputs', output', heq, hrelates⟩
    obtain ⟨rfl, hlast⟩ := List.append_inj' heq rfl
    rwa [List.singleton_inj.mp hlast]
  · exact fun h => ⟨inputs, output, rfl, h⟩

/-- What an operator says about the values of its literals. -/
def Holds : LogicOperator → List Bool → Prop
  | xor => fun values => values.count true = 1
  | atMostOne => fun values => values.count true ≤ 1
  | or => fun values => true ∈ values
  | xorOut => HasOutput fun inputs output => inputs.count true = output.toNat
  | orOut => HasOutput fun inputs output => output = true ↔ true ∈ inputs
  | andOut => HasOutput fun inputs output => output = true ↔ ∀ input ∈ inputs, input = true
  | imply => HasOutput fun inputs output => (∀ input ∈ inputs, input = true) → output = true

/-- The values that an operator allows are those whose negations meet its condition. -/
theorem holds_ofOperator_iff {op : LogicOperator} {values : List Bool}
    (h : op.minimumArity ≤ values.length) :
    (LogicConstraint.ofOperator op values.length).holds values ↔ op.Holds values := by
  obtain rfl | ⟨inputs, output, rfl⟩ := List.eq_nil_or_concat' values
  · cases op <;> exact absurd h (by decide)
  have hnegated : Complement.assignment (op.flips (inputs ++ [output]).length)
      (inputs ++ [output]) =
        inputs.map (· != op.negatesInputs) ++ [output != op.negatesOutput] := by
    rw [List.length_append, List.length_singleton, flips_succ,
      Complement.assignment_append_singleton]
  rw [LogicConstraint.holds, LogicConstraint.ofOperator, hnegated]
  cases op with
  | xor => simp [negatesInputs, negatesOutput, condition, TruthCondition.holds, Holds]
  | atMostOne => simp [negatesInputs, negatesOutput, condition, TruthCondition.holds, Holds]
  | or =>
    simp [negatesInputs, negatesOutput, condition, TruthCondition.holds, Holds,
      List.one_le_count_iff, -List.count_append]
  -- The negated output is the one true value when there is no true input.
  | xorOut =>
    rw [Holds, hasOutput_append_singleton]
    cases output <;> simp [negatesInputs, negatesOutput, condition, TruthCondition.holds]
  | orOut =>
    rw [Holds, hasOutput_append_singleton]
    cases output <;> simp [negatesInputs, negatesOutput, condition, TruthCondition.holds]
  -- A conjunction is the negation of the disjunction of the negations.
  | andOut =>
    rw [Holds, hasOutput_append_singleton]
    cases output <;> simp [negatesInputs, negatesOutput, condition, TruthCondition.holds]
  -- An implication holds when some input is false or the output is true.
  | imply =>
    rw [Holds, hasOutput_append_singleton]
    simp [negatesInputs, negatesOutput, condition, TruthCondition.holds, List.one_le_count_iff,
      -List.count_append, or_iff_not_imp_left]

variable {α β : Type} [ExactScalar α] [Scalar β] {op : LogicOperator} {arity : ℕ}

theorem isSome_evaluate_iff (h : op.minimumArity ≤ arity) {values : List Bool}
    (hv : values.length = arity) (additional : List β) :
    (((FactorKind.logic (.ofOperator op arity)).localProblem β).evaluate values additional).isSome ↔
      op.Holds values := by
  subst hv
  rw [← holds_ofOperator_iff h]
  simp only [FactorKind.localProblem, LocalProblem.evaluate]
  split_ifs with hh <;> simp [hh]

/-- At every arity for which an operator can be declared, it has a value exactly for the assignments
of which it holds, and its largest score is the greatest gain of these. -/
theorem operator_meaning (h : op.minimumArity ≤ arity) :
    let kind := FactorKind.logic (.ofOperator op arity)
    (∀ (values : List Bool) (additional : List β), values.length = arity →
      (((kind.localProblem β).evaluate values additional).isSome ↔ op.Holds values)) ∧
    ∀ scores additional : List α, scores.length = arity →
      IsGreatest {s | ∃ values, values.length = arity ∧ op.Holds values ∧ s = gain scores values}
        ((kind.localProblem α).best scores additional) := by
  intro kind
  refine ⟨fun values additional hv => isSome_evaluate_iff h hv additional, ?_⟩
  intro scores additional hs
  have hfits : kind.Fits arity 0 := ⟨op, rfl, h, rfl⟩
  have hset : {s : α | ∃ values, values.length = arity ∧ op.Holds values ∧
      s = gain scores values} = {s | ∃ values, values.length = arity ∧
        ((kind.localProblem α).evaluate values additional).isSome ∧ s = gain scores values} := by
    ext s
    refine exists_congr fun values => and_congr_right fun hv => and_congr_left' ?_
    exact (isSome_evaluate_iff h hv additional).symm
  rw [hset]
  exact kind.isGreatest_best_zeros hfits hs additional

theorem operator_meaning_implication :
    imply.minimumArity ≤ 3 ∧
      (((FactorKind.logic (.ofOperator imply 3)).localProblem ℚ).evaluate [true, true, false] []
        = none) ∧
      ¬ imply.Holds [true, true, false] ∧
      ((FactorKind.logic (.ofOperator imply 3)).localProblem ℚ).best [3, 2, -4] [] = 3 ∧
      IsGreatest {s : ℚ | ∃ values, values.length = 3 ∧ imply.Holds values ∧
        s = gain [3, 2, -4] values} 3 := by
  have hnone : ((FactorKind.logic (.ofOperator imply 3)).localProblem ℚ).evaluate
      [true, true, false] [] = none := by
    decide +kernel
  have hbest :
      ((FactorKind.logic (.ofOperator imply 3)).localProblem ℚ).best [3, 2, -4] [] = 3 := by
    decide +kernel
  obtain ⟨hevaluate, hgreatest⟩ :=
    operator_meaning (α := ℚ) (β := ℚ) (show imply.minimumArity ≤ 3 by decide)
  have hmax := hgreatest [3, 2, -4] [] rfl
  rw [hbest] at hmax
  refine ⟨by decide, hnone, ?_, hbest, hmax⟩
  exact (hevaluate [true, true, false] [] rfl).not.mp (by simp [hnone])

end LogicOperator
end MapInference
