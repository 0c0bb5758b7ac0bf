import MapInference.Proofs.Graph.Calls
import MapInference.Proofs.Oracle.Feasible
import MapInference.Proofs.Word

/-!
# Declared knapsacks

The costs and the budget of a knapsack are declared as scalars and stored as machine words: an
integer beyond the words becomes the largest one. The costs of the true literals are then added up
as words, and an assignment has no result when their sum is none. So a knapsack constrains what was
declared as long as the numbers stay below the limit, and what happens beyond it is said here for
every declaration.
-/

namespace MapInference

open Scalar

namespace Knapsack

/-- The costs of the items with a true value, and zero for the others. -/
def selectedCosts (costs : List ℕ) (values : List Bool) : List ℕ :=
  List.zipWith (fun cost value => if value then cost else 0) costs values

theorem sum_selectedCosts (costs : List ℕ) (values : List Bool) :
    (selectedCosts costs values).sum = selectedCost costs values := rfl

theorem selectedCosts_map_saturate (costs : List ℕ) (values : List Bool) :
    selectedCosts (costs.map Word.saturate) values =
      (selectedCosts costs values).map Word.saturate := by
  rw [selectedCosts, selectedCosts, List.zipWith_map_left, List.map_zipWith]
  congr
  funext cost value
  cases value <;> simp [Word.saturate_zero]

end Knapsack

variable {α : Type} [Scalar α]

namespace FactorSpec

theorem exists_of_natural_eq_ok {parameter : Parameter} {x : α} {n : ℕ}
    (h : natural parameter x = .ok n) : ∃ m : ℕ, toInt? x = some (m : ℤ) ∧ n = Word.saturate m := by
  unfold natural natural? at h
  split at h
  · next _ hx =>
    split at hx
    · next m hm => exact ⟨m, hm, (Option.some.inj (hx.trans (congrArg some (Except.ok.inj h)))).symm⟩
    · cases hx
  · cases h

theorem exists_of_mapM_natural {parameter : Parameter} {xs : List α} {ns : List ℕ}
    (h : xs.mapM (natural parameter) = .ok ns) :
    ∃ ms : List ℕ, xs.map toInt? = ms.map (fun m : ℕ => some (m : ℤ)) ∧ ns = ms.map Word.saturate := by
  induction xs generalizing ns with
  | nil => exact ⟨[], rfl, (Except.ok.inj h).symm⟩
  | cons x xs ih =>
    rw [List.mapM_cons, Except.bind_eq_ok_iff] at h
    obtain ⟨n, hn, h⟩ := h
    obtain ⟨rest, hrest, h⟩ := Except.bind_eq_ok_iff.mp h
    obtain ⟨m, hm, rfl⟩ := exists_of_natural_eq_ok hn
    obtain ⟨ms, hms, rfl⟩ := ih hrest
    refine ⟨m :: ms, ?_, (Except.ok.inj h).symm⟩
    rw [List.map_cons, List.map_cons, hm, hms]

theorem exists_of_capacity_eq_ok {total : α} {n : ℕ} (h : capacity total = .ok n) :
    ∃ b : ℤ, toInt? total = some b ∧ n = Word.saturate b.toNat := by
  unfold capacity isNegativeInteger at h
  split at h
  · next hnegative =>
    exact ⟨_, hnegative, (Except.ok.inj h).symm.trans Word.saturate_zero.symm⟩
  · obtain ⟨m, hm, hn⟩ := exists_of_natural_eq_ok h
    exact ⟨m, hm, by rw [hn, Int.toNat_natCast]⟩

theorem exists_of_toFactor_knapsack {literals : List Literal} {costs : List α} {total : α}
    {f : Factor α} (h : (knapsack literals costs total).toFactor = .ok f) :
    ∃ (given : List ℕ) (b : ℤ), costs.map toInt? = given.map (fun n : ℕ => some (n : ℤ)) ∧
      toInt? total = some b ∧
      f = ⟨literals, [], .knapsack (given.map Word.saturate) (Word.saturate b.toNat)⟩ := by
  obtain ⟨stored, hstored, h⟩ := Except.bind_eq_ok_iff.mp h
  obtain ⟨n, hn, h⟩ := Except.bind_eq_ok_iff.mp h
  obtain ⟨given, hgiven, rfl⟩ := exists_of_mapM_natural hstored
  obtain ⟨b, hb, rfl⟩ := exists_of_capacity_eq_ok hn
  exact ⟨given, b, hgiven, hb, (Except.ok.inj h).symm⟩

end FactorSpec

namespace Factor

variable {literals : List Literal} {costs : List ℕ} {values : List Bool}

theorem assignment_negated (literals : List Literal) (values : List Bool) :
    Complement.assignment (literals.map (·.negated)) values =
      List.zipWith Literal.holds literals values :=
  List.zipWith_map_left

theorem isSome_evaluate_knapsack (hcosts : costs.length = literals.length)
    (hvalues : values.length = literals.length) (capacity : ℕ) :
    ((⟨literals, [], .knapsack costs capacity⟩ : Factor α).evaluate values).isSome ↔
      Knapsack.selectedCost costs (List.zipWith Literal.holds literals values) ≤ capacity := by
  have hlength : (List.zipWith Literal.holds literals values).length = costs.length := by
    simp [hcosts, hvalues]
  rw [← Knapsack.isSome_ofAssignment?_iff capacity hlength, ← assignment_negated]
  exact iff_of_eq (congrArg (· = true) Option.isSome_map)

omit [Scalar α] in
theorem overflows_knapsack_iff (hcosts : costs.length = literals.length)
    (hvalues : values.length = literals.length) (capacity : ℕ) :
    (⟨literals, [], .knapsack costs capacity⟩ : Factor α).overflows values = true ↔
      Word.limit ≤ Knapsack.selectedCost costs (List.zipWith Literal.holds literals values) := by
  rw [← Knapsack.overflows_iff (by simp [hcosts, hvalues]), ← assignment_negated]
  rfl

end Factor

namespace FactorGraph

variable {g g' : FactorGraph α} {literals : List Literal} {costs : List α} {budget : α}
  {id : FactorId}

/-- What the assignments of a declared knapsack come to, for the integers that its scalars are equal
to. An assignment has no result when it takes two positive costs or more and their sum is no machine
word. Otherwise it is admitted if and only if its cost is at most the budget, unless the budget
reaches the largest word: that admits every assignment. -/
theorem evaluate_declared_knapsack
    (h : g.declare (.knapsack literals costs budget) = .ok (id, g')) :
    ∃ (given : List ℕ) (total : ℤ) (f : Factor α),
      costs.map toInt? = given.map (fun n : ℕ => some (n : ℤ)) ∧ toInt? budget = some total ∧
      g'.factors.get? id = some { factor := f } ∧ f.literals = literals ∧
      ∀ values : List Bool, values.length = literals.length →
        let selected := Knapsack.selectedCosts given (List.zipWith Literal.holds literals values)
        (f.overflows values = true ↔ Word.limit ≤ selected.sum ∧ 2 ≤ selected.countP (0 < ·)) ∧
        (f.overflows values = false →
          ((f.evaluate values).isSome ↔
            (selected.sum : ℤ) ≤ max total 0 ∨ (Word.limit : ℤ) ≤ max total 0 + 1)) := by
  obtain ⟨_, hcheck, f, hf, rfl, rfl⟩ := exists_of_declare_eq_ok h
  obtain ⟨given, total, hgiven, htotal, rfl⟩ := FactorSpec.exists_of_toFactor_knapsack hf
  have hcosts : (given.map Word.saturate).length = literals.length := by
    have hshape := (of_check hcheck).1
    rw [FactorSpec.checkShape] at hshape
    split_ifs at hshape with hlength
    rw [ne_eq, not_not] at hlength
    rw [List.length_map, ← hlength]
    simpa using (congrArg List.length hgiven).symm
  refine ⟨given, total, ⟨literals, [], .knapsack (given.map Word.saturate)
    (Word.saturate total.toNat)⟩, hgiven, htotal, ?_, rfl,
    fun values hvalues => ⟨?_, fun hfits => ?_⟩⟩
  · simp [Arena.get?, Arena.nextKey, Handle.index, Handle.ofIndex]
  · rw [Factor.overflows_knapsack_iff hcosts hvalues, ← Knapsack.sum_selectedCosts,
      Knapsack.selectedCosts_map_saturate, Word.limit_le_sum_map_saturate_iff]
  · rw [← Bool.not_eq_true, Factor.overflows_knapsack_iff hcosts hvalues, not_le,
      ← Knapsack.sum_selectedCosts, Knapsack.selectedCosts_map_saturate] at hfits
    rw [Factor.isSome_evaluate_knapsack hcosts hvalues, ← Knapsack.sum_selectedCosts,
      Knapsack.selectedCosts_map_saturate, Word.sum_map_saturate_le_iff hfits]
    omega

/-- A knapsack of two variables whose costs are two halves of the limit. -/
def halves (second : Literal) (budget : ℚ) : FactorSpec ℚ :=
  .knapsack [⟨⟨0⟩, false⟩, second] [9223372036854775808, 9223372036854775808] budget

/-- With one literal negated, equal values of the variables cost half of the limit. -/
theorem evaluate_declared_knapsack_halves :
    ∃ (id : FactorId) (g' : FactorGraph ℚ) (f : Factor ℚ),
      (run [.addBinary, .addBinary]).declare (halves ⟨⟨1⟩, true⟩ 9223372036854775808) =
        .ok (id, g') ∧ g'.factors.get? id = some { factor := f } ∧
      f.overflows [true, true] = false ∧ (f.evaluate [true, true]).isSome ∧
      f.overflows [true, false] = true := by
  obtain ⟨id, g', hdeclare⟩ : ∃ id g', (run [.addBinary, .addBinary]).declare
      (halves ⟨⟨1⟩, true⟩ 9223372036854775808) = .ok (id, g') := ⟨_, _, rfl⟩
  obtain ⟨given, total, f, hgiven, htotal, hget, _, hvalues⟩ :=
    evaluate_declared_knapsack hdeclare
  have hinjective : Function.Injective fun n : ℕ => some (n : ℤ) := fun m n h => by simpa using h
  obtain rfl : given = [9223372036854775808, 9223372036854775808] :=
    hinjective.list_map (hgiven.symm.trans (by decide +kernel))
  obtain rfl : total = 9223372036854775808 := Option.some.inj (htotal.symm.trans (by decide +kernel))
  have hfits : f.overflows [true, true] = false := by
    rw [← Bool.not_eq_true, (hvalues [true, true] rfl).1]
    decide
  refine ⟨id, g', f, hdeclare, hget, hfits, ?_, ?_⟩
  · exact ((hvalues [true, true] rfl).2 hfits).mpr (Or.inl (by decide))
  · exact (hvalues [true, false] rfl).1.mpr (by decide)

/-- Beyond the words a knapsack is not what was declared: a cost of twice the limit is within a budget
of the limit, and where two costs of half of the limit exceed a budget of ten, an assignment that
takes both has no result, nor has a solve whose rounding is that assignment. -/
theorem not_evaluate_iff_cost_le :
    (∃ (id : FactorId) (g' : FactorGraph ℚ) (f : Factor ℚ),
      (run [.addBinary]).declare
        (.knapsack [⟨⟨0⟩, false⟩] [36893488147419103232] 18446744073709551616) = .ok (id, g') ∧
      g'.factors.get? id = some { factor := f } ∧ (f.evaluate [true]).isSome ∧
      ¬ (36893488147419103232 : ℚ) ≤ max 18446744073709551616 0) ∧
    (∃ (id : FactorId) (g' : FactorGraph ℚ) (f : Factor ℚ),
      (run [.addBinary, .addBinary]).declare (halves ⟨⟨1⟩, false⟩ 10) = .ok (id, g') ∧
      g'.factors.get? id = some { factor := f } ∧ f.overflows [true, true] = true) ∧
    ((run [.addBinary, .addBinary, .setLogPotential ⟨0⟩ 1, .setLogPotential ⟨1⟩ 1,
      .declare (halves ⟨⟨1⟩, false⟩ 10), .declare (.logic .or [⟨⟨0⟩, false⟩]),
      .declare (.logic .or [⟨⟨1⟩, false⟩])] : FactorGraph ℚ).solve
        { Options.standard with maxIterations := 1 } (Condition.monitor 0)
        .indefinite).1.emptied = true := by
  refine ⟨⟨_, _, _, rfl, rfl, ?_, by norm_num⟩, ⟨_, _, _, rfl, rfl, ?_⟩, ?_⟩
  · decide +kernel
  · decide +kernel
  · decide +kernel

end FactorGraph
end MapInference
