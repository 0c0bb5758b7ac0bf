import MapInference.Proofs.Extremum
import MapInference.Proofs.Gain
import MapInference.Logic.Constraint

/-!
# Greatest gains of logic constraints and budgets

The closed forms for the largest score of a constraint are the greatest gains of the assignments
that meet it, at every arity for which the operator can be declared.
-/

namespace MapInference

open Scalar
variable {α : Type} [ExactScalar α]

namespace TruthCondition

def leastArity : TruthCondition → ℕ
  | exactlyOne | atMostOne | atLeastOne => 1
  | lastIsDisjunction => 2

theorem isBest_exactlyOne {scores : List α} (h : scores ≠ []) :
    IsBest (constrained exactlyOne.holds) scores (exactlyOne.best scores) := by
  obtain ⟨s, hs, hlargest, hmax⟩ := Extremum.exists_largest? h
  have hb : exactlyOne.best scores = s := by simp [best, hlargest]
  rw [hb]
  apply isBest_constrained
  · intro values hl hh
    exact hmax _ (gain_mem_of_count_eq_one hl (by simpa [holds] using hh))
  · obtain ⟨values, hl, hc, hg⟩ := exists_gain_eq_of_mem hs
    exact ⟨values, hl, by simp [holds, hc], hg⟩

theorem isBest_atMostOne {scores : List α} (h : scores ≠ []) :
    IsBest (constrained atMostOne.holds) scores (atMostOne.best scores) := by
  obtain ⟨s, hs, hlargest, hmax⟩ := Extremum.exists_largest? h
  have hb : atMostOne.best scores = max s 0 := by simp [best, hlargest]
  rw [hb]
  apply isBest_constrained
  · intro values hl hh
    have hc : values.count true ≤ 1 := by simpa [holds] using hh
    rcases Nat.le_one_iff_eq_zero_or_eq_one.mp hc with hc | hc
    · rw [gain_eq_zero_of_count hc]
      exact le_max_right _ _
    · exact (hmax _ (gain_mem_of_count_eq_one hl hc)).trans (le_max_left _ _)
  · rcases le_total s 0 with hs0 | hs0
    · refine ⟨List.replicate scores.length false, by simp, ?_, ?_⟩
      · simp [holds, List.count_replicate]
      · rw [gain_replicate_false, max_eq_right hs0]
    · obtain ⟨values, hl, hc, hg⟩ := exists_gain_eq_of_mem hs
      exact ⟨values, hl, by simp [holds, hc], by rw [hg, max_eq_left hs0]⟩

theorem exists_bestNonEmpty? {scores : List α} (h : scores ≠ []) :
    ∃ b, bestNonEmpty? scores = some b ∧
      (∀ values, values.length = scores.length → 1 ≤ values.count true →
        gain scores values ≤ b) ∧
      ∃ values, values.length = scores.length ∧ 1 ≤ values.count true ∧
        gain scores values = b := by
  by_cases hpos : scores.any fun s => decide (0 < s)
  · refine ⟨total (scores.filter fun s => decide (0 < s)), by simp [bestNonEmpty?, hpos], ?_, ?_⟩
    · intro values _ _
      simpa using gain_le_sum_pos scores values
    · refine ⟨scores.map fun s => decide (0 < s), by simp, ?_, by simp [gain_map_pos]⟩
      obtain ⟨s, hs, hs0⟩ := List.any_eq_true.mp hpos
      exact List.one_le_count_iff.mpr (List.mem_map.mpr ⟨s, hs, hs0⟩)
  · obtain ⟨s, hs, hlargest, hmax⟩ := Extremum.exists_largest? h
    have hneg : ∀ t ∈ scores, t ≤ 0 := by simpa using hpos
    refine ⟨s, by simp only [bestNonEmpty?, if_neg hpos, hlargest], ?_, ?_⟩
    · intro values hl hc
      obtain ⟨t, ht, hg⟩ := exists_mem_gain_le hl hneg hc
      exact hg.trans (hmax t ht)
    · obtain ⟨values, hl, hc, hg⟩ := exists_gain_eq_of_mem hs
      exact ⟨values, hl, hc.ge, hg⟩

theorem isBest_atLeastOne {scores : List α} (h : scores ≠ []) :
    IsBest (constrained atLeastOne.holds) scores (atLeastOne.best scores) := by
  obtain ⟨b, hb, hle, values, hl, hc, hg⟩ := exists_bestNonEmpty? h
  have hbest : atLeastOne.best scores = b := by simp [best, hb]
  rw [hbest]
  apply isBest_constrained
  · intro values hl hh
    exact hle values hl (by simpa [holds] using hh)
  · exact ⟨values, hl, by simpa [holds] using hc, hg⟩

theorem holds_lastIsDisjunction_append (inputs : List Bool) (output : Bool) :
    lastIsDisjunction.holds (inputs ++ [output]) = (output == inputs.any id) := by
  simp [holds]

theorem any_id_eq_true_iff {values : List Bool} :
    values.any id = true ↔ 1 ≤ values.count true := by
  simp [List.any_eq_true, List.one_le_count_iff]

theorem isBest_lastIsDisjunction {inputs : List α} (h : inputs ≠ []) (output : α) :
    IsBest (constrained lastIsDisjunction.holds) (inputs ++ [output])
      (lastIsDisjunction.best (inputs ++ [output])) := by
  obtain ⟨b, hb, hle, selected, hl, hc, hg⟩ := exists_bestNonEmpty? h
  have hbest : lastIsDisjunction.best (inputs ++ [output]) = max (output + b) 0 := by
    simp [best, hb]
  have hlen (values : List Bool) (hv : values.length = inputs.length) (value : Bool) :
      gain (inputs ++ [output]) (values ++ [value]) =
        gain inputs values + if value then output else 0 := by
    rw [gain_append _ _ _ _ hv.symm]
    simp
  rw [hbest]
  apply isBest_constrained
  · intro values hvl hh
    obtain ⟨front, last, rfl⟩ : ∃ front last, values = front ++ [last] := by
      refine ⟨values.dropLast, values.getLast ?_, (List.dropLast_append_getLast _).symm⟩
      rintro rfl
      simp at hvl
    have hfl : front.length = inputs.length := by simpa using hvl
    rw [holds_lastIsDisjunction_append, beq_iff_eq] at hh
    rw [hlen front hfl]
    cases last with
    | true =>
      have hf := hle front hfl (any_id_eq_true_iff.mp hh.symm)
      rw [if_pos rfl]
      exact le_max_of_le_left (by linarith)
    | false =>
      have hf : front.count true = 0 := by
        by_contra hne
        have ht := any_id_eq_true_iff.mpr (Nat.one_le_iff_ne_zero.mpr hne)
        rw [ht] at hh
        exact Bool.noConfusion hh
      simp [gain_eq_zero_of_count hf]
  · rcases le_total (output + b) 0 with hneg | hpos
    · refine ⟨List.replicate inputs.length false ++ [false], by simp, ?_, ?_⟩
      · simp [holds_lastIsDisjunction_append]
      · rw [hlen _ (by simp), max_eq_right hneg]
        simp [gain_replicate_false]
    · refine ⟨selected ++ [true], by simp [hl], ?_, ?_⟩
      · rw [holds_lastIsDisjunction_append, any_id_eq_true_iff.mpr hc]
        rfl
      · rw [hlen _ hl, max_eq_left hpos, hg, if_pos rfl, add_comm]

theorem isBest (c : TruthCondition) {scores : List α} (h : c.leastArity ≤ scores.length) :
    IsBest (constrained c.holds) scores (c.best scores) := by
  have hne : scores ≠ [] := by
    rintro rfl
    cases c <;> simp [leastArity] at h
  cases c with
  | exactlyOne => exact isBest_exactlyOne hne
  | atMostOne => exact isBest_atMostOne hne
  | atLeastOne => exact isBest_atLeastOne hne
  | lastIsDisjunction =>
    rw [← List.dropLast_append_getLast hne]
    apply isBest_lastIsDisjunction
    intro hd
    have hl := congrArg List.length hd
    simp only [List.length_dropLast, List.length_nil, leastArity] at hl h
    omega

end TruthCondition

theorem LogicOperator.leastArity_condition_le (op : LogicOperator) :
    op.condition.leastArity ≤ op.minimumArity := by
  cases op <;> decide

namespace LogicConstraint

theorem isBest (c : LogicConstraint) {scores : List α} (hf : c.flipped.length = scores.length)
    (h : c.condition.leastArity ≤ scores.length) :
    IsBest (constrained c.holds) scores (c.best scores) := by
  have hs : (Complement.scores c.flipped scores).length = scores.length := by simp [hf]
  exact Complement.isBest hf (c.condition.isBest (by rwa [hs]))

end LogicConstraint

namespace InsertionSort

variable {β γ : Type} [LinearOrder γ] {less : β → β → Bool} {key : β → γ}

theorem pairwise_insert (hless : ∀ b c, less b c = true ↔ key b < key c) {b : β} {bs : List β}
    (h : bs.Pairwise fun b c => key c ≤ key b) :
    (insert less b bs).Pairwise fun b c => key c ≤ key b := by
  induction bs with
  | nil => simp [insert]
  | cons c bs ih =>
    obtain ⟨hc, hbs⟩ := List.pairwise_cons.mp h
    by_cases hlt : key b < key c
    · rw [insert, if_pos ((hless b c).mpr hlt)]
      refine List.pairwise_cons.mpr ⟨?_, ih hbs⟩
      intro d hd
      rcases List.mem_cons.mp ((insert_perm _ _ _).mem_iff.mp hd) with rfl | hd
      · exact hlt.le
      · exact hc d hd
    · rw [insert, if_neg (mt (hless b c).mp hlt)]
      refine List.pairwise_cons.mpr ⟨?_, h⟩
      intro d hd
      rcases List.mem_cons.mp hd with rfl | hd
      · exact not_lt.mp hlt
      · exact (hc d hd).trans (not_lt.mp hlt)

theorem pairwise_foldl_insert (hless : ∀ b c, less b c = true ↔ key b < key c)
    {bs sorted : List β} (h : sorted.Pairwise fun b c => key c ≤ key b) :
    (bs.foldl (fun sorted b => insert less b sorted) sorted).Pairwise
      fun b c => key c ≤ key b := by
  induction bs generalizing sorted with
  | nil => exact h
  | cons b bs ih => exact ih (pairwise_insert hless h)

theorem pairwise_sort (key : β → γ) (hless : ∀ b c, less b c = true ↔ key b < key c)
    (bs : List β) :
    (sort less bs).Pairwise fun b c => key b ≤ key c :=
  List.pairwise_reverse.mpr (pairwise_foldl_insert hless List.Pairwise.nil)

end InsertionSort

namespace Projection

theorem descending_perm (xs : List α) : (descending xs).Perm xs := InsertionSort.sort_perm _ xs

theorem pairwise_descending (xs : List α) : (descending xs).Pairwise (· ≥ ·) :=
  InsertionSort.pairwise_sort OrderDual.toDual (fun x y => by simp) xs

end Projection

/-- Among the parts of a descending list with at most `k` elements, none of which is negative, the
first `k` have the largest sum. -/
theorem sum_le_sum_take {xs ys : List α} (h : ys.Sublist xs) (hd : xs.Pairwise (· ≥ ·))
    (hpos : ∀ x ∈ xs, 0 ≤ x) {k : ℕ} (hk : ys.length ≤ k) : ys.sum ≤ (xs.take k).sum := by
  induction ys generalizing xs k with
  | nil => exact List.sum_nonneg (fun x hx => hpos x (List.mem_of_mem_take hx))
  | cons y ys ih =>
    cases xs with
    | nil => exact absurd h (by simp)
    | cons x xs =>
      cases k with
      | zero => simp at hk
      | succ k =>
        obtain ⟨hx, hxs⟩ := List.pairwise_cons.mp hd
        have hyx : y ≤ x := by
          rcases List.mem_cons.mp (h.subset List.mem_cons_self) with rfl | hy
          · exact le_rfl
          · exact hx y hy
        have hrest : ys.sum ≤ (xs.take k).sum :=
          ih h.tail hxs (fun z hz => hpos z (List.mem_cons_of_mem _ hz)) (by simpa using hk)
        rw [List.take_succ_cons, List.sum_cons, List.sum_cons]
        exact add_le_add hyx hrest

theorem sum_le_sum_filter_pos (xs : List α) :
    xs.sum ≤ (xs.filter fun s => decide (0 < s)).sum := by
  induction xs with
  | nil => simp
  | cons x xs ih =>
    by_cases h : 0 < x
    · simpa [h] using ih
    · simp only [h, decide_false, Bool.false_eq_true, not_false_iff, List.filter_cons_of_neg,
        List.sum_cons]
      linarith [not_lt.mp h]

namespace BudgetConstraint

theorem isBest (b : BudgetConstraint) (scores : List α) :
    IsBest (constrained b.holds) scores (b.best scores) := by
  let positive := scores.filter fun s => decide (0 < s)
  let sorted := Projection.descending positive
  have hperm : sorted.Perm positive := Projection.descending_perm positive
  have hsorted : sorted.Pairwise (· ≥ ·) := Projection.pairwise_descending positive
  have hpos : ∀ x ∈ sorted, 0 ≤ x := by
    intro x hx
    exact (of_decide_eq_true (List.mem_filter.mp (hperm.mem_iff.mp hx)).2).le
  have hbest : b.best scores = (sorted.take b.limit).sum := total_eq_sum _
  rw [hbest]
  apply isBest_constrained
  · intro values hl hh
    have hc : values.count true ≤ b.limit := by simpa [holds] using hh
    let part := (selected scores values).filter fun s => decide (0 < s)
    have hpart : part.Sublist positive := (selected_sublist scores values).filter _
    obtain ⟨part', hp, hs⟩ := hperm.symm.subperm_left.mp hpart.subperm
    have hlen : part'.length ≤ b.limit := by
      rw [hp.length_eq]
      refine (List.length_filter_le _ _).trans ?_
      rwa [length_selected hl]
    calc gain scores values = (selected scores values).sum := (sum_selected _ _).symm
      _ ≤ part.sum := sum_le_sum_filter_pos _
      _ = part'.sum := hp.sum_eq.symm
      _ ≤ (sorted.take b.limit).sum := sum_le_sum_take hs hsorted hpos hlen
  · have htake : (sorted.take b.limit).Subperm positive :=
      hperm.subperm_left.mp (List.take_sublist _ _).subperm
    obtain ⟨part, hp, hs⟩ := htake
    obtain ⟨values, hl, hv⟩ := exists_selected_eq (hs.trans List.filter_sublist)
    refine ⟨values, hl, ?_, ?_⟩
    · have hc : values.count true = part.length := by rw [← length_selected hl, hv]
      simp only [holds, decide_eq_true_eq, hc, hp.length_eq]
      exact List.length_take_le _ _
    · rw [← sum_selected, hv, hp.sum_eq]

end BudgetConstraint
end MapInference
