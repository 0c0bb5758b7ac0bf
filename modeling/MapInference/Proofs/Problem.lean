import MapInference.Proofs.Factor
import MapInference.Problem

/-!
# Values of assignments

The value of an assignment is the gain for the log-potentials and what the factors add to it. It
exists when every factor has a value for the assignment.
-/

namespace MapInference

open Scalar
variable {α : Type} [ExactScalar α]

theorem gain_eq_sum (scores : List α) (values : List Bool) :
    gain scores values =
      ∑ i ∈ Finset.range scores.length,
        if values[i]?.getD false then coordinate scores i else 0 := by
  induction scores generalizing values with
  | nil => rfl
  | cons s scores ih =>
    rw [List.length_cons, Finset.sum_range_succ']
    cases values with
    | nil => simp [gain]
    | cons value values =>
      rw [gain_cons, ih values, add_comm]
      rfl

namespace Problem

variable {p : Problem α} {values : List Bool}

theorem unaryValue_eq_gain (p : Problem α) (values : List Bool) :
    p.unaryValue values = gain p.logPotentials values := by
  rw [← sum_selected, unaryValue, total_eq_sum, selected]

theorem foldlM_addFactor_cons {f : Factor α} {factors : List (Factor α)} {sum v : α} :
    (f :: factors).foldlM (addFactor values) sum = some v ↔
      ∃ u, f.evaluate (f.restrict values) = some u ∧
        factors.foldlM (addFactor values) (sum + u.1) = some v := by
  simp [List.foldlM_cons, addFactor, Option.bind_eq_some_iff]

theorem exists_evaluate_of_value? {v : α} (h : p.value? values = some v) :
    ∀ f ∈ p.factors, ∃ u, f.evaluate (f.restrict values) = some u := by
  have hfold (factors : List (Factor α)) (sum : α)
      (h : factors.foldlM (addFactor values) sum = some v) :
      ∀ f ∈ factors, ∃ u, f.evaluate (f.restrict values) = some u := by
    induction factors generalizing sum with
    | nil => simp
    | cons f factors ih =>
      obtain ⟨u, hu, hrest⟩ := foldlM_addFactor_cons.mp h
      intro g hg
      rcases List.mem_cons.mp hg with rfl | hg
      · exact ⟨u, hu⟩
      · exact ih _ hrest g hg
  exact hfold p.factors _ h

/-- The value of an assignment adds up the log-potentials of its true variables and what the factors
add to them. -/
theorem value?_eq_add_sum {score : Factor α → α} (hscore : ∀ f ∈ p.factors, ∀ u,
      f.evaluate (f.restrict values) = some u → u.1 = score f) {v : α}
    (h : p.value? values = some v) :
    v = gain p.logPotentials values + (p.factors.map score).sum := by
  have hfold (factors : List (Factor α)) (hscore : ∀ f ∈ factors, ∀ u,
        f.evaluate (f.restrict values) = some u → u.1 = score f) (sum : α)
      (h : factors.foldlM (addFactor values) sum = some v) :
      v = sum + (factors.map score).sum := by
    induction factors generalizing sum with
    | nil => simpa using (Option.some.inj h).symm
    | cons f factors ih =>
      obtain ⟨u, hu, hrest⟩ := foldlM_addFactor_cons.mp h
      rw [ih (fun g hg => hscore g (List.mem_cons_of_mem _ hg)) _ hrest,
        hscore f List.mem_cons_self u hu, List.map_cons, List.sum_cons, add_assoc]
  rw [← unaryValue_eq_gain]
  exact hfold p.factors hscore _ h

theorem admits_of_value? {n : ℕ} (hwf : ∀ f ∈ p.factors, f.WellFormed n)
    {fixed : List (Option Bool)} (hagree : Agrees fixed values) {v : α}
    (h : p.value? values = some v) : p.factors.all fun f => f.admits fixed := by
  rw [List.all_eq_true]
  intro f hf
  obtain ⟨u, hu⟩ := exists_evaluate_of_value? h f hf
  exact Factor.admits_of_agrees (hwf f hf).fits hagree hu

end Problem
end MapInference
