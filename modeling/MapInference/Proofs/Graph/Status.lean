import MapInference.Proofs.Graph.Answers

/-!
# The status of exact solves

An exact solve that has an answer finds out whether any assignment satisfies all factors, unless its
monitor stops it.
-/

namespace MapInference

open Scalar
variable {α : Type} [ExactScalar α]

/-- An assignment that all factors have a value for. -/
def Problem.IsFeasible (p : Problem α) (values : List Bool) : Prop :=
  values.length = p.numVariables ∧ ∀ f ∈ p.factors, (f.evaluate (f.restrict values)).isSome

theorem Problem.isFeasible_iff {p : Problem α} {values : List Bool} :
    p.IsFeasible values ↔ values.length = p.numVariables ∧ ∃ v, p.value? values = some v := by
  refine and_congr Iff.rfl ⟨?_, ?_⟩
  · intro h
    have hfold (factors : List (Factor α))
        (h : ∀ f ∈ factors, (f.evaluate (f.restrict values)).isSome) (sum : α) :
        ∃ v, factors.foldlM (addFactor values) sum = some v := by
      induction factors generalizing sum with
      | nil => exact ⟨sum, rfl⟩
      | cons f factors ih =>
        obtain ⟨u, hu⟩ := Option.isSome_iff_exists.mp (h f List.mem_cons_self)
        obtain ⟨v, hv⟩ := ih (fun f hf => h f (List.mem_cons_of_mem _ hf)) (sum + u.1)
        exact ⟨v, foldlM_addFactor_cons.mpr ⟨u, hu, hv⟩⟩
    exact hfold p.factors h _
  · rintro ⟨v, hv⟩ f hf
    exact Option.isSome_iff_exists.mpr (exists_evaluate_of_value? hv f hf)

namespace FactorGraph

variable {σ : Type} {g : FactorGraph α}

theorem status_searched (s : Solving α) (o : Search.Outcome α) :
    (s.searched o).solution.status =
      if o.incumbent.isSome then .integral else if o.exhausted then .infeasible else .unsolved := by
  unfold Solving.searched
  dsimp only
  cases o.incumbent with
  | some a => rfl
  | none =>
    simp only [Option.isSome_none, Bool.false_eq_true, ↓reduceIte]
    split_ifs <;> rfl

end FactorGraph
end MapInference
