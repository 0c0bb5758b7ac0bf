import MapInference.Proofs.Exact
import MapInference.Graph.Solve

/-!
# The factors of the workers

A relaxation projects and prices its workers and a search solves relaxations, but neither changes a
factor. A solve therefore leaves the factors of the sealed graph behind, each with some active set.
-/

namespace MapInference

variable {α : Type} [Scalar α]

namespace Relaxation

variable {r : Restriction α} {options : Options α}

theorem State.factors_advance (s : State α) :
    (s.advance r options).1.workers.map (·.factor) = s.workers.map (·.factor) := by
  obtain ⟨_, _, h⟩ := exists_advance_eq s r options
  rw [h]
  simp [record, Restriction.round]

/-- What holds at the start and is kept by every round holds when the rounds are over. -/
theorem State.run_induction {P : State α → Prop}
    (hadvance : ∀ s, P s → P (s.advance r options).1) {s : State α} (h : P s) (limit : ℕ) :
    P (s.run r options limit).1 := by
  induction limit generalizing s with
  | zero => exact h
  | succ limit ih =>
    have hnext : P (s.advance r options).1 := hadvance s h
    unfold State.run
    split
    · next t heq =>
      rw [heq] at hnext
      exact ih hnext
    · next t heq =>
      rw [heq] at hnext
      exact hnext
    · next t a heq =>
      rw [heq] at hnext
      exact hnext

theorem State.factors_run (s : State α) (limit : ℕ) :
    (s.run r options limit).1.workers.map (·.factor) = s.workers.map (·.factor) :=
  State.run_induction (P := fun t => t.workers.map (·.factor) = s.workers.map (·.factor))
    (fun t ht => t.factors_advance.trans ht) rfl limit

theorem factors_solve (p : Problem α) (fixed : List (Option Bool)) (options : Options α) :
    (solve p fixed options).workers.map (·.factor) = p.factors := by
  refine (State.factors_run _ _).trans ?_
  simp only [State.start, List.map_map]
  exact List.map_id' p.factors

end Relaxation

namespace Search

variable {σ : Type} {p : Problem α} {options : Options α} {monitor : Monitor σ} {s : State α σ}

theorem exists_offer?_eq (s : State α σ) (a? : Option (Integral α)) :
    ∃ incumbent statistics events, s.offer? a? = { s with incumbent, statistics, events } := by
  cases a? with
  | none => exact ⟨_, _, _, rfl⟩
  | some a =>
    simp only [State.offer?, State.offer]
    split_ifs
    · exact ⟨_, _, _, rfl⟩
    · exact ⟨_, _, _, rfl⟩

@[simp] theorem frontier_offer? (s : State α σ) (a? : Option (Integral α)) :
    (s.offer? a?).frontier = s.frontier := by
  obtain ⟨_, _, _, h⟩ := exists_offer?_eq s a?
  rw [h]

@[simp] theorem workers_offer? (s : State α σ) (a? : Option (Integral α)) :
    (s.offer? a?).workers = s.workers := by
  obtain ⟨_, _, _, h⟩ := exists_offer?_eq s a?
  rw [h]

@[simp] theorem stopped_offer? (s : State α σ) (a? : Option (Integral α)) :
    (s.offer? a?).stopped = s.stopped := by
  obtain ⟨_, _, _, h⟩ := exists_offer?_eq s a?
  rw [h]

/-- The incumbent after an offer is the offered assignment or the previous incumbent. -/
theorem incumbent_offer?_eq (s : State α σ) {a? : Option (Integral α)} {b : Integral α}
    (h : (s.offer? a?).incumbent = some b) : a? = some b ∨ s.incumbent = some b := by
  cases a? with
  | none => exact Or.inr h
  | some a =>
    simp only [State.offer?, State.offer] at h
    split_ifs at h
    · exact Or.inl h
    · exact Or.inr h

theorem factors_explore (s : State α σ) (node : Node α) :
    (s.explore monitor p options node).workers.map (·.factor) = p.factors := by
  have hsolve := Relaxation.factors_solve p node.fixed options
  have hworkers : ((s.record monitor (Relaxation.solve p node.fixed options)).offer?
      (Relaxation.solve p node.fixed options).integral).workers.map (·.factor) = p.factors := by
    rw [workers_offer?]
    exact hsolve
  unfold State.explore
  dsimp only
  split_ifs <;> exact hworkers

theorem factors_step (h : s.workers.map (·.factor) = p.factors) :
    (s.step monitor p options).workers.map (·.factor) = p.factors := by
  unfold State.step
  split
  · exact h
  · dsimp only
    split_ifs
    · exact h
    · unfold State.process
      split_ifs
      · exact h
      · exact h
      · rw [workers_offer?]
        exact h
      · exact factors_explore _ _

/-- What holds at the start and is kept by every step holds throughout the search. -/
theorem run_induction {P : State α σ → Prop} (hstep : ∀ s, P s → P (s.step monitor p options))
    {s : State α σ} (h : P s) (limit : ℕ) : P (s.run monitor p options limit) := by
  induction limit generalizing s with
  | zero => exact h
  | succ limit ih =>
    unfold State.run
    split_ifs
    · exact h
    · exact ih (hstep s h)

theorem factors_run (h : s.workers.map (·.factor) = p.factors) (limit : ℕ) :
    (s.run monitor p options limit).workers.map (·.factor) = p.factors :=
  run_induction (P := fun t => t.workers.map (·.factor) = p.factors) (fun _ => factors_step) h limit

end Search

namespace FactorGraph

/-- A solve seals the graph and changes nothing else but active sets and statistics. -/
theorem exists_settle_eq_solve {σ : Type} (g : FactorGraph α) (options : Options α)
    (monitor : Monitor σ) (m : σ) :
    ∃ workers statistics, workers.map (·.factor) = g.sealed.problem.factors ∧
      (g.solve options monitor m).1.graph = g.sealed.settle workers statistics := by
  have hroot : (g.begin options).root.workers.map (·.factor) = g.sealed.problem.factors :=
    Relaxation.factors_solve _ _ _
  unfold solve
  dsimp only
  split_ifs
  · exact ⟨_, _, Search.factors_run hroot _, rfl⟩
  · exact ⟨_, _, hroot, rfl⟩

end FactorGraph
end MapInference
