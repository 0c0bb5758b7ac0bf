import MapInference.Proofs.Graph.Reachable

/-!
# Factors of graphs

The best score of a factor of a graph is the greatest gain of the assignments that the factor has a
value for, and it has one for some assignment. A partial assignment is admitted exactly when it can
be completed to an assignment that the factor has a value for.
-/

namespace MapInference

open Scalar
variable {α : Type}

/-- A factor that a call has declared or a seal has added, in a graph of at most `n` variables. -/
def Factor.Declarable [Scalar α] (n : ℕ) (f : Factor α) : Prop :=
  ∃ g : FactorGraph α, g.Reachable ∧ g.numBinary ≤ n ∧ f ∈ g.sealed.problem.factors

namespace Factor

variable [ExactScalar α] {n : ℕ} {f : Factor α}

theorem Declarable.wellFormed (h : f.Declarable n) : f.WellFormed n := by
  obtain ⟨g, hg, hn, hf⟩ := h
  exact (hg.isConsistent.sealed.wellFormed_problem f hf).mono hn

theorem Declarable.mono {m : ℕ} (h : f.Declarable n) (hnm : n ≤ m) : f.Declarable m := by
  obtain ⟨g, hg, hn, hf⟩ := h
  exact ⟨g, hg, hn.trans hnm, hf⟩

/-- The best score is attained by an assignment that the factor has a value for, and no other such
assignment gains more. -/
theorem isGreatest_best (h : f.Declarable n) {scores : List α}
    (hs : scores.length = f.literals.length) :
    (∃ values v, values.length = f.literals.length ∧ f.evaluate values = some v) ∧
      IsGreatest {s | ∃ values v, values.length = f.literals.length ∧ f.evaluate values = some v ∧
        s = gain scores values + v.1} (f.best scores) := by
  have hbest := isBest h.wellFormed.fits hs
  obtain ⟨values, v, hlen, hv, hgain⟩ := hbest.1
  obtain ⟨u, hu, rfl⟩ := Option.map_eq_some_iff.mp hv
  rw [hs] at hlen
  refine ⟨⟨values, u, hlen, hu⟩, ⟨values, u, hlen, hu, hgain.symm⟩, ?_⟩
  rintro s ⟨values, v, hlen, hv, rfl⟩
  exact gain_add_le_best h.wellFormed.fits hs hlen hv

/-- A partial assignment is admitted if and only if the factor has a value for some assignment of
its variables that agrees. -/
theorem admits_iff_exists (h : f.Declarable n) (fixed : List (Option Bool)) :
    f.admits fixed ↔ ∃ values, values.length = f.literals.length ∧ f.AgreesWith fixed values ∧
      (f.evaluate values).isSome := by
  rw [admits_iff h.wellFormed.fits]
  have hlength {values : List Bool} (hl : values.length = f.literals.length) :
      (Complement.assignment f.marks values).length = f.literals.length := by
    simp [hl]
  constructor
  · rintro ⟨truths, hl, hagree, hsome⟩
    have hinv : Complement.assignment f.marks (Complement.assignment f.marks truths) = truths :=
      Complement.assignment_assignment (by rw [length_marks, hl])
    refine ⟨Complement.assignment f.marks truths, hlength hl, ?_, ?_⟩
    · rwa [← agrees_assignment_iff, hinv]
    · rwa [evaluate, hinv]
  · rintro ⟨values, hl, hagree, hsome⟩
    exact ⟨Complement.assignment f.marks values, hlength hl,
      agrees_assignment_iff.mpr hagree, hsome⟩

end Factor

def exampleFactor : Factor ℚ := ⟨[⟨⟨0⟩, false⟩, ⟨⟨1⟩, true⟩], [], .logic (.ofOperator .xor 2)⟩

theorem declarable_exampleFactor : exampleFactor.Declarable 2 := by
  have hempty : (FactorGraph.empty : FactorGraph ℚ).Reachable := .empty
  have hvariables := (hempty.addBinary (by decide)).addBinary (by decide)
  let spec : FactorSpec ℚ := .logic .xor [⟨⟨0⟩, false⟩, ⟨⟨1⟩, true⟩]
  exact ⟨_, @FactorGraph.Reachable.declare _ _ _ _ spec _ hvariables rfl, le_refl 2,
    List.mem_cons_self⟩

theorem Factor.isGreatest_best_example :
    exampleFactor.best [3, 5] = 8 ∧
      IsGreatest {s | ∃ values v, values.length = 2 ∧ exampleFactor.evaluate values = some v ∧
        s = gain [3, 5] values + v.1} (exampleFactor.best [3, 5]) :=
  ⟨by decide +kernel, (Factor.isGreatest_best declarable_exampleFactor rfl).2⟩

theorem Factor.admits_iff_exists_example :
    exampleFactor.admits [some true, some true] = true ∧
      exampleFactor.admits [some true, some false] = false ∧
      (∃ values, values.length = 2 ∧ exampleFactor.AgreesWith [some true, some true] values ∧
        (exampleFactor.evaluate values).isSome) ∧
      ¬ ∃ values, values.length = 2 ∧ exampleFactor.AgreesWith [some true, some false] values ∧
        (exampleFactor.evaluate values).isSome := by
  have htrue : exampleFactor.admits [some true, some true] = true := by decide +kernel
  have hfalse : exampleFactor.admits [some true, some false] = false := by decide +kernel
  refine ⟨htrue, hfalse, ?_, ?_⟩
  · exact (Factor.admits_iff_exists declarable_exampleFactor _).mp htrue
  · exact (Factor.admits_iff_exists declarable_exampleFactor _).not.mp (by simp [hfalse])

end MapInference
